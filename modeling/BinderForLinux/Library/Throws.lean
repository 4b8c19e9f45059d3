import BinderForLinux.Library.Run
import BinderForLinux.Library.SearchTree

/-!
# The errors of a computation

`Throws S x` says that every error `x` may end with satisfies `S`. The rules follow
the way computations are put together, so that the errors of a function are read off
those of the functions it calls.
-/

namespace BinderForLinux

namespace Library

variable {ε α β : Type*} {S T : ε → Prop}

/-- The errors that a computation may end with. -/
def Throws (S : ε → Prop) (x : Except ε α) : Prop := ∀ e, x = .error e → S e

@[simp] theorem throws_ok (a : α) : Throws S (.ok a : Except ε α) := by
  intro e he
  cases he

@[simp] theorem throws_pure (a : α) : Throws S (pure a : Except ε α) := throws_ok a

@[simp] theorem throws_error (e : ε) : Throws S (.error e : Except ε α) ↔ S e :=
  ⟨fun h => h e rfl, fun h _ he => by cases he; exact h⟩

@[simp] theorem throws_bind {ε α β : Type} {S : ε → Prop} {x : Except ε α} {f : α → Except ε β} :
    Throws S (x >>= f) ↔ Throws S x ∧ ∀ a, x = .ok a → Throws S (f a) := by
  cases x with
  | ok a =>
      simp only [bind, Except.bind, throws_ok, true_and, Except.ok.injEq]
      exact ⟨fun h b hb => hb ▸ h, fun h => h a rfl⟩
  | error e =>
      simp only [bind, Except.bind, throws_error, reduceCtorEq, false_imp_iff, implies_true,
        and_true]

@[simp] theorem throws_map {f : α → β} {x : Except ε α} : Throws S (x.map f) ↔ Throws S x := by
  cases x with
  | ok a => simp [Except.map]
  | error e => simp [Except.map]

@[simp] theorem throws_fmap {ε α β : Type} {S : ε → Prop} {f : α → β} {x : Except ε α} :
    Throws S (f <$> x) ↔ Throws S x := throws_map

@[simp] theorem throws_ite {c : Prop} [Decidable c] {x y : Except ε α} :
    Throws S (if c then x else y) ↔ (c → Throws S x) ∧ (¬ c → Throws S y) := by
  split <;> simp_all

namespace SearchTree

variable {t : SearchTree α}

theorem link_throws {dir : α → Except ε Bool} (h : ∀ a, Throws S (dir a)) (x : α) :
    Throws S (t.link dir x) := by
  induction t with
  | nil => simp [link]
  | node l a r ihl ihr =>
      unfold link
      split
      · rename_i e he
        simpa using h a e he
      · simpa using ihl
      · simpa using ihr

theorem bestFit_throws {cmp : α → Except ε Ordering} (h : ∀ a, Throws S (cmp a))
    (best : Option α) : Throws S (t.bestFit cmp best) := by
  induction t generalizing best with
  | nil => simp [bestFit]
  | node l a r ihl ihr =>
      unfold bestFit
      split
      · rename_i e he
        simpa using h a e he
      · exact ihl _
      · exact ihr _
      · simp

theorem find_throws {cmp : α → Except ε Ordering} (h : ∀ a, Throws S (cmp a)) :
    Throws S (t.find cmp) := by
  induction t with
  | nil => simp [find]
  | node l a r ihl ihr =>
      unfold find
      split
      · rename_i e he
        simpa using h a e he
      · exact ihl
      · exact ihr
      · simp

end SearchTree

end Library

end BinderForLinux
