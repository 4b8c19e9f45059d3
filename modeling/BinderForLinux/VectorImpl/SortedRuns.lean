import BinderForLinux.VectorImpl.Merging

/-!
# Sorted vectors as ascending lists

In every run the items of a sorted vector are ascending and are found by the search. Merging comes
to adding the items one by one, in the runs in which no vector is merged that begins or ends with
the key at the other end.
-/

namespace BinderForLinux

namespace VectorImpl

namespace Sorted

open Library

variable {α κ : Type} [LinearOrder κ] {t : Traits} {dflt : α} {junk : ℕ → ℕ → α} {key : α → κ}
  {w w' : Vectors α} {world : World α} {h : Heap α} {v : Vec} {o : Option (List α)} {i j : ℕ}
  {l xs : List α} {item : α}

def Vectors.init (junk : ℕ → ℕ → α) : Vectors α := ⟨World.init junk, fun _ => false⟩

/-- The items of the sorted vectors are ascending. -/
structure Vectors.Ordered (t : Traits) (key : α → κ) (w : Vectors α) : Prop where
  inv : Inv t w.world
  ascending : ∀ i l, w.sorted i = true → view w.world i = some l → Ascending key l

/-! ### Operations -/

/-- What sorted vectors do not have is not done with them. -/
def Vectors.Allows (w : Vectors α) : VectorImpl.Op α → Prop
  | .assign i rhs => w.sorted i = true → w.sorted rhs = true
  | .insertAt i _ _ _ => w.sorted i = false
  | .insertVectorAt i _ _ => w.sorted i = false
  | .replaceAt i _ _ => w.sorted i = false
  | .assignItem i _ _ => w.sorted i = false
  | _ => True

/-- The vectors are there, and sorted ones where they have to be. -/
def Vectors.Op.Valid (w : Vectors α) : Vectors.Op α → Prop
  | .base op => op.Valid w.world.lists ∧ w.Allows op
  | .construct => True
  | .add i _ => w.sorted i = true ∧ view w.world i ≠ none
  | .merge i vector => w.sorted i = true ∧ view w.world i ≠ none ∧ view w.world vector ≠ none
  | .mergeSorted i vector => w.sorted i = true ∧ w.sorted vector = true ∧
      view w.world i ≠ none ∧ view w.world vector ≠ none
  | .remove i _ => w.sorted i = true ∧ view w.world i ≠ none

def Vectors.ListStep (t : Traits) (dflt : α) (key : α → κ) (L : Lists α) :
    Vectors.Op α → Lists α → Prop
  | .base op, L' => VectorImpl.ListStep t dflt L op L'
  | .construct, L' => L' = L.add []
  | .add i item, L' => ∃ l, L.list i = some l ∧ L' = L.set i (some (putItem key l item))
  | .merge i vector, L' => ∃ l xs, L.list i = some l ∧ L.list vector = some xs ∧
      L' = L.set i (some (putItems key l xs))
  | .mergeSorted i vector, L' => ∃ l xs, L.list i = some l ∧ L.list vector = some xs ∧
      L' = L.set i (some (putItems key l xs))
  | .remove i item, L' => ∃ l, L.list i = some l ∧
      L' = L.set i (some (l.filter fun y => key y ≠ key item))

/-- The ends of vectors that are merged do not meet, and no vector moves items to where they
are. -/
def Vectors.Op.Apart (t : Traits) (key : α → κ) (w : Vectors α) : Vectors.Op α → Prop
  | .base op => ¬ (¬ Stays t ∧ MovesSelf w.world op)
  | .mergeSorted i vector => ∀ v l xs, w.world.vec i = some v → view w.world i = some l →
      view w.world vector = some xs → EndsApart key w.world.heap v l xs
  | _ => True

/-! ### One operation -/

theorem view_of_set (hlists : world.lists = w.world.lists.set i o) (j : ℕ) :
    view world j = if j = i then o else view w.world j := by
  have hlist : view world = Function.update (view w.world) i o := congrArg Lists.list hlists
  rw [hlist, Function.update_apply]

theorem Vectors.Ordered.set (hw : w.Ordered t key) (hinv : Inv t world)
    (hlists : world.lists = w.world.lists.set i o)
    (ho : w.sorted i = true → ∀ l, o = some l → Ascending key l) :
    Vectors.Ordered t key ⟨world, w.sorted⟩ := by
  refine ⟨hinv, fun j l hj hl => ?_⟩
  dsimp only at hl
  rw [view_of_set hlists] at hl
  split at hl
  · rename_i heq
    exact ho (heq ▸ hj) l hl
  · exact hw.ascending j l hj hl

theorem Vectors.Ordered.add (hw : w.Ordered t key) (hinv : Inv t world)
    (hlists : world.lists = w.world.lists.add l) {sorted : Bool}
    (hl : sorted = true → Ascending key l) :
    Vectors.Ordered t key ⟨world, w.mark sorted⟩ := by
  refine ⟨hinv, fun j l' hj hl' => ?_⟩
  have hlist : view world = Function.update (view w.world) w.world.next (some l) :=
    congrArg Lists.list hlists
  dsimp only at hj hl'
  unfold Vectors.mark at hj
  rw [hlist] at hl'
  by_cases heq : j = w.world.next
  · rw [heq, Function.update_self] at hj hl'
    cases hl'
    exact hl hj
  · rw [Function.update_of_ne heq] at hj hl'
    exact hw.ascending j l' hj hl'

theorem Vectors.Ordered.base (hw : w.Ordered t key) (hinv : Inv t world)
    {op : VectorImpl.Op α} (hallows : w.Allows op)
    (hlist : VectorImpl.ListStep t dflt w.world.lists op world.lists) :
    Vectors.Ordered t key ⟨world, w.marks op⟩ := by
  cases op with
  | construct => exact hw.add hinv hlist fun hfalse => by cases hfalse
  | copy rhs =>
      obtain ⟨l, hl, hlists⟩ := hlist
      exact hw.add hinv hlists fun hsorted => hw.ascending rhs l hsorted hl
  | assign i rhs =>
      obtain ⟨l, hl, hlists⟩ := hlist
      refine hw.set hinv hlists fun hsorted l' hl' => ?_
      cases hl'
      exact hw.ascending rhs l (hallows hsorted) hl
  | insertAt i item index numItems =>
      obtain ⟨l, xs, -, -, -, -, hlists⟩ := hlist
      exact hw.set hinv hlists fun hsorted => by cases hallows.symm.trans hsorted
  | insertVectorAt i vector index =>
      obtain ⟨l, xs, -, -, hlists⟩ := hlist
      exact hw.set hinv hlists fun hsorted => by cases hallows.symm.trans hsorted
  | removeItemsAt i index count =>
      obtain ⟨l, hl, hlists⟩ := hlist
      refine hw.set hinv hlists fun hsorted l' hl' => ?_
      cases hl'
      have hsub : (l.take index ++ l.drop (index + count)).Sublist (l.take index ++ l.drop index) :=
        (List.drop_sublist_drop_left l (Nat.le_add_right index count)).append_left _
      rw [List.take_append_drop] at hsub
      exact (hw.ascending i l hsorted hl).sublist hsub
  | replaceAt i prototype index =>
      obtain ⟨l, x, -, -, -, hlists⟩ := hlist
      exact hw.set hinv hlists fun hsorted => by cases hallows.symm.trans hsorted
  | assignItem i index x =>
      obtain ⟨l, -, hlists⟩ := hlist
      exact hw.set hinv hlists fun hsorted => by cases hallows.symm.trans hsorted
  | setCapacity i newCapacity =>
      refine ⟨hinv, fun j l hj hl => hw.ascending j l hj ?_⟩
      exact (congrFun (congrArg Lists.list hlist) j).symm.trans hl
  | clear i =>
      refine hw.set hinv hlist fun _ l' hl' => ?_
      cases hl'
      exact .nil
  | destruct i => exact hw.set hinv hlist fun _ l' hl' => by cases hl'

/-- One operation keeps the sorted vectors ascending and does to the lists what it should. -/
def Vectors.Simulates (t : Traits) (dflt : α) (key : α → κ) (w : Vectors α) (op : Vectors.Op α)
    (r : Except Fault (Vectors α)) : Prop :=
  ∃ w', r = .ok w' ∧ w'.Ordered t key ∧
    Vectors.ListStep t dflt key w.world.lists op w'.world.lists

theorem Vectors.Ordered.of_view (hw : w.Ordered t key) (hi : view w.world i ≠ none) :
    ∃ v l, w.world.vec i = some v ∧ view w.world i = some l ∧ VecHolds t w.world.heap v l := by
  obtain ⟨l, hl⟩ := Option.ne_none_iff_exists'.mp hi
  obtain ⟨v, hv, hholds⟩ := hw.inv.of_view hl
  exact ⟨v, l, hv, hl, hholds⟩

theorem Vectors.Simulates.of_set {op : Vectors.Op α} {r : Except Fault (Vectors α)}
    {h : Heap α} {v : Vec} (hw : w.Ordered t key) (hr : r = .ok (w.put i h v))
    (hinv : Inv t (w.world.put i h (some v)))
    (hlists : (w.world.put i h (some v)).lists = w.world.lists.set i (some l))
    (hsorted : Ascending key l)
    (hstep : Vectors.ListStep t dflt key w.world.lists op (w.world.lists.set i (some l))) :
    Vectors.Simulates t dflt key w op r := by
  refine ⟨_, hr, hw.set hinv hlists fun _ l' hl' => ?_, ?_⟩
  · cases hl'
    exact hsorted
  · change Vectors.ListStep t dflt key w.world.lists op (w.world.put i h (some v)).lists
    rwa [hlists]

theorem Vectors.simulates (junk : ℕ → ℕ → α) (hw : w.Ordered t key) {op : Vectors.Op α}
    (hvalid : op.Valid w) (hapart : op.Apart t key w) :
    Vectors.Simulates t dflt key w op (Vectors.step t dflt junk key w op) := by
  cases op with
  | base op =>
      have hbase : VectorImpl.Simulates t dflt w.world op
          (VectorImpl.step t dflt junk w.world op) :=
        VectorImpl.simulates junk hw.inv hvalid.1 hapart
      obtain ⟨world, hstep, hinv, hlist⟩ := hbase
      dsimp only [Vectors.step]
      rw [hstep]
      exact ⟨_, rfl, hw.base hinv hvalid.2 hlist, hlist⟩
  | construct =>
      obtain ⟨hinv, hlists⟩ := hw.inv.addEmpty
      exact ⟨_, rfl, hw.add hinv hlists fun _ => .nil, hlists⟩
  | add i item =>
      obtain ⟨v, l, hv, hl, hholds⟩ := hw.of_view hvalid.2
      have hsorted := hw.ascending i l hvalid.1 hl
      obtain ⟨r, -, hadd, hbecomes, -⟩ := add_spec junk dflt hholds hsorted item
      obtain ⟨hinv, hlists⟩ := hw.inv.change hv hbecomes
      refine .of_set hw ?_ hinv hlists (hsorted.putItem item) ⟨l, hl, rfl⟩
      dsimp only [Vectors.step]
      rw [except_bind_ok (get_eq hv), hadd]
      rfl
  | merge i vector =>
      obtain ⟨v, l, hv, hl, -⟩ := hw.of_view hvalid.2.1
      obtain ⟨u, xs, hu, hxs, -⟩ := hw.of_view hvalid.2.2
      have hsorted := hw.ascending i l hvalid.1 hl
      obtain ⟨r, hmerge, hmerged⟩ := merge_spec junk dflt hw.inv hv hu hl hsorted hxs
      refine .of_set hw ?_ hmerged.inv hmerged.lists hsorted.putItems ⟨l, xs, hl, hxs, rfl⟩
      dsimp only [Vectors.step]
      rw [except_bind_ok (get_eq hv), except_bind_ok (get_eq hu), hmerge]
      rfl
  | mergeSorted i vector =>
      obtain ⟨hi, hj, hi', hj'⟩ := hvalid
      obtain ⟨v, l, hv, hl, -⟩ := hw.of_view hi'
      obtain ⟨u, xs, hu, hxs, -⟩ := hw.of_view hj'
      have hsorted := hw.ascending i l hi hl
      obtain ⟨r, hmerge, hmerged⟩ := mergeSorted_spec junk dflt hw.inv hv hu hl hsorted
        hxs (hw.ascending vector xs hj hxs) (hapart v l xs hv hl hxs)
      refine .of_set hw ?_ hmerged.inv hmerged.lists hsorted.putItems ⟨l, xs, hl, hxs, rfl⟩
      dsimp only [Vectors.step]
      rw [except_bind_ok (get_eq hv), except_bind_ok (get_eq hu), hmerge]
      rfl
  | remove i item =>
      obtain ⟨v, l, hv, hl, hholds⟩ := hw.of_view hvalid.2
      have hsorted := hw.ascending i l hvalid.1 hl
      obtain ⟨r, hremove, hcases⟩ := remove_spec junk hholds hsorted item
      have hstep : Vectors.step t dflt junk key w (.remove i item) = .ok (w.put i r.1 r.2.1) := by
        dsimp only [Vectors.step]
        rw [except_bind_ok (get_eq hv), hremove]
        rfl
      have hafter : Ascending key (l.filter fun y => key y ≠ key item) := hsorted.filter _
      rcases hcases with ⟨hheap, hvec, hall⟩ | hbecomes
      · rw [hall] at hafter
        rw [hheap, hvec] at hstep
        refine .of_set hw hstep ?_ ?_ hafter ⟨l, hl, by rw [hall]⟩
        · rw [put_same hv]
          exact hw.inv
        · rw [put_same hv, lists_set_self hl]
      · obtain ⟨hinv, hlists⟩ := hw.inv.change hv hbecomes
        exact .of_set hw hstep hinv hlists hafter ⟨l, hl, rfl⟩

/-! ### Runs -/

/-- Runs in which ends of merged vectors do not meet. -/
abbrev Vectors.Run (t : Traits) (dflt : α) (junk : ℕ → ℕ → α) (key : α → κ) : Vectors α → Prop :=
  Reach (Vectors.step t dflt junk key) (fun w op => op.Valid w ∧ op.Apart t key w)
    (Vectors.init junk)

theorem Vectors.ordered_init : (Vectors.init junk).Ordered t key :=
  ⟨Inv.init t junk, fun _ _ hi => by cases hi⟩

theorem Vectors.Run.ordered (hrun : Vectors.Run t dflt junk key w) : w.Ordered t key :=
  hrun.invariant Vectors.ordered_init fun w op w' hw hok hstep => by
    have hsim : Vectors.Simulates t dflt key w op (Vectors.step t dflt junk key w op) :=
      Vectors.simulates junk hw hok.1 hok.2
    obtain ⟨w'', hok', hw', -⟩ := hsim
    cases hstep.symm.trans hok'
    exact hw'

theorem Vectors.Ordered.not_simulates {op : Vectors.Op α} (hw : w.Ordered t key)
    (hvalid : op.Valid w) (hapart : ¬ op.Apart t key w)
    (hstep : Vectors.step t dflt junk key w op = .ok w') :
    ¬ Vectors.ListStep t dflt key w.world.lists op w'.world.lists := by
  cases op with
  | base op =>
      have hmoves := not_not.mp hapart
      dsimp only [Vectors.step] at hstep
      rw [step_movesSelf junk hw.inv hvalid.1 hmoves.1 hmoves.2] at hstep
      cases hstep
  | mergeSorted i vector =>
      obtain ⟨hi, hj, hi', hj'⟩ := hvalid
      obtain ⟨v, l, hv, hl, hholds⟩ := hw.of_view hi'
      obtain ⟨u, xs, hu, hxs, hitems⟩ := hw.of_view hj'
      have hends : ¬ EndsApart key w.world.heap v l xs := fun hends => hapart fun v' l' xs' hv' hl'
          hxs' => by
        cases hv.symm.trans hv'
        cases hl.symm.trans hl'
        cases hxs.symm.trans hxs'
        exact hends
      dsimp only [Vectors.step] at hstep
      rw [except_bind_ok (get_eq hv), except_bind_ok (get_eq hu)] at hstep
      obtain ⟨r, hmerge, rfl⟩ := except_map_eq_ok.mp hstep
      rintro ⟨l', xs', hl', hxs', hlists⟩
      cases hl.symm.trans hl'
      cases hxs.symm.trans hxs'
      have hview := view_of_set hlists i
      rw [if_pos rfl] at hview
      change view (w.world.put i r.1 (some r.2.1)) i = _ at hview
      rw [view, put_self] at hview
      exact not_mergeSorted hholds (hw.ascending i l hi hl) hitems (hw.ascending vector xs hj hxs)
        hends hmerge (Option.some.inj hview)
  | construct => exact absurd trivial hapart
  | add i item => exact absurd trivial hapart
  | merge i vector => exact absurd trivial hapart
  | remove i item => exact absurd trivial hapart

/-- In every run in which the ends of merged vectors do not meet, sorted vectors are ascending and
their items are found, and merging a vector comes to adding its items if and only if the ends do
not meet. -/
theorem merges_by_adding (hrun : Vectors.Run t dflt junk key w) :
    (∀ i l, w.sorted i = true → view w.world i = some l → Ascending key l) ∧
      (∀ i v l item, w.sorted i = true → w.world.vec i = some v → view w.world i = some l →
        indexOf key w.world.heap v item = .ok (l.findIdx? fun y => key y = key item) ∧
          orderOf key w.world.heap v item = .ok (l.countP fun y => key y < key item)) ∧
      ∀ op : Vectors.Op α, op.Valid w →
        ((∃ w', Vectors.step t dflt junk key w op = .ok w' ∧
            Vectors.ListStep t dflt key w.world.lists op w'.world.lists) ↔
          op.Apart t key w) := by
  have hw := hrun.ordered
  refine ⟨hw.ascending, fun i v l item hi hv hl => ?_, fun op hvalid => ⟨?_, fun hapart => ?_⟩⟩
  · have hsearch :=
      indexOrderOf_eq (hw.inv.holds_of_view hv hl) (hw.ascending i l hi hl) item
    unfold indexOf orderOf
    rw [hsearch]
    exact ⟨rfl, rfl⟩
  · rintro ⟨w', hstep, hlist⟩
    by_contra hapart
    exact hw.not_simulates hvalid hapart hstep hlist
  · have hsim : Vectors.Simulates t dflt key w op (Vectors.step t dflt junk key w op) :=
      Vectors.simulates junk hw hvalid hapart
    obtain ⟨w', hstep, -, hlist⟩ := hsim
    exact ⟨w', hstep, hlist⟩

def plain : Traits := ⟨true, true, true, true⟩

abbrev NumberRun (w : Vectors ℕ) : Prop := Vectors.Run plain 0 (fun _ _ => 0) id w

/-- Numbers behind those of the other vector. -/
theorem merges_by_adding_numbers : ∃ w : Vectors ℕ, NumberRun w ∧
    view w.world 0 = some [1, 3, 5] ∧ view w.world 1 = some [5] ∧ Ascending id [1, 3, 5] := by
  have h₁ : NumberRun _ := .tail .refl ⟨trivial, trivial⟩ (a := .construct) rfl
  have h₂ : NumberRun _ := .tail h₁ ⟨trivial, trivial⟩ (a := .construct) rfl
  have h₃ : NumberRun _ :=
    .tail h₂ ⟨⟨rfl, Option.some_ne_none []⟩, trivial⟩ (a := .add 0 3) rfl
  have h₄ : NumberRun _ :=
    .tail h₃ ⟨⟨rfl, Option.some_ne_none [3]⟩, trivial⟩ (a := .add 0 1) rfl
  have h₅ : NumberRun _ :=
    .tail h₄ ⟨⟨rfl, Option.some_ne_none []⟩, trivial⟩ (a := .add 1 5) rfl
  have h₆ : NumberRun _ := .tail h₅ ⟨⟨rfl, rfl, Option.some_ne_none [1, 3],
      Option.some_ne_none [5]⟩, fun v l xs hv hl hxs => by
    cases hv
    cases hl
    cases hxs
    intro first hfirst last hlast
    cases hfirst
    cases hlast
    refine ⟨fun front hfront => ?_, fun back hback => ?_, fun hnil => by cases hnil⟩
    · cases hfront
      decide
    · cases hback
      decide⟩ (a := .mergeSorted 0 1) rfl
  refine ⟨_, h₆, ?_, ?_, (merges_by_adding h₆).1 0 _ rfl rfl⟩
  · rfl
  · rfl

abbrev AnyRun (w : Vectors ℕ) : Prop :=
  Reach (Vectors.step plain 0 (fun _ _ => 0) id) (fun w op => op.Valid w)
    (Vectors.init fun _ _ => 0) w

/-- A vector with the same item is merged: it is there twice. -/
theorem mergeSorted_repeats : ∃ w w' : Vectors ℕ, AnyRun w ∧
    Vectors.Op.Valid w (.mergeSorted 0 1) ∧
    Vectors.step plain 0 (fun _ _ => 0) id w (.mergeSorted 0 1) = .ok w' ∧
    w'.sorted 0 = true ∧ view w'.world 0 = some [5, 5] ∧ ¬ Ascending id [5, 5] := by
  have h₁ : AnyRun _ := .tail (a := .construct) .refl trivial rfl
  have h₂ : AnyRun _ := .tail (a := .construct) h₁ trivial rfl
  have h₃ : AnyRun _ := .tail (a := .add 0 5) h₂ ⟨rfl, Option.some_ne_none []⟩ rfl
  have h₄ : AnyRun _ := .tail (a := .add 1 5) h₃ ⟨rfl, Option.some_ne_none []⟩ rfl
  refine ⟨_, _, h₄, ⟨rfl, rfl, Option.some_ne_none [5], Option.some_ne_none [5]⟩, rfl, ?_, ?_,
    fun h => lt_irrefl 5 ((ascending_cons.mp h).1 5 (List.mem_singleton_self 5))⟩
  · rfl
  · rfl

end Sorted

end VectorImpl

end BinderForLinux
