import BinderForLinux.Library.Run
import Mathlib.Data.List.Induction

/-!
# Runs by their list of actions

What holds after a run may depend on all that was done in it. The rule of this file is
the invariant rule with the actions so far, the last one at the end of the list.
-/

namespace BinderForLinux

namespace Library

variable {σ α ε : Type*} {step : σ → α → Except ε σ} {s₀ s s' : σ} {a : α} {as bs : List α}

theorem runActions_bind (step : σ → α → Except ε σ) (s₀ : σ) (as bs : List α) :
    runActions step s₀ (as ++ bs) = (runActions step s₀ as).bind fun s => runActions step s bs := by
  induction as generalizing s₀ with
  | nil => rfl
  | cons a as ih =>
      simp only [List.cons_append, runActions]
      cases step s₀ a with
      | error e => rfl
      | ok s₁ => exact ih s₁

theorem runActions_append :
    runActions step s₀ (as ++ bs) = .ok s' ↔
      ∃ s, runActions step s₀ as = .ok s ∧ runActions step s bs = .ok s' := by
  rw [runActions_bind]
  cases runActions step s₀ as <;> simp [Except.bind]

theorem runActions_concat :
    runActions step s₀ (as ++ [a]) = .ok s' ↔
      ∃ s, runActions step s₀ as = .ok s ∧ step s a = .ok s' := by
  rw [runActions_append]
  refine exists_congr fun s => and_congr_right fun _ => ?_
  simp only [runActions]
  cases step s a <;> simp

/-- The invariant rule for what depends on the actions so far. -/
theorem runActions_invariant {I : List α → σ → Prop} (h : runActions step s₀ as = .ok s)
    (hinit : I [] s₀)
    (hkeep : ∀ pre a s s', pre ++ [a] <+: as → runActions step s₀ pre = .ok s → I pre s →
      step s a = .ok s' → I (pre ++ [a]) s') : I as s := by
  suffices hall : ∀ pre s, pre <+: as → runActions step s₀ pre = .ok s → I pre s from
    hall as s (List.prefix_refl as) h
  intro pre
  induction pre using List.reverseRecOn with
  | nil =>
      intro s _ hs
      obtain rfl : s₀ = s := by simpa [runActions] using hs
      exact hinit
  | append_singleton pre a ih =>
      intro s hpre hs
      obtain ⟨s₁, hs₁, hstep⟩ := runActions_concat.mp hs
      exact hkeep pre a s₁ s hpre hs₁ (ih s₁ ((List.prefix_append pre [a]).trans hpre) hs₁) hstep

/-! ### Since -/

/-- Since an action that met `P`, after the actions before it, none has met `Q`. -/
def Since (P : List α → α → Prop) (Q : α → Prop) (as : List α) : Prop :=
  ∃ pre a post, as = pre ++ a :: post ∧ P pre a ∧ ∀ b ∈ post, ¬ Q b

variable {P : List α → α → Prop} {Q : α → Prop}

theorem not_since_nil : ¬ Since P Q [] := by
  rintro ⟨pre, a, post, heq, -⟩
  simp at heq

theorem since_concat : Since P Q (as ++ [a]) ↔ P as a ∨ Since P Q as ∧ ¬ Q a := by
  constructor
  · rintro ⟨pre, b, post, heq, hb, hpost⟩
    cases post using List.reverseRecOn with
    | nil =>
        obtain ⟨rfl, h⟩ := List.append_inj' heq rfl
        obtain rfl : a = b := by simpa using h
        exact .inl hb
    | append_singleton post c =>
        have heq : as ++ [a] = (pre ++ b :: post) ++ [c] := by simpa using heq
        obtain ⟨rfl, h⟩ := List.append_inj' heq rfl
        obtain rfl : a = c := by simpa using h
        exact .inr ⟨⟨pre, b, post, rfl, hb, fun x hx => hpost x (by simp [hx])⟩,
          hpost a (by simp)⟩
  · rintro (h | ⟨⟨pre, b, post, rfl, hb, hpost⟩, hq⟩)
    · exact ⟨as, a, [], rfl, h, by simp⟩
    · refine ⟨pre, b, post ++ [a], by simp, hb, fun x hx => ?_⟩
      rcases List.mem_append.mp hx with hx | hx
      · exact hpost x hx
      · exact (List.mem_singleton.mp hx) ▸ hq

/-! ### Throughout -/

/-- Each entry of the list was right after those before it. -/
def Throughout (P : List α → α → Prop) (as : List α) : Prop :=
  ∀ pre a post, as = pre ++ a :: post → P pre a

theorem throughout_nil : Throughout P [] := by
  intro pre a post heq
  simp at heq

theorem throughout_concat : Throughout P (as ++ [a]) ↔ Throughout P as ∧ P as a := by
  constructor
  · intro h
    exact ⟨fun pre b post heq => h pre b (post ++ [a]) (by simp [heq]), h as a [] rfl⟩
  · rintro ⟨h, ha⟩ pre b post heq
    cases post using List.reverseRecOn with
    | nil =>
        obtain ⟨rfl, hb⟩ := List.append_inj' heq rfl
        obtain rfl : a = b := by simpa using hb
        exact ha
    | append_singleton post c =>
        have heq : as ++ [a] = (pre ++ b :: post) ++ [c] := by simpa using heq
        exact h pre b post (List.append_inj' heq rfl).1

end Library

end BinderForLinux
