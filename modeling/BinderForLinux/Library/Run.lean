import Mathlib.Logic.Basic
import Mathlib.Tactic.Common

/-!
# Runs of a fallible step function

A component is a step function `step : σ → α → Except ε σ`: an action either
leads to the next state or ends the run with a fault. `Reach step ok s₀ s` says
that `s` is reached from `s₀` by successful steps, each taken by an action that
meets `ok` in the state before it. Taking `ok` to be always true gives plain
reachability; a narrower `ok` restricts the runs and nothing else.
-/

namespace BinderForLinux

namespace Library

variable {σ α ε : Type*}

/-- `s` is reached from `s₀` by steps that succeed and meet `ok`. -/
inductive Reach (step : σ → α → Except ε σ) (ok : σ → α → Prop) (s₀ : σ) :
    σ → Prop
  | refl : Reach step ok s₀ s₀
  | tail {s s' : σ} {a : α} (h : Reach step ok s₀ s) (hok : ok s a)
      (hstep : step s a = .ok s') : Reach step ok s₀ s'

namespace Reach

variable {step : σ → α → Except ε σ} {ok ok' : σ → α → Prop} {s₀ s s' : σ}

/-- The invariant rule: what holds at the start and is kept by every admitted
step holds in every state reached. -/
theorem invariant {I : σ → Prop} (h : Reach step ok s₀ s) (hinit : I s₀)
    (hkeep : ∀ s a s', I s → ok s a → step s a = .ok s' → I s') : I s := by
  induction h with
  | refl => exact hinit
  | tail _ hok hstep ih => exact hkeep _ _ _ ih hok hstep

/-- A run whose steps meet a stronger condition is a run for the weaker one. -/
theorem mono (h : Reach step ok s₀ s) (himp : ∀ s a, ok s a → ok' s a) :
    Reach step ok' s₀ s := by
  induction h with
  | refl => exact refl
  | tail _ hok hstep ih => exact tail ih (himp _ _ hok) hstep

theorem trans (h : Reach step ok s₀ s) (h' : Reach step ok s s') :
    Reach step ok s₀ s' := by
  induction h' with
  | refl => exact h
  | tail _ hok hstep ih => exact tail ih hok hstep

end Reach

/-- Executing a list of actions one after the other. -/
def runActions (step : σ → α → Except ε σ) : σ → List α → Except ε σ
  | s, [] => .ok s
  | s, a :: as =>
      match step s a with
      | .ok s' => runActions step s' as
      | .error e => .error e

/-- Executing a list of actions, each checked against a decidable `ok` first;
`none` when a check fails or a step faults. -/
def runChecked (step : σ → α → Except ε σ) (ok : σ → α → Prop)
    [∀ s a, Decidable (ok s a)] : σ → List α → Option σ
  | s, [] => some s
  | s, a :: as =>
      if ok s a then
        match step s a with
        | .ok s' => runChecked step ok s' as
        | .error _ => none
      else none

theorem reach_of_runChecked {step : σ → α → Except ε σ} {ok : σ → α → Prop}
    [∀ s a, Decidable (ok s a)] {s s' : σ} {as : List α}
    (h : runChecked step ok s as = some s') : Reach step ok s s' := by
  induction as generalizing s with
  | nil =>
      simp only [runChecked, Option.some.injEq] at h
      exact h ▸ Reach.refl
  | cons a as ih =>
      simp only [runChecked] at h
      split at h
      · rename_i hok
        split at h
        · rename_i s₁ hstep
          exact Reach.trans (Reach.tail Reach.refl hok hstep) (ih h)
        · cases h
      · cases h

/-- All actions of the list may be known to meet a condition of their own. -/
theorem reach_of_runChecked_of_forall {step : σ → α → Except ε σ} {ok : σ → α → Prop}
    {P : α → Prop} [∀ s a, Decidable (ok s a)] {s s' : σ} {as : List α}
    (h : runChecked step ok s as = some s') (hP : ∀ a ∈ as, P a) :
    Reach step (fun s a => ok s a ∧ P a) s s' := by
  induction as generalizing s with
  | nil =>
      simp only [runChecked, Option.some.injEq] at h
      exact h ▸ Reach.refl
  | cons a as ih =>
      simp only [runChecked] at h
      split at h
      · rename_i hok
        split at h
        · rename_i s₁ hstep
          exact Reach.trans (Reach.tail Reach.refl ⟨hok, hP a List.mem_cons_self⟩ hstep)
            (ih h fun b hb => hP b (List.mem_cons_of_mem _ hb))
        · cases h
      · cases h

theorem reach_of_runActions {step : σ → α → Except ε σ} {s s' : σ} {as : List α}
    (h : runActions step s as = .ok s') : Reach step (fun _ _ => True) s s' := by
  induction as generalizing s with
  | nil =>
      simp only [runActions, Except.ok.injEq] at h
      exact h ▸ Reach.refl
  | cons a as ih =>
      simp only [runActions] at h
      split at h
      · rename_i s₁ hstep
        exact Reach.trans (Reach.tail Reach.refl trivial hstep) (ih h)
      · cases h

/-! ### Taking fallible computations apart -/

@[simp] theorem except_bind_eq_ok {β γ : Type} {x : Except ε β} {f : β → Except ε γ}
    {c : γ} : (x >>= f) = .ok c ↔ ∃ b, x = .ok b ∧ f b = .ok c := by
  cases x with
  | ok b => simp [bind, Except.bind]
  | error e => simp [bind, Except.bind]

@[simp] theorem except_pure_eq_ok {β : Type*} {b c : β} :
    (pure b : Except ε β) = .ok c ↔ b = c := by
  simp [pure, Except.pure]

theorem except_bind_ok {β γ : Type} {x : Except ε β} {b : β} {f : β → Except ε γ}
    (h : x = .ok b) : (x >>= f) = f b := by
  rw [h]
  rfl

theorem except_map_eq_ok {β γ : Type} {x : Except ε β} {f : β → γ} {c : γ} :
    x.map f = .ok c ↔ ∃ b, x = .ok b ∧ f b = c := by
  cases x <;> simp [Except.map]

end Library

end BinderForLinux
