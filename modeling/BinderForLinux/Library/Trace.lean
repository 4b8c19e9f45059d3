import Mathlib.Logic.Basic
import Mathlib.Tactic.Common

/-!
# Traces of a labelled relation

`Trace R s es s'` says that `R` leads from `s` to `s'` by steps that bear the
labels `es`. A component whose code is long is first taken apart into such
steps; an invariant is then a matter of the single steps, and what the code does
on the whole is a matter of the list of labels.
-/

namespace BinderForLinux

namespace Library

variable {σ ε γ : Type*}

inductive Trace (R : σ → ε → σ → Prop) : σ → List ε → σ → Prop
  | nil (s : σ) : Trace R s [] s
  | cons {s s₁ s' : σ} {e : ε} {es : List ε} (h : R s e s₁) (ht : Trace R s₁ es s') :
      Trace R s (e :: es) s'

namespace Trace

variable {R : σ → ε → σ → Prop} {s s' s'' : σ} {e : ε} {es es' : List ε}

theorem single (h : R s e s') : Trace R s [e] s' := cons h (nil s')

theorem append (h : Trace R s es s') (h' : Trace R s' es' s'') : Trace R s (es ++ es') s'' := by
  induction h with
  | nil => exact h'
  | cons hstep _ ih => exact cons hstep (ih h')

/-- The invariant rule: what every step keeps, the trace keeps. -/
theorem invariant {P : σ → Prop} (h : Trace R s es s') (hs : P s)
    (hkeep : ∀ s e s', e ∈ es → P s → R s e s' → P s') : P s' := by
  induction h with
  | nil => exact hs
  | cons hstep _ ih =>
      exact ih (hkeep _ _ _ List.mem_cons_self hs hstep)
        fun s e s' he => hkeep s e s' (List.mem_cons_of_mem _ he)

/-- The invariant rule with a quantity that the labels change. -/
theorem fold {P : γ → σ → Prop} {after : γ → ε → γ} {g : γ} (h : Trace R s es s') (hs : P g s)
    (hkeep : ∀ g s e s', e ∈ es → P g s → R s e s' → P (after g e) s') :
    P (es.foldl after g) s' := by
  induction h generalizing g with
  | nil => exact hs
  | cons hstep _ ih =>
      exact ih (hkeep _ _ _ _ List.mem_cons_self hs hstep)
        fun g s e s' he => hkeep g s e s' (List.mem_cons_of_mem _ he)

/-- A relation that composes and holds of every step holds across the trace. -/
theorem relates {Q : σ → σ → Prop} (h : Trace R s es s') (hrefl : ∀ s, Q s s)
    (htrans : ∀ s s' s'', Q s s' → Q s' s'' → Q s s'')
    (hstep : ∀ s e s', e ∈ es → R s e s' → Q s s') : Q s s' := by
  induction h with
  | nil => exact hrefl _
  | cons hs _ ih =>
      exact htrans _ _ _ (hstep _ _ _ List.mem_cons_self hs)
        (ih fun s e s' he => hstep s e s' (List.mem_cons_of_mem _ he))

end Trace

end Library

end BinderForLinux
