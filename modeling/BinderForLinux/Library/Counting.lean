import Mathlib.Data.Int.Notation
import Mathlib.Data.List.Nodup
import Mathlib.Data.List.Perm.Basic
import Mathlib.Tactic.Common

/-!
# Counting after a change

How many elements of a list have a property, when the property changes for one of them, or one of
them is replaced or taken out.
-/

namespace BinderForLinux

namespace Library

variable {α : Type*} {l : List α} {f g : α → Bool} {r : α}

theorem countP_change (hnd : l.Nodup) (hr : r ∈ l) (h : ∀ x ∈ l, x ≠ r → g x = f x) :
    (l.countP g : ℤ) = l.countP f - (if f r then 1 else 0) + (if g r then 1 else 0) := by
  induction l with
  | nil => cases hr
  | cons a l ih =>
      obtain ⟨hal, hl⟩ := List.nodup_cons.mp hnd
      rcases List.mem_cons.mp hr with rfl | hr
      · have hcongr : l.countP g = l.countP f := List.countP_congr fun x hx => by
          rw [h x (by simp [hx]) (fun hxr => hal (hxr ▸ hx))]
        rw [List.countP_cons, List.countP_cons, hcongr]
        split <;> split <;> omega
      · have hne : a ≠ r := fun hra => hal (hra ▸ hr)
        have := ih hl hr fun x hx => h x (by simp [hx])
        rw [List.countP_cons, List.countP_cons, h a (by simp) hne]
        push_cast
        omega

theorem countP_filter_ne [DecidableEq α] (hnd : l.Nodup) (hr : r ∈ l) :
    ((l.filter (· ≠ r)).countP f : ℤ) = l.countP f - (if f r then 1 else 0) := by
  rw [List.countP_filter, countP_change (f := f) hnd hr fun x _ hx => by simp [hx]]
  simp

theorem countP_eraseIdx {i : ℕ} (hi : l[i]? = some r) :
    ((l.eraseIdx i).countP f : ℤ) = l.countP f - if f r then 1 else 0 := by
  obtain ⟨hlt, hget⟩ := List.getElem?_eq_some_iff.mp hi
  have hperm := (List.getElem_cons_eraseIdx_perm hlt).countP_eq f
  rw [hget, List.countP_cons] at hperm
  rw [← hperm]
  split <;> omega

theorem countP_set {i : ℕ} {q : α} (hi : l[i]? = some r) :
    ((l.set i q).countP f : ℤ) = l.countP f - (if f r then 1 else 0) + if f q then 1 else 0 := by
  have hperm := (List.set_perm_cons_eraseIdx (List.getElem?_eq_some_iff.mp hi).1 q).countP_eq f
  rw [List.countP_cons] at hperm
  rw [hperm, ← countP_eraseIdx hi]
  split <;> omega

end Library

end BinderForLinux
