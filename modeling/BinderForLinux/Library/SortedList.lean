import Mathlib.Data.List.Basic
import Mathlib.Order.Lattice
import Mathlib.Tactic.Common

/-!
# Lists in the order of their keys

A list is ascending if the keys of its items increase, so that each key is there once. `putItem`
puts an item into such a list at its place, where it replaces the one with its key, and `putItems`
does this with the items of another list.
-/

namespace BinderForLinux

namespace Library

variable {α κ : Type*} [LinearOrder κ] {key : α → κ} {l l' l₁ l₂ xs : List α} {x y : α} {k : κ}

def Ascending (key : α → κ) (l : List α) : Prop := l.Pairwise fun x y => key x < key y

def putItem (key : α → κ) (l : List α) (x : α) : List α :=
  l.filter (fun y => key y < key x) ++ x :: l.filter fun y => key x < key y

def putItems (key : α → κ) (l xs : List α) : List α := xs.foldl (putItem key) l

theorem ascending_append : Ascending key (l₁ ++ l₂) ↔
    Ascending key l₁ ∧ Ascending key l₂ ∧ ∀ x ∈ l₁, ∀ y ∈ l₂, key x < key y :=
  List.pairwise_append

theorem ascending_cons : Ascending key (x :: l) ↔
    (∀ y ∈ l, key x < key y) ∧ Ascending key l := List.pairwise_cons

theorem Ascending.nil : Ascending key [] := List.Pairwise.nil

theorem Ascending.head_le (h : Ascending key l) (hx : x ∈ l.head?) (hy : y ∈ l) :
    key x ≤ key y := by
  obtain ⟨rest, rfl⟩ := List.head?_eq_some_iff.mp hx
  obtain ⟨hlt, -⟩ := ascending_cons.mp h
  rcases List.mem_cons.mp hy with rfl | hy
  · exact le_rfl
  · exact (hlt y hy).le

theorem Ascending.le_getLast (h : Ascending key l) (hx : x ∈ l.getLast?) (hy : y ∈ l) :
    key y ≤ key x := by
  obtain ⟨rest, rfl⟩ := List.getLast?_eq_some_iff.mp hx
  obtain ⟨-, -, hlt⟩ := ascending_append.mp h
  rcases List.mem_append.mp hy with hy | hy
  · exact (hlt y hy x (List.mem_singleton_self x)).le
  · rw [List.mem_singleton.mp hy]

theorem Ascending.getElem_lt (h : Ascending key l) {i j : ℕ} (hi : i < l.length)
    (hj : j < l.length) (hij : i < j) : key l[i] < key l[j] :=
  List.pairwise_iff_getElem.mp h i j hi hj hij

/-! ### Putting one item -/

theorem mem_putItem : y ∈ putItem key l x ↔ y = x ∨ y ∈ l ∧ key y ≠ key x := by
  unfold putItem
  rw [List.mem_append, List.mem_cons, List.mem_filter, List.mem_filter, decide_eq_true_eq,
    decide_eq_true_eq, ne_iff_lt_or_gt]
  tauto

theorem Ascending.putItem (h : Ascending key l) (x : α) : Ascending key (putItem key l x) := by
  refine ascending_append.mpr ⟨h.filter _, ascending_cons.mpr ⟨fun y hy => ?_, h.filter _⟩,
    fun y hy z hz => ?_⟩
  · exact of_decide_eq_true (List.mem_filter.mp hy).2
  · have hyx : key y < key x := of_decide_eq_true (List.mem_filter.mp hy).2
    rcases List.mem_cons.mp hz with rfl | hz
    · exact hyx
    · exact hyx.trans (of_decide_eq_true (List.mem_filter.mp hz).2)

theorem filter_eq_left {p : α → Bool} (h₁ : ∀ y ∈ l₁, p y = true) (h₂ : ∀ y ∈ l₂, p y = false) :
    (l₁ ++ l₂).filter p = l₁ := by
  have hnone : l₂.filter p = [] :=
    List.filter_eq_nil_iff.mpr fun y hy => by rw [h₂ y hy]; exact Bool.false_ne_true
  rw [List.filter_append, List.filter_eq_self.mpr h₁, hnone, List.append_nil]

theorem filter_eq_right {p : α → Bool} (h₁ : ∀ y ∈ l₁, p y = false) (h₂ : ∀ y ∈ l₂, p y = true) :
    (l₁ ++ l₂).filter p = l₂ := by
  have hnone : l₁.filter p = [] :=
    List.filter_eq_nil_iff.mpr fun y hy => by rw [h₁ y hy]; exact Bool.false_ne_true
  rw [List.filter_append, List.filter_eq_self.mpr h₂, hnone, List.nil_append]

/-- An item with a new key goes between those with smaller and those with larger keys. -/
theorem putItem_between (h₁ : ∀ y ∈ l₁, key y < key x) (h₂ : ∀ y ∈ l₂, key x < key y) :
    putItem key (l₁ ++ l₂) x = l₁ ++ x :: l₂ := by
  unfold putItem
  rw [filter_eq_left (fun y hy => decide_eq_true (h₁ y hy))
      (fun y hy => decide_eq_false (h₂ y hy).not_gt),
    filter_eq_right (fun y hy => decide_eq_false (h₁ y hy).not_gt)
      (fun y hy => decide_eq_true (h₂ y hy))]

theorem putItem_replace (h : Ascending key (l₁ ++ y :: l₂)) (hkey : key y = key x) :
    putItem key (l₁ ++ y :: l₂) x = l₁ ++ x :: l₂ := by
  obtain ⟨-, hback, hfront⟩ := ascending_append.mp h
  obtain ⟨hbehind, -⟩ := ascending_cons.mp hback
  have h₁ (z : α) (hz : z ∈ l₁) : key z < key x := hkey ▸ hfront z hz y List.mem_cons_self
  have h₂ (z : α) (hz : z ∈ l₂) : key x < key z := hkey ▸ hbehind z hz
  rw [← putItem_between h₁ h₂]
  unfold putItem
  rw [List.filter_append, List.filter_append, List.filter_append, List.filter_append,
    List.filter_cons_of_neg (by rw [decide_eq_true_eq, hkey]; exact lt_irrefl _),
    List.filter_cons_of_neg (by rw [decide_eq_true_eq, hkey]; exact lt_irrefl _)]

theorem countP_between (h₁ : ∀ y ∈ l₁, key y < k) (h₂ : ∀ y ∈ l₂, k ≤ key y) :
    (l₁ ++ l₂).countP (fun y => key y < k) = l₁.length := by
  rw [List.countP_append, List.countP_eq_length.mpr fun y hy => decide_eq_true (h₁ y hy),
    List.countP_eq_zero.mpr fun y hy => not_lt.mpr (h₂ y hy) ∘ of_decide_eq_true, Nat.add_zero]

theorem findIdx?_between (h₁ : ∀ y ∈ l₁, key y < k) (h₂ : ∀ y ∈ l₂, k < key y) :
    (l₁ ++ l₂).findIdx? (fun y => key y = k) = none := by
  refine List.findIdx?_eq_none_iff.mpr fun y hy => decide_eq_false ?_
  rcases List.mem_append.mp hy with hy | hy
  · exact (h₁ y hy).ne
  · exact (h₂ y hy).ne'

theorem findIdx?_of_key (h₁ : ∀ y ∈ l₁, key y < k) (hkey : key y = k) :
    (l₁ ++ y :: l₂).findIdx? (fun y => key y = k) = some l₁.length := by
  have hnone : l₁.findIdx? (fun y => key y = k) = none :=
    List.findIdx?_eq_none_iff.mpr fun z hz => decide_eq_false (h₁ z hz).ne
  rw [List.findIdx?_append, hnone, List.findIdx?_cons, if_pos (decide_eq_true hkey)]
  simp

theorem putItem_of_mem (h : Ascending key l) (hx : x ∈ l) : putItem key l x = l := by
  obtain ⟨l₁, l₂, rfl⟩ := List.append_of_mem hx
  exact putItem_replace h rfl

theorem length_putItem_le (key : α → κ) (l : List α) (x : α) :
    (putItem key l x).length ≤ l.length + 1 := by
  have hsplit : l.length = (l.filter fun y => key y < key x).length +
      (l.filter fun y => !decide (key y < key x)).length := by
    rw [← List.length_append]
    exact (List.filter_append_perm _ l).length_eq.symm
  have hmono : (l.filter fun y => key x < key y).length ≤
      (l.filter fun y => !decide (key y < key x)).length := by
    refine (List.monotone_filter_right l fun y hy => ?_).length_le
    rw [Bool.not_eq_true', decide_eq_false_iff_not]
    exact (of_decide_eq_true hy).not_gt
  unfold putItem
  rw [List.length_append, List.length_cons]
  omega

theorem length_putItem_of_key (h : Ascending key l) (hy : y ∈ l) (hkey : key y = key x) :
    (putItem key l x).length = l.length := by
  obtain ⟨l₁, l₂, rfl⟩ := List.append_of_mem hy
  rw [putItem_replace h hkey, List.length_append, List.length_append, List.length_cons,
    List.length_cons]

/-! ### Putting the items of a list -/

@[simp] theorem putItems_nil : putItems key l [] = l := rfl

@[simp] theorem putItems_cons : putItems key l (x :: xs) = putItems key (putItem key l x) xs := rfl

theorem Ascending.putItems (h : Ascending key l) : Ascending key (putItems key l xs) := by
  induction xs generalizing l with
  | nil => exact h
  | cons x xs ih => exact ih (h.putItem x)

theorem exists_key_putItems (key : α → κ) (hy : y ∈ l) (xs : List α) :
    ∃ z ∈ putItems key l xs, key z = key y := by
  induction xs generalizing l y with
  | nil => exact ⟨y, hy, rfl⟩
  | cons x xs ih =>
      by_cases hkey : key y = key x
      · have hx : x ∈ putItem key l x := mem_putItem.mpr (.inl rfl)
        obtain ⟨z, hz, heq⟩ := ih hx
        exact ⟨z, hz, heq.trans hkey.symm⟩
      · exact ih (mem_putItem.mpr (.inr ⟨hy, hkey⟩))

theorem putItems_between (hxs : Ascending key xs) (h₁ : ∀ y ∈ l₁, ∀ x ∈ xs, key y < key x)
    (h₂ : ∀ x ∈ xs, ∀ y ∈ l₂, key x < key y) :
    putItems key (l₁ ++ l₂) xs = l₁ ++ xs ++ l₂ := by
  induction xs generalizing l₁ with
  | nil => rw [putItems_nil, List.append_nil]
  | cons x xs ih =>
      obtain ⟨hx, hxs⟩ := ascending_cons.mp hxs
      have hone : l₁ ++ x :: l₂ = (l₁ ++ [x]) ++ l₂ := by simp
      rw [putItems_cons, putItem_between (fun y hy => h₁ y hy x List.mem_cons_self)
        (h₂ x List.mem_cons_self), hone, ih hxs (fun y hy z hz => ?_) fun z hz =>
          h₂ z (List.mem_cons_of_mem x hz)]
      · simp
      · rcases List.mem_append.mp hy with hy | hy
        · exact h₁ y hy z (List.mem_cons_of_mem x hz)
        · rw [List.mem_singleton.mp hy]
          exact hx z hz

theorem putItems_of_mem (h : Ascending key l) (hxs : ∀ x ∈ xs, x ∈ l) : putItems key l xs = l := by
  induction xs with
  | nil => rfl
  | cons x xs ih =>
      rw [putItems_cons, putItem_of_mem h (hxs x List.mem_cons_self)]
      exact ih fun y hy => hxs y (List.mem_cons_of_mem x hy)

theorem length_putItems_le (key : α → κ) (l xs : List α) :
    (putItems key l xs).length ≤ l.length + xs.length := by
  induction xs generalizing l with
  | nil => exact Nat.le_refl _
  | cons x xs ih =>
      have hone := length_putItem_le key l x
      have hrest := ih (putItem key l x)
      rw [putItems_cons, List.length_cons]
      omega

theorem length_putItems_lt (h : Ascending key l) (hx : x ∈ xs) (hy : y ∈ l)
    (hkey : key y = key x) : (putItems key l xs).length < l.length + xs.length := by
  obtain ⟨pre, post, rfl⟩ := List.append_of_mem hx
  have hfold : putItems key l (pre ++ x :: post) =
      putItems key (putItem key (putItems key l pre) x) post := List.foldl_append
  obtain ⟨z, hz, hzy⟩ := exists_key_putItems key hy pre
  have hone := length_putItem_of_key h.putItems hz (hzy.trans hkey)
  have hpre := length_putItems_le key l pre
  have hpost := length_putItems_le key (putItem key (putItems key l pre) x) post
  rw [hfold, List.length_append, List.length_cons]
  omega

end Library

end BinderForLinux
