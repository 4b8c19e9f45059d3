import Mathlib.Data.List.Sort
import BinderForLinux.Library.Run

/-!
# Binary search trees whose keys are recomputed

A search tree here stores elements only: the key of an element is computed
afresh, by a function that may fail, each time a walk meets the element. So the
tree cannot know whether it is ordered; that is a fact about its in-order
sequence `toList` and about the keys at the moment of the walk. Rebalancing
keeps the in-order sequence, so the trees are kept without colours; where two
elements have the same key, the shape still decides which of them a walk meets.
-/

namespace BinderForLinux

namespace Library

/-- A binary tree of elements, read in order. -/
inductive SearchTree (α : Type*)
  | nil
  | node (left : SearchTree α) (val : α) (right : SearchTree α)

namespace SearchTree

variable {α ε κ : Type*}

def toList : SearchTree α → List α
  | nil => []
  | node l a r => l.toList ++ a :: r.toList

/-- Link `x` as a new leaf, going left at `a` when `dir a` says so. -/
def link (dir : α → Except ε Bool) (x : α) : SearchTree α → Except ε (SearchTree α)
  | nil => .ok (node nil x nil)
  | node l a r =>
      match dir a with
      | .error e => .error e
      | .ok true => (link dir x l).map fun l' => node l' a r
      | .ok false => (link dir x r).map fun r' => node l a r'

/-- Hang `r` below the last element of the first tree. -/
def join : SearchTree α → SearchTree α → SearchTree α
  | nil, r => r
  | node l a m, r => node l a (join m r)

def remove [DecidableEq α] (x : α) : SearchTree α → SearchTree α
  | nil => nil
  | node l a r =>
      if a = x then join (remove x l) (remove x r)
      else node (remove x l) a (remove x r)

/-- The walk of a best-fit search: `cmp a` compares the wanted key with the key
of `a`. The last element passed on the way left is remembered; the flag tells
an exact hit. -/
def bestFit (cmp : α → Except ε Ordering) :
    SearchTree α → Option α → Except ε (Option α × Bool)
  | nil, best => .ok (best, false)
  | node l a r, best =>
      match cmp a with
      | .error e => .error e
      | .ok .lt => bestFit cmp l (some a)
      | .ok .gt => bestFit cmp r best
      | .ok .eq => .ok (some a, true)

def find (cmp : α → Except ε Ordering) : SearchTree α → Except ε (Option α)
  | nil => .ok none
  | node l a r =>
      match cmp a with
      | .error e => .error e
      | .ok .lt => find cmp l
      | .ok .gt => find cmp r
      | .ok .eq => .ok (some a)

@[simp] theorem toList_nil : (nil : SearchTree α).toList = [] := rfl

@[simp] theorem toList_node (l r : SearchTree α) (a : α) :
    (node l a r).toList = l.toList ++ a :: r.toList := rfl

@[simp] theorem toList_join (l r : SearchTree α) :
    (join l r).toList = l.toList ++ r.toList := by
  induction l with
  | nil => rfl
  | node l a m _ ih => simp [join, ih]

@[simp] theorem toList_remove [DecidableEq α] (x : α) (t : SearchTree α) :
    (t.remove x).toList = t.toList.filter fun a => !decide (a = x) := by
  induction t with
  | nil => rfl
  | node l a r ihl ihr =>
      by_cases hax : a = x
      · simp [remove, hax, ihl, ihr]
      · simp [remove, hax, ihl, ihr]

/-- Ordered by `key`: an earlier element never has the larger key. -/
def Ordered [LE κ] (key : α → κ) (t : SearchTree α) : Prop :=
  t.toList.Pairwise fun a b => key a ≤ key b

theorem Ordered.congr [LE κ] {t : SearchTree α} {key key' : α → κ} (h : t.Ordered key)
    (hkey : ∀ a ∈ t.toList, key' a = key a) : t.Ordered key' := by
  refine List.Pairwise.imp_of_mem (fun ha hb hab => ?_) h
  rw [hkey _ ha, hkey _ hb]
  exact hab

theorem Ordered.remove [LE κ] [DecidableEq α] {t : SearchTree α} {key : α → κ}
    (h : t.Ordered key) (x : α) : (t.remove x).Ordered key := by
  rw [Ordered, toList_remove]
  exact h.filter _

section Ordered

variable [LinearOrder κ] {key : α → κ}

theorem ordered_node {l r : SearchTree α} {a : α} :
    (node l a r).Ordered key ↔
      l.Ordered key ∧ r.Ordered key ∧ (∀ b ∈ l.toList, key b ≤ key a) ∧
        (∀ b ∈ r.toList, key a ≤ key b) ∧
        ∀ b ∈ l.toList, ∀ c ∈ r.toList, key b ≤ key c := by
  simp only [Ordered, toList_node, List.pairwise_append, List.pairwise_cons,
    List.mem_cons, forall_eq_or_imp]
  constructor
  · rintro ⟨hl, ⟨har, hr⟩, hlr⟩
    exact ⟨hl, hr, fun b hb => (hlr b hb).1, har, fun b hb => (hlr b hb).2⟩
  · rintro ⟨hl, hr, hla, har, hlr⟩
    exact ⟨hl, ⟨har, hr⟩, fun b hb => ⟨hla b hb, hlr b hb⟩⟩

/-- Linking into an ordered tree, with the walk deciding by the keys, succeeds,
adds exactly the new element and keeps the order. -/
theorem link_ordered {d : α → Except ε Bool} {x : α} {t : SearchTree α}
    (hdir : ∀ a ∈ t.toList, d a = .ok (decide (key x < key a)))
    (ht : t.Ordered key) :
    ∃ t', t.link d x = .ok t' ∧ t'.toList.Perm (x :: t.toList) ∧
      t'.Ordered key := by
  induction t with
  | nil => exact ⟨node nil x nil, rfl, by simp, by simp [Ordered]⟩
  | node l a r ihl ihr =>
      obtain ⟨hl, hr, hla, har, hlr⟩ := ordered_node.mp ht
      have hda := hdir a (by simp)
      by_cases hxa : key x < key a
      · obtain ⟨l', hlink, hperm, hord⟩ := ihl (fun b hb => hdir b (by simp [hb])) hl
        refine ⟨node l' a r, ?_, ?_, ?_⟩
        · simp [link, hda, hxa, hlink, Except.map]
        · simpa using hperm.append_right (a :: r.toList)
        · refine ordered_node.mpr ⟨hord, hr, ?_, har, ?_⟩
          · intro b hb
            rcases List.mem_cons.mp (hperm.mem_iff.mp hb) with rfl | hb
            · exact hxa.le
            · exact hla b hb
          · intro b hb c hc
            rcases List.mem_cons.mp (hperm.mem_iff.mp hb) with rfl | hb
            · exact hxa.le.trans (har c hc)
            · exact hlr b hb c hc
      · obtain ⟨r', hlink, hperm, hord⟩ := ihr (fun b hb => hdir b (by simp [hb])) hr
        have hax : key a ≤ key x := not_lt.mp hxa
        refine ⟨node l a r', ?_, ?_, ?_⟩
        · simp [link, hda, hxa, hlink, Except.map]
        · have hmid : (l.toList ++ a :: r'.toList).Perm (l.toList ++ a :: x :: r.toList) :=
            (hperm.cons a).append_left l.toList
          have hswap : (l.toList ++ a :: x :: r.toList).Perm (x :: (l.toList ++ a :: r.toList)) :=
            ((List.Perm.swap x a r.toList).append_left l.toList).trans List.perm_middle
          exact hmid.trans hswap
        · refine ordered_node.mpr ⟨hl, hord, hla, ?_, ?_⟩
          · intro b hb
            rcases List.mem_cons.mp (hperm.mem_iff.mp hb) with rfl | hb
            · exact hax
            · exact har b hb
          · intro b hb c hc
            rcases List.mem_cons.mp (hperm.mem_iff.mp hc) with rfl | hc
            · exact (hla b hb).trans hax
            · exact hlr b hb c hc

theorem link_increasing {d : α → Except ε Bool} {x : α} {t : SearchTree α}
    (hdir : ∀ a ∈ t.toList, d a = .ok (decide (key x < key a)))
    (ht : t.toList.Pairwise fun a b => key a < key b) (hx : ∀ a ∈ t.toList, key a ≠ key x) :
    ∃ t', t.link d x = .ok t' ∧ t'.toList.Perm (x :: t.toList) ∧
      t'.toList.Pairwise fun a b => key a < key b := by
  obtain ⟨t', hlink, hperm, hord⟩ := link_ordered hdir (ht.imp le_of_lt)
  have hne : (x :: t.toList).Pairwise fun a b => key a ≠ key b :=
    List.pairwise_cons.mpr ⟨fun a ha => (hx a ha).symm, ht.imp ne_of_lt⟩
  have hne' := (hperm.pairwise_iff fun h => h.symm).mpr hne
  exact ⟨t', hlink, hperm, (List.Pairwise.and hord hne').imp fun h => lt_of_le_of_ne h.1 h.2⟩

/-- What a best-fit walk over an ordered tree returns: nothing better than the
candidate it started with when no element is large enough, and otherwise a
smallest element among those large enough. -/
theorem bestFit_ordered {cmp : α → Except ε Ordering} {k : κ} {t : SearchTree α}
    (hcmp : ∀ a ∈ t.toList, cmp a = .ok (compare k (key a)))
    (ht : t.Ordered key) (best : Option α) :
    (t.bestFit cmp best = .ok (best, false) ∧ ∀ a ∈ t.toList, key a < k) ∨
      ∃ a exact, t.bestFit cmp best = .ok (some a, exact) ∧ a ∈ t.toList ∧
        k ≤ key a ∧ (exact = true ↔ key a = k) ∧
        ∀ b ∈ t.toList, k ≤ key b → key a ≤ key b := by
  induction t generalizing best with
  | nil => exact .inl ⟨rfl, by simp⟩
  | node l a r ihl ihr =>
      obtain ⟨hl, hr, hla, har, hlr⟩ := ordered_node.mp ht
      have hca := hcmp a (by simp)
      rcases lt_trichotomy k (key a) with hlt | heq | hgt
      · have hc : compare k (key a) = .lt := compare_lt_iff_lt.mpr hlt
        right
        rcases ihl (fun b hb => hcmp b (by simp [hb])) hl (some a) with ⟨hw, hall⟩ | hfound
        · refine ⟨a, false, ?_, by simp, hlt.le, by simp [hlt.ne'], ?_⟩
          · simp [bestFit, hca, hc, hw]
          · intro b hb hkb
            rcases List.mem_append.mp hb with hb | hb
            · exact absurd hkb (not_le.mpr (hall b hb))
            · rcases List.mem_cons.mp hb with rfl | hb
              · exact le_rfl
              · exact har b hb
        · obtain ⟨c, ex, hw, hcl, hkc, hex, hmin⟩ := hfound
          refine ⟨c, ex, ?_, by simp [hcl], hkc, hex, ?_⟩
          · simp [bestFit, hca, hc, hw]
          · intro b hb hkb
            rcases List.mem_append.mp hb with hb | hb
            · exact hmin b hb hkb
            · rcases List.mem_cons.mp hb with rfl | hb
              · exact hla c hcl
              · exact hlr c hcl b hb
      · have hc : compare k (key a) = .eq := compare_eq_iff_eq.mpr heq
        right
        refine ⟨a, true, ?_, by simp, heq.le, by simp [heq], ?_⟩
        · simp [bestFit, hca, hc]
        · intro b _ hkb
          exact heq ▸ hkb
      · have hc : compare k (key a) = .gt := compare_gt_iff_gt.mpr hgt
        have hsmall : ∀ b ∈ l.toList, key b < k := fun b hb => (hla b hb).trans_lt hgt
        rcases ihr (fun b hb => hcmp b (by simp [hb])) hr best with ⟨hw, hall⟩ | hfound
        · left
          refine ⟨by simp [bestFit, hca, hc, hw], ?_⟩
          intro b hb
          rcases List.mem_append.mp hb with hb | hb
          · exact hsmall b hb
          · rcases List.mem_cons.mp hb with rfl | hb
            · exact hgt
            · exact hall b hb
        · right
          obtain ⟨c, ex, hw, hcr, hkc, hex, hmin⟩ := hfound
          refine ⟨c, ex, by simp [bestFit, hca, hc, hw], by simp [hcr], hkc, hex, ?_⟩
          intro b hb hkb
          rcases List.mem_append.mp hb with hb | hb
          · exact absurd hkb (not_le.mpr (hsmall b hb))
          · rcases List.mem_cons.mp hb with rfl | hb
            · exact absurd hkb (not_le.mpr hgt)
            · exact hmin b hb hkb

/-- An exact search in an ordered tree whose elements have distinct keys finds
the element with the key and nothing else. -/
theorem find_ordered {cmp : α → Except ε Ordering} {k : κ} {t : SearchTree α}
    (hcmp : ∀ a ∈ t.toList, cmp a = .ok (compare k (key a)))
    (ht : t.Ordered key) :
    (t.find cmp = .ok none ∧ ∀ a ∈ t.toList, key a ≠ k) ∨
      ∃ a, t.find cmp = .ok (some a) ∧ a ∈ t.toList ∧ key a = k := by
  induction t with
  | nil => exact .inl ⟨rfl, by simp⟩
  | node l a r ihl ihr =>
      obtain ⟨hl, hr, hla, har, _⟩ := ordered_node.mp ht
      have hca := hcmp a (by simp)
      rcases lt_trichotomy k (key a) with hlt | heq | hgt
      · have hc : compare k (key a) = .lt := compare_lt_iff_lt.mpr hlt
        rcases ihl (fun b hb => hcmp b (by simp [hb])) hl with ⟨hw, hall⟩ | ⟨c, hw, hcl, hkc⟩
        · left
          refine ⟨by simp [find, hca, hc, hw], ?_⟩
          intro b hb
          rcases List.mem_append.mp hb with hb | hb
          · exact hall b hb
          · rcases List.mem_cons.mp hb with rfl | hb
            · exact hlt.ne'
            · exact (hlt.trans_le (har b hb)).ne'
        · exact .inr ⟨c, by simp [find, hca, hc, hw], by simp [hcl], hkc⟩
      · have hc : compare k (key a) = .eq := compare_eq_iff_eq.mpr heq
        exact .inr ⟨a, by simp [find, hca, hc], by simp, heq.symm⟩
      · have hc : compare k (key a) = .gt := compare_gt_iff_gt.mpr hgt
        rcases ihr (fun b hb => hcmp b (by simp [hb])) hr with ⟨hw, hall⟩ | ⟨c, hw, hcr, hkc⟩
        · left
          refine ⟨by simp [find, hca, hc, hw], ?_⟩
          intro b hb
          rcases List.mem_append.mp hb with hb | hb
          · exact ((hla b hb).trans_lt hgt).ne
          · rcases List.mem_cons.mp hb with rfl | hb
            · exact hgt.ne
            · exact hall b hb
        · exact .inr ⟨c, by simp [find, hca, hc, hw], by simp [hcr], hkc⟩

end Ordered

end SearchTree

end Library

end BinderForLinux
