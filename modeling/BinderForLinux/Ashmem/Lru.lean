import BinderForLinux.Ashmem.Device
import Mathlib.Algebra.BigOperators.Group.List.Basic
import Mathlib.Data.List.Nodup

/-!
# The list of ranges that may be purged

Whatever their pages are, the ranges of the open areas and the list that the shrinker reads stay
together: a range is in the list of its own area and of no other, those that were not purged are
in `ashmem_lru_list` once, and `lru_count` follows their sizes. Each of the small functions that
the device is made of keeps this.
-/

namespace BinderForLinux

namespace Ashmem

variable {s s' : State} {a b r q m n : ℕ}

@[simp] theorem wadd_def (m n : ℕ) : wadd m n = (m + n) % 2 ^ 64 := rfl

theorem wsub_of_le (hle : n ≤ m) (hm : m < 2 ^ 64) : wsub m n = m - n := by
  unfold wsub wordSize
  omega

/-! ### The fields after a small change -/

@[simp] theorem setRange_range (x : Range) :
    (s.setRange r x).range = Function.update s.range r x := rfl

@[simp] theorem setArea_area (x : Area) :
    (s.setArea a x).area = Function.update s.area a x := rfl

@[simp] theorem setArea_range (x : Area) : (s.setArea a x).range = s.range := rfl

@[simp] theorem rangeDel_range : (rangeDel s r).range = s.range := by
  unfold rangeDel lruDel
  dsimp only
  split <;> rfl

@[simp] theorem rangeDel_opened : (rangeDel s r).opened = s.opened := by
  unfold rangeDel lruDel
  dsimp only
  split <;> rfl

@[simp] theorem rangeDel_nextRange : (rangeDel s r).nextRange = s.nextRange := by
  unfold rangeDel lruDel
  dsimp only
  split <;> rfl

@[simp] theorem rangeDel_nextArea : (rangeDel s r).nextArea = s.nextArea := by
  unfold rangeDel lruDel
  dsimp only
  split <;> rfl

theorem rangeDel_area : (rangeDel s r).area = Function.update s.area (s.range r).asma
    { s.area (s.range r).asma with
      unpinnedList := (s.area (s.range r).asma).unpinnedList.erase r } := by
  unfold rangeDel lruDel
  dsimp only
  split <;> rfl

theorem rangeDel_lru : (rangeDel s r).ashmemLruList =
    if (s.range r).onLru then s.ashmemLruList.erase r else s.ashmemLruList := by
  unfold rangeDel lruDel
  cases h : (s.range r).onLru <;> simp [State.setUnpinned, State.setArea, h]

theorem rangeDel_count : (rangeDel s r).lruCount =
    if (s.range r).onLru then wsub s.lruCount (s.range r).rangeSize else s.lruCount := by
  unfold rangeDel lruDel
  cases h : (s.range r).onLru <;> simp [State.setUnpinned, State.setArea, h]

section Shrink

variable {start last : ℕ}

@[simp] theorem rangeShrink_range : (rangeShrink s r start last).range =
    Function.update s.range r { s.range r with pgstart := start, pgend := last } := by
  unfold rangeShrink
  dsimp only
  split <;> rfl

@[simp] theorem rangeShrink_area : (rangeShrink s r start last).area = s.area := by
  unfold rangeShrink
  dsimp only
  split <;> rfl

@[simp] theorem rangeShrink_opened : (rangeShrink s r start last).opened = s.opened := by
  unfold rangeShrink
  dsimp only
  split <;> rfl

@[simp] theorem rangeShrink_nextRange : (rangeShrink s r start last).nextRange = s.nextRange := by
  unfold rangeShrink
  dsimp only
  split <;> rfl

@[simp] theorem rangeShrink_nextArea : (rangeShrink s r start last).nextArea = s.nextArea := by
  unfold rangeShrink
  dsimp only
  split <;> rfl

@[simp] theorem rangeShrink_lru :
    (rangeShrink s r start last).ashmemLruList = s.ashmemLruList := by
  unfold rangeShrink
  dsimp only
  split <;> rfl

theorem rangeShrink_count : (rangeShrink s r start last).lruCount =
    if (s.range r).onLru then
      wsub s.lruCount (wsub (s.range r).rangeSize
        ({ s.range r with pgstart := start, pgend := last } : Range).rangeSize)
    else s.lruCount := by
  unfold rangeShrink
  cases h : (s.range r).purged <;> simp [State.setRange, Range.onLru, h]

end Shrink

/-- What `range_alloc` does when there is memory. -/
structure Allocated (s : State) (a : ℕ) (prev : Option ℕ) (x : Range) (s' : State) : Prop where
  range : s'.range = Function.update s.range s.nextRange x
  area : s'.area = Function.update s.area a
    { s.area a with unpinnedList := listAddTail s.nextRange prev (s.area a).unpinnedList }
  opened : s'.opened = s.opened
  nextRange : s'.nextRange = s.nextRange + 1
  nextArea : s'.nextArea = s.nextArea
  lru : s'.ashmemLruList =
    if x.onLru then s.ashmemLruList ++ [s.nextRange] else s.ashmemLruList
  count : s'.lruCount = if x.onLru then wadd s.lruCount x.rangeSize else s.lruCount

theorem rangeAlloc_eq_some {prev : Option ℕ} {purged zalloc : Bool} {start last : ℕ}
    (h : rangeAlloc s a prev purged start last zalloc = some s') :
    zalloc = true ∧ Allocated s a prev ⟨a, start, last, purged⟩ s' := by
  unfold rangeAlloc at h
  cases zalloc with
  | false => simp at h
  | true =>
      simp only [if_true, State.setUnpinned, State.setArea, State.setRange, lruAdd,
        Function.update_self, Option.some.injEq] at h
      refine ⟨rfl, ?_⟩
      split at h
      all_goals
        rename_i hlru
        subst h
        constructor
        all_goals simp [hlru]

theorem rangeAlloc_eq_none {prev : Option ℕ} {purged zalloc : Bool} {start last : ℕ} :
    rangeAlloc s a prev purged start last zalloc = none ↔ zalloc = false := by
  unfold rangeAlloc
  cases zalloc <;> simp

theorem mem_listAddTail {prev : Option ℕ} {l : List ℕ} :
    q ∈ listAddTail r prev l ↔ q = r ∨ q ∈ l := by
  induction l with
  | nil => simp [listAddTail]
  | cons x l ih =>
      unfold listAddTail
      split
      · simp
      · simp only [List.mem_cons, ih]
        tauto

theorem nodup_listAddTail {prev : Option ℕ} {l : List ℕ} (hl : l.Nodup) (hr : r ∉ l) :
    (listAddTail r prev l).Nodup := by
  induction l with
  | nil => simp [listAddTail]
  | cons x l ih =>
      unfold listAddTail
      obtain ⟨hx, hl⟩ := List.nodup_cons.mp hl
      split
      · exact List.nodup_cons.mpr ⟨hr, List.nodup_cons.mpr ⟨hx, hl⟩⟩
      · refine List.nodup_cons.mpr ⟨fun hmem => ?_, ih hl fun h => hr (List.mem_cons_of_mem x h)⟩
        rcases mem_listAddTail.mp hmem with rfl | hmem
        · exact hr List.mem_cons_self
        · exact hx hmem

/-! ### The invariant -/

def lruSum (s : State) : ℕ := (s.ashmemLruList.map fun r => (s.range r).rangeSize).sum

structure Booked (s : State) : Prop where
  opened : s.opened.Nodup
  known : ∀ a ∈ s.opened, a < s.nextArea
  asma : ∀ a ∈ s.opened, ∀ r ∈ (s.area a).unpinnedList, (s.range r).asma = a ∧ r < s.nextRange
  nodup : ∀ a ∈ s.opened, (s.area a).unpinnedList.Nodup
  lruNodup : s.ashmemLruList.Nodup
  mem_lru : ∀ r, r ∈ s.ashmemLruList ↔
    ∃ a ∈ s.opened, r ∈ (s.area a).unpinnedList ∧ (s.range r).onLru = true
  count : s.lruCount = lruSum s % 2 ^ 64

theorem booked_init : Booked State.init := by
  constructor <;> simp [State.init, lruSum]

namespace Booked

theorem not_mem_of_ne (h : Booked s) (ha : a ∈ s.opened) (hr : r ∈ (s.area a).unpinnedList)
    (hb : b ∈ s.opened) (hne : b ≠ a) : r ∉ (s.area b).unpinnedList :=
  fun hmem => hne ((h.asma b hb r hmem).1.symm.trans (h.asma a ha r hr).1)

theorem fresh_not_mem (h : Booked s) (ha : a ∈ s.opened) :
    s.nextRange ∉ (s.area a).unpinnedList :=
  fun hmem => absurd (h.asma a ha _ hmem).2 (Nat.lt_irrefl _)

theorem fresh_not_mem_lru (h : Booked s) : s.nextRange ∉ s.ashmemLruList := by
  intro hmem
  obtain ⟨a, ha, hr, -⟩ := (h.mem_lru _).mp hmem
  exact h.fresh_not_mem ha hr

theorem mem_lru_iff (h : Booked s) (ha : a ∈ s.opened) (hr : r ∈ (s.area a).unpinnedList) :
    r ∈ s.ashmemLruList ↔ (s.range r).onLru = true := by
  rw [h.mem_lru]
  exact ⟨fun ⟨_, _, _, honlru⟩ => honlru, fun honlru => ⟨a, ha, hr, honlru⟩⟩

theorem lruSum_split (hmem : r ∈ s.ashmemLruList) :
    lruSum s = (s.range r).rangeSize +
      ((s.ashmemLruList.erase r).map fun q => (s.range q).rangeSize).sum :=
  (List.sum_map_erase (fun q => (s.range q).rangeSize) hmem).symm

theorem sum_update {l : List ℕ} {x : Range} (hr : r ∉ l) :
    (l.map fun q => (Function.update s.range r x q).rangeSize).sum =
      (l.map fun q => (s.range q).rangeSize).sum := by
  refine congrArg List.sum (List.map_congr_left fun q hq => ?_)
  have hne : q ≠ r := fun heq => hr (heq ▸ hq)
  rw [Function.update_of_ne hne]

theorem rangeDel (h : Booked s) (ha : a ∈ s.opened) (hr : r ∈ (s.area a).unpinnedList) :
    Booked (rangeDel s r) := by
  have hasma : (s.range r).asma = a := (h.asma a ha r hr).1
  have harea : (Ashmem.rangeDel s r).area = Function.update s.area a
      { s.area a with unpinnedList := (s.area a).unpinnedList.erase r } := by
    rw [rangeDel_area, hasma]
  have hlru : (Ashmem.rangeDel s r).ashmemLruList = s.ashmemLruList.erase r := by
    rw [rangeDel_lru]
    split
    · rfl
    · rename_i hoff
      exact (List.erase_of_not_mem fun hmem => hoff ((h.mem_lru_iff ha hr).mp hmem)).symm
  have hlist (b q : ℕ) (hb : b ∈ s.opened) :
      q ∈ ((Ashmem.rangeDel s r).area b).unpinnedList ↔
        q ∈ (s.area b).unpinnedList ∧ q ≠ r := by
    rw [harea]
    by_cases hba : b = a
    · subst hba
      rw [Function.update_self, (h.nodup b hb).mem_erase_iff, and_comm]
    · rw [Function.update_of_ne hba]
      exact ⟨fun hq => ⟨hq, fun heq => h.not_mem_of_ne ha hr hb hba (heq ▸ hq)⟩, And.left⟩
  refine ⟨?_, ?_, ?_, ?_, ?_, ?_, ?_⟩
  · simpa using h.opened
  · simpa using h.known
  · intro b hb q hq
    rw [rangeDel_opened] at hb
    rw [rangeDel_range, rangeDel_nextRange]
    exact h.asma b hb q ((hlist b q hb).mp hq).1
  · intro b hb
    rw [rangeDel_opened] at hb
    rw [harea]
    by_cases hba : b = a
    · rw [hba, Function.update_self]
      exact (h.nodup a ha).erase r
    · rw [Function.update_of_ne hba]
      exact h.nodup b hb
  · rw [hlru]
    exact h.lruNodup.erase r
  · intro q
    rw [hlru, h.lruNodup.mem_erase_iff, h.mem_lru, rangeDel_opened, rangeDel_range]
    constructor
    · rintro ⟨hne, b, hb, hq, honlru⟩
      exact ⟨b, hb, (hlist b q hb).mpr ⟨hq, hne⟩, honlru⟩
    · rintro ⟨b, hb, hq, honlru⟩
      exact ⟨((hlist b q hb).mp hq).2, b, hb, ((hlist b q hb).mp hq).1, honlru⟩
  · rw [rangeDel_count, lruSum, hlru, rangeDel_range, h.count]
    split
    · rename_i hon
      rw [lruSum_split ((h.mem_lru_iff ha hr).mpr hon)]
      unfold wsub wordSize
      omega
    · rename_i hoff
      rw [List.erase_of_not_mem fun hmem => hoff ((h.mem_lru_iff ha hr).mp hmem)]
      rfl

theorem rangeShrink {start last : ℕ} (h : Booked s) (ha : a ∈ s.opened)
    (hr : r ∈ (s.area a).unpinnedList) : Booked (rangeShrink s r start last) := by
  have hsame (q : ℕ) : ((Ashmem.rangeShrink s r start last).range q).asma = (s.range q).asma ∧
      ((Ashmem.rangeShrink s r start last).range q).onLru = (s.range q).onLru := by
    rw [rangeShrink_range]
    by_cases hq : q = r
    · rw [hq, Function.update_self]
      exact ⟨rfl, rfl⟩
    · rw [Function.update_of_ne hq]
      exact ⟨rfl, rfl⟩
  refine ⟨?_, ?_, ?_, ?_, ?_, ?_, ?_⟩
  · simpa using h.opened
  · simpa using h.known
  · intro b hb q hq
    rw [rangeShrink_opened] at hb
    rw [rangeShrink_area] at hq
    rw [(hsame q).1, rangeShrink_nextRange]
    exact h.asma b hb q hq
  · intro b hb
    rw [rangeShrink_opened] at hb
    rw [rangeShrink_area]
    exact h.nodup b hb
  · simpa using h.lruNodup
  · intro q
    rw [rangeShrink_lru, rangeShrink_opened, rangeShrink_area, (hsame q).2]
    exact h.mem_lru q
  · rw [rangeShrink_count, lruSum, rangeShrink_lru, rangeShrink_range, h.count]
    split
    · rename_i hon
      have hmem := (h.mem_lru_iff ha hr).mpr hon
      have hnot : r ∉ s.ashmemLruList.erase r := h.lruNodup.not_mem_erase
      rw [lruSum_split hmem, ← List.sum_map_erase _ hmem, sum_update hnot, Function.update_self]
      have hpre : (s.range r).rangeSize < 2 ^ 64 := Nat.mod_lt _ (by decide)
      unfold wsub wordSize
      omega
    · rename_i hoff
      rw [sum_update fun hmem => hoff ((h.mem_lru_iff ha hr).mp hmem)]
      rfl

theorem rangeAlloc {prev : Option ℕ} {x : Range} (h : Booked s) (ha : a ∈ s.opened)
    (hx : x.asma = a) (hs : Allocated s a prev x s') : Booked s' := by
  have hlist (b q : ℕ) (hb : b ∈ s.opened) : q ∈ (s'.area b).unpinnedList ↔
      q ∈ (s.area b).unpinnedList ∨ b = a ∧ q = s.nextRange := by
    rw [hs.area]
    by_cases hba : b = a
    · subst hba
      rw [Function.update_self, mem_listAddTail]
      tauto
    · rw [Function.update_of_ne hba]
      tauto
  have hold (b q : ℕ) (hb : b ∈ s.opened) (hq : q ∈ (s.area b).unpinnedList) :
      s'.range q = s.range q := by
    have hne : q ≠ s.nextRange := fun heq => h.fresh_not_mem hb (heq ▸ hq)
    rw [hs.range, Function.update_of_ne hne]
  have hnew : s'.range s.nextRange = x := by rw [hs.range, Function.update_self]
  refine ⟨?_, ?_, ?_, ?_, ?_, ?_, ?_⟩
  · rw [hs.opened]
    exact h.opened
  · rw [hs.opened, hs.nextArea]
    exact h.known
  · intro b hb q hq
    rw [hs.opened] at hb
    rw [hs.nextRange]
    rcases (hlist b q hb).mp hq with hq | ⟨rfl, rfl⟩
    · rw [hold b q hb hq]
      exact ⟨(h.asma b hb q hq).1, Nat.lt_succ_of_lt (h.asma b hb q hq).2⟩
    · rw [hnew]
      exact ⟨hx, Nat.lt_succ_self _⟩
  · intro b hb
    rw [hs.opened] at hb
    rw [hs.area]
    by_cases hba : b = a
    · rw [hba, Function.update_self]
      exact nodup_listAddTail (h.nodup a ha) (h.fresh_not_mem ha)
    · rw [Function.update_of_ne hba]
      exact h.nodup b hb
  · rw [hs.lru]
    split
    · exact List.nodup_append.mpr ⟨h.lruNodup, List.nodup_singleton _, fun q hq r hr heq => by
        obtain rfl := List.mem_singleton.mp hr
        exact h.fresh_not_mem_lru (heq ▸ hq)⟩
    · exact h.lruNodup
  · intro q
    have hmem : q ∈ s'.ashmemLruList ↔ q ∈ s.ashmemLruList ∨ q = s.nextRange ∧ x.onLru = true := by
      rw [hs.lru]
      split <;> simp_all
    rw [hmem, h.mem_lru, hs.opened]
    constructor
    · rintro (⟨b, hb, hq, honlru⟩ | ⟨rfl, honlru⟩)
      · exact ⟨b, hb, (hlist b q hb).mpr (.inl hq), by rwa [hold b q hb hq]⟩
      · exact ⟨a, ha, (hlist a _ ha).mpr (.inr ⟨rfl, rfl⟩), by rwa [hnew]⟩
    · rintro ⟨b, hb, hq, honlru⟩
      rcases (hlist b q hb).mp hq with hq | ⟨rfl, rfl⟩
      · rw [hold b q hb hq] at honlru
        exact .inl ⟨b, hb, hq, honlru⟩
      · rw [hnew] at honlru
        exact .inr ⟨rfl, honlru⟩
  · rw [hs.count, lruSum, hs.lru, hs.range, h.count]
    split
    · rw [List.map_append, List.sum_append, sum_update h.fresh_not_mem_lru, List.map_singleton,
        List.sum_singleton, Function.update_self, wadd_def, lruSum]
      omega
    · rw [sum_update h.fresh_not_mem_lru, lruSum]

theorem purge (h : Booked s) (hr : r ∈ s.ashmemLruList) :
    Booked (lruDel (s.setRange r { s.range r with purged := true }) r) := by
  obtain ⟨a, ha, hra, -⟩ := (h.mem_lru r).mp hr
  have hnot : r ∉ s.ashmemLruList.erase r := h.lruNodup.not_mem_erase
  refine ⟨h.opened, h.known, ?_, h.nodup, h.lruNodup.erase r, ?_, ?_⟩
  · intro b hb q hq
    refine ⟨?_, (h.asma b hb q hq).2⟩
    change (Function.update s.range r _ q).asma = b
    by_cases hqr : q = r
    · rw [hqr, Function.update_self]
      exact (h.asma b hb r (hqr ▸ hq)).1
    · rw [Function.update_of_ne hqr]
      exact (h.asma b hb q hq).1
  · intro q
    change q ∈ s.ashmemLruList.erase r ↔ ∃ b ∈ s.opened, q ∈ (s.area b).unpinnedList ∧
      (Function.update s.range r _ q).onLru = true
    rw [h.lruNodup.mem_erase_iff, h.mem_lru]
    by_cases hqr : q = r
    · rw [hqr, Function.update_self]
      simp [Range.onLru]
    · rw [Function.update_of_ne hqr]
      simp [hqr]
  · change wsub s.lruCount (Function.update s.range r _ r).rangeSize =
      ((s.ashmemLruList.erase r).map fun q => (Function.update s.range r _ q).rangeSize).sum %
        2 ^ 64
    rw [sum_update hnot, h.count, lruSum_split hr, Function.update_self]
    change wsub _ (s.range r).rangeSize = _
    unfold wsub wordSize
    omega

end Booked

end Ashmem

end BinderForLinux
