import BinderForLinux.Ashmem.Runs

/-!
# What the shrinker frees

`ashmem_shrink_scan` is asked for a number of pages and counts ranges. It purges as many ranges
from the front of its list, and all of them when it is asked for none.
-/

namespace BinderForLinux

namespace Ashmem

open Library

variable {s s' : State} {r n m : ℕ} {l : List ℕ}

def Range.pages (x : Range) : ℕ := x.pgend - x.pgstart + 1

def pagesOf (s : State) (l : List ℕ) : ℕ := (l.map fun r => (s.range r).pages).sum

/-- The list of the shrinker: each range is in it once, and its pages are an interval. -/
structure LruList (s : State) : Prop where
  nodup : s.ashmemLruList.Nodup
  count : s.lruCount < wordSize
  pages : ∀ r ∈ s.ashmemLruList, (s.range r).pgstart ≤ (s.range r).pgend ∧
    (s.range r).pgend < wordSize

/-- The first `m` ranges are purged and counted, and no other has changed. -/
structure Purged (m : ℕ) (s : State) (out : State × Option ℕ) : Prop where
  list : out.1.ashmemLruList = s.ashmemLruList.drop m
  taken : ∀ r ∈ s.ashmemLruList.take m, out.1.range r = { s.range r with purged := true }
  rest : ∀ r ∉ s.ashmemLruList.take m, out.1.range r = s.range r
  freed : out.2 = some (pagesOf s (s.ashmemLruList.take m))
  count : out.1.lruCount = wsub s.lruCount (pagesOf s (s.ashmemLruList.take m))

/-- `m` ranges are the shortest prefix of the list with `n` pages, or all of it. -/
structure Needed (s : State) (n m : ℕ) : Prop where
  le : m ≤ s.ashmemLruList.length
  enough : n ≤ pagesOf s (s.ashmemLruList.take m) ∨ m = s.ashmemLruList.length
  least : ∀ j < m, pagesOf s (s.ashmemLruList.take j) < n

def scanned (s : State) (n : ℕ) : ℕ :=
  min (if n = 0 then wordSize else n) s.ashmemLruList.length

theorem Sound.lruList (h : Sound s) : LruList s where
  nodup := h.booked.lruNodup
  count := by
    rw [h.booked.count]
    exact Nat.mod_lt _ (by decide)
  pages := by
    intro r hr
    obtain ⟨a, ha, hra, -⟩ := (h.booked.mem_lru r).mp hr
    obtain ⟨hle, hlt⟩ := (h.ordered a ha).proper (r, s.range r) (mem_entries.mpr ⟨hra, rfl⟩)
    exact ⟨hle, hlt.trans (show maxPages < wordSize by decide)⟩

/-! ### The loop -/

theorem Range.rangeSize_mod {x : Range} (hle : x.pgstart ≤ x.pgend) (hlt : x.pgend < wordSize) :
    x.rangeSize = x.pages % wordSize := by
  unfold Range.rangeSize Range.pages
  rw [wsub_of_le hle hlt]
  rfl

theorem pagesOf_cons : pagesOf s (r :: l) = (s.range r).pages + pagesOf s l := rfl

theorem pagesOf_congr (h : ∀ r ∈ l, s'.range r = s.range r) : pagesOf s' l = pagesOf s l :=
  congrArg List.sum (List.map_congr_left fun r hr => by rw [h r hr])

theorem length_le_pagesOf (s : State) (l : List ℕ) : l.length ≤ pagesOf s l := by
  induction l with
  | nil => exact Nat.le_refl 0
  | cons r l ih =>
      rw [pagesOf_cons, List.length_cons]
      unfold Range.pages
      omega

/-- The state after the shrinker has purged a range. -/
def purgeRange (s : State) (r : ℕ) : State :=
  lruDel (s.setRange r { s.range r with purged := true }) r

theorem purgeRange_range (s : State) (r : ℕ) :
    (purgeRange s r).range = Function.update s.range r { s.range r with purged := true } := rfl

theorem purgeRange_list (s : State) (r : ℕ) :
    (purgeRange s r).ashmemLruList = s.ashmemLruList.erase r := rfl

theorem purgeRange_count (s : State) (r : ℕ) :
    (purgeRange s r).lruCount = wsub s.lruCount (s.range r).rangeSize := by
  simp [purgeRange, lruDel, State.setRange, Range.rangeSize]

theorem shrinkLoop_cons {freed : ℕ} : shrinkLoop (r :: l) n s freed =
    if wsub n 1 = 0 then (purgeRange s r, wadd freed (s.range r).rangeSize)
    else shrinkLoop l (wsub n 1) (purgeRange s r) (wadd freed (s.range r).rangeSize) := by
  have hsize : ((purgeRange s r).range r).rangeSize = (s.range r).rangeSize := by
    rw [purgeRange_range, Function.update_self]
    rfl
  rw [← hsize]
  rfl

/-- What the loop leaves when it has purged the first `m` ranges of the rest `l` of the list. -/
structure ShrunkByPages (m : ℕ) (l : List ℕ) (s : State) (freed : ℕ) (out : State × ℕ) : Prop where
  list : out.1.ashmemLruList = l.drop m
  taken : ∀ r ∈ l.take m, out.1.range r = { s.range r with purged := true }
  rest : ∀ r ∉ l.take m, out.1.range r = s.range r
  freed : out.2 = wadd freed (pagesOf s (l.take m))
  count : out.1.lruCount = wsub s.lruCount (pagesOf s (l.take m))

theorem LruList.purgeRange (h : LruList s) (hlist : s.ashmemLruList = r :: l) :
    LruList (purgeRange s r) ∧ (purgeRange s r).ashmemLruList = l ∧
      ∀ q ∈ l, (Ashmem.purgeRange s r).range q = s.range q := by
  have hrest : (Ashmem.purgeRange s r).ashmemLruList = l := by
    rw [purgeRange_list, hlist, List.erase_cons_head]
  have hnodup := h.nodup
  rw [hlist] at hnodup
  have hsame : ∀ q ∈ l, (Ashmem.purgeRange s r).range q = s.range q := by
    intro q hq
    rw [purgeRange_range, Function.update_of_ne]
    rintro rfl
    exact (List.nodup_cons.mp hnodup).1 hq
  refine ⟨⟨hrest ▸ hnodup.of_cons, ?_, fun q hq => ?_⟩, hrest, hsame⟩
  · rw [purgeRange_count]
    exact Nat.mod_lt _ (by decide)
  · rw [hrest] at hq
    rw [hsame q hq]
    exact h.pages q (by rw [hlist]; exact List.mem_cons_of_mem r hq)

theorem ShrunkByPages.cons {freed : ℕ} {out : State × ℕ} (h : LruList s)
    (hlist : s.ashmemLruList = r :: l)
    (hout : ShrunkByPages m l (purgeRange s r) (wadd freed (s.range r).rangeSize) out) :
    ShrunkByPages (m + 1) (r :: l) s freed out := by
  obtain ⟨-, -, hsame⟩ := h.purgeRange hlist
  obtain ⟨hle, hlt⟩ := h.pages r (by rw [hlist]; exact List.mem_cons_self)
  have hsize := Range.rangeSize_mod hle hlt
  have hnot : r ∉ l := by
    have hnodup := h.nodup
    rw [hlist] at hnodup
    exact (List.nodup_cons.mp hnodup).1
  have hpages : pagesOf (purgeRange s r) (l.take m) = pagesOf s (l.take m) :=
    pagesOf_congr fun q hq => hsame q (List.mem_of_mem_take hq)
  refine ⟨hout.list, fun q hq => ?_, fun q hq => ?_, ?_, ?_⟩
  · rw [List.take_succ_cons] at hq
    rcases List.mem_cons.mp hq with rfl | hq
    · rw [hout.rest q fun hmem => hnot (List.mem_of_mem_take hmem), purgeRange_range,
        Function.update_self]
    · rw [hout.taken q hq, hsame q (List.mem_of_mem_take hq)]
  · rw [List.take_succ_cons, List.mem_cons, not_or] at hq
    rw [hout.rest q hq.2, purgeRange_range, Function.update_of_ne hq.1]
  · rw [hout.freed, hpages, hsize, List.take_succ_cons, pagesOf_cons]
    simp only [wadd_def, wordSize]
    omega
  · rw [hout.count, purgeRange_count, hpages, hsize, List.take_succ_cons, pagesOf_cons]
    simp only [wsub, wordSize]
    omega

theorem shrinkLoop_shrunkByPages {freed : ℕ} (h : LruList s) (hlist : s.ashmemLruList = l)
    (hn : n < wordSize) (hfreed : freed < wordSize) :
    ShrunkByPages (min (if n = 0 then wordSize else n) l.length) l s freed
      (shrinkLoop l n s freed) := by
  have hnone {s : State} {l : List ℕ} {freed : ℕ} (h : LruList s) (hlist : s.ashmemLruList = l)
      (hfreed : freed < wordSize) : ShrunkByPages 0 l s freed (s, freed) := by
    refine ⟨hlist, fun r hr => ?_, fun _ _ => rfl, ?_, ?_⟩
    · cases hr
    · exact (Nat.mod_eq_of_lt hfreed).symm
    · have := h.count
      simp only [List.take_zero, pagesOf, List.map_nil, List.sum_nil, wsub, wordSize] at this ⊢
      omega
  induction l generalizing s n freed with
  | nil =>
      rw [List.length_nil, Nat.min_zero]
      exact hnone h hlist hfreed
  | cons r l ih =>
      obtain ⟨hnext, hrest, -⟩ := h.purgeRange hlist
      have hfreed' : wadd freed (s.range r).rangeSize < wordSize := Nat.mod_lt _ (by decide)
      rw [shrinkLoop_cons]
      by_cases hlast : wsub n 1 = 0
      · have hone : min (if n = 0 then wordSize else n) (r :: l).length = 0 + 1 := by
          unfold wsub wordSize at *
          rw [List.length_cons, if_neg (by omega)]
          omega
        rw [hone, if_pos hlast]
        exact .cons h hlist (hnone hnext hrest hfreed')
      · have hcount : min (if n = 0 then wordSize else n) (r :: l).length =
            min (if wsub n 1 = 0 then wordSize else wsub n 1) l.length + 1 := by
          rw [if_neg hlast, List.length_cons]
          unfold wsub wordSize at *
          split <;> omega
        rw [if_neg hlast, hcount]
        have hless : wsub n 1 < wordSize := Nat.mod_lt _ (by decide)
        have hout := ih hnext hrest hless hfreed'
        exact hout.cons h hlist

/-- As many ranges are purged as pages were asked for, and all when that is none. -/
theorem ashmemShrinkScan_shrunk (h : LruList s) (hn : n < wordSize) :
    ShrunkByPages (scanned s n) s.ashmemLruList s 0 (shrinkLoop s.ashmemLruList n s 0) :=
  shrinkLoop_shrunkByPages h rfl hn (by decide)

/-! ### The pages that were asked for -/

theorem pagesOf_append (s : State) (l l' : List ℕ) :
    pagesOf s (l ++ l') = pagesOf s l + pagesOf s l' := by
  unfold pagesOf
  rw [List.map_append, List.sum_append]

theorem pagesOf_take_mono (s : State) (l : List ℕ) (hle : m ≤ n) :
    pagesOf s (l.take m) ≤ pagesOf s (l.take n) := by
  have hsplit := List.take_append_drop m (l.take n)
  rw [List.take_take, Nat.min_eq_left hle] at hsplit
  rw [← hsplit, pagesOf_append]
  exact Nat.le_add_right _ _

/-- The ranges before the last of the first `n` have fewer than `n` pages together, and all of
these can be counted. -/
def Budgeted (s : State) (n : ℕ) : Prop :=
  (s.ashmemLruList = [] ∨ pagesOf s (s.ashmemLruList.take n).dropLast < n) ∧
    pagesOf s (s.ashmemLruList.take n) < wordSize

theorem take_scanned (hn : n ≠ 0) (s : State) :
    s.ashmemLruList.take (scanned s n) = s.ashmemLruList.take n := by
  rw [scanned, if_neg hn]
  rcases Nat.le_total n s.ashmemLruList.length with hle | hle
  · rw [Nat.min_eq_left hle]
  · rw [Nat.min_eq_right hle, List.take_length, List.take_of_length_le hle]

theorem dropLast_take (hn : n ≠ 0) (s : State) :
    (s.ashmemLruList.take n).dropLast = s.ashmemLruList.take (scanned s n - 1) := by
  rw [List.dropLast_eq_take, List.length_take, List.take_take, scanned, if_neg hn]
  congr 1
  omega

theorem ashmemShrinkScan_eq (s : State) (n : ℕ) : ashmemShrinkScan s true n =
    ((shrinkLoop s.ashmemLruList n s 0).1, some (shrinkLoop s.ashmemLruList n s 0).2) := rfl

theorem Budgeted.of_purged (h : LruList s) (hn : n < wordSize) (hneeded : Needed s n m)
    (hpurged : Purged m s (ashmemShrinkScan s true n)) : Budgeted s n := by
  have hs := ashmemShrinkScan_shrunk h hn
  have hlen : scanned s n ≤ s.ashmemLruList.length := Nat.min_le_right _ _
  obtain rfl : m = scanned s n := by
    have hsame := congrArg List.length (hpurged.list.symm.trans hs.list)
    simp only [List.length_drop] at hsame
    have := hneeded.le
    omega
  have hfreed : wadd 0 (pagesOf s (s.ashmemLruList.take (scanned s n))) =
      pagesOf s (s.ashmemLruList.take (scanned s n)) := by
    have hsome := hpurged.freed
    rw [ashmemShrinkScan_eq, Option.some.injEq] at hsome
    exact hs.freed.symm.trans hsome
  have hlt : pagesOf s (s.ashmemLruList.take (scanned s n)) < wordSize :=
    hfreed ▸ Nat.mod_lt _ (by decide)
  by_cases hnil : s.ashmemLruList = []
  · exact ⟨.inl hnil, by rw [hnil, List.take_nil]; exact Nat.two_pow_pos 64⟩
  · have hpos : 0 < s.ashmemLruList.length := List.length_pos_of_ne_nil hnil
    have hne : n ≠ 0 := by
      rintro rfl
      have hscan : 0 < scanned s 0 := by
        rw [scanned, if_pos rfl]
        exact lt_min (by decide) hpos
      exact absurd (hneeded.least 0 hscan) (Nat.not_lt_zero _)
    have hscan : 0 < scanned s n := by
      rw [scanned, if_neg hne]
      exact lt_min (Nat.pos_of_ne_zero hne) hpos
    rw [take_scanned hne] at hlt
    refine ⟨.inr ?_, hlt⟩
    rw [dropLast_take hne]
    exact hneeded.least _ (by omega)

theorem Budgeted.purged (h : LruList s) (hn : n < wordSize) (hb : Budgeted s n) :
    Needed s n (scanned s n) ∧ Purged (scanned s n) s (ashmemShrinkScan s true n) := by
  obtain ⟨hbudget, hlt⟩ := hb
  have hs := ashmemShrinkScan_shrunk h hn
  have hlen : scanned s n ≤ s.ashmemLruList.length := Nat.min_le_right _ _
  have hpages : pagesOf s (s.ashmemLruList.take (scanned s n)) < wordSize := by
    by_cases hne : n = 0
    · rcases hbudget with hnil | hbudget
      · rw [hnil, List.take_nil]
        exact Nat.two_pow_pos 64
      · omega
    · rwa [take_scanned hne]
  refine ⟨⟨hlen, ?_, fun j hj => ?_⟩, hs.list, hs.taken, hs.rest, ?_, hs.count⟩
  · rcases Nat.lt_or_ge (scanned s n) s.ashmemLruList.length with hshort | hall
    · left
      have hle : n ≤ scanned s n := by
        have hall : scanned s n = if n = 0 then wordSize else n :=
          (min_choice _ _).resolve_right hshort.ne
        rw [hall]
        split <;> omega
      refine hle.trans ((Nat.le_of_eq ?_).trans (length_le_pagesOf s _))
      rw [List.length_take, Nat.min_eq_left hlen]
    · exact .inr (le_antisymm hlen hall)
  · rcases hbudget with hnil | hbudget
    · rw [scanned, hnil, List.length_nil, Nat.min_zero] at hj
      cases hj
    · have hne : n ≠ 0 := by omega
      rw [dropLast_take hne] at hbudget
      exact (pagesOf_take_mono s _ (by omega)).trans_lt hbudget
  · rw [ashmemShrinkScan_eq, hs.freed, wadd, Nat.zero_add, Nat.mod_eq_of_lt hpages]

theorem Sound.pagesOf_lt (h : Sound s) (n : ℕ) :
    pagesOf s (s.ashmemLruList.take n) < wordSize := by
  have hall : pagesOf s s.ashmemLruList = s.lruCount := h.lruCount_eq.symm
  rw [← List.take_append_drop n s.ashmemLruList, pagesOf_append] at hall
  have := h.lruList.count
  omega

def twelveUnpinned : List Op :=
  [.open true, .setSize 0 65536, .mmap 0 3 (.ok ()) (.ok ()), .pinUnpin 0 .unpin 0 32768 true,
    .pinUnpin 0 .unpin 40960 16384 true]

theorem exists_twelveUnpinned : ∃ s, Reach step (fun s op => op.Proper s) State.init s ∧
    Sound s ∧ s.ashmemLruList = [0, 1] ∧ (s.range 0).pages = 8 ∧ (s.range 1).pages = 4 := by
  obtain ⟨s, hs, hfields⟩ := Option.map_eq_some_iff.mp
    (show (runChecked step (fun s op => op.Proper s) State.init twelveUnpinned).map
      (fun s => (s.ashmemLruList, (s.range 0).pages, (s.range 1).pages)) =
        some ([0, 1], 8, 4) by decide +kernel)
  simp only [Prod.mk.injEq] at hfields
  have hreach := reach_of_runChecked hs
  exact ⟨s, hreach, sound_of_reach hreach, hfields⟩

end Ashmem

end BinderForLinux
