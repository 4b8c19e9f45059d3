import BinderForLinux.Ashmem.Runs
import Mathlib.Order.Interval.Set.Basic

/-!
# The unpinned pages of an area

What the ranges of an area stand for: a set of unpinned pages, some of which were purged. With
memory for new ranges, pinning takes an interval out of the set and unpinning puts one in. A
range that cannot be allocated loses pages outside the interval when one that was there was cut
on both sides or merged.
-/

namespace BinderForLinux

namespace Ashmem

open Library

variable {s s' : State} {a b p first last : ℕ} {zalloc : Bool}

def unpinnedPages (s : State) (a : ℕ) : Set ℕ := {p | ∃ e ∈ entries s a, e.2.HasPage p}

def purgedPages (s : State) (a : ℕ) : Set ℕ :=
  {p | ∃ e ∈ entries s a, e.2.HasPage p ∧ e.2.purged = true}

/-- The ranges of an open area are in order; their pages are any `size_t`. -/
structure Arranged (s : State) (a : ℕ) : Prop where
  booked : Booked s
  opened : a ∈ s.opened
  ordered : Ordered wordSize (entries s a)

theorem Sound.arranged (h : Sound s) (ha : a ∈ s.opened) : Arranged s a where
  booked := h.booked
  opened := ha
  ordered :=
    { descending := (h.ordered a ha).descending
      proper := fun e he =>
        ⟨((h.ordered a ha).proper e he).1,
          ((h.ordered a ha).proper e he).2.trans (show maxPages < wordSize by decide)⟩ }

def OthersKept (a : ℕ) (s s' : State) : Prop :=
  ∀ b ∈ s.opened, b ≠ a → s'.area b = s.area b ∧ entries s' b = entries s b

theorem Within.othersKept (hw : Within a s s') (h : Arranged s a) : OthersKept a s s' :=
  fun b hb hne => ⟨hw.others b hne, hw.entries_eq h.booked h.opened hb hne⟩

theorem Arranged.of_within (h : Arranged s a) (hw : Within a s s') (hb : Booked s')
    (hord : Ordered wordSize (entries s' a)) : Arranged s' a :=
  ⟨hb, hw.opened ▸ h.opened, hord⟩

/-! ### With memory for ranges -/

theorem ashmemPin_pages (h : Arranged s a) (hle : first ≤ last) (hlast : last < wordSize) :
    unpinnedPages (ashmemPin s a first last true).1 a = unpinnedPages s a \ Set.Icc first last ∧
      Arranged (ashmemPin s a first last true).1 a ∧
      OthersKept a s (ashmemPin s a first last true).1 := by
  obtain ⟨hb, hw, hentries, -⟩ : Booked (ashmemPin s a first last true).1 ∧ _ :=
    ashmemPin_spec le_rfl hle hlast h.booked h.opened h.ordered
  refine ⟨Set.ext fun p => ?_, h.of_within hw hb (hentries ▸ h.ordered.flatMap_pieces hle),
    hw.othersKept h⟩
  simp only [unpinnedPages, hentries, Set.mem_sdiff, Set.mem_ofPred_eq, Set.mem_Icc]
  constructor
  · rintro ⟨x, hx, hp⟩
    obtain ⟨e, he, hx⟩ := List.mem_flatMap.mp hx
    obtain ⟨-, hstart, hend, -, hpinned⟩ := piece_of_mem hle (h.ordered.proper e he) hx
    unfold Range.HasPage at hp
    exact ⟨⟨e, he, by omega, by omega⟩, by omega⟩
  · rintro ⟨⟨e, he, hp⟩, hout⟩
    obtain ⟨x, hx, hxp⟩ := exists_piece hp hout (.inl rfl)
    exact ⟨x, List.mem_flatMap.mpr ⟨e, he, hx⟩, hxp⟩

theorem ashmemUnpin_pages (h : Arranged s a) (hle : first ≤ last) (hlast : last < wordSize) :
    ∃ s', ashmemUnpin s a first last true = some (s', .ok ()) ∧
      unpinnedPages s' a = unpinnedPages s a ∪ Set.Icc first last ∧ Arranged s' a ∧
      OthersKept a s s' := by
  obtain ⟨out, hout, hu⟩ : ∃ out, ashmemUnpin s a first last true = some out ∧
      Unpinned wordSize a first last true false s out :=
    ashmemUnpin_spec hle hlast h.booked h.opened h.ordered
  cases hu with
  | @covered e he hsub =>
      refine ⟨s, hout, Set.ext fun p => ?_, h, fun b _ _ => ⟨rfl, rfl⟩⟩
      simp only [unpinnedPages, Set.mem_union, Set.mem_ofPred_eq, Set.mem_Icc]
      refine ⟨.inl, fun hp => hp.elim id fun hp => ⟨e, he, ?_⟩⟩
      unfold Range.Subsumes at hsub
      exact ⟨hsub.1.trans hp.1, hp.2.trans hsub.2⟩
  | failed hzalloc => cases hzalloc
  | @placed s' x _ hb hw hnext hr =>
      refine ⟨s', hout, Set.ext fun p => ?_, h.of_within hw hb hr.ordered, hw.othersKept h⟩
      have hstart : x.pgstart ≤ first := hr.start_le
      have hend : last ≤ x.pgend := hr.le_end
      simp only [unpinnedPages, Set.mem_union, Set.mem_ofPred_eq, Set.mem_Icc]
      constructor
      · rintro ⟨e, he, hp⟩
        rcases (hr.mem e).mp he with rfl | ⟨he, -⟩
        · exact (hr.pages p hp).symm
        · exact .inl ⟨e, he, hp⟩
      · rintro (⟨e, he, hp⟩ | hp)
        · -- the entry is there still, or within the new one
          by_cases hin : x.pgstart ≤ e.2.pgstart ∧ e.2.pgend ≤ x.pgend
          · exact ⟨_, (hr.mem _).mpr (.inl rfl), hin.1.trans hp.1, hp.2.trans hin.2⟩
          · exact ⟨e, (hr.mem e).mpr (.inr ⟨he, hin⟩), hp⟩
        · exact ⟨_, (hr.mem _).mpr (.inl rfl), hstart.trans hp.1, hp.2.trans hend⟩

theorem ashmemGetPinStatus_eq_false {N : ℕ} {ids : List ℕ} (hle : first ≤ last)
    (hord : Ordered N (entriesOf s ids)) : ashmemGetPinStatus s.range first last ids = false ↔
      ∃ e ∈ entriesOf s ids, e.2.Meets first last := by
  induction ids with
  | nil => simp [ashmemGetPinStatus, entriesOf]
  | cons r ids ih =>
      have hdesc := List.pairwise_cons.mp hord.descending
      have hrest : Ordered N (entriesOf s ids) := hord.sublist (List.sublist_cons_self _ _)
      rw [ashmemGetPinStatus, entriesOf_cons, List.exists_mem_cons_iff]
      split
      · rename_i hbefore
        -- those that follow are before the pages too
        refine iff_of_false (by decide) ?_
        rintro (hmeets | ⟨e, he, hmeets⟩)
        · exact not_meets_of_before (hord.proper _ List.mem_cons_self) hle hbefore hmeets
        · have hlt := hdesc.1 e he
          have hx := (hord.proper (r, s.range r) List.mem_cons_self).1
          exact not_meets_of_before (hrest.proper e he) hle ((hlt.trans_le hx).trans hbefore) hmeets
      · split
        · exact iff_of_true rfl (.inl ‹_›)
        · rename_i hmeets
          rw [ih hrest, or_iff_right hmeets]

theorem meets_iff_pages {N : ℕ} {x : Range} (hx : x.Proper N) (hle : first ≤ last) :
    x.Meets first last ↔ ∃ p, x.HasPage p ∧ first ≤ p ∧ p ≤ last := by
  rw [Range.meets_iff hx hle]
  unfold Range.Proper at hx
  unfold Range.HasPage
  constructor
  · intro h
    exact ⟨max first x.pgstart, by omega, by omega, by omega⟩
  · rintro ⟨p, hp, h⟩
    omega

theorem ashmemGetPinStatus_pages (h : Arranged s a) (hle : first ≤ last) :
    ashmemGetPinStatus s.range first last (s.area a).unpinnedList = false ↔
      (unpinnedPages s a ∩ Set.Icc first last).Nonempty := by
  rw [ashmemGetPinStatus_eq_false hle h.ordered]
  constructor
  · rintro ⟨e, he, hmeets⟩
    obtain ⟨p, hp, hin⟩ := (meets_iff_pages (h.ordered.proper e he) hle).mp hmeets
    exact ⟨p, ⟨e, he, hp⟩, hin⟩
  · rintro ⟨p, ⟨e, he, hp⟩, hin⟩
    exact ⟨e, he, (meets_iff_pages (h.ordered.proper e he) hle).mpr ⟨p, hp, hin⟩⟩

/-- Unpinning adds an interval to the unpinned pages of the area and returns, pinning takes it
away, and the status says whether there is a page of it. -/
theorem pins_are_sets (h : Arranged s a) (hle : first ≤ last) (hlast : last < wordSize) :
    (∃ s', ashmemUnpin s a first last true = some (s', .ok ()) ∧
      unpinnedPages s' a = unpinnedPages s a ∪ Set.Icc first last ∧ Arranged s' a ∧
      OthersKept a s s') ∧
    (unpinnedPages (ashmemPin s a first last true).1 a = unpinnedPages s a \ Set.Icc first last ∧
      Arranged (ashmemPin s a first last true).1 a ∧
      OthersKept a s (ashmemPin s a first last true).1) ∧
    (ashmemGetPinStatus s.range first last (s.area a).unpinnedList = false ↔
      (unpinnedPages s a ∩ Set.Icc first last).Nonempty) :=
  ⟨ashmemUnpin_pages h hle hlast, ashmemPin_pages h hle hlast, ashmemGetPinStatus_pages h hle⟩

def eightUnpinned : List Op :=
  [.open true, .setSize 0 65536, .mmap 0 3 (.ok ()) (.ok ()), .pinUnpin 0 .unpin 0 32768 true]

theorem exists_eightUnpinned : ∃ s, Reach step (fun s op => op.Proper s) State.init s ∧
    Arranged s 0 ∧ entries s 0 = [(0, ⟨0, 0, 7, false⟩)] := by
  obtain ⟨s, hs, hfields⟩ := Option.map_eq_some_iff.mp
    (show (runChecked step (fun s op => op.Proper s) State.init eightUnpinned).map
      (fun s => (s.opened, entries s 0)) = some ([0], [(0, ⟨0, 0, 7, false⟩)]) by decide +kernel)
  simp only [Prod.mk.injEq] at hfields
  have hreach := reach_of_runChecked hs
  exact ⟨s, hreach, (sound_of_reach hreach).arranged (by simp [hfields.1]), hfields.2⟩

/-- Pages 6 to 9 of those in which 0 to 7 are unpinned. -/
theorem pins_are_sets_eight : ∃ s, Reach step (fun s op => op.Proper s) State.init s ∧
    (∃ s', ashmemUnpin s 0 6 9 true = some (s', .ok ()) ∧
      unpinnedPages s' 0 = unpinnedPages s 0 ∪ Set.Icc 6 9 ∧ Arranged s' 0 ∧ OthersKept 0 s s') ∧
    unpinnedPages (ashmemPin s 0 6 9 true).1 0 = unpinnedPages s 0 \ Set.Icc 6 9 ∧
    (unpinnedPages s 0 ∩ Set.Icc 6 9).Nonempty := by
  obtain ⟨s, hreach, h, hentries⟩ := exists_eightUnpinned
  obtain ⟨hunpin, ⟨hpin, -⟩, -⟩ := pins_are_sets h (show 6 ≤ 9 by decide) (by decide)
  exact ⟨s, hreach, hunpin, hpin, 6, ⟨_, by rw [hentries]; exact List.mem_singleton_self _,
    by decide⟩, by decide⟩

/-! ### Without -/

/-- No page that is not in `P` has another status. -/
def StatusKept (a : ℕ) (P : Set ℕ) (s s' : State) : Prop :=
  ∀ p ∉ P, (p ∈ unpinnedPages s' a ↔ p ∈ unpinnedPages s a) ∧
    (p ∈ purgedPages s' a ↔ p ∈ purgedPages s a)

/-- A range that cannot be made loses no page when the interval is in one range, or meets none. -/
theorem ashmemUnpin_failed (h : Arranged s a) (hle : first ≤ last) (hlast : last < wordSize) :
    (∀ s', ashmemUnpin s a first last false = some (s', .error .enomem) →
      StatusKept a ∅ s s') ↔
    (∃ e ∈ entries s a, e.2.Subsumes first last) ∨
      ∀ e ∈ entries s a, ¬ e.2.Meets first last := by
  constructor
  · intro hkept
    by_contra hcond
    obtain ⟨hnot, hsome⟩ := not_or.mp hcond
    simp only [not_forall, not_not] at hsome
    obtain ⟨e, he, hmeets⟩ := hsome
    obtain ⟨out, hout, hu⟩ : ∃ out, ashmemUnpin s a first last false = some out ∧
        Unpinned wordSize a first last false false s out :=
      ashmemUnpin_spec hle hlast h.booked h.opened h.ordered
    cases hu with
    | @covered e he hsub => exact hnot ⟨e, he, hsub⟩
    | placed hzalloc => cases hzalloc
    | @failed s' _ _ _ hsub hclear =>
        -- a page of the interval was unpinned and is not any more
        obtain ⟨p, hp, hin⟩ := (meets_iff_pages (h.ordered.proper e he) hle).mp hmeets
        obtain ⟨f, hf, hfp⟩ := ((hkept s' hout p (Set.notMem_empty p)).1).mpr ⟨e, he, hp⟩
        exact hclear f hf ((meets_iff_pages (h.ordered.proper f (hsub.subset hf)) hle).mpr
          ⟨p, hfp, hin⟩)
  · intro hcond s' hout
    have hscan := unpinScan_cases hle h.ordered
    unfold ashmemUnpin unpinLoop at hout
    obtain ⟨pre, rest, -, hscan, -⟩ | ⟨r, hr, hscan, hsub⟩ |
      ⟨r, hr, hscan, hmeets, hnot⟩ := hscan
    · simp only [hscan, rangeAlloc_eq_none.mpr rfl, Option.some.injEq, Prod.mk.injEq] at hout
      obtain rfl := hout.1
      exact fun p _ => ⟨Iff.rfl, Iff.rfl⟩
    · simp [hscan] at hout
    · -- the interval would meet a range that is not the one it is in
      have hmem : (r, s.range r) ∈ entries s a := mem_entries.mpr ⟨hr, rfl⟩
      rcases hcond with ⟨e, he, hsub⟩ | hnone
      · have hne : e ≠ (r, s.range r) := by
          rintro rfl
          exact hnot hsub
        have hdisj := h.ordered.disjoint he hmem hne
        rw [Range.meets_iff (h.ordered.proper _ hmem) hle] at hmeets
        unfold Range.Subsumes at hsub
        dsimp only at hdisj hmeets
        omega
      · exact absurd hmeets (hnone _ hmem)

/-- Pinning without memory for a range loses the pages behind the interval of a range that is
cut on both sides. -/
theorem ashmemPin_failed (h : Arranged s a) (hle : first ≤ last) (hlast : last < wordSize) :
    StatusKept a (Set.Icc first last) s (ashmemPin s a first last false).1 ↔
      ¬ ∃ e ∈ entries s a, e.2.pgstart < first ∧ last < e.2.pgend := by
  obtain ⟨-, -, hentries, -⟩ : Booked (ashmemPin s a first last false).1 ∧ _ :=
    ashmemPin_spec le_rfl hle hlast h.booked h.opened h.ordered
  have hfrom {p : ℕ} {x : ℕ × Range} (hx : x ∈ entries (ashmemPin s a first last false).1 a)
      (hp : x.2.HasPage p) : ∃ e ∈ entries s a, e.2.HasPage p ∧ x.2.purged = e.2.purged ∧
        x ∈ pieces s.nextRange first last false e := by
    rw [hentries] at hx
    obtain ⟨e, he, hx⟩ := List.mem_flatMap.mp hx
    obtain ⟨-, hstart, hend, hpurged, -⟩ := piece_of_mem hle (h.ordered.proper e he) hx
    exact ⟨e, he, ⟨hstart.trans hp.1, hp.2.trans hend⟩, hpurged, hx⟩
  constructor
  · rintro hkept ⟨e, he, hstart, hend⟩
    have hpage : e.2.HasPage (last + 1) := ⟨by omega, hend⟩
    have hout : last + 1 ∉ Set.Icc first last := by simp
    obtain ⟨x, hx, hxp⟩ := ((hkept _ hout).1).mpr ⟨e, he, hpage⟩
    obtain ⟨f, hf, hfp, -, hxf⟩ := hfrom hx hxp
    obtain rfl : f = e := by
      by_contra hne
      have hdisj := h.ordered.disjoint hf he hne
      unfold Range.HasPage at hfp hpage
      omega
    have hmeets : f.2.Meets first last :=
      (meets_iff_pages (h.ordered.proper f hf) hle).mpr ⟨first, ⟨by omega, by omega⟩, le_rfl, hle⟩
    rw [pieces, if_pos hmeets, if_pos hend, if_neg (by omega), if_pos hstart] at hxf
    obtain rfl : x = (f.1, { f.2 with pgend := first - 1 }) := by simpa using hxf
    unfold Range.HasPage at hxp
    dsimp only at hxp
    omega
  · intro hcond p hp
    have hto {e : ℕ × Range} (he : e ∈ entries s a) (hep : e.2.HasPage p) :
        ∃ x ∈ entries (ashmemPin s a first last false).1 a,
          x.2.HasPage p ∧ x.2.purged = e.2.purged := by
      obtain ⟨x, hx, hxp⟩ : ∃ x ∈ pieces s.nextRange first last false e, x.2.HasPage p :=
        exists_piece hep hp (.inr fun hboth => hcond ⟨e, he, hboth.1, hboth.2.trans_le hep.2⟩)
      rw [hentries]
      exact ⟨x, List.mem_flatMap.mpr ⟨e, he, hx⟩, hxp,
        (piece_of_mem hle (h.ordered.proper e he) hx).purged⟩
    constructor
    · constructor
      · rintro ⟨x, hx, hxp⟩
        obtain ⟨e, he, hep, -⟩ := hfrom hx hxp
        exact ⟨e, he, hep⟩
      · rintro ⟨e, he, hep⟩
        obtain ⟨x, hx, hxp, -⟩ := hto he hep
        exact ⟨x, hx, hxp⟩
    · constructor
      · rintro ⟨x, hx, hxp, hpurged⟩
        obtain ⟨e, he, hep, heq, -⟩ := hfrom hx hxp
        exact ⟨e, he, hep, heq ▸ hpurged⟩
      · rintro ⟨e, he, hep, hpurged⟩
        obtain ⟨x, hx, hxp, heq⟩ := hto he hep
        exact ⟨x, hx, hxp, heq.trans hpurged⟩

/-- When nothing is lost without memory for a range. -/
theorem failed_alloc_loses_nothing (h : Arranged s a) (hle : first ≤ last)
    (hlast : last < wordSize) :
    ((∀ s', ashmemUnpin s a first last false = some (s', .error .enomem) →
      StatusKept a ∅ s s') ↔
      (∃ e ∈ entries s a, e.2.Subsumes first last) ∨
        ∀ e ∈ entries s a, ¬ e.2.Meets first last) ∧
    (StatusKept a (Set.Icc first last) s (ashmemPin s a first last false).1 ↔
      ¬ ∃ e ∈ entries s a, e.2.pgstart < first ∧ last < e.2.pgend) :=
  ⟨ashmemUnpin_failed h hle hlast, ashmemPin_failed h hle hlast⟩

theorem failed_alloc_loses_nothing_eight : ∃ s,
    Reach step (fun s op => op.Proper s) State.init s ∧
    ∀ s', ashmemUnpin s 0 12 13 false = some (s', .error .enomem) → StatusKept 0 ∅ s s' := by
  obtain ⟨s, hreach, h, hentries⟩ := exists_eightUnpinned
  refine ⟨s, hreach, (failed_alloc_loses_nothing h (show 12 ≤ 13 by decide)
    (by decide)).1.mpr (.inr ?_)⟩
  rw [hentries]
  decide

/-- Unpinning pages 6 to 9 or pinning 2 and 3 loses unpinned pages. -/
theorem failed_alloc_loses_pages : ∃ s, Reach step (fun s op => op.Proper s) State.init s ∧
    (∃ s', ashmemUnpin s 0 6 9 false = some (s', .error .enomem) ∧ ¬ StatusKept 0 ∅ s s') ∧
    ¬ StatusKept 0 (Set.Icc 2 3) s (ashmemPin s 0 2 3 false).1 := by
  obtain ⟨s, hreach, h, hentries⟩ := exists_eightUnpinned
  refine ⟨s, hreach, ?_, fun hkept => ?_⟩
  · by_contra hnone
    have hkept : ∀ s', ashmemUnpin s 0 6 9 false = some (s', .error .enomem) →
        StatusKept 0 ∅ s s' :=
      fun s' hout => not_not.mp fun hnot => hnone ⟨s', hout, hnot⟩
    have hcond := (ashmemUnpin_failed h (by decide) (by decide)).mp hkept
    rw [hentries] at hcond
    revert hcond
    decide
  · have hcond := (ashmemPin_failed h (by decide) (by decide)).mp hkept
    rw [hentries] at hcond
    revert hcond
    decide

end Ashmem

end BinderForLinux
