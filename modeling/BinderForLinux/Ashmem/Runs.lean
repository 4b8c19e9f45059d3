import BinderForLinux.Ashmem.Ranges
import Mathlib.Algebra.Order.BigOperators.Group.List
import Mathlib.Algebra.Order.Group.Nat
import Mathlib.Data.List.Perm.Subperm
import Mathlib.Tactic.Cases

/-!
# Runs of the device

Every operation keeps the ranges of the open areas in order and the two kinds of lists together,
also when there is no memory for a new range. So in every run `lru_count` is the number of pages
that may be purged: no area has more than `maxPages` of them, and the sum does not wrap.
-/

namespace BinderForLinux

namespace Ashmem

open Library

variable {s s' : State} {a b r q : ℕ} {op : Op}

structure Sound (s : State) : Prop where
  booked : Booked s
  ordered : ∀ a ∈ s.opened, Ordered maxPages (entries s a)
  few : s.opened.length < maxAreas

theorem sound_init : Sound State.init :=
  ⟨booked_init, by simp [State.init], by simp [State.init, maxAreas]⟩

/-- What is given to `ashmem_pin` and `ashmem_unpin` is an interval of pages of the area. -/
def Op.Proper (s : State) : Op → Prop
  | .pinUnpin a _ offset len _ => ∀ i, pinInterval (s.area a) offset len = some i →
      i.1 ≤ i.2 ∧ i.2 < pageAlign (s.area a).size / pageSize
  | _ => True

/-! ### Areas -/

theorem Booked.setArea {x : Area} (h : Booked s)
    (hx : x.unpinnedList = (s.area a).unpinnedList) : Booked (s.setArea a x) := by
  have hlist (b : ℕ) : ((s.setArea a x).area b).unpinnedList = (s.area b).unpinnedList := by
    by_cases hb : b = a
    · rw [setArea_area, hb, Function.update_self, hx]
    · rw [setArea_area, Function.update_of_ne hb]
  refine ⟨h.opened, h.known, fun b hb r hr => ?_, fun b hb => ?_, h.lruNodup, fun r => ?_, h.count⟩
  · rw [hlist] at hr
    exact h.asma b hb r hr
  · rw [hlist]
    exact h.nodup b hb
  · simp only [hlist]
    exact h.mem_lru r

/-- The ranges of the open areas stay, and a new area has none. -/
structure Kept (s s' : State) : Prop where
  nextArea : s.nextArea ≤ s'.nextArea
  entries : ∀ a ∈ s'.opened, entries s' a = [] ∧ s.nextArea ≤ a ∨
    a ∈ s.opened ∧ Ashmem.entries s' a = Ashmem.entries s a

theorem Kept.refl (s : State) : Kept s s := ⟨Nat.le_refl _, fun _ ha => .inr ⟨ha, rfl⟩⟩

theorem Sound.of_kept (h : Sound s) (hb : Booked s') (hk : Kept s s')
    (hfew : s'.opened.length < maxAreas) : Sound s' := by
  refine ⟨hb, fun a ha => ?_, hfew⟩
  rcases hk.entries a ha with ⟨hnil, -⟩ | ⟨hopen, hentries⟩
  · rw [hnil]
    exact ⟨List.Pairwise.nil, by simp⟩
  · rw [hentries]
    exact h.ordered a hopen

theorem kept_setArea {x : Area} (hx : x.unpinnedList = (s.area a).unpinnedList) :
    Kept s (s.setArea a x) := by
  refine ⟨Nat.le_refl _, fun b hb => .inr ⟨hb, ?_⟩⟩
  unfold entries
  rw [setArea_area, setArea_range]
  by_cases hba : b = a
  · rw [hba, Function.update_self, hx]
  · rw [Function.update_of_ne hba]

theorem Sound.setArea {x : Area} (h : Sound s)
    (hx : x.unpinnedList = (s.area a).unpinnedList) : Sound (s.setArea a x) :=
  h.of_kept (h.booked.setArea hx) (kept_setArea hx) h.few

theorem Booked.kept_ashmemOpen (h : Booked s) (zalloc : Bool) :
    Kept s (ashmemOpen s zalloc).1 := by
  unfold Ashmem.ashmemOpen
  split
  · refine ⟨Nat.le_succ _, fun b hb => ?_⟩
    rcases List.mem_cons.mp hb with rfl | hb
    · refine .inl ⟨?_, Nat.le_refl _⟩
      simp [entries]
    · have hne : b ≠ s.nextArea := (h.known b hb).ne
      refine .inr ⟨hb, ?_⟩
      unfold entries
      rw [setArea_area, setArea_range, Function.update_of_ne hne]
  · exact .refl s

theorem Sound.ashmemOpen (h : Sound s) (zalloc : Bool) : Sound (ashmemOpen s zalloc).1 := by
  have hkept := h.booked.kept_ashmemOpen zalloc
  unfold Ashmem.ashmemOpen at hkept ⊢
  split at hkept
  · rename_i hmem
    rw [if_pos hmem]
    have hne (b : ℕ) (hb : b ∈ s.opened) : b ≠ s.nextArea := (h.booked.known b hb).ne
    have hlist (b : ℕ) (hb : b ∈ s.opened) (x : Area) :
        Function.update s.area s.nextArea x b = s.area b := Function.update_of_ne (hne b hb) _ _
    refine h.of_kept ⟨?_, ?_, ?_, ?_, h.booked.lruNodup, fun r => ?_, h.booked.count⟩ hkept hmem.2
    · exact List.nodup_cons.mpr ⟨fun hb => hne _ hb rfl, h.booked.opened⟩
    all_goals dsimp only [State.setArea]
    · rintro b (_ | ⟨_, hb⟩)
      · exact Nat.lt_succ_self _
      · exact Nat.lt_succ_of_lt (h.booked.known b hb)
    · rintro b (_ | ⟨_, hb⟩) r hr
      · rw [Function.update_self] at hr
        cases hr
      · rw [hlist b hb] at hr
        exact h.booked.asma b hb r hr
    · rintro b (_ | ⟨_, hb⟩)
      · rw [Function.update_self]
        exact List.nodup_nil
      · rw [hlist b hb]
        exact h.booked.nodup b hb
    · rw [h.booked.mem_lru]
      constructor
      · rintro ⟨b, hb, hr⟩
        exact ⟨b, List.mem_cons_of_mem _ hb, by rwa [hlist b hb]⟩
      · rintro ⟨b, _ | ⟨_, hb⟩, hr⟩
        · rw [Function.update_self] at hr
          cases hr.1
        · rw [hlist b hb] at hr
          exact ⟨b, hb, hr⟩
  · rename_i hmem
    rw [if_neg hmem]
    exact h

theorem foldl_rangeDel {l : List ℕ} (hb : Booked s) (ha : a ∈ s.opened)
    (hlist : (s.area a).unpinnedList = l) :
    Booked (l.foldl rangeDel s) ∧ Within a s (l.foldl rangeDel s) ∧
      ((l.foldl rangeDel s).area a).unpinnedList = [] := by
  induction l generalizing s with
  | nil => exact ⟨hb, .refl a s, hlist⟩
  | cons r l ih =>
      have hr : r ∈ (s.area a).unpinnedList := by rw [hlist]; simp
      have hasma := (hb.asma a ha r hr).1
      have hrest : ((rangeDel s r).area a).unpinnedList = l := by
        rw [rangeDel_area, hasma, Function.update_self, hlist]
        exact List.erase_cons_head ..
      obtain ⟨hb', hw, hnil⟩ := ih (hb.rangeDel ha hr) (by rwa [rangeDel_opened]) hrest
      exact ⟨hb', (Within.rangeDel hasma).trans hw, hnil⟩

theorem Booked.kept_ashmemRelease (h : Booked s) (ha : a ∈ s.opened) :
    Kept s (ashmemRelease s a) := by
  obtain ⟨hb, hw, -⟩ := foldl_rangeDel h ha rfl
  refine ⟨hw.nextArea.symm.le, fun b hopen => ?_⟩
  obtain ⟨hne, hopen⟩ := (hb.opened.mem_erase_iff).mp hopen
  rw [hw.opened] at hopen
  exact .inr ⟨hopen, hw.entries_eq h ha hopen hne⟩

theorem Sound.ashmemRelease (h : Sound s) (ha : a ∈ s.opened) : Sound (ashmemRelease s a) := by
  have hkept := h.booked.kept_ashmemRelease ha
  obtain ⟨hb, hw, hnil⟩ := foldl_rangeDel h.booked ha rfl
  unfold Ashmem.ashmemRelease at hkept ⊢
  generalize (s.area a).unpinnedList.foldl rangeDel s = t at hb hw hnil hkept ⊢
  have hmem {b : ℕ} (hopen : b ∈ t.opened.erase a) : b ∈ t.opened := List.mem_of_mem_erase hopen
  refine h.of_kept ⟨hb.opened.erase a, fun b hopen => hb.known b (hmem hopen),
    fun b hopen => hb.asma b (hmem hopen), fun b hopen => hb.nodup b (hmem hopen), hb.lruNodup,
    fun r => ?_, hb.count⟩ hkept ?_
  · rw [hb.mem_lru]
    constructor
    · rintro ⟨b, hopen, hr, hon⟩
      refine ⟨b, (hb.opened.mem_erase_iff).mpr ⟨fun heq => ?_, hopen⟩, hr, hon⟩
      rw [heq, hnil] at hr
      cases hr
    · rintro ⟨b, hopen, hr⟩
      exact ⟨b, hmem hopen, hr⟩
  · change (t.opened.erase a).length < maxAreas
    rw [hw.opened]
    exact lt_of_le_of_lt (List.erase_sublist.length_le) h.few

/-! ### Pinning and unpinning -/

theorem Sound.of_within (h : Sound s) (ha : a ∈ s.opened) (hb : Booked s') (hw : Within a s s')
    (hord : Ordered maxPages (entries s' a)) : Sound s' := by
  refine ⟨hb, fun b hopen => ?_, hw.opened ▸ h.few⟩
  rw [hw.opened] at hopen
  by_cases hba : b = a
  · rwa [hba]
  · rw [hw.entries_eq h.booked ha hopen hba]
    exact h.ordered b hopen

theorem Sound.ashmemPin {first last : ℕ} {zalloc : Bool} (h : Sound s) (ha : a ∈ s.opened)
    (hle : first ≤ last) (hlast : last < maxPages) :
    Sound (ashmemPin s a first last zalloc).1 := by
  obtain ⟨hb, hw, hentries, -⟩ := ashmemPin_spec (by decide) hle hlast h.booked ha (h.ordered a ha)
  exact h.of_within ha hb hw (hentries ▸ (h.ordered a ha).flatMap_pieces hle)

theorem Sound.unpinned {first last : ℕ} {zalloc purged : Bool} {out : State × Except Errno Unit}
    (h : Sound s) (ha : a ∈ s.opened) (hu : Unpinned maxPages a first last zalloc purged s out) :
    Sound out.1 := by
  cases hu with
  | covered he hsub => exact h
  | failed _ hb hw hsub => exact h.of_within ha hb hw ((h.ordered a ha).sublist hsub)
  | placed _ hb hw hnext hr => exact h.of_within ha hb hw hr.ordered

theorem pinInterval_lt {x : Area} {offset len : UInt32} {i : ℕ × ℕ}
    (h : pinInterval x offset len = some i) (hlast : i.2 < pageAlign x.size / pageSize) :
    i.2 < maxPages := by
  have hoffset : offset.toNat < 2 ^ 32 := offset.toNat_lt
  have hlen : len.toNat < 2 ^ 32 := len.toNat_lt
  have halign : pageAlign x.size < 2 ^ 64 :=
    lt_of_le_of_lt (Nat.div_mul_le_self _ _) (Nat.mod_lt _ (by decide))
  unfold pinInterval at h
  dsimp only at h
  generalize (if len.toNat = 0 then wsub (pageAlign x.size) offset.toNat % 2 ^ 32
    else len.toNat) = n at h
  split at h
  · cases h
  split at h
  · cases h
  split at h
  · cases h
  split at h
  · cases h
  · cases h
    revert hlast
    simp only [wsub, wadd_def, wordSize, pageSize, maxPages]
    omega

/-! ### The shrinker -/

theorem Sound.purge (h : Sound s) (hr : r ∈ s.ashmemLruList) :
    Sound (lruDel (s.setRange r { s.range r with purged := true }) r) := by
  refine ⟨h.booked.purge hr, fun a ha => ?_, h.few⟩
  have hsame (q : ℕ) : (Function.update s.range r { s.range r with purged := true } q).pgstart =
      (s.range q).pgstart ∧
      (Function.update s.range r { s.range r with purged := true } q).pgend =
        (s.range q).pgend := by
    by_cases hq : q = r
    · rw [hq, Function.update_self]
      exact ⟨rfl, rfl⟩
    · rw [Function.update_of_ne hq]
      exact ⟨rfl, rfl⟩
  have hord := h.ordered a ha
  refine ⟨?_, fun e he => ?_⟩
  · refine List.pairwise_map.mpr ?_
    refine (List.pairwise_map.mp hord.descending).imp fun {x y} hlt => ?_
    change (Function.update s.range r _ y).pgend < (Function.update s.range r _ x).pgstart
    rw [(hsame x).1, (hsame y).2]
    exact hlt
  · obtain ⟨q, hq, rfl⟩ := List.mem_map.mp he
    have hproper := hord.proper (q, s.range q) (mem_entries.mpr ⟨hq, rfl⟩)
    change (Function.update s.range r _ q).Proper maxPages
    unfold Range.Proper at hproper ⊢
    rw [(hsame q).1, (hsame q).2]
    exact hproper

theorem Sound.shrinkLoop {l : List ℕ} {nr freed : ℕ} (h : Sound s)
    (hlist : s.ashmemLruList = l) : Sound (shrinkLoop l nr s freed).1 := by
  induction l generalizing s nr freed with
  | nil => exact h
  | cons r l ih =>
      have hnext := h.purge (r := r) (by rw [hlist]; simp)
      rw [Ashmem.shrinkLoop]
      generalize wsub nr 1 = n
      split
      · exact hnext
      · refine ih hnext ?_
        change s.ashmemLruList.erase r = l
        rw [hlist, List.erase_cons_head]

theorem Sound.ashmemShrinkScan (h : Sound s) (gfpFs : Bool) (nr : ℕ) :
    Sound (ashmemShrinkScan s gfpFs nr).1 := by
  unfold Ashmem.ashmemShrinkScan
  split
  · exact h.shrinkLoop rfl
  · exact h

/-! ### The device -/

theorem Sound.ashmemPinUnpin {cmd : PinCmd} {offset len : UInt32} {zalloc : Bool} (h : Sound s)
    (ha : a ∈ s.opened) (hok : (Op.pinUnpin a cmd offset len zalloc).Proper s) :
    ∃ out, ashmemPinUnpin s a cmd offset len zalloc = some out ∧ Sound out.1 := by
  unfold Ashmem.ashmemPinUnpin
  cases hi : pinInterval (s.area a) offset len with
  | none => exact ⟨_, rfl, h⟩
  | some i =>
      obtain ⟨hle, hpages⟩ := hok i hi
      have hlast := pinInterval_lt hi hpages
      obtain ⟨first, last⟩ := i
      cases cmd with
      | pin => exact ⟨_, rfl, h.ashmemPin ha hle hlast⟩
      | unpin =>
          have hunpin : ∃ out, ashmemUnpin s a first last zalloc = some out ∧
              Unpinned maxPages a first last zalloc false s out :=
            ashmemUnpin_spec hle hlast h.booked ha (h.ordered a ha)
          obtain ⟨out, hout, hu⟩ := hunpin
          refine ⟨_, by simp only [hout]; rfl, h.unpinned ha hu⟩
      | getPinStatus => exact ⟨_, rfl, h⟩

theorem setSize_eq (a n : ℕ) : (setSize s a n).1 = s ∨
    ∃ x, (setSize s a n).1 = s.setArea a x ∧ x.unpinnedList = (s.area a).unpinnedList := by
  unfold setSize
  split
  · exact .inl rfl
  · exact .inr ⟨_, rfl, rfl⟩

theorem setProtMask_eq (a : ℕ) (prot : Flags) (personality : BitVec 32) :
    (setProtMask s a prot personality).1 = s ∨
      ∃ x, (setProtMask s a prot personality).1 = s.setArea a x ∧
        x.unpinnedList = (s.area a).unpinnedList := by
  unfold setProtMask
  split
  · exact .inl rfl
  · exact .inr ⟨_, rfl, rfl⟩

theorem ashmemMmap_eq (a : ℕ) (vmFlags : Flags) (x y : Except Errno Unit) :
    (ashmemMmap s a vmFlags x y).1 = s ∨
      ∃ z, (ashmemMmap s a vmFlags x y).1 = s.setArea a z ∧
        z.unpinnedList = (s.area a).unpinnedList := by
  unfold ashmemMmap
  split
  · exact .inl rfl
  split
  · exact .inl rfl
  dsimp only
  split
  · exact .inl rfl
  split
  · exact .inr ⟨_, rfl, rfl⟩
  · exact .inr ⟨_, rfl, rfl⟩

theorem Sound.of_setArea (h : Sound s)
    (hs : s' = s ∨ ∃ x, s' = s.setArea a x ∧ x.unpinnedList = (s.area a).unpinnedList) :
    Sound s' ∧ Kept s s' := by
  obtain rfl | ⟨x, rfl, hx⟩ := hs
  · exact ⟨h, .refl _⟩
  · exact ⟨h.setArea hx, kept_setArea hx⟩

theorem Sound.step (h : Sound s) (hok : op.Proper s)
    (hopen : ∀ a, op.asma = some a → a ∈ s.opened) :
    ∃ s', step s op = .ok s' ∧ Sound s' := by
  unfold Ashmem.step
  cases op with
  | «open» zalloc => exact ⟨_, rfl, h.ashmemOpen zalloc⟩
  | release a =>
      have ha := hopen a rfl
      exact ⟨_, if_pos ha, h.ashmemRelease ha⟩
  | setSize a n => exact ⟨_, if_pos (hopen a rfl), (h.of_setArea (setSize_eq a n)).1⟩
  | setProtMask a prot personality =>
      exact ⟨_, if_pos (hopen a rfl), (h.of_setArea (setProtMask_eq a prot personality)).1⟩
  | mmap a vmFlags x y =>
      exact ⟨_, if_pos (hopen a rfl), (h.of_setArea (ashmemMmap_eq a vmFlags x y)).1⟩
  | pinUnpin a cmd offset len zalloc =>
      have ha := hopen a rfl
      obtain ⟨out, hout, hsound⟩ := h.ashmemPinUnpin ha hok
      refine ⟨out.1, ?_, hsound⟩
      dsimp only [Op.asma, apply]
      rw [if_pos ha, hout]
  | shrinkScan gfpFs nr => exact ⟨_, rfl, h.ashmemShrinkScan gfpFs nr⟩

theorem asma_of_step (hstep : step s op = .ok s') : ∀ a, op.asma = some a → a ∈ s.opened := by
  intro a ha
  unfold step at hstep
  rw [ha] at hstep
  dsimp only at hstep
  split at hstep
  · assumption
  · cases hstep

theorem sound_of_reach (h : Reach step (fun s op => op.Proper s) State.init s) : Sound s := by
  refine h.invariant (I := Sound) sound_init fun s op s' hs hok hstep => ?_
  obtain ⟨t, ht, hsound⟩ := hs.step hok (asma_of_step hstep)
  rw [hstep] at ht
  exact Except.ok.inj ht ▸ hsound

/-! ### The count -/

theorem Ordered.sum_le {l : List (ℕ × Range)} {n : ℕ} (h : Ordered maxPages l)
    (hlt : ∀ x ∈ l, x.2.pgend < n) : (l.map fun x => x.2.rangeSize).sum ≤ n := by
  induction l generalizing n with
  | nil => simp
  | cons x l ih =>
      have hx := h.proper x List.mem_cons_self
      have hrest := ih (h.sublist (List.sublist_cons_self _ _)) fun y hy =>
        (List.pairwise_cons.mp h.descending).1 y hy
      have hend := hlt x List.mem_cons_self
      rw [List.map_cons, List.sum_cons, Range.rangeSize_eq hx]
      unfold Range.Proper at hx
      omega

theorem sum_flatMap_le {l : List ℕ} {f : ℕ → List ℕ} {n : ℕ} (h : ∀ a ∈ l, (f a).sum ≤ n) :
    (l.flatMap f).sum ≤ l.length * n := by
  induction l with
  | nil => simp
  | cons a l ih =>
      have ha := h a List.mem_cons_self
      have hl := ih fun b hb => h b (List.mem_cons_of_mem a hb)
      rw [List.flatMap_cons, List.sum_append, List.length_cons, Nat.succ_mul]
      omega

theorem Sound.lruSum_lt (h : Sound s) : lruSum s < 2 ^ 64 := by
  have hsub : s.ashmemLruList ⊆ s.opened.flatMap fun a => (s.area a).unpinnedList := by
    intro r hr
    obtain ⟨a, ha, hra, -⟩ := (h.booked.mem_lru r).mp hr
    exact List.mem_flatMap.mpr ⟨a, ha, hra⟩
  obtain ⟨l, hperm, hl⟩ := h.booked.lruNodup.subperm hsub
  have hsum : lruSum s =
      (l.map fun r => (s.range r).rangeSize).sum := (hperm.map _).sum_eq.symm
  have hle : (l.map fun r => (s.range r).rangeSize).sum ≤
      ((s.opened.flatMap fun a => (s.area a).unpinnedList).map
        fun r => (s.range r).rangeSize).sum := (hl.map _).sum_le_sum fun _ _ => Nat.zero_le _
  have hareas : ((s.opened.flatMap fun a => (s.area a).unpinnedList).map
      fun r => (s.range r).rangeSize).sum ≤ s.opened.length * maxPages := by
    rw [List.map_flatMap]
    refine sum_flatMap_le fun a ha => ?_
    have hord := h.ordered a ha
    have := hord.sum_le fun x hx => (hord.proper x hx).2
    unfold entries at this
    rwa [List.map_map] at this
  have hfew := h.few
  rw [hsum]
  refine lt_of_le_of_lt (hle.trans hareas) ?_
  unfold maxAreas at hfew
  unfold maxPages
  omega

theorem Sound.lruCount_eq (h : Sound s) :
    s.lruCount =
      (s.ashmemLruList.map fun r => (s.range r).pgend - (s.range r).pgstart + 1).sum := by
  rw [h.booked.count, Nat.mod_eq_of_lt h.lruSum_lt, lruSum]
  refine congrArg List.sum (List.map_congr_left fun r hr => ?_)
  obtain ⟨a, ha, hra, -⟩ := (h.booked.mem_lru r).mp hr
  exact Range.rangeSize_eq ((h.ordered a ha).proper (r, s.range r) (mem_entries.mpr ⟨hra, rfl⟩))

/-- In every run, whether or not there is memory for new ranges: the ranges of an area are
disjoint and not empty, the last pages first; the list of the shrinker has the ranges of all
areas that were not purged, each once; and `lru_count` is the number of their pages. -/
theorem ranges_in_order (h : Reach step (fun s op => op.Proper s) State.init s) :
    (∀ a ∈ s.opened,
      ((s.area a).unpinnedList.Pairwise fun r q => (s.range q).pgend < (s.range r).pgstart) ∧
        ∀ r ∈ (s.area a).unpinnedList,
          (s.range r).asma = a ∧ (s.range r).pgstart ≤ (s.range r).pgend) ∧
      (s.ashmemLruList.Nodup ∧ ∀ r, r ∈ s.ashmemLruList ↔
        ∃ a ∈ s.opened, r ∈ (s.area a).unpinnedList ∧ (s.range r).purged = false) ∧
      s.lruCount =
        (s.ashmemLruList.map fun r => (s.range r).pgend - (s.range r).pgstart + 1).sum := by
  have hs := sound_of_reach h
  refine ⟨fun a ha => ⟨?_, fun r hr => ⟨(hs.booked.asma a ha r hr).1, ?_⟩⟩,
    ⟨hs.booked.lruNodup, fun r => ?_⟩, hs.lruCount_eq⟩
  · exact List.pairwise_map.mp (hs.ordered a ha).descending
  · exact ((hs.ordered a ha).proper (r, s.range r) (mem_entries.mpr ⟨hr, rfl⟩)).1
  · rw [hs.booked.mem_lru r]
    simp only [Range.onLru, Bool.not_eq_true']

instance (s : State) (op : Op) : Decidable (op.Proper s) :=
  match op with
  | .pinUnpin a _ offset len _ =>
      match h : pinInterval (s.area a) offset len with
      | none => .isTrue fun i hi => by rw [h] at hi; cases hi
      | some i =>
          decidable_of_iff (i.1 ≤ i.2 ∧ i.2 < pageAlign (s.area a).size / pageSize)
            ⟨fun hok j hj => by rw [h] at hj; cases hj; exact hok, fun hok => hok i h⟩
  | .open _ | .release _ | .setSize _ _ | .setProtMask _ _ _ | .mmap _ _ _ _ | .shrinkScan _ _ =>
      .isTrue trivial

/-- Eight pages are unpinned and purged, four others are unpinned, and a page in the middle of
each is pinned; there is no memory to split the first. -/
theorem ranges_in_order_split : ∃ s, Reach step (fun s op => op.Proper s) State.init s ∧
    s.lruCount = 3 ∧ s.lruCount =
      (s.ashmemLruList.map fun r => (s.range r).pgend - (s.range r).pgstart + 1).sum := by
  obtain ⟨s, hs, hcount⟩ := Option.map_eq_some_iff.mp
    (show (runChecked step (fun s op => op.Proper s) State.init
        [.open true, .setSize 0 65536, .mmap 0 3 (.ok ()) (.ok ()),
          .pinUnpin 0 .unpin 0 32768 true, .shrinkScan true 1, .pinUnpin 0 .unpin 40960 16384 true,
          .pinUnpin 0 .pin 8192 4096 false, .pinUnpin 0 .pin 45056 4096 true]).map
          (fun s => s.lruCount) = some 3 by decide +kernel)
  have hreach := reach_of_runChecked hs
  exact ⟨s, hreach, hcount, (ranges_in_order hreach).2.2⟩

end Ashmem

end BinderForLinux
