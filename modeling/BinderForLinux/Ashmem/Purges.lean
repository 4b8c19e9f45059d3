import BinderForLinux.Ashmem.Runs

/-!
# What is said about purged pages

A client that pins pages is told whether they were purged. The device only keeps one bit for each
range, and ranges are cut, split and merged; the history keeps for each page whether it was purged
since it was last pinned, and for each range which pages were purged while they were in it or in
a range that it was merged or split from.
-/

namespace BinderForLinux

namespace Ashmem

open Library

variable {s s' : State} {a b r q first last : ℕ} {op : Op}

structure History where
  /-- The page of the area was purged since it was last pinned. -/
  stale : ℕ → ℕ → Bool
  /-- The page was purged when it was in the range, or in one that the range was merged or split
  from: the part that is split off behind the pinned pages keeps all that is known of the whole. -/
  taint : ℕ → ℕ → Bool

def History.init : History := ⟨fun _ _ => false, fun _ _ => false⟩

def Op.pins (s : State) (op : Op) (a p : ℕ) : Bool :=
  match op with
  | .pinUnpin b .pin offset len _ =>
      match pinInterval (s.area b) offset len with
      | some (first, last) => decide (a = b ∧ first ≤ p ∧ p ≤ last)
      | none => false
  | _ => false

def purgedRanges (s s' : State) : List ℕ :=
  s.ashmemLruList.filter fun r => decide (r ∉ s'.ashmemLruList)

/-- The ranges that a new one was made of: those it has pages of. -/
def parents (s s' : State) : List ℕ :=
  let x := s'.range s.nextRange
  (s.area x.asma).unpinnedList.filter fun r =>
    decide (x.Meets (s.range r).pgstart (s.range r).pgend)

def Op.purgedRanges (op : Op) (s s' : State) : List ℕ :=
  match op with
  | .shrinkScan _ _ => Ashmem.purgedRanges s s'
  | _ => []

def History.next (h : History) (s s' : State) (op : Op) : History where
  stale a p := (h.stale a p && !op.pins s a p) || (op.purgedRanges s s').any fun r =>
    decide ((s.range r).asma = a) && decide ((s.range r).HasPage p)
  taint r p :=
    if r = s.nextRange then (parents s s').any fun q => h.taint q p
    else h.taint r p || (decide (r ∈ op.purgedRanges s s') && decide ((s.range r).HasPage p))

def historyStep (x : State × History) (op : Op) : Except Stuck (State × History) :=
  (step x.1 op).map fun s' => (s', x.2.next x.1 s' op)

def Op.HasMemory : Op → Prop
  | .pinUnpin _ _ _ _ zalloc => zalloc = true
  | _ => True

/-- What the device says agrees with the history. -/
structure Told (s : State) (h : History) : Prop where
  sound : Sound s
  known : ∀ a p, h.stale a p = true → a < s.nextArea
  stale : ∀ a ∈ s.opened, ∀ p, h.stale a p = true →
    ∃ e ∈ entries s a, e.2.HasPage p ∧ e.2.purged = true
  taint : ∀ a ∈ s.opened, ∀ e ∈ entries s a, e.2.purged = true ↔ ∃ p, h.taint e.1 p = true

theorem told_init : Told State.init History.init :=
  ⟨sound_init, by simp [History.init], by simp [State.init], by simp [State.init]⟩

def Op.Mute (s : State) (op : Op) : Prop :=
  (∀ a p, op.pins s a p = false) ∧ ∀ s', op.purgedRanges s s' = []

theorem stale_of_mute {h : History} (hmute : op.Mute s) (a p : ℕ) :
    (h.next s s' op).stale a p = h.stale a p := by
  simp [History.next, hmute.1, hmute.2]

theorem taint_of_mute {h : History} (hmute : op.Mute s) (hr : r ≠ s.nextRange) (p : ℕ) :
    (h.next s s' op).taint r p = h.taint r p := by
  simp [History.next, hmute.2, hr]

theorem Told.id_ne {h : History} (ht : Told s h) (ha : a ∈ s.opened) {e : ℕ × Range}
    (he : e ∈ entries s a) : e.1 ≠ s.nextRange :=
  (ht.sound.booked.asma a ha e.1 (mem_entries.mp he).1).2.ne

theorem Told.of_mute {h : History} (ht : Told s h) (hs : Sound s') (hmute : op.Mute s)
    (hk : Kept s s') : Told s' (h.next s s' op) := by
  refine ⟨hs, fun a p hp => ?_, fun a ha p hp => ?_, fun a ha e he => ?_⟩
  · rw [stale_of_mute hmute] at hp
    exact lt_of_lt_of_le (ht.known a p hp) hk.nextArea
  · rw [stale_of_mute hmute] at hp
    rcases hk.entries a ha with ⟨-, hle⟩ | ⟨hopen, hentries⟩
    · exact absurd (ht.known a p hp) (not_lt.mpr hle)
    · rw [hentries]
      exact ht.stale a hopen p hp
  · rcases hk.entries a ha with ⟨hnil, -⟩ | ⟨hopen, hentries⟩
    · rw [hnil] at he
      cases he
    · rw [hentries] at he
      rw [ht.taint a hopen e he]
      simp only [taint_of_mute hmute (ht.id_ne hopen he)]

/-! ### New ranges -/

theorem any_parents {h : History} {x : Range} (hx : s'.range s.nextRange = x) (hasma : x.asma = a)
    (p : ℕ) : ((parents s s').any fun q => h.taint q p) = true ↔
      ∃ e ∈ entries s a, x.Meets e.2.pgstart e.2.pgend ∧ h.taint e.1 p = true := by
  simp only [parents, hx, hasma, List.any_eq_true, List.mem_filter, decide_eq_true_eq]
  constructor
  · rintro ⟨q, ⟨hq, hmeets⟩, htaint⟩
    exact ⟨(q, s.range q), mem_entries.mpr ⟨hq, rfl⟩, hmeets, htaint⟩
  · rintro ⟨e, he, hmeets, htaint⟩
    obtain ⟨hq, hrange⟩ := mem_entries.mp he
    exact ⟨e.1, ⟨hq, hrange ▸ hmeets⟩, htaint⟩

theorem taint_new {h : History} {x : Range} (hx : s'.range s.nextRange = x) (hasma : x.asma = a)
    (p : ℕ) : (h.next s s' op).taint s.nextRange p = true ↔
      ∃ e ∈ entries s a, x.Meets e.2.pgstart e.2.pgend ∧ h.taint e.1 p = true := by
  rw [← any_parents hx hasma]
  simp [History.next]

theorem taint_old {h : History} (hpurged : op.purgedRanges s s' = []) (hr : r ≠ s.nextRange)
    (p : ℕ) : (h.next s s' op).taint r p = h.taint r p := by
  simp [History.next, hpurged, hr]

theorem Told.taint_others {h : History} (ht : Told s h) (ha : a ∈ s.opened) (hw : Within a s s')
    (hpurged : op.purgedRanges s s' = []) (hb : b ∈ s.opened) (hne : b ≠ a) :
    ∀ e ∈ entries s' b, e.2.purged = true ↔ ∃ p, (h.next s s' op).taint e.1 p = true := by
  intro e he
  rw [hw.entries_eq ht.sound.booked ha hb hne] at he
  simp only [taint_old hpurged (ht.id_ne hb he)]
  exact ht.taint b hb e he

/-! ### Pinning -/

theorem Told.ashmemPin {h : History} {offset len : UInt32} (ht : Told s h) (ha : a ∈ s.opened)
    (hi : pinInterval (s.area a) offset len = some (first, last)) (hle : first ≤ last)
    (hlast : last < maxPages) :
    Told (ashmemPin s a first last true).1
      (h.next s (ashmemPin s a first last true).1 (.pinUnpin a .pin offset len true)) := by
  have hord := ht.sound.ordered a ha
  have hsound : Sound (Ashmem.ashmemPin s a first last true).1 := ht.sound.ashmemPin ha hle hlast
  obtain ⟨hb, hw, hentries, -⟩ : Booked (Ashmem.ashmemPin s a first last true).1 ∧ _ :=
    ashmemPin_spec (by decide) hle hlast ht.sound.booked ha hord
  generalize (Ashmem.ashmemPin s a first last true).1 = s' at hsound hb hw hentries ⊢
  set op : Op := .pinUnpin a .pin offset len true with hop
  have hpurged : op.purgedRanges s s' = [] := rfl
  have hstale (b p : ℕ) : (h.next s s' op).stale b p = true ↔
      h.stale b p = true ∧ ¬ (b = a ∧ first ≤ p ∧ p ≤ last) := by
    have hpins : op.pins s b p = decide (b = a ∧ first ≤ p ∧ p ≤ last) := by
      simp only [hop, Op.pins, hi]
    simp only [History.next, hpurged, hpins, List.any_nil, Bool.or_false, Bool.and_eq_true,
      Bool.not_eq_true', decide_eq_false_iff_not]
  refine ⟨hsound, fun b p hp => ?_, fun b hopen p hp => ?_, fun b hopen => ?_⟩
  · rw [hw.nextArea]
    exact ht.known b p ((hstale b p).mp hp).1
  all_goals rw [hw.opened] at hopen
  · obtain ⟨hp, hout⟩ := (hstale b p).mp hp
    obtain ⟨e, he, hpage, hbit⟩ := ht.stale b hopen p hp
    by_cases hba : b = a
    · subst hba
      obtain ⟨x, hx, hxpage⟩ := exists_piece (n := s.nextRange) hpage
        (fun hin => hout ⟨rfl, hin⟩) (.inl rfl)
      rw [hentries]
      refine ⟨x, List.mem_flatMap.mpr ⟨e, he, hx⟩, hxpage, ?_⟩
      rw [(piece_of_mem hle (hord.proper e he) hx).purged, hbit]
    · rw [hw.entries_eq ht.sound.booked ha hopen hba]
      exact ⟨e, he, hpage, hbit⟩
  · by_cases hba : b = a
    · subst hba
      intro x hx
      have hxrange := (mem_entries.mp hx).2
      have hxasma' : x.2.asma = b := by
        rw [hxrange]
        exact (hb.asma b (by rwa [hw.opened]) x.1 (mem_entries.mp hx).1).1
      rw [hentries] at hx
      obtain ⟨e, he, hx⟩ := List.mem_flatMap.mp hx
      have hpiece := piece_of_mem hle (hord.proper e he) hx
      rw [hpiece.purged, ht.taint b hopen e he]
      by_cases hid : x.1 = s.nextRange
      · -- a new range has pages of one range only
        have honly (f : ℕ × Range) (hf : f ∈ entries s b) :
            x.2.Meets f.2.pgstart f.2.pgend ↔ f = e := by
          rw [Range.meets_iff hpiece.proper (hord.proper f hf).1]
          have hin := hpiece.start_le
          have hin' := hpiece.le_end
          have hx' := hpiece.proper.1
          constructor
          · intro hmeets
            by_contra hne
            have := hord.disjoint hf he hne
            omega
          · rintro rfl
            omega
        rw [hid] at hxrange
        simp only [hid, taint_new hxrange.symm hxasma']
        constructor
        · rintro ⟨p, hp⟩
          exact ⟨p, e, he, (honly e he).mpr rfl, hp⟩
        · rintro ⟨p, f, hf, hmeets, hp⟩
          obtain rfl := (honly f hf).mp hmeets
          exact ⟨p, hp⟩
      · simp only [taint_old hpurged hid]
        obtain ⟨-, -, -, hid' | hid'⟩ | ⟨-, -, rfl⟩ | ⟨-, rfl⟩ := mem_pieces hx
        · rw [hid']
        · exact absurd hid' hid
        · exact Iff.rfl
        · exact Iff.rfl
    · exact ht.taint_others ha hw hpurged hopen hba

/-! ### Unpinning -/

theorem mute_of_cmd {cmd : PinCmd} {offset len : UInt32} {zalloc : Bool} (hcmd : cmd ≠ .pin) :
    (Op.pinUnpin a cmd offset len zalloc).Mute s := by
  refine ⟨fun b p => ?_, fun s' => rfl⟩
  cases cmd with
  | pin => exact absurd rfl hcmd
  | _ => rfl

theorem Told.unpinned {h : History} {offset len : UInt32} {out : State × Except Errno Unit}
    (ht : Told s h) (ha : a ∈ s.opened) (hu : Unpinned maxPages a first last true false s out) :
    Told out.1 (h.next s out.1 (.pinUnpin a .unpin offset len true)) := by
  have hmute : (Op.pinUnpin a .unpin offset len true).Mute s := mute_of_cmd nofun
  have hsound : Sound out.1 := ht.sound.unpinned ha hu
  cases hu with
  | covered he hsub => exact ht.of_mute ht.sound hmute (.refl s)
  | failed hzalloc => cases hzalloc
  | @placed s' x _ hb hw hnext hr =>
      have hin (e : ℕ × Range) (he : e ∈ entries s a) :
          x.pgstart ≤ e.2.pgstart ∧ e.2.pgend ≤ x.pgend ↔
            x.Meets e.2.pgstart e.2.pgend := by
        have hproper := (ht.sound.ordered a ha).proper e he
        have hx : x.Proper maxPages := hr.ordered.proper _ ((hr.mem _).mpr (.inl rfl))
        rw [Range.meets_iff hx hproper.1]
        unfold Range.Proper at hproper
        constructor
        · intro hin
          omega
        · intro hmeets
          by_contra hout
          have hmem : e ∈ entries s' a := (hr.mem e).mpr (.inr ⟨he, hout⟩)
          have hne : e ≠ (s.nextRange, x) := fun heq => ht.id_ne ha he (congrArg Prod.fst heq)
          have hdisj : e.2.pgend < x.pgstart ∨ x.pgend < e.2.pgstart :=
            hr.ordered.disjoint hmem ((hr.mem _).mpr (.inl rfl)) hne
          omega
      refine ⟨hsound, fun b p hp => ?_, fun b hopen p hp => ?_, fun b hopen => ?_⟩
      · rw [stale_of_mute hmute] at hp
        exact hw.nextArea ▸ ht.known b p hp
      all_goals rw [hw.opened] at hopen
      · rw [stale_of_mute hmute] at hp
        obtain ⟨e, he, hpage, hbit⟩ := ht.stale b hopen p hp
        by_cases hba : b = a
        · subst hba
          by_cases hwithin : x.pgstart ≤ e.2.pgstart ∧ e.2.pgend ≤ x.pgend
          · refine ⟨(s.nextRange, x), (hr.mem _).mpr (.inl rfl), ?_,
              hr.purged.mpr (.inr ⟨e, he, hwithin, hbit⟩)⟩
            exact ⟨le_trans hwithin.1 hpage.1, le_trans hpage.2 hwithin.2⟩
          · exact ⟨e, (hr.mem e).mpr (.inr ⟨he, hwithin⟩), hpage, hbit⟩
        · rw [hw.entries_eq ht.sound.booked ha hopen hba]
          exact ⟨e, he, hpage, hbit⟩
      · by_cases hba : b = a
        · subst hba
          intro e he
          rcases (hr.mem e).mp he with rfl | ⟨hold, -⟩
          · obtain ⟨hmem, hrange⟩ := mem_entries.mp he
            have hasma : x.asma = b := by
              rw [show x = s'.range s.nextRange from hrange]
              exact (hb.asma b (by rwa [hw.opened]) _ hmem).1
            simp only [hr.purged, Bool.false_eq_true, false_or, taint_new hrange.symm hasma]
            constructor
            · rintro ⟨f, hf, hwithin, hbit⟩
              obtain ⟨p, hp⟩ := (ht.taint b hopen f hf).mp hbit
              exact ⟨p, f, hf, (hin f hf).mp hwithin, hp⟩
            · rintro ⟨p, f, hf, hmeets, hp⟩
              exact ⟨f, hf, (hin f hf).mpr hmeets, (ht.taint b hopen f hf).mpr ⟨p, hp⟩⟩
          · simp only [taint_of_mute hmute (ht.id_ne hopen hold)]
            exact ht.taint b hopen e hold
        · exact ht.taint_others ha hw rfl hopen hba

/-! ### Shrinking -/

/-- The shrinker purges the first ranges of its list. -/
structure Shrunk (s s' : State) (done : List ℕ) : Prop where
  lru : s.ashmemLruList = done ++ s'.ashmemLruList
  purged : ∀ r ∈ done, s'.range r = { s.range r with purged := true }
  range : ∀ r, r ∉ done → s'.range r = s.range r
  area : s'.area = s.area
  opened : s'.opened = s.opened
  nextRange : s'.nextRange = s.nextRange
  nextArea : s'.nextArea = s.nextArea

theorem Shrunk.refl (s : State) : Shrunk s s [] :=
  ⟨rfl, by simp, fun _ _ => rfl, rfl, rfl, rfl, rfl⟩

theorem shrunk_purge {l : List ℕ} (hlist : s.ashmemLruList = r :: l) :
    Shrunk s (lruDel (s.setRange r { s.range r with purged := true }) r) [r] := by
  refine ⟨?_, fun q hq => ?_, fun q hq => ?_, rfl, rfl, rfl, rfl⟩
  · change s.ashmemLruList = [r] ++ s.ashmemLruList.erase r
    rw [hlist, List.erase_cons_head]
    rfl
  · obtain rfl := List.mem_singleton.mp hq
    exact Function.update_self ..
  · exact Function.update_of_ne (fun heq => hq (List.mem_singleton.mpr heq)) ..

theorem Shrunk.trans {s'' : State} {done done' : List ℕ} (h : Shrunk s s' done)
    (h' : Shrunk s' s'' done') : Shrunk s s'' (done ++ done') where
  lru := by rw [h.lru, h'.lru, List.append_assoc]
  purged r hr := by
    by_cases hdone' : r ∈ done'
    · rw [h'.purged r hdone']
      by_cases hdone : r ∈ done
      · rw [h.purged r hdone]
      · rw [h.range r hdone]
    · rw [h'.range r hdone', h.purged r ((List.mem_append.mp hr).resolve_right hdone')]
  range r hr := by
    rw [h'.range r fun hmem => hr (List.mem_append_right _ hmem),
      h.range r fun hmem => hr (List.mem_append_left _ hmem)]
  area := h'.area.trans h.area
  opened := h'.opened.trans h.opened
  nextRange := h'.nextRange.trans h.nextRange
  nextArea := h'.nextArea.trans h.nextArea

theorem shrinkLoop_shrunk {l : List ℕ} {nr freed : ℕ} (hlist : s.ashmemLruList = l) :
    ∃ done, Shrunk s (shrinkLoop l nr s freed).1 done := by
  induction l generalizing s nr freed with
  | nil => exact ⟨[], .refl s⟩
  | cons r l ih =>
      have hfirst := shrunk_purge hlist
      rw [shrinkLoop]
      generalize wsub nr 1 = n
      split
      · exact ⟨[r], hfirst⟩
      · have hrest := List.tail_eq_of_cons_eq (hlist.symm.trans hfirst.lru)
        obtain ⟨done, hdone⟩ := ih hrest.symm
        exact ⟨[r] ++ done, hfirst.trans hdone⟩

theorem Shrunk.purgedRanges_eq {done : List ℕ} (hshrunk : Shrunk s s' done) (hb : Booked s) :
    purgedRanges s s' = done := by
  have hnodup := hb.lruNodup
  unfold purgedRanges
  rw [hshrunk.lru] at hnodup ⊢
  obtain ⟨-, -, hdisj⟩ := List.nodup_append.mp hnodup
  rw [List.filter_append, List.filter_eq_self.mpr fun r hr => ?_,
    List.filter_eq_nil_iff.mpr fun r hr => ?_, List.append_nil]
  · simp [hr]
  · exact decide_eq_true fun hmem => hdisj r hr r hmem rfl

theorem Told.shrunk {h : History} {gfpFs : Bool} {nr : ℕ} {done : List ℕ} (ht : Told s h)
    (hs : Sound s') (hshrunk : Shrunk s s' done) :
    Told s' (h.next s s' (.shrinkScan gfpFs nr)) := by
  set op : Op := .shrinkScan gfpFs nr with hop
  have hpurged : op.purgedRanges s s' = done := hshrunk.purgedRanges_eq ht.sound.booked
  have hstale (b p : ℕ) : (h.next s s' op).stale b p = true ↔ h.stale b p = true ∨
      ∃ r ∈ done, (s.range r).asma = b ∧ (s.range r).HasPage p := by
    have hpins : op.pins s b p = false := rfl
    simp [History.next, hpurged, hpins]
  have hasma (r : ℕ) (hr : r ∈ done) :
      (s.range r).asma ∈ s.opened ∧ r ∈ (s.area (s.range r).asma).unpinnedList := by
    have hmem : r ∈ s.ashmemLruList := by
      rw [hshrunk.lru]
      exact List.mem_append_left _ hr
    obtain ⟨a, ha, hra, -⟩ := (ht.sound.booked.mem_lru r).mp hmem
    rw [(ht.sound.booked.asma a ha r hra).1]
    exact ⟨ha, hra⟩
  have hentry (b r : ℕ) (hr : r ∈ (s.area b).unpinnedList) : (r, s'.range r) ∈ entries s' b :=
    mem_entries.mpr ⟨hshrunk.area ▸ hr, rfl⟩
  refine ⟨hs, fun b p hp => ?_, fun b hb p hp => ?_, fun b hb e he => ?_⟩
  · rw [hshrunk.nextArea]
    rcases (hstale b p).mp hp with hp | ⟨r, hr, rfl, -⟩
    · exact ht.known b p hp
    · exact ht.sound.booked.known _ (hasma r hr).1
  · rw [hshrunk.opened] at hb
    rcases (hstale b p).mp hp with hp | ⟨r, hr, rfl, hpage⟩
    · obtain ⟨e, he, hpage, hbit⟩ := ht.stale b hb p hp
      obtain ⟨hid, hrange⟩ := mem_entries.mp he
      rw [hrange] at hpage hbit
      refine ⟨_, hentry b e.1 hid, ?_⟩
      by_cases hdone : e.1 ∈ done
      · dsimp only
        rw [hshrunk.purged _ hdone]
        exact ⟨hpage, rfl⟩
      · dsimp only
        rw [hshrunk.range _ hdone]
        exact ⟨hpage, hbit⟩
    · refine ⟨_, hentry _ r (hasma r hr).2, ?_⟩
      dsimp only
      rw [hshrunk.purged r hr]
      exact ⟨hpage, rfl⟩
  · obtain ⟨hid, hrange⟩ := mem_entries.mp he
    rw [hshrunk.opened] at hb
    rw [hshrunk.area] at hid
    have hold : (e.1, s.range e.1) ∈ entries s b := mem_entries.mpr ⟨hid, rfl⟩
    have hne : e.1 ≠ s.nextRange := ht.id_ne (e := (e.1, s.range e.1)) hb hold
    have htaint (p : ℕ) : (h.next s s' op).taint e.1 p = true ↔
        h.taint e.1 p = true ∨ e.1 ∈ done ∧ (s.range e.1).HasPage p := by
      simp [History.next, hpurged, hne]
    rw [hrange]
    simp only [htaint]
    by_cases hdone : e.1 ∈ done
    · rw [hshrunk.purged _ hdone]
      have hproper := (ht.sound.ordered b hb).proper _ hold
      exact ⟨fun _ => ⟨(s.range e.1).pgstart, .inr ⟨hdone, le_rfl, hproper.1⟩⟩, fun _ => rfl⟩
    · rw [hshrunk.range _ hdone]
      simp only [hdone, false_and, or_false]
      exact ht.taint b hb _ hold

/-! ### Runs -/

theorem Told.pinUnpin {h : History} {cmd : PinCmd} {offset len : UInt32} {zalloc : Bool}
    (ht : Told s h) (ha : a ∈ s.opened) (hok : (Op.pinUnpin a cmd offset len zalloc).Proper s)
    (hmemory : zalloc = true) (hs : Sound s')
    (happly : apply s (.pinUnpin a cmd offset len zalloc) = .ok s') :
    Told s' (h.next s s' (.pinUnpin a cmd offset len zalloc)) := by
  subst hmemory
  unfold apply ashmemPinUnpin at happly
  dsimp only at happly
  cases hi : pinInterval (s.area a) offset len with
  | none =>
      rw [hi] at happly
      cases happly
      refine ht.of_mute hs ⟨fun b p => ?_, fun _ => rfl⟩ (.refl s)
      cases cmd with
      | pin => simp [Op.pins, hi]
      | _ => rfl
  | some i =>
      obtain ⟨hle, hpages⟩ := hok i hi
      have hlast := pinInterval_lt hi hpages
      obtain ⟨first, last⟩ := i
      rw [hi] at happly
      cases cmd with
      | pin =>
          cases happly
          exact ht.ashmemPin ha hi hle hlast
      | unpin =>
          obtain ⟨out, hout, hu⟩ : ∃ out, ashmemUnpin s a first last true = some out ∧
              Unpinned maxPages a first last true false s out :=
            ashmemUnpin_spec hle hlast ht.sound.booked ha (ht.sound.ordered a ha)
          dsimp only at happly
          rw [hout] at happly
          cases happly
          exact ht.unpinned ha hu
      | getPinStatus =>
          cases happly
          exact ht.of_mute hs (mute_of_cmd nofun) (.refl s)

theorem Told.step {h : History} (ht : Told s h) (hok : op.Proper s) (hmemory : op.HasMemory)
    (hstep : step s op = .ok s') : Told s' (h.next s s' op) := by
  have hopen := asma_of_step hstep
  obtain ⟨t, hst, hs⟩ := ht.sound.step hok hopen
  obtain rfl : s' = t := Except.ok.inj (hstep.symm.trans hst)
  have happly : apply s op = .ok s' := by
    unfold Ashmem.step at hstep
    cases hasma : op.asma with
    | none =>
        rw [hasma] at hstep
        exact hstep
    | some a =>
        rw [hasma] at hstep
        dsimp only at hstep
        rwa [if_pos (hopen a hasma)] at hstep
  cases op with
  | «open» zalloc =>
      cases happly
      exact ht.of_mute hs ⟨fun _ _ => rfl, fun _ => rfl⟩ (ht.sound.booked.kept_ashmemOpen zalloc)
  | release a =>
      cases happly
      exact ht.of_mute hs ⟨fun _ _ => rfl, fun _ => rfl⟩
        (ht.sound.booked.kept_ashmemRelease (hopen a rfl))
  | setSize a n =>
      cases happly
      exact ht.of_mute hs ⟨fun _ _ => rfl, fun _ => rfl⟩ (ht.sound.of_setArea (setSize_eq a n)).2
  | setProtMask a prot personality =>
      cases happly
      exact ht.of_mute hs ⟨fun _ _ => rfl, fun _ => rfl⟩
        (ht.sound.of_setArea (setProtMask_eq a prot personality)).2
  | mmap a vmFlags x y =>
      cases happly
      exact ht.of_mute hs ⟨fun _ _ => rfl, fun _ => rfl⟩
        (ht.sound.of_setArea (ashmemMmap_eq a vmFlags x y)).2
  | pinUnpin a cmd offset len zalloc =>
      exact ht.pinUnpin (hopen a rfl) hok hmemory hs happly
  | shrinkScan gfpFs nr =>
      cases happly
      obtain ⟨done, hdone⟩ : ∃ done, Shrunk s (ashmemShrinkScan s gfpFs nr).1 done := by
        unfold ashmemShrinkScan
        split
        · exact shrinkLoop_shrunk rfl
        · exact ⟨[], .refl s⟩
      exact ht.shrunk hs hdone

instance (op : Op) : Decidable op.HasMemory :=
  match op with
  | .pinUnpin _ _ _ _ zalloc => inferInstanceAs (Decidable (zalloc = true))
  | .open _ | .release _ | .setSize _ _ | .setProtMask _ _ _ | .mmap _ _ _ _ | .shrinkScan _ _ =>
      .isTrue trivial

theorem told_of_reach {x : State × History}
    (h : Reach historyStep (fun x op => op.Proper x.1 ∧ op.HasMemory)
      (State.init, History.init) x) : Told x.1 x.2 := by
  refine h.invariant (I := fun x => Told x.1 x.2) told_init ?_
  rintro ⟨s, h⟩ op x ht ⟨hok, hmemory⟩ hstep
  unfold historyStep at hstep
  cases hs : step s op with
  | error e =>
      rw [hs] at hstep
      cases hstep
  | ok s' =>
      rw [hs] at hstep
      cases hstep
      exact ht.step hok hmemory hs

theorem anyPurged_iff {l : List (ℕ × Range)} : anyPurged first last l = true ↔
    ∃ e ∈ l, e.2.Meets first last ∧ e.2.purged = true := by
  simp [anyPurged]

theorem Told.purged_of_stale {h : History} (ht : Told s h) (ha : a ∈ s.opened)
    (hle : first ≤ last) {p : ℕ} (hp : first ≤ p ∧ p ≤ last) (hstale : h.stale a p = true) :
    anyPurged first last (entries s a) = true := by
  obtain ⟨e, he, hpage, hbit⟩ := ht.stale a ha p hstale
  refine anyPurged_iff.mpr ⟨e, he, ?_, hbit⟩
  rw [Range.meets_iff ((ht.sound.ordered a ha).proper e he) hle]
  exact ⟨le_trans hp.1 hpage.2, le_trans hpage.1 hp.2⟩

theorem Told.not_purged {h : History} (ht : Told s h) (ha : a ∈ s.opened)
    (hclean : ∀ r ∈ (s.area a).unpinnedList, (s.range r).Meets first last →
      ∀ p, h.taint r p = false) : anyPurged first last (entries s a) = false := by
  rw [← Bool.not_eq_true, anyPurged_iff]
  rintro ⟨e, he, hmeets, hbit⟩
  obtain ⟨hid, hrange⟩ := mem_entries.mp he
  obtain ⟨p, hp⟩ := (ht.taint a ha e he).mp hbit
  rw [hrange] at hmeets
  rw [hclean e.1 hid hmeets p] at hp
  cases hp

def Op.merges : Op → Bool
  | .pinUnpin _ .unpin _ _ _ => true
  | _ => false

/-- The purged pages of each range and of those that were merged into it. A range that is split
off has no other pages than its own. -/
def mergedPages (pages : ℕ → List ℕ) (s s' : State) (op : Op) (r : ℕ) : List ℕ :=
  if r = s.nextRange then
    ((parents s s').flatMap pages).filter fun p => op.merges || decide ((s'.range r).HasPage p)
  else if r ∈ op.purgedRanges s s' then
    pages r ++ List.range' (s.range r).pgstart ((s.range r).pgend + 1 - (s.range r).pgstart)
  else pages r

def mergedStep (x : State × (ℕ → List ℕ)) (op : Op) : Except Stuck (State × (ℕ → List ℕ)) :=
  (step x.1 op).map fun s' => (s', mergedPages x.2 x.1 s' op)

end Ashmem

end BinderForLinux
