import BinderForLinux.Parcel.Duplicates

/-!
# Composite readers and their descriptors

When `readNativeHandle` and `read(FlattenableHelperInterface)` keep their descriptors straight.
The first forgets that a `dup` failed once it goes on to the numbers, and its clean-up closes
entries that were never set; the second closes nothing where it fails.
-/

namespace BinderForLinux

namespace Parcel

open Library

/-! ### Numbers -/

theorem bits_wrap {n : ℕ} (h : n < 2 ^ 31) : (CInt.wrap n).bits = n := by
  have hmod : ((n : ℤ) % 2 ^ 32).toNat = n := by omega
  have hval : (CInt.wrap n).val = n := by
    show toSigned 32 (((n : ℤ) % 2 ^ 32).toNat % 2 ^ 32) = n
    rw [hmod, Nat.mod_eq_of_lt (by omega), toSigned, if_pos h]
  rw [CInt.bits, hval, hmod]

theorem bits_of_neg {x : CInt} (h : x.val < 0) : 2 ^ 31 ≤ x.bits := by
  have hlow : -2 ^ (32 - 1) ≤ x.val := x.inRange.1
  unfold CInt.bits
  norm_num at hlow
  omega

theorem bits_of_nonneg {x : CInt} (h : 0 ≤ x.val) : x.bits < 2 ^ 31 := by
  have hhigh : x.val < 2 ^ (32 - 1) := x.inRange.2
  unfold CInt.bits
  norm_num at hhigh
  omega

theorem length_intsOf {bs : List UInt8} {n : ℕ} (h : bs.length = 4 * n) :
    (intsOf bs).length = n := by
  induction n generalizing bs with
  | zero => rw [List.length_eq_zero_iff.mp h]; rfl
  | succ n ih =>
      obtain ⟨b₀, b₁, b₂, b₃, bs, rfl⟩ : ∃ b₀ b₁ b₂ b₃ bs', bs = b₀ :: b₁ :: b₂ :: b₃ :: bs' := by
        match bs, h with
        | b₀ :: b₁ :: b₂ :: b₃ :: bs, _ => exact ⟨b₀, b₁, b₂, b₃, bs, rfl⟩
      rw [intsOf, List.length_cons, ih (by simp only [List.length_cons] at h; omega)]

theorem length_of_read {p : Parcel} {len : ℕ} {bs : List UInt8} (h : (read p len).1 = .ok bs) :
    bs.length = len := by
  unfold read at h
  split at h
  · cases h
  split at h
  · cases h
    exact length_getBytes _ _ _
  · cases h

/-! ### What is claimed -/

/-- A handle that was read from a parcel: the descriptors of the next objects were duplicated, the
handle has these duplicates, and the numbers that follow. -/
structure HandleRead (p : Parcel) (h : NativeHandle) (p' : Parcel) : Prop where
  counts : (readCounts p).1 = some ((h.numFds : ℤ), (h.numInts : ℤ))
  log : ∃ l, p'.log = p.log ++ l ∧ closedIn l = [] ∧
    List.Forall₂ (fun fd d => fd = some d.1 ∧ d.2 < 2 ^ 31)
      (readFds h.numFds (readCounts p).2).1 (dupsIn l) ∧
    h.fds.map CInt.bits = (dupsIn l).map Prod.snd
  ints : ∃ bs, (read (readFds h.numFds (readCounts p).2).2 (4 * h.numInts)).1 = .ok bs ∧
    h.ints = (intsOf bs).map .wrap

/-- `readNativeHandle` returns such a handle, or has closed what it duplicated. -/
structure HandleStraight (o : Oracle) (p : Parcel) (w : World) : Prop where
  returned : ∀ h p' w', readNativeHandle o p w = (some h, p', w') → HandleRead p h p'
  null : ∀ p' w', readNativeHandle o p w = (none, p', w') →
    ∃ l, p'.log = p.log ++ l ∧ (closedIn l).Perm (dupedIn l)

/-- `read(FlattenableHelperInterface)` leaves no duplicate open where it fails. -/
def FlattenableStraight (o : Oracle) (unflatten : Unflatten) (p : Parcel) (w : World) : Prop :=
  ∀ st p' w', readFlattenable o unflatten p w = (some st, p', w') → st ≠ .noError →
    ∃ l, p'.log = p.log ++ l ∧ ∀ fd ∈ dupedIn l, fd ∈ closedIn l

/-! ### When it holds -/

/-- Where there is a handle to fill, all its descriptors are duplicated, or the numbers are not
there either and the entries that are not set do not name descriptors. -/
def HandleDups (o : Oracle) (p : Parcel) (w : World) : Prop :=
  ∀ counts h w₁, (readCounts p).1 = some counts →
    nativeHandleCreate o w counts.1 counts.2 = (some h, w₁) →
    (duplicates o w₁.dups h.numFds (readCounts p).2).length = h.numFds ∨
    ((read (readFds ((duplicates o w₁.dups h.numFds (readCounts p).2).length + 1)
        (readCounts p).2).2 (4 * h.numInts)).1.toOption = none ∧
      ∀ fd ∈ h.fds.drop ((duplicates o w₁.dups h.numFds (readCounts p).2).length + 1), fd.val < 0)

/-- Where there is an array to fill, nothing is duplicated or all is, and then the callback accepts
the descriptors or closes them. -/
def FlattenableDups (o : Oracle) (unflatten : Unflatten) (p : Parcel) (w : World) : Prop :=
  ∀ buf n fds w₁, (readPayload p).1 = some (buf, n) → newInts o w n = (some fds, w₁) →
    ((duplicates o w₁.dups fds.length (readPayload p).2).length < fds.length →
      duplicates o w₁.dups fds.length (readPayload p).2 = []) ∧
    ((duplicates o w₁.dups fds.length (readPayload p).2).length = fds.length →
      (unflatten buf ((duplicates o w₁.dups fds.length (readPayload p).2).map
        fun d => .wrap d.2)).1 ≠ .noError →
      ∀ d ∈ duplicates o w₁.dups fds.length (readPayload p).2,
        d.2 ∈ (unflatten buf ((duplicates o w₁.dups fds.length (readPayload p).2).map
          fun d => .wrap d.2)).2)

/-! ### Closing -/

section Closing

variable {fds : List CInt} {ds : List (ℕ × ℕ)}

theorem closedIn_close (ns : List ℕ) : closedIn (ns.map .close) = ns.flatMap validFd := by
  induction ns with
  | nil => rfl
  | cons n ns ih =>
      rw [List.map_cons, List.flatMap_cons, ← ih]
      rfl

theorem dupedIn_close (ns : List ℕ) : dupedIn (ns.map .close) = [] := by
  induction ns with
  | nil => rfl
  | cons n ns ih => exact ih

theorem nativeHandleClose_eq (h : NativeHandle) :
    nativeHandleClose h = (h.fds.map CInt.bits).map .close := by
  rw [List.map_map]
  rfl

theorem map_bits_duplicates (h : ∀ d ∈ ds, d.2 < 2 ^ 31) :
    (ds.map fun d => CInt.wrap d.2).map CInt.bits = ds.map Prod.snd := by
  rw [List.map_map]
  exact List.map_congr_left fun d hd => bits_wrap (h d hd)

theorem flatMap_validFd_duplicates (h : ∀ d ∈ ds, d.2 < 2 ^ 31) :
    (ds.map Prod.snd).flatMap validFd = ds.map Prod.snd := by
  induction ds with
  | nil => rfl
  | cons d ds ih =>
      rw [List.map_cons, List.flatMap_cons, validFd, if_pos (h d List.mem_cons_self),
        ih fun d' hd => h d' (List.mem_cons_of_mem d hd)]
      rfl

theorem flatMap_validFd_eq_nil :
    (fds.map CInt.bits).flatMap validFd = [] ↔ ∀ fd ∈ fds, fd.val < 0 := by
  rw [List.flatMap_eq_nil_iff]
  constructor
  · intro h fd hfd
    have hnil := h fd.bits (List.mem_map_of_mem hfd)
    by_contra hneg
    rw [validFd, if_pos (bits_of_nonneg (not_lt.mp hneg))] at hnil
    cases hnil
  · intro h n hn
    obtain ⟨fd, hfd, rfl⟩ := List.mem_map.mp hn
    exact if_neg (not_lt.mpr (bits_of_neg (h fd hfd)))

end Closing

/-! ### Native handles -/

section Handles

variable {o : Oracle} {p p' q : Parcel} {w w' : World} {h : NativeHandle} {ds : List (ℕ × ℕ)}

theorem loads_readCounts (p : Parcel) :
    ∃ l, (readCounts p).2.log = p.log ++ l ∧ ∀ e ∈ l, e.IsLoad := by
  have h₁ := readOnly_readAligned p 4
  rcases hr : readAligned p 4 with ⟨_ | v, q⟩
  · rw [hr] at h₁
    simp only [readCounts, hr]
    exact h₁.loads
  · rw [hr] at h₁
    have h₂ := readOnly_readAligned q 4
    rcases hs : readAligned q 4 with ⟨_ | v', q'⟩
    · rw [hs] at h₂
      simp only [readCounts, hr, hs]
      exact (h₁.trans h₂).loads
    · rw [hs] at h₂
      simp only [readCounts, hr, hs]
      exact (h₁.trans h₂).loads

/-- The counts of a handle that was created are those it was created with. -/
theorem counts_of_create {numFds numInts : ℤ}
    (hc : nativeHandleCreate o w numFds numInts = (some h, w')) :
    (h.numFds : ℤ) = numFds ∧ (h.numInts : ℤ) = numInts := by
  unfold nativeHandleCreate at hc
  split at hc
  · cases hc
  rename_i hok
  simp only [not_or, not_lt] at hok
  rcases hw : w.alloc o with ⟨_ | b, w₁⟩
  · rw [hw] at hc
    cases hc
  · rw [hw] at hc
    cases hc
    simp only [NativeHandle.numFds, NativeHandle.numInts, intsAt, List.length_map,
      List.length_range]
    exact ⟨Int.toNat_of_nonneg hok.1, Int.toNat_of_nonneg hok.2.1⟩

theorem fill_cases (o : Oracle) (q : Parcel) (w : World) (h : NativeHandle) :
    ∃ l, Shows l (duplicates o w.dups h.numFds q) ∧
      ((∃ bs p' w', (read (dupEach o q w h.fds).2.2.1 (4 * h.numInts)).1 = .ok bs ∧
        p'.log = q.log ++ l ∧ fillNativeHandle o q w h =
          (some { h with fds := (dupEach o q w h.fds).2.1, ints := (intsOf bs).map .wrap },
            p', w')) ∨
      (∃ p' w', (read (dupEach o q w h.fds).2.2.1 (4 * h.numInts)).1.toOption = none ∧
        p'.log = q.log ++ l ++ nativeHandleClose { h with fds := (dupEach o q w h.fds).2.1 } ∧
        fillNativeHandle o q w h = (none, p', w'))) := by
  obtain ⟨l, hl, hshows⟩ := (dupsLeft o q w h.fds).log
  have hread := readOnly_read (dupEach o q w h.fds).2.2.1 (4 * h.numInts)
  obtain ⟨l', hl', hload⟩ := hread.loads
  have happ := hshows.append (.loads hload)
  rw [List.append_nil] at happ
  refine ⟨l ++ l', happ, ?_⟩
  rcases hr : read (dupEach o q w h.fds).2.2.1 (4 * h.numInts) with ⟨e | bs, p'⟩
  · rw [hr] at hl'
    refine .inr
      ⟨p'.record (nativeHandleClose { h with fds := (dupEach o q w h.fds).2.1 }),
        (dupEach o q w h.fds).2.2.2, rfl, ?_, ?_⟩
    · show p'.log ++ _ = _
      rw [hl', hl]
      simp only [List.append_assoc]
    · unfold fillNativeHandle
      simp only [NativeHandle.numInts] at hr
      simp only [NativeHandle.numInts, hr]
  · rw [hr] at hl'
    refine .inl ⟨bs, p', (dupEach o q w h.fds).2.2.2, rfl, ?_, ?_⟩
    · rw [hl', hl, List.append_assoc]
    · unfold fillNativeHandle
      simp only [NativeHandle.numInts] at hr
      simp only [NativeHandle.numInts, hr]

theorem handleRead_of_all {l : List Effect} {counts : ℤ × ℤ} {bs : List UInt8}
    (hcounts : (readCounts p).1 = some counts)
    (hcreate : nativeHandleCreate o w counts.1 counts.2 = (some h, w'))
    (hall : (duplicates o w'.dups h.numFds (readCounts p).2).length = h.numFds)
    (hshows : Shows l (duplicates o w'.dups h.numFds (readCounts p).2))
    (hread : (read (readFds h.numFds (readCounts p).2).2 (4 * h.numInts)).1 = .ok bs)
    (hlog : p'.log = p.log ++ l) :
    HandleRead p
      { h with
        fds := (duplicates o w'.dups h.numFds (readCounts p).2).map fun d => .wrap d.2
        ints := (intsOf bs).map .wrap } p' := by
  have hfds : NativeHandle.numFds { h with
      fds := (duplicates o w'.dups h.numFds (readCounts p).2).map fun d => .wrap d.2
      ints := (intsOf bs).map .wrap } = h.numFds := by
    rw [NativeHandle.numFds, List.length_map, hall]
  have hints : NativeHandle.numInts { h with
      fds := (duplicates o w'.dups h.numFds (readCounts p).2).map fun d => .wrap d.2
      ints := (intsOf bs).map .wrap } = h.numInts := by
    rw [NativeHandle.numInts, List.length_map, length_intsOf (length_of_read hread)]
  obtain ⟨hn, hm⟩ := counts_of_create hcreate
  refine ⟨?_, ⟨l, hlog, hshows.closed, ?_, ?_⟩, ⟨bs, ?_, rfl⟩⟩
  · rw [hfds, hints, hcounts, hn, hm]
  · rw [hfds, hshows.dups]
    exact forall₂_duplicates hall
  · rw [hshows.dups]
    exact map_bits_duplicates fun d hd => lt_of_mem_duplicates hd
  · rw [hfds, hints]
    exact hread

theorem not_handleRead {l : List Effect} (hlog : p'.log = p.log ++ l) (hshows : Shows l ds)
    (hless : ds.length < h.numFds) : ¬ HandleRead p h p' := by
  intro hr
  obtain ⟨l', hl', -, -, hbits⟩ := hr.log
  have hsame : l' = l := List.append_cancel_left (hl'.symm.trans hlog)
  have hlen := congrArg List.length hbits
  rw [hsame, hshows.dups, List.length_map, List.length_map] at hlen
  exact absurd hlen (Nat.ne_of_gt hless)

theorem closed_all {l : List Effect} (hshows : Shows l ds) (hds : ∀ d ∈ ds, d.2 < 2 ^ 31)
    (hfds : h.fds = ds.map fun d => .wrap d.2) :
    closedIn (l ++ nativeHandleClose h) = dupedIn (l ++ nativeHandleClose h) := by
  have hc : closedIn (l ++ nativeHandleClose h) = closedIn l ++ closedIn (nativeHandleClose h) :=
    List.flatMap_append ..
  have hd : dupedIn (l ++ nativeHandleClose h) = dupedIn l ++ dupedIn (nativeHandleClose h) :=
    List.flatMap_append ..
  rw [hc, hd, hshows.closed, hshows.duped, nativeHandleClose_eq, closedIn_close, dupedIn_close,
    hfds, map_bits_duplicates hds, flatMap_validFd_duplicates hds, List.append_nil,
    List.nil_append]

theorem closed_stopped {l : List Effect} {rest : List CInt} (hshows : Shows l ds)
    (hds : ∀ d ∈ ds, d.2 < 2 ^ 31)
    (hfds : h.fds = (ds.map fun d => .wrap d.2) ++ .wrap (-1) :: rest) :
    (closedIn (l ++ nativeHandleClose h)).Perm (dupedIn (l ++ nativeHandleClose h)) ↔
      ∀ fd ∈ rest, fd.val < 0 := by
  have hc : closedIn (l ++ nativeHandleClose h) = closedIn l ++ closedIn (nativeHandleClose h) :=
    List.flatMap_append ..
  have hd : dupedIn (l ++ nativeHandleClose h) = dupedIn l ++ dupedIn (nativeHandleClose h) :=
    List.flatMap_append ..
  have hclosed : closedIn (nativeHandleClose h) =
      ds.map Prod.snd ++ (rest.map CInt.bits).flatMap validFd := by
    have hminus : validFd (CInt.wrap (-1)).bits = [] := rfl
    rw [nativeHandleClose_eq, closedIn_close, hfds, List.map_append, List.flatMap_append,
      map_bits_duplicates hds, flatMap_validFd_duplicates hds, List.map_cons, List.flatMap_cons,
      hminus, List.nil_append]
  rw [hc, hd, hshows.closed, hshows.duped, hclosed, nativeHandleClose_eq, dupedIn_close,
    List.append_nil, List.nil_append, ← flatMap_validFd_eq_nil]
  constructor
  · intro hperm
    have hlen := hperm.length_eq
    rw [List.length_append] at hlen
    exact List.length_eq_zero_iff.mp (by omega)
  · intro hnil
    rw [hnil, List.append_nil]

theorem readNativeHandle_none (hno : ∀ counts h w₁, (readCounts p).1 = some counts →
      nativeHandleCreate o w counts.1 counts.2 ≠ (some h, w₁)) :
    ∃ w', readNativeHandle o p w = (none, (readCounts p).2, w') := by
  unfold readNativeHandle
  rcases hc : readCounts p with ⟨_ | counts, q⟩
  · exact ⟨w, rfl⟩
  · rcases hn : nativeHandleCreate o w counts.1 counts.2 with ⟨_ | h, w₁⟩
    · exact ⟨w₁, by simp only [hn]⟩
    · exact absurd hn (hno counts h w₁ (by rw [hc]))

theorem readNativeHandle_fill {counts : ℤ × ℤ} (hcounts : (readCounts p).1 = some counts)
    (hcreate : nativeHandleCreate o w counts.1 counts.2 = (some h, w')) :
    readNativeHandle o p w = fillNativeHandle o (readCounts p).2 w' h := by
  unfold readNativeHandle
  rcases hc : readCounts p with ⟨_ | counts', q⟩
  · rw [hc] at hcounts
    cases hcounts
  · rw [hc] at hcounts
    cases hcounts
    simp only [hcreate]

theorem handleStraight_of_fill {counts : ℤ × ℤ} (hcounts : (readCounts p).1 = some counts)
    (hcreate : nativeHandleCreate o w counts.1 counts.2 = (some h, w')) :
    HandleStraight o p w ↔
      ((duplicates o w'.dups h.numFds (readCounts p).2).length = h.numFds ∨
      ((read (readFds ((duplicates o w'.dups h.numFds (readCounts p).2).length + 1)
          (readCounts p).2).2 (4 * h.numInts)).1.toOption = none ∧
        ∀ fd ∈ h.fds.drop ((duplicates o w'.dups h.numFds (readCounts p).2).length + 1),
          fd.val < 0)) := by
  have heq := readNativeHandle_fill hcounts hcreate
  have hds (d : ℕ × ℕ) (hd : d ∈ duplicates o w'.dups h.numFds (readCounts p).2) :
      d.2 < 2 ^ 31 := lt_of_mem_duplicates hd
  obtain ⟨l₀, hl₀, hload⟩ := loads_readCounts p
  obtain ⟨l, hshows, hfill⟩ := fill_cases o (readCounts p).2 w' h
  have hpre : Shows (l₀ ++ l) (duplicates o w'.dups h.numFds (readCounts p).2) :=
    (Shows.loads hload).append hshows
  have hends : _ ∨ _ := (dupsLeft o (readCounts p).2 w' h.fds).ends
  rcases hends with ⟨hall, -, hfds, hp⟩ | ⟨hless, -, hfds, hp⟩
  · -- all were duplicated
    refine iff_of_true ⟨?_, ?_⟩ (.inl hall)
    · intro h' p₁ w₁ hcall
      rcases hfill with ⟨bs, p₂, w₂, hread, hlog, hfill⟩ | ⟨p₂, w₂, -, -, hfill⟩
      · rw [heq, hfill] at hcall
        cases hcall
        rw [hfds]
        rw [hp, read_log] at hread
        refine handleRead_of_all hcounts hcreate hall hpre hread ?_
        rw [hlog, hl₀, List.append_assoc]
      · rw [heq, hfill] at hcall
        cases hcall
    · intro p₁ w₁ hcall
      rcases hfill with ⟨bs, p₂, w₂, -, -, hfill⟩ | ⟨p₂, w₂, -, hlog, hfill⟩
      · rw [heq, hfill] at hcall
        cases hcall
      · rw [heq, hfill] at hcall
        cases hcall
        have hclosed := closed_all
          (h := { h with fds := (dupEach o (readCounts p).2 w' h.fds).2.1 })
          hpre hds hfds
        refine ⟨l₀ ++ l ++ nativeHandleClose
          { h with fds := (dupEach o (readCounts p).2 w' h.fds).2.1 }, ?_, List.Perm.of_eq hclosed⟩
        rw [hlog, hl₀]
        simp only [List.append_assoc]
  · -- one of the calls has failed
    have hnot : (duplicates o w'.dups h.numFds (readCounts p).2).length ≠ h.numFds :=
      Nat.ne_of_lt hless
    rw [or_iff_right hnot]
    rcases hfill with ⟨bs, p₂, w₂, hread, hlog, hfill⟩ | ⟨p₂, w₂, hread, hlog, hfill⟩
    · rw [hp, read_log] at hread
      refine iff_of_false (fun hstraight => ?_) (fun hcond => ?_)
      · refine not_handleRead ?_ hpre ?_
          (hstraight.returned _ _ _ (heq.trans hfill))
        · rw [hlog, hl₀, List.append_assoc]
        · show (duplicates o w'.dups h.numFds (readCounts p).2).length <
            (dupEach o (readCounts p).2 w' h.fds).2.1.length
          rw [hfds, List.length_append, List.length_map, List.length_cons]
          exact Nat.lt_add_of_pos_right (Nat.succ_pos _)
      · have hnone := hcond.1
        simp only [NativeHandle.numFds] at hnone
        rw [hread] at hnone
        cases hnone
    · rw [hp, read_log] at hread
      have hclosed := closed_stopped
        (h := { h with fds := (dupEach o (readCounts p).2 w' h.fds).2.1 }) hpre hds hfds
      have hlog' : p₂.log = p.log ++ (l₀ ++ l ++ nativeHandleClose
          { h with fds := (dupEach o (readCounts p).2 w' h.fds).2.1 }) := by
        rw [hlog, hl₀]
        simp only [List.append_assoc]
      constructor
      · intro hstraight
        obtain ⟨l', hl', hperm⟩ := hstraight.null _ _ (heq.trans hfill)
        rw [List.append_cancel_left (hl'.symm.trans hlog')] at hperm
        exact ⟨hread, hclosed.mp hperm⟩
      · rintro ⟨-, hneg⟩
        refine ⟨fun h' p₁ w₁ hcall => ?_, fun p₁ w₁ hcall => ?_⟩
        · rw [heq, hfill] at hcall
          cases hcall
        · rw [heq, hfill] at hcall
          cases hcall
          exact ⟨_, hlog', hclosed.mpr hneg⟩

theorem readNativeHandle_straight (o : Oracle) (p : Parcel) (w : World) :
    HandleStraight o p w ↔ HandleDups o p w := by
  by_cases hex : ∃ counts h w₁, (readCounts p).1 = some counts ∧
      nativeHandleCreate o w counts.1 counts.2 = (some h, w₁)
  · obtain ⟨counts, h, w₁, hcounts, hcreate⟩ := hex
    rw [handleStraight_of_fill hcounts hcreate]
    constructor
    · intro hcond counts' h' w₁' hcounts' hcreate'
      rw [hcounts] at hcounts'
      cases hcounts'
      rw [hcreate] at hcreate'
      cases hcreate'
      exact hcond
    · exact fun hcond => hcond counts h w₁ hcounts hcreate
  · have hno (counts : ℤ × ℤ) (h : NativeHandle) (w₁ : World)
        (hcounts : (readCounts p).1 = some counts) :
        nativeHandleCreate o w counts.1 counts.2 ≠ (some h, w₁) :=
      fun hcreate => hex ⟨counts, h, w₁, hcounts, hcreate⟩
    obtain ⟨w', hnone⟩ := readNativeHandle_none hno
    refine iff_of_true ⟨fun h p' w₁ hcall => ?_, fun p' w₁ hcall => ?_⟩
      fun counts h w₁ hcounts hcreate => absurd hcreate (hno counts h w₁ hcounts)
    · rw [hnone] at hcall
      cases hcall
    · rw [hnone] at hcall
      cases hcall
      obtain ⟨l, hl, hload⟩ := loads_readCounts p
      have hshows := Shows.loads hload
      exact ⟨l, hl, by rw [hshows.closed, hshows.duped]; rfl⟩

end Handles

/-! ### Flattenables -/

section Flattenables

variable {o : Oracle} {unflatten : Unflatten} {p q : Parcel} {w w' : World} {fds : List CInt}
variable {buf : List UInt8} {n : ℕ}

theorem loads_readPayload (p : Parcel) :
    ∃ l, (readPayload p).2.log = p.log ++ l ∧ ∀ e ∈ l, e.IsLoad := by
  have hints := (readOnly_readInt32 p).trans (readOnly_readInt32 (readInt32 p).2)
  unfold readPayload
  dsimp only
  split
  · exact hints.loads
  · have hplace := readOnly_readInplace (readInt32 (readInt32 p).2).2
      (padUnsafe (sizeOfInt (readInt32 p).1))
    rcases hr : readInplace (readInt32 (readInt32 p).2).2
      (padUnsafe (sizeOfInt (readInt32 p).1)) with ⟨_ | d, q⟩
    · rw [hr] at hplace
      exact (hints.trans hplace).loads
    · rw [hr] at hplace
      exact (hints.trans hplace).loads

theorem mem_flatMap_validFd {ns : List ℕ} {m : ℕ} (hm : m < 2 ^ 31) :
    m ∈ ns.flatMap validFd ↔ m ∈ ns := by
  rw [List.mem_flatMap]
  constructor
  · rintro ⟨n, hn, hmem⟩
    unfold validFd at hmem
    split at hmem
    · rwa [List.mem_singleton.mp hmem]
    · cases hmem
  · intro hmem
    exact ⟨m, hmem, by rw [validFd, if_pos hm]; exact List.mem_singleton_self m⟩

/-- How the descriptors of a flattenable are read: the callback gets all duplicates, or some were
made and nothing more is done. -/
theorem unflattenFds_cases (o : Oracle) (unflatten : Unflatten) (q : Parcel) (w : World)
    (buf : List UInt8) (fds : List CInt) :
    ∃ l p' w', Shows l (duplicates o w.dups fds.length q) ∧
      (((duplicates o w.dups fds.length q).length = fds.length ∧
        p'.log = q.log ++ l ++ (unflatten buf ((duplicates o w.dups fds.length q).map
          fun d => .wrap d.2)).2.map .close ∧
        unflattenFds o unflatten q w buf fds =
          ((unflatten buf ((duplicates o w.dups fds.length q).map fun d => .wrap d.2)).1, p', w')) ∨
      ((duplicates o w.dups fds.length q).length < fds.length ∧ p'.log = q.log ++ l ∧
        unflattenFds o unflatten q w buf fds = (.badValue, p', w'))) := by
  obtain ⟨⟨l, hl, hshows⟩, hends⟩ := dupsLeft o q w fds
  rcases hr : dupEach o q w fds with ⟨st, fds', p', w'⟩
  rw [hr] at hl hends
  rcases hends with ⟨hall, rfl, rfl, -⟩ | ⟨hless, rfl, -, -⟩
  · refine ⟨l, p'.record ((unflatten buf ((duplicates o w.dups fds.length q).map
      fun d => .wrap d.2)).2.map .close), w', hshows, .inl ⟨hall, ?_, ?_⟩⟩
    · show p'.log ++ _ = _
      rw [show p'.log = q.log ++ l from hl]
    · simp only [unflattenFds, hr]
  · exact ⟨l, p', w', hshows, .inr ⟨hless, hl, by simp only [unflattenFds, hr]⟩⟩

theorem readFlattenable_none (unflatten : Unflatten)
    (hno : ∀ buf n fds w₁, (readPayload p).1 = some (buf, n) →
      newInts o w n ≠ (some fds, w₁)) :
    ∃ st w', readFlattenable o unflatten p w = (st, (readPayload p).2, w') := by
  unfold readFlattenable
  rcases hc : readPayload p with ⟨_ | ⟨buf, n⟩, q⟩
  · exact ⟨_, _, rfl⟩
  · rcases hn : newInts o w n with ⟨_ | fds, w₁⟩
    · exact ⟨none, w₁, by simp only [hn]⟩
    · exact absurd hn (hno buf n fds w₁ (by rw [hc]))

theorem readFlattenable_fill (unflatten : Unflatten) (hpayload : (readPayload p).1 = some (buf, n))
    (hnew : newInts o w n = (some fds, w')) :
    readFlattenable o unflatten p w =
      (some (unflattenFds o unflatten (readPayload p).2 w' buf fds).1,
        (unflattenFds o unflatten (readPayload p).2 w' buf fds).2) := by
  unfold readFlattenable
  rcases hc : readPayload p with ⟨_ | ⟨buf', n'⟩, q⟩
  · rw [hc] at hpayload
    cases hpayload
  · rw [hc] at hpayload
    cases hpayload
    simp only [hnew]

theorem closed_refused {l : List Effect} {ds : List (ℕ × ℕ)} (ns : List ℕ) (hshows : Shows l ds)
    (hds : ∀ d ∈ ds, d.2 < 2 ^ 31) :
    (∀ fd ∈ dupedIn (l ++ ns.map .close), fd ∈ closedIn (l ++ ns.map .close)) ↔
      ∀ d ∈ ds, d.2 ∈ ns := by
  have hc : closedIn (l ++ ns.map .close) = closedIn l ++ closedIn (ns.map .close) :=
    List.flatMap_append ..
  have hd : dupedIn (l ++ ns.map .close) = dupedIn l ++ dupedIn (ns.map .close) :=
    List.flatMap_append ..
  rw [hc, hd, hshows.closed, hshows.duped, closedIn_close, dupedIn_close, List.append_nil,
    List.nil_append]
  constructor
  · intro h d hmem
    exact (mem_flatMap_validFd (hds d hmem)).mp (h d.2 (List.mem_map_of_mem hmem))
  · intro h fd hfd
    obtain ⟨d, hmem, rfl⟩ := List.mem_map.mp hfd
    exact (mem_flatMap_validFd (hds d hmem)).mpr (h d hmem)

theorem flattenableStraight_of_fill (hpayload : (readPayload p).1 = some (buf, n))
    (hnew : newInts o w n = (some fds, w')) :
    FlattenableStraight o unflatten p w ↔
      ((duplicates o w'.dups fds.length (readPayload p).2).length < fds.length →
        duplicates o w'.dups fds.length (readPayload p).2 = []) ∧
      ((duplicates o w'.dups fds.length (readPayload p).2).length = fds.length →
        (unflatten buf ((duplicates o w'.dups fds.length (readPayload p).2).map
          fun d => .wrap d.2)).1 ≠ .noError →
        ∀ d ∈ duplicates o w'.dups fds.length (readPayload p).2,
          d.2 ∈ (unflatten buf ((duplicates o w'.dups fds.length (readPayload p).2).map
            fun d => .wrap d.2)).2) := by
  have heq := readFlattenable_fill unflatten hpayload hnew
  have hds (d : ℕ × ℕ) (hd : d ∈ duplicates o w'.dups fds.length (readPayload p).2) :
      d.2 < 2 ^ 31 := lt_of_mem_duplicates hd
  obtain ⟨l₀, hl₀, hload⟩ := loads_readPayload p
  obtain ⟨l, p', w₁, hshows, hfill⟩ := unflattenFds_cases o unflatten (readPayload p).2 w' buf fds
  have hpre : Shows (l₀ ++ l) (duplicates o w'.dups fds.length (readPayload p).2) :=
    (Shows.loads hload).append hshows
  generalize duplicates o w'.dups fds.length (readPayload p).2 = ds at hds hpre hfill hshows
  rcases hfill with ⟨hall, hlog, hfill⟩ | ⟨hless, hlog, hfill⟩
  · rw [hfill] at heq
    have hlog' : p'.log = p.log ++ (l₀ ++ l ++
        (unflatten buf (ds.map fun d => .wrap d.2)).2.map .close) := by
      rw [hlog, hl₀]
      simp only [List.append_assoc]
    have hclosed := closed_refused (unflatten buf (ds.map fun d => .wrap d.2)).2 hpre hds
    constructor
    · intro hstraight
      refine ⟨fun hless => absurd hall (Nat.ne_of_lt hless), fun _ hst => ?_⟩
      obtain ⟨l', hl', hopen⟩ := hstraight _ _ _ heq hst
      rw [List.append_cancel_left (hl'.symm.trans hlog')] at hopen
      exact hclosed.mp hopen
    · intro hcond st p₁ w₂ hcall hst
      rw [heq] at hcall
      cases hcall
      exact ⟨_, hlog', hclosed.mpr (hcond.2 hall hst)⟩
  · rw [hfill] at heq
    have hlog' : p'.log = p.log ++ (l₀ ++ l) := by
      rw [hlog, hl₀, List.append_assoc]
    constructor
    · intro hstraight
      refine ⟨fun _ => ?_, fun hall => absurd hall (Nat.ne_of_lt hless)⟩
      obtain ⟨l', hl', hopen⟩ := hstraight _ _ _ heq Status.noConfusion
      rw [List.append_cancel_left (hl'.symm.trans hlog'), hpre.duped, hpre.closed] at hopen
      exact List.map_eq_nil_iff.mp (List.eq_nil_iff_forall_not_mem.mpr
        fun fd hfd => absurd (hopen fd hfd) List.not_mem_nil)
    · intro hcond st p₁ w₂ hcall hst
      rw [heq] at hcall
      cases hcall
      refine ⟨_, hlog', ?_⟩
      rw [hpre.duped, hcond.1 hless]
      exact fun fd hfd => absurd hfd List.not_mem_nil

theorem readFlattenable_straight (o : Oracle) (unflatten : Unflatten) (p : Parcel) (w : World) :
    FlattenableStraight o unflatten p w ↔ FlattenableDups o unflatten p w := by
  by_cases hex : ∃ buf n fds w₁, (readPayload p).1 = some (buf, n) ∧
      newInts o w n = (some fds, w₁)
  · obtain ⟨buf, n, fds, w₁, hpayload, hnew⟩ := hex
    rw [flattenableStraight_of_fill hpayload hnew]
    constructor
    · intro hcond buf' n' fds' w₁' hpayload' hnew'
      rw [hpayload] at hpayload'
      cases hpayload'
      rw [hnew] at hnew'
      cases hnew'
      exact hcond
    · exact fun hcond => hcond buf n fds w₁ hpayload hnew
  · have hno (buf : List UInt8) (n : ℕ) (fds : List CInt) (w₁ : World)
        (hpayload : (readPayload p).1 = some (buf, n)) : newInts o w n ≠ (some fds, w₁) :=
      fun hnew => hex ⟨buf, n, fds, w₁, hpayload, hnew⟩
    obtain ⟨st, w', hnone⟩ := readFlattenable_none unflatten hno
    refine iff_of_true (fun st' p' w₁ hcall _ => ?_)
      fun buf n fds w₁ hpayload hnew => absurd hnew (hno buf n fds w₁ hpayload)
    rw [hnone] at hcall
    cases hcall
    obtain ⟨l, hl, hload⟩ := loads_readPayload p
    refine ⟨l, hl, ?_⟩
    rw [(Shows.loads hload).duped]
    exact fun fd hfd => absurd hfd List.not_mem_nil

end Flattenables

end Parcel

end BinderForLinux
