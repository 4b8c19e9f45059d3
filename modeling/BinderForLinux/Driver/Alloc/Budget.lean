import BinderForLinux.Driver.Alloc.Runs

/-!
# The budget of one-way transactions

Half of the area is the budget for the buffers of one-way transactions. Each such
buffer is charged with its aligned size and its header when it is allocated, and the
charge is given back when it is freed. The sizes come from the sender, so the sums are
taken in 64-bit arithmetic until the size check has passed.
-/

namespace BinderForLinux

namespace Driver

open Library

def asyncCharges (L : Layout) (bs : List Buffer) : ℕ :=
  (((liveBuffers bs).filter Buffer.asyncTransaction).map fun b => b.needed + L.headerSize).sum

/-- `ALIGN(x, sizeof(void *))` without a bound. -/
def exactAlign (x : ℕ) : ℕ := (x + 7) / 8 * 8

section Budget

variable {L : Layout} {ar ar' : Area}

/-! ### The size check -/

theorem ptrAlign_of_le {x : ℕ} (hx : x ≤ 2 ^ 64 - 8) : ptrAlign x = exactAlign x := by
  unfold ptrAlign exactAlign
  omega

theorem ptrAlign_of_lt {x : ℕ} (hx : x < 2 ^ 64) (hlt : 2 ^ 64 - 8 < x) :
    ptrAlign x = 0 ∧ exactAlign x = 2 ^ 64 := by
  unfold ptrAlign exactAlign
  omega

theorem exactAlign_bounds {x : ℕ} (hx : x ≤ 2 ^ 64 - 8) :
    x ≤ exactAlign x ∧ exactAlign x < x + 8 ∧ exactAlign x ≤ 2 ^ 64 - 8 ∧ 8 ∣ exactAlign x := by
  unfold exactAlign
  omega

/-- The size check sees every overflow: of either alignment and of the sum. -/
theorem requestSize_lt_iff {d o : ℕ} (hd : d < 2 ^ 64) (ho : o < 2 ^ 64) :
    (requestSize d o < d ∨ requestSize d o < o) ↔ 2 ^ 64 ≤ exactAlign d + exactAlign o := by
  rcases Nat.lt_or_ge (2 ^ 64 - 8) d with hd' | hd'
  · obtain ⟨hzero, hexact⟩ := ptrAlign_of_lt hd hd'
    have ho' : ptrAlign o ≤ 2 ^ 64 - 8 := by
      unfold ptrAlign
      omega
    simp only [requestSize, hzero, hexact]
    omega
  · obtain ⟨hle, hlt, hmax, hdvd⟩ := exactAlign_bounds hd'
    rcases Nat.lt_or_ge (2 ^ 64 - 8) o with ho' | ho'
    · obtain ⟨hzero, hexact⟩ := ptrAlign_of_lt ho ho'
      simp only [requestSize, ptrAlign_of_le hd', hzero, hexact]
      omega
    · obtain ⟨hle', hlt', hmax', hdvd'⟩ := exactAlign_bounds ho'
      simp only [requestSize, ptrAlign_of_le hd', ptrAlign_of_le ho']
      omega

theorem binderAllocBuf_rejects {d o : ℕ} (isAsync : Bool) (env : PageEnv)
    (hsize : requestSize d o < d ∨ requestSize d o < o) :
    binderAllocBuf L ar d o isAsync env = .ok (none, ar) := by
  cases hvma : ar.vma with
  | false => simp [binderAllocBuf, hvma, pure, Except.pure]
  | true => simp [binderAllocBuf, hvma, hsize, pure, Except.pure]

theorem binderAllocBuf_accepts {d o a : ℕ} {isAsync : Bool} {env : PageEnv}
    (hrun : binderAllocBuf L ar d o isAsync env = .ok (some a, ar')) :
    d ≤ requestSize d o ∧
      (isAsync = true → (requestSize d o + L.headerSize) % 2 ^ 64 ≤ ar.freeAsyncSpace) := by
  have hsize : ¬ (requestSize d o < d ∨ requestSize d o < o) := by
    intro hsize
    rw [binderAllocBuf_rejects isAsync env hsize] at hrun
    cases hrun
  refine ⟨by omega, fun hasync => ?_⟩
  by_contra hfull
  subst hasync
  have hfull' : (true && decide
      (ar.freeAsyncSpace < (requestSize d o + L.headerSize) % 2 ^ 64)) = true := by
    simpa using hfull
  cases hvma : ar.vma with
  | false => simp [binderAllocBuf, hvma, pure, Except.pure] at hrun
  | true =>
      simp only [binderAllocBuf, hvma, hfull'] at hrun
      simp [hsize, pure, Except.pure] at hrun

/-! ### The invariant -/

/-- The budget of an area of at most the size that `binder_mmap` allows. -/
structure Area.Budgeted (L : Layout) (ar : Area) : Prop extends ar.Sound L where
  bounded : ar.bufferSize ≤ 0x400000
  conserved : ar.freeAsyncSpace + asyncCharges L ar.buffers = ar.bufferSize / 2

theorem asyncCharges_append (bs cs : List Buffer) :
    asyncCharges L (bs ++ cs) = asyncCharges L bs + asyncCharges L cs := by
  simp [asyncCharges, liveBuffers_append]

theorem asyncCharges_cons_free {b : Buffer} (bs : List Buffer) (hb : b.free = true) :
    asyncCharges L (b :: bs) = asyncCharges L bs := by
  rw [asyncCharges, liveBuffers_cons_free bs hb]
  rfl

theorem asyncCharges_cons_live {b : Buffer} (bs : List Buffer) (hb : b.free = false) :
    asyncCharges L (b :: bs) =
      (if b.asyncTransaction then b.needed + L.headerSize else 0) + asyncCharges L bs := by
  cases hasync : b.asyncTransaction with
  | false => simp [asyncCharges, liveBuffers, hb, hasync]
  | true => simp [asyncCharges, liveBuffers, hb, hasync]

theorem asyncCharges_eq_zero {bs : List Buffer} (hbs : ∀ b ∈ bs, b.free = true) :
    asyncCharges L bs = 0 := by
  have hnil : liveBuffers bs = [] := List.filter_eq_nil_iff.mpr fun b hb => by simp [hbs b hb]
  rw [asyncCharges, hnil]
  rfl

theorem Area.Sound.needed_le (h : ar.Sound L) {b : Buffer} (hb : b ∈ ar.buffers)
    (hfree : b.free = false) : b.needed + L.headerSize ≤ ar.bufferSize := by
  obtain ⟨pre, post, hbs, hcut⟩ := h.exists_cut hb
  obtain ⟨hpre, -, hlow, hpost⟩ := tiles_append_cons.mp (hbs ▸ h.tiles)
  have hfits := h.fits b hb hfree
  rw [binderBufferSize, bufferEnd_of_cut hcut hbs] at hfits
  have := hpre.le
  have := hpost.le
  omega

theorem Area.Budgeted.charge_eq (h : ar.Budgeted L) {b : Buffer} (hb : b ∈ ar.buffers)
    (hfree : b.free = false) : requestSize b.dataSize b.offsetsSize = b.needed := by
  have hle := h.needed_le hb hfree
  have hbounded := h.bounded
  have hlt : b.needed < 2 ^ 64 := by omega
  exact Nat.mod_eq_of_lt hlt

theorem Area.Budgeted.charge_le (h : ar.Budgeted L) {d o a : ℕ} {env : PageEnv}
    (hrun : binderAllocBuf L ar d o true env = .ok (some a, ar')) :
    requestSize d o + L.headerSize ≤ ar.freeAsyncSpace := by
  rcases binderAllocBuf_ok h.toSound d o true env with hnone |
      ⟨ar₁, pre, b, post, rest, hsome, hsound, htakes⟩
  · rw [hnone] at hrun
    cases hrun
  · rw [hsome] at hrun
    cases hrun
    obtain ⟨hd, hroom⟩ := binderAllocBuf_accepts hsome
    have hmem : b.taken d o true ∈ ar'.buffers := by
      rw [htakes.buffers']
      simp
    have hle := hsound.needed_le hmem rfl
    have hneeded : (b.taken d o true).needed = requestSize d o := (requestSize_eq hd).symm
    rw [hneeded, htakes.space.bufferSize] at hle
    have hbounded := h.bounded
    have hlt : requestSize d o + L.headerSize < 2 ^ 64 := by omega
    rw [Nat.mod_eq_of_lt hlt] at hroom
    exact hroom rfl

theorem Area.Budgeted.alloc (h : ar.Budgeted L) {d o a : ℕ} {isAsync : Bool} {env : PageEnv}
    (hrun : binderAllocBuf L ar d o isAsync env = .ok (some a, ar')) : ar'.Budgeted L := by
  rcases binderAllocBuf_ok h.toSound d o isAsync env with hnone |
      ⟨ar₁, pre, b, post, rest, hsome, hsound, htakes⟩
  · rw [hnone] at hrun
    cases hrun
  · rw [hsome] at hrun
    cases hrun
    refine ⟨hsound, htakes.space.bufferSize ▸ h.bounded, ?_⟩
    have hneeded : (b.taken d o isAsync).needed = requestSize d o :=
      (requestSize_eq (binderAllocBuf_accepts hsome).1).symm
    have hold := h.conserved
    rw [htakes.buffers, asyncCharges_append, asyncCharges_cons_free _ htakes.free] at hold
    rw [htakes.buffers', asyncCharges_append, asyncCharges_cons_live _ rfl, asyncCharges_append,
      asyncCharges_eq_zero htakes.rest, hneeded, htakes.async, htakes.space.bufferSize]
    cases isAsync with
    | false =>
        simp only [Buffer.taken, Bool.false_eq_true, ↓reduceIte]
        omega
    | true =>
        have hle := h.charge_le hsome
        simp only [Buffer.taken, ↓reduceIte]
        omega

theorem Area.Budgeted.free (h : ar.Budgeted L) {b : Buffer} (hb : b ∈ ar.buffers)
    (hfree : b.free = false) (htxn : b.transaction = none)
    (hrun : binderFreeBuf L ar b.addr = .ok ar') : ar'.Budgeted L := by
  obtain ⟨ar₁, pre, post, hrun', hsound, hrel⟩ := binderFreeBuf_ok h.toSound hb hfree htxn
  obtain rfl : ar₁ = ar' := by simpa [hrun'] using hrun
  refine ⟨hsound, hrel.space.bufferSize ▸ h.bounded, ?_⟩
  have hlive : asyncCharges L ar₁.buffers = asyncCharges L (pre ++ post) := by
    simp only [asyncCharges, hrel.live]
  have hold := h.conserved
  rw [hrel.buffers, asyncCharges_append, asyncCharges_cons_live _ hfree] at hold
  rw [hlive, asyncCharges_append, hrel.async, h.charge_eq hb hfree, hrel.space.bufferSize]
  cases hasync : b.asyncTransaction with
  | false =>
      simp only [hasync, Bool.false_eq_true, ↓reduceIte] at hold ⊢
      omega
  | true =>
      simp only [hasync, ↓reduceIte] at hold ⊢
      omega

theorem asyncCharges_map {f : Buffer → Buffer} (hfree : ∀ b, (f b).free = b.free)
    (hasync : ∀ b, (f b).asyncTransaction = b.asyncTransaction)
    (hneeded : ∀ b, (f b).needed = b.needed) (bs : List Buffer) :
    asyncCharges L (bs.map f) = asyncCharges L bs := by
  induction bs with
  | nil => rfl
  | cons b bs ih =>
      cases hb : b.free with
      | true =>
          rw [List.map_cons, asyncCharges_cons_free _ ((hfree b).trans hb),
            asyncCharges_cons_free _ hb, ih]
      | false =>
          rw [List.map_cons, asyncCharges_cons_live _ ((hfree b).trans hb),
            asyncCharges_cons_live _ hb, ih, hasync, hneeded]

theorem areaStep_bufferSize (h : ar.Sound L) {act : AreaAct} (hadm : act.admitted ar)
    (hstep : areaStep L ar act = .ok ar') : ar'.bufferSize = ar.bufferSize := by
  cases act with
  | alloc d o isAsync env =>
      rcases binderAllocBuf_ok h d o isAsync env with hnone |
          ⟨ar₁, _, _, _, _, hsome, -, htakes⟩
      · simp only [areaStep, hnone, Except.map, Except.ok.injEq] at hstep
        rw [hstep]
      · simp only [areaStep, hsome, Except.map, Except.ok.injEq] at hstep
        exact hstep ▸ htakes.space.bufferSize
  | free a =>
      obtain ⟨b, hb, rfl, hfree, htxn⟩ := hadm
      obtain ⟨ar₁, _, _, hrun, -, hrel⟩ := binderFreeBuf_ok h hb hfree htxn
      obtain rfl : ar₁ = ar' := by simpa [areaStep, hrun] using hstep
      exact hrel.space.bufferSize
  | fill a c =>
      cases hstep
      rfl
  | vmaClose =>
      cases hstep
      rfl

theorem Area.Budgeted.step (h : ar.Budgeted L) {act : AreaAct} (hadm : act.admitted ar)
    (hstep : areaStep L ar act = .ok ar') : ar'.Budgeted L := by
  cases act with
  | alloc d o isAsync env =>
      rcases binderAllocBuf_ok h.toSound d o isAsync env with hnone | ⟨ar₁, _, _, _, _, hsome, -⟩
      · simp only [areaStep, hnone, Except.map, Except.ok.injEq] at hstep
        exact hstep ▸ h
      · simp only [areaStep, hsome, Except.map, Except.ok.injEq] at hstep
        exact hstep ▸ h.alloc hsome
  | free a =>
      obtain ⟨b, hb, rfl, hfree, htxn⟩ := hadm
      exact h.free hb hfree htxn hstep
  | fill a c =>
      cases hstep
      refine ⟨h.modifyBuffer a (fun _ => rfl) (fun _ => rfl) fun _ => rfl, h.bounded, ?_⟩
      have hkeeps : ∀ {α : Type} (k : Buffer → α), (∀ b, k (Buffer.withClient b c) = k b) →
          ∀ b, k (if b.addr = a then b.withClient c else b) = k b :=
        fun _ hk => modify_keeps hk a
      have hsame := @asyncCharges_map L _ (hkeeps Buffer.free fun _ => rfl)
        (hkeeps Buffer.asyncTransaction fun _ => rfl) (hkeeps Buffer.needed fun _ => rfl) ar.buffers
      exact (congrArg (ar.freeAsyncSpace + ·) hsame).trans h.conserved
  | vmaClose =>
      cases hstep
      exact ⟨⟨h.toWellFormed.congr rfl rfl rfl rfl rfl,
        ⟨h.aligned.buffer, h.aligned.bufferSize⟩, h.pages⟩, h.bounded, h.conserved⟩

/-- The budget holds in every area that is reached from a successful `binder_mmap`. -/
theorem budgeted_of_reach {base size : ℕ} {off : ℤ} {env : PageEnv} {ar₀ : Area}
    (hbase : L.pageSize ∣ base) (hsize : L.pageSize ∣ size) (hpos : 0 < size)
    (hmax : size ≤ 0x400000) (hmmap : binderMmap L base size off env = .ok (true, ar₀))
    (hreach : Reach (areaStep L) (fun ar act => act.admitted ar) ar₀ ar) :
    ar.Budgeted L ∧ ar.bufferSize = size := by
  rcases binderMmap_ok hbase hsize hpos off env with hnone |
      ⟨ar₁, hsome, hsound, -, hlive, hbuf, hspace⟩
  · rw [hnone] at hmmap
    cases hmmap
  · obtain rfl : ar₁ = ar₀ := by simpa [hsome] using hmmap
    have h₀ : ar₁.Budgeted L := by
      refine ⟨hsound, hbuf ▸ hmax, ?_⟩
      rw [asyncCharges, hlive, hspace, hbuf]
      rfl
    refine hreach.invariant (I := fun ar => ar.Budgeted L ∧ ar.bufferSize = size) ⟨h₀, hbuf⟩
      fun ar act ar' hinv hadm hstep => ⟨hinv.1.step hadm hstep, ?_⟩
    exact (areaStep_bufferSize hinv.1.toSound hadm hstep).trans hinv.2

/-- The budget is conserved in every area that is reached from a successful `binder_mmap`,
which maps at most 4 MiB. A charge never exceeds what is left, and the size check rejects
exactly the requests whose aligned size is not a 64-bit number. -/
theorem asyncSpace_of_reach {base size : ℕ} {off : ℤ} {env : PageEnv} {ar₀ : Area}
    (hbase : L.pageSize ∣ base) (hsize : L.pageSize ∣ min size 0x400000) (hpos : 0 < size)
    (hmmap : binderMmap L base (min size 0x400000) off env = .ok (true, ar₀))
    (hreach : Reach (areaStep L) (fun ar act => act.admitted ar) ar₀ ar) :
    ar.freeAsyncSpace + asyncCharges L ar.buffers = ar.bufferSize / 2 ∧
      ar.bufferSize = min size 0x400000 ∧
      (∀ d o env a ar', binderAllocBuf L ar d o true env = .ok (some a, ar') →
        requestSize d o + L.headerSize ≤ ar.freeAsyncSpace) ∧
      ∀ d o, d < 2 ^ 64 → o < 2 ^ 64 →
        ((requestSize d o < d ∨ requestSize d o < o) ↔ 2 ^ 64 ≤ exactAlign d + exactAlign o) ∧
        (2 ^ 64 ≤ exactAlign d + exactAlign o → ∀ isAsync env,
          binderAllocBuf L ar d o isAsync env = .ok (none, ar)) := by
  obtain ⟨h, hbuf⟩ := budgeted_of_reach hbase hsize (lt_min hpos (by decide)) (min_le_right _ _)
    hmmap hreach
  refine ⟨h.conserved, hbuf, fun d o env a ar' hrun => h.charge_le hrun, fun d o hd ho => ?_⟩
  refine ⟨requestSize_lt_iff hd ho, fun hover isAsync env => ?_⟩
  exact binderAllocBuf_rejects isAsync env ((requestSize_lt_iff hd ho).mpr hover)

theorem asyncSpace_of_reach_sample : ∃ ar,
    runChecked (areaStep Layout.x86) (fun ar act => act.admitted ar) sampleArea sampleActs =
      some ar ∧ ar.freeAsyncSpace + asyncCharges Layout.x86 ar.buffers = ar.bufferSize / 2 := by
  obtain ⟨ar, har⟩ := sampleActs_run
  exact ⟨ar, har, (@asyncSpace_of_reach Layout.x86 ar 4096 16384 0
    PageEnv.unused _ (by decide) (by decide) (by decide) rfl (reach_of_runChecked har)).1⟩

end Budget

end Driver

end BinderForLinux
