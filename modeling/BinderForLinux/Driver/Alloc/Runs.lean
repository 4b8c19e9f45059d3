import BinderForLinux.Library.Run
import BinderForLinux.Driver.Alloc.Free

/-!
# Runs of the allocator

The area of one process from `binder_mmap` on. A caller may allocate, free a
buffer that is allocated and whose `transaction` it has cleared (every caller of
`binder_free_buf` does so first), fill in the fields of an allocated buffer, and
the mapping may go away.
-/

namespace BinderForLinux

namespace Driver

open Library

/-- The fields of a buffer that its users write. -/
structure ClientFields where
  allowUserFree : Bool
  transaction : Option TxnId
  targetNode : Option NodeId
  data : ℕ → UInt8
  offsets : List ℕ

def Buffer.withClient (b : Buffer) (c : ClientFields) : Buffer :=
  { b with
    allowUserFree := c.allowUserFree
    transaction := c.transaction
    targetNode := c.targetNode
    data := c.data
    offsets := c.offsets }

inductive AreaAct
  | alloc (dataSize offsetsSize : ℕ) (isAsync : Bool) (env : PageEnv)
  | free (a : ℕ)
  | fill (a : ℕ) (c : ClientFields)
  | vmaClose

def areaStep (L : Layout) (ar : Area) : AreaAct → Except Fault Area
  | .alloc d o isAsync env => (binderAllocBuf L ar d o isAsync env).map Prod.snd
  | .free a => binderFreeBuf L ar a
  | .fill a c => .ok { ar with buffers := modifyBuffer a (fun b => b.withClient c) ar.buffers }
  | .vmaClose => .ok { ar with vma := false }

/-- A buffer that a caller may hand to `binder_free_buf`. -/
def Area.mayFree (ar : Area) (a : ℕ) : Prop :=
  ∃ b ∈ ar.buffers, b.addr = a ∧ b.free = false ∧ b.transaction = none

instance (ar : Area) (a : ℕ) : Decidable (ar.mayFree a) := by
  unfold Area.mayFree
  infer_instance

def AreaAct.admitted (ar : Area) : AreaAct → Prop
  | .free a => ar.mayFree a
  | _ => True

instance (ar : Area) (act : AreaAct) : Decidable (act.admitted ar) := by
  cases act <;> unfold AreaAct.admitted <;> infer_instance

section Runs

variable {L : Layout} {ar ar' : Area}

/-- Writing fields of a buffer that the list, the trees and the pages do not
depend on. -/
theorem Area.Sound.modifyBuffer (h : ar.Sound L) (a : ℕ) {f : Buffer → Buffer}
    (haddr : ∀ b, (f b).addr = b.addr) (hfree : ∀ b, (f b).free = b.free)
    (hneeded : ∀ b, (f b).needed = b.needed) :
    Area.Sound L { ar with buffers := modifyBuffer a f ar.buffers } := by
  have haddr' := modify_keeps haddr a
  have hfree' := modify_keeps hfree a
  refine ⟨⟨h.toShaped.modifyBuffer a haddr hfree, ?_⟩, ⟨h.aligned.buffer, h.aligned.bufferSize⟩, ?_⟩
  · have hend := bufferEnd_map haddr' ar
    intro c hc hcf
    obtain ⟨b, hb, rfl⟩ := List.mem_map.mp hc
    rw [hfree'] at hcf
    rw [modify_keeps hneeded, haddr']
    refine (h.fits b hb hcf).trans_eq ?_
    exact (congrArg (· b.addr - (b.addr + L.headerSize)) hend).symm
  · intro i
    exact (h.pages i).trans (needs_map haddr' hfree').symm

/-- `binder_mmap` either fails and leaves no area, or makes a sound one with a
single free buffer. -/
theorem binderMmap_ok {base size : ℕ} (hbase : L.pageSize ∣ base) (hsize : L.pageSize ∣ size)
    (hpos : 0 < size) (off : ℤ) (env : PageEnv) :
    binderMmap L base size off env = .ok (false, Area.unmapped) ∨
      ∃ ar, binderMmap L base size off env = .ok (true, ar) ∧ ar.Sound L ∧
        ar.buffer = base ∧ liveBuffers ar.buffers = [] ∧ ar.bufferSize = size ∧
        ar.freeAsyncSpace = size / 2 := by
  have hP := L.two_mul_headerSize_lt
  have hle : L.pageSize ≤ size := Nat.le_of_dvd hpos hsize
  let ar₀ : Area :=
    { Area.unmapped with buffer := base, bufferSize := size, userBufferOffset := off }
  rcases @binderUpdatePageRange_alloc L ar₀ _ _ _ hbase hbase
      (Nat.dvd_add hbase (Nat.dvd_refl _)) (Nat.le_refl _) (fun _ _ => rfl) with
    ⟨ps, hup, hps⟩ | ⟨hup, _⟩
  · right
    let first : Buffer :=
      { addr := base, free := true, allowUserFree := false, asyncTransaction := false,
        transaction := none, targetNode := none, dataSize := 0, offsetsSize := 0,
        data := fun _ => 0, offsets := [] }
    have hloose : LooseSound L { ar₀ with buffers := [first], pages := ps } [] first [] := by
      refine ⟨⟨rfl, rfl, ⟨rfl, ?_, rfl⟩, List.isChain_nil, List.isChain_nil, List.Perm.refl _,
        List.Pairwise.nil, rfl⟩, by simp [Fits], ⟨hbase, hsize⟩, ?_⟩
      · change base + L.headerSize ≤ base + size
        omega
      · intro i
        have hpage : ar₀.pages i = true ↔ False := by simp [ar₀, Area.unmapped]
        refine (hps i).trans ?_
        rw [hpage, false_or, pageIn]
        change base ≤ base + i * L.pageSize ∧ base + i * L.pageSize < base + L.pageSize ↔
          Needs L (base + size) (base + i * L.pageSize) [first]
        have hi : i ≠ 0 → L.pageSize ≤ i * L.pageSize := fun h =>
          Nat.le_mul_of_pos_left _ (Nat.pos_of_ne_zero h)
        simp only [Needs, first, startOr_nil, Bool.true_eq_false, false_and, or_false]
        have := L.eight_le_headerSize
        by_cases h0 : i = 0
        · subst h0
          omega
        · have := hi h0
          omega
    obtain ⟨t, hins, hsound⟩ := hloose.close_free (by simp) (by simp)
    refine ⟨{ ar₀ with
      buffers := [first]
      pages := ps
      freeBuffers := t
      freeAsyncSpace := size / 2
      vma := true }, ?_, ?_, rfl, rfl, rfl, rfl⟩
    · simp only [binderMmap]
      rw [except_bind_ok hup]
      simp only [Bool.not_true, Bool.false_eq_true, ↓reduceIte]
      rw [except_bind_ok hins]
      rfl
    · exact ⟨hsound.toWellFormed.congr rfl rfl rfl rfl rfl, ⟨hbase, hsize⟩, hsound.pages⟩
  · left
    simp only [binderMmap]
    rw [except_bind_ok hup]
    rfl

/-- An admitted step of a sound area never faults and leaves a sound area. -/
theorem areaStep_ok (h : ar.Sound L) (act : AreaAct) (hadm : act.admitted ar) :
    ∃ ar', areaStep L ar act = .ok ar' ∧ ar'.Sound L := by
  cases act with
  | alloc d o isAsync env =>
      rcases binderAllocBuf_ok h d o isAsync env with hrun | ⟨ar', _, _, _, _, hrun, hsound, _⟩
      · exact ⟨ar, by simp [areaStep, hrun, Except.map], h⟩
      · exact ⟨ar', by simp [areaStep, hrun, Except.map], hsound⟩
  | free a =>
      obtain ⟨b, hb, rfl, hfree, htxn⟩ := hadm
      obtain ⟨ar', _, _, hrun, hsound, _⟩ := binderFreeBuf_ok h hb hfree htxn
      exact ⟨ar', hrun, hsound⟩
  | fill a c =>
      exact ⟨_, rfl, h.modifyBuffer a (fun _ => rfl) (fun _ => rfl) fun _ => rfl⟩
  | vmaClose =>
      exact ⟨_, rfl, h.toWellFormed.congr rfl rfl rfl rfl rfl,
        ⟨h.aligned.buffer, h.aligned.bufferSize⟩, h.pages⟩

theorem sound_of_reach {base size : ℕ} {off : ℤ} {env : PageEnv} {ar₀ : Area}
    (hbase : L.pageSize ∣ base) (hsize : L.pageSize ∣ size) (hpos : 0 < size)
    (hmmap : binderMmap L base size off env = .ok (true, ar₀))
    (hreach : Reach (areaStep L) (fun ar act => act.admitted ar) ar₀ ar) : ar.Sound L := by
  have h₀ : ar₀.Sound L := by
    rcases binderMmap_ok hbase hsize hpos off env with h | ⟨ar₁, h, hsound, _⟩
    · rw [h] at hmmap
      cases hmmap
    · obtain rfl : ar₁ = ar₀ := by simpa [h] using hmmap
      exact hsound
  refine hreach.invariant h₀ fun ar act ar' hs hadm hstep => ?_
  obtain ⟨ar₁, hrun, hsound⟩ := areaStep_ok hs act hadm
  obtain rfl : ar₁ = ar' := by simpa [hrun] using hstep
  exact hsound

theorem Area.Sound.extent_eq (h : ar.Sound L) {b : Buffer} (hb : b ∈ ar.buffers) :
    b.addr + L.headerSize + binderBufferSize L ar b.addr = ar.bufferEnd b.addr := by
  obtain ⟨pre, post, hbs, hcut⟩ := h.exists_cut hb
  obtain ⟨_, _, hlow, _⟩ := tiles_append_cons.mp (hbs ▸ h.tiles)
  rw [binderBufferSize, bufferEnd_of_cut hcut hbs]
  omega

def sampleArea : Area :=
  match binderMmap Layout.x86 4096 16384 0 PageEnv.unused with
  | .ok (_, ar) => ar
  | .error _ => Area.unmapped

/-- A run that splits, allocates asynchronously, frees and merges, and fails to
map a page. -/
def sampleActs : List AreaAct :=
  [.alloc 5000 16 false PageEnv.unused, .alloc 100 0 true PageEnv.unused, .free 4096,
    .alloc 4096 0 false { mm := true, page := fun _ => false }, .free 9192]

theorem sampleActs_run : ∃ ar,
    runChecked (areaStep Layout.x86) (fun ar act => act.admitted ar) sampleArea sampleActs =
      some ar :=
  Option.isSome_iff_exists.mp (by decide)

/-- The representation invariant of the allocator: it holds in every area that
is reached from a successful `binder_mmap`, and no call faults there. -/
theorem wellFormed_of_reach {base size : ℕ} {off : ℤ} {env : PageEnv} {ar₀ : Area}
    (hbase : L.pageSize ∣ base) (hsize : L.pageSize ∣ size) (hpos : 0 < size)
    (hmmap : binderMmap L base size off env = .ok (true, ar₀))
    (hreach : Reach (areaStep L) (fun ar act => act.admitted ar) ar₀ ar) :
    ar.WellFormed L ∧ (ar.buffers.Pairwise fun b c => b.addr < c.addr) ∧
      (∀ b ∈ ar.buffers,
        b.addr + L.headerSize + binderBufferSize L ar b.addr = ar.bufferEnd b.addr) ∧
      ∀ act : AreaAct, act.admitted ar → ∃ ar', areaStep L ar act = .ok ar' := by
  have h := sound_of_reach hbase hsize hpos hmmap hreach
  refine ⟨h.toWellFormed, h.pairwise, fun b hb => h.extent_eq hb, fun act hadm => ?_⟩
  obtain ⟨ar', hrun, _⟩ := areaStep_ok h act hadm
  exact ⟨ar', hrun⟩

theorem wellFormed_of_reach_sample : ∃ ar,
    runChecked (areaStep Layout.x86) (fun ar act => act.admitted ar) sampleArea sampleActs =
      some ar ∧ ar.WellFormed Layout.x86 := by
  obtain ⟨ar, har⟩ := sampleActs_run
  exact ⟨ar, har, (@wellFormed_of_reach Layout.x86 ar 4096 16384 0
    PageEnv.unused _ (by decide) (by decide) (by decide) rfl (reach_of_runChecked har)).1⟩

/-- The page map is exact in every area that is reached from a successful
`binder_mmap`: the page loops never meet a page in the wrong state, and an
allocation that fails leaves the area as it was. -/
theorem pagesExact_of_reach {base size : ℕ} {off : ℤ} {env : PageEnv} {ar₀ : Area}
    (hbase : L.pageSize ∣ base) (hsize : L.pageSize ∣ size) (hpos : 0 < size)
    (hmmap : binderMmap L base size off env = .ok (true, ar₀))
    (hreach : Reach (areaStep L) (fun ar act => act.admitted ar) ar₀ ar) :
    ar.PagesExact L ∧
      (∀ act : AreaAct, act.admitted ar → ∃ ar', areaStep L ar act = .ok ar') ∧
      ∀ (d o : ℕ) (isAsync : Bool) (env : PageEnv) (ar' : Area),
        binderAllocBuf L ar d o isAsync env = .ok (none, ar') → ar' = ar := by
  have h := sound_of_reach hbase hsize hpos hmmap hreach
  refine ⟨h.pagesExact, fun act hadm => ?_, fun d o isAsync env ar' hrun => ?_⟩
  · obtain ⟨ar', hrun, _⟩ := areaStep_ok h act hadm
    exact ⟨ar', hrun⟩
  · rcases binderAllocBuf_ok h d o isAsync env with hnone | ⟨_, _, _, _, _, hsome, _⟩
    · rw [hnone] at hrun
      cases hrun
      rfl
    · rw [hsome] at hrun
      cases hrun

theorem pagesExact_of_reach_sample : ∃ ar,
    runChecked (areaStep Layout.x86) (fun ar act => act.admitted ar) sampleArea sampleActs =
      some ar ∧ ar.PagesExact Layout.x86 := by
  obtain ⟨ar, har⟩ := sampleActs_run
  exact ⟨ar, har, (@pagesExact_of_reach Layout.x86 ar 4096 16384 0
    PageEnv.unused _ (by decide) (by decide) (by decide) rfl (reach_of_runChecked har)).1⟩

end Runs

end Driver

end BinderForLinux
