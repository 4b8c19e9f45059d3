import BinderForLinux.Ashmem.Device

/-!
# The protection mask

The mask of an area says which accesses a mapping may have and may be given later. It is read by
`ashmem_mmap` and written by `set_prot_mask`, which is to take bits away only. It checks the bits
it was asked for, and then adds the one for executing if the process wants reading to imply it.
-/

namespace BinderForLinux

namespace Ashmem

open Library

variable {s s' s₁ s₂ : State} {a b r : ℕ} {op : Op}

/-- The bits of the one are among those of the other. -/
def BitsIn (x y : Flags) : Prop := ∀ i, x.getLsbD i = true → y.getLsbD i = true

theorem BitsIn.refl (x : Flags) : BitsIn x x := fun _ h => h

theorem BitsIn.trans {x y z : Flags} (h : BitsIn x y) (h' : BitsIn y z) : BitsIn x z :=
  fun i hi => h' i (h i hi)

/-- The accesses and the accesses that may be given are in the mask. -/
def AccessIn (vmFlags mask : Flags) : Prop :=
  ∀ i < 3, (vmFlags.getLsbD i = true → mask.getLsbD i = true) ∧
    (vmFlags.getLsbD (i + 4) = true → mask.getLsbD i = true)

/-! ### Mapping -/

theorem and_eq_ite (x : Flags) (i : ℕ) :
    x &&& BitVec.twoPow 64 i = if x.getLsbD i then BitVec.twoPow 64 i else 0#64 :=
  BitVec.and_twoPow x i

theorem calcVmTrans_eq (x : Flags) {bit1 bit2 : Flags} {i : ℕ} (hbit : bit1 = BitVec.twoPow 64 i)
    (hle : bit1 ≤ bit2) (hmul : bit1 * (bit2 / bit1) = bit2) :
    calcVmTrans x bit1 bit2 = if x.getLsbD i then bit2 else 0#64 := by
  rw [calcVmTrans, if_pos hle, hbit, and_eq_ite, ← hbit]
  split
  · exact hmul
  · exact BitVec.zero_mul

theorem calcVmProtBits_getLsbD (prot : Flags) {i : ℕ} (hi : i < 3) :
    (calcVmProtBits prot).getLsbD i = prot.getLsbD i := by
  unfold calcVmProtBits
  rw [calcVmTrans_eq prot (i := 0) (by decide) (by decide) (by decide),
    calcVmTrans_eq prot (i := 1) (by decide) (by decide) (by decide),
    calcVmTrans_eq prot (i := 2) (by decide) (by decide) (by decide)]
  obtain rfl | rfl | rfl : i = 0 ∨ i = 1 ∨ i = 2 := by omega
  all_goals
    generalize prot.getLsbD 0 = x
    generalize prot.getLsbD 1 = y
    generalize prot.getLsbD 2 = z
    revert x y z
    decide

theorem calcVmMayFlags_getLsbD (prot : Flags) {i : ℕ} (hi : i < 3) :
    (calcVmMayFlags prot).getLsbD (i + 4) = prot.getLsbD i := by
  unfold calcVmMayFlags
  rw [calcVmTrans_eq prot (i := 0) (by decide) (by decide) (by decide),
    calcVmTrans_eq prot (i := 1) (by decide) (by decide) (by decide),
    calcVmTrans_eq prot (i := 2) (by decide) (by decide) (by decide)]
  obtain rfl | rfl | rfl : i = 0 ∨ i = 1 ∨ i = 2 := by omega
  all_goals
    generalize prot.getLsbD 0 = x
    generalize prot.getLsbD 1 = y
    generalize prot.getLsbD 2 = z
    revert x y z
    decide

/-- A mapping that is accepted has no access that is not in the mask, and cannot get one. -/
theorem accessIn_of_mmap {vmFlags f : Flags} {x y : Except Errno Unit}
    (h : ashmemMmap s a vmFlags x y = (s', .ok f)) : AccessIn f (s.area a).protMask := by
  unfold ashmemMmap at h
  split at h
  · cases h
  split at h
  · cases h
  rename_i hprot
  dsimp only at h
  have hf : vmFlags &&& ~~~calcVmMayFlags (~~~(s.area a).protMask) = f := by
    split at h
    · cases h
    · split at h
      · cases h
      · cases h
        rfl
  intro i hi
  constructor
  · intro hbit
    rw [← hf, BitVec.getLsbD_and, Bool.and_eq_true] at hbit
    have hzero := congrArg (fun v => BitVec.getLsbD v i) (not_not.mp hprot)
    rw [BitVec.getLsbD_and, BitVec.getLsbD_and, hbit.1, BitVec.getLsbD_not,
      calcVmProtBits_getLsbD _ hi, calcVmProtBits_getLsbD _ hi] at hzero
    have hmask : Ashmem.protMask.getLsbD i = true := by
      obtain rfl | rfl | rfl : i = 0 ∨ i = 1 ∨ i = 2 := by omega
      all_goals decide
    rw [hmask] at hzero
    simpa [show i < 64 by omega] using hzero
  · intro hbit
    rw [← hf, BitVec.getLsbD_and, BitVec.getLsbD_not, calcVmMayFlags_getLsbD _ hi,
      BitVec.getLsbD_not] at hbit
    have hmask : vmFlags[i + 4] = true ∧ (s.area a).protMask[i] = true := by
      simpa [show i < 64 by omega, show i + 4 < 64 by omega] using hbit
    simpa [show i < 64 by omega] using hmask.2

/-! ### Operations that leave the mask -/

/-- The areas keep their masks. -/
structure KeepsMasks (s s' : State) : Prop where
  opened : ∀ a ∈ s'.opened, a ∈ s.opened
  nextArea : s'.nextArea = s.nextArea
  protMask : ∀ a, (s'.area a).protMask = (s.area a).protMask

namespace KeepsMasks

theorem refl (s : State) : KeepsMasks s s := ⟨fun _ h => h, rfl, fun _ => rfl⟩

theorem trans (h : KeepsMasks s s₁) (h' : KeepsMasks s₁ s₂) : KeepsMasks s s₂ :=
  ⟨fun a ha => h.opened a (h'.opened a ha), h'.nextArea.trans h.nextArea,
    fun a => (h'.protMask a).trans (h.protMask a)⟩

theorem setArea {x : Area} (hx : x.protMask = (s.area a).protMask) :
    KeepsMasks s (s.setArea a x) := by
  refine ⟨fun _ h => h, rfl, fun b => ?_⟩
  change (Function.update s.area a x b).protMask = _
  by_cases hb : b = a
  · rw [hb, Function.update_self, hx]
  · rw [Function.update_of_ne hb]

theorem setUnpinned (s : State) (a : ℕ) (l : List ℕ) : KeepsMasks s (s.setUnpinned a l) :=
  setArea rfl

theorem rangeDel (s : State) (r : ℕ) : KeepsMasks s (rangeDel s r) := by
  have hset := setUnpinned s (s.range r).asma ((s.area (s.range r).asma).unpinnedList.erase r)
  unfold Ashmem.rangeDel
  dsimp only
  split
  · exact ⟨hset.opened, hset.nextArea, hset.protMask⟩
  · exact hset

theorem rangeShrink (s : State) (r m n : ℕ) : KeepsMasks s (rangeShrink s r m n) := by
  unfold Ashmem.rangeShrink
  dsimp only
  split
  · exact ⟨fun _ h => h, rfl, fun _ => rfl⟩
  · exact ⟨fun _ h => h, rfl, fun _ => rfl⟩

theorem rangeAlloc {prev : Option ℕ} {purged zalloc : Bool} {m n : ℕ}
    (h : rangeAlloc s a prev purged m n zalloc = some s') : KeepsMasks s s' := by
  unfold Ashmem.rangeAlloc at h
  dsimp only at h
  split at h
  · have hrange : KeepsMasks s ({ s with nextRange := s.nextRange + 1 }.setRange s.nextRange
        ⟨a, m, n, purged⟩) := ⟨fun _ h => h, rfl, fun _ => rfl⟩
    have hset := hrange.trans (setUnpinned _ a (listAddTail s.nextRange prev
      (s.area a).unpinnedList))
    obtain rfl := Option.some.inj h
    split
    · exact ⟨hset.opened, hset.nextArea, hset.protMask⟩
    · exact hset
  · cases h

theorem getD_rangeAlloc {prev : Option ℕ} {purged zalloc : Bool} {m n : ℕ} :
    KeepsMasks s ((Ashmem.rangeAlloc s a prev purged m n zalloc).getD s) := by
  cases h : Ashmem.rangeAlloc s a prev purged m n zalloc with
  | none => exact refl s
  | some s' => exact rangeAlloc h

theorem pinLoop {first last : ℕ} {zalloc ret : Bool} {l : List ℕ} :
    KeepsMasks s (pinLoop a first last zalloc l s ret).1 := by
  induction l generalizing s ret with
  | nil => exact refl s
  | cons r l ih =>
      rw [Ashmem.pinLoop]
      dsimp only
      split
      · exact refl s
      split
      · split
        · exact (rangeDel s r).trans ih
        split
        · exact (rangeShrink s r _ _).trans ih
        split
        · exact (rangeShrink s r _ _).trans ih
        · exact getD_rangeAlloc.trans (rangeShrink _ r _ _)
      · exact ih

theorem unpinLoop {fuel first last : ℕ} {zalloc purged : Bool} {out : State × Except Errno Unit}
    (h : unpinLoop a zalloc fuel s first last purged = some out) : KeepsMasks s out.1 := by
  induction fuel generalizing s first last purged with
  | zero =>
      unfold Ashmem.unpinLoop at h
      split at h
      · cases h
        exact refl s
      · split at h
        · rename_i hs
          cases h
          exact rangeAlloc hs
        · cases h
          exact refl s
      · cases h
  | succ fuel ih =>
      unfold Ashmem.unpinLoop at h
      split at h
      · cases h
        exact refl s
      · split at h
        · rename_i hs
          cases h
          exact rangeAlloc hs
        · cases h
          exact refl s
      · exact (rangeDel s _).trans (ih h)

theorem shrinkLoop {l : List ℕ} {nr freed : ℕ} :
    KeepsMasks s (shrinkLoop l nr s freed).1 := by
  induction l generalizing s nr freed with
  | nil => exact refl s
  | cons r l ih =>
      have hpurge : KeepsMasks s (lruDel (s.setRange r { s.range r with purged := true }) r) :=
        ⟨fun _ h => h, rfl, fun _ => rfl⟩
      rw [Ashmem.shrinkLoop]
      generalize wsub nr 1 = n
      split
      · exact hpurge
      · exact hpurge.trans ih

theorem ashmemRelease (s : State) (a : ℕ) : KeepsMasks s (ashmemRelease s a) := by
  have hdel : ∀ (l : List ℕ) (s : State), KeepsMasks s (l.foldl Ashmem.rangeDel s) := by
    intro l
    induction l with
    | nil => exact refl
    | cons r l ih => exact fun s => (rangeDel s r).trans (ih _)
  have hall := hdel (s.area a).unpinnedList s
  exact ⟨fun b hb => hall.opened b (List.mem_of_mem_erase hb), hall.nextArea, hall.protMask⟩

theorem ashmemMmap (s : State) (a : ℕ) (vmFlags : Flags) (x y : Except Errno Unit) :
    KeepsMasks s (ashmemMmap s a vmFlags x y).1 := by
  unfold Ashmem.ashmemMmap
  split
  · exact refl s
  split
  · exact refl s
  dsimp only
  split
  · exact refl s
  split
  · exact setArea rfl
  · exact setArea rfl

end KeepsMasks

/-! ### Setting the mask -/

/-- If reading implies executing for the process, the mask allows executing already. -/
def Op.AddsNothing (s : State) : Op → Prop
  | .setProtMask a prot personality => (s.area a).protMask &&& prot = prot →
      prot &&& protRead ≠ 0 → personality &&& readImpliesExec ≠ 0 →
      (s.area a).protMask &&& protExec = protExec
  | _ => True

theorem bitsIn_of_and {x y : Flags} (h : y &&& x = x) : BitsIn x y := by
  intro i hi
  rw [← h, BitVec.getLsbD_and, Bool.and_eq_true] at hi
  exact hi.1

theorem and_of_bitsIn {x y : Flags} (h : BitsIn x y) : y &&& x = x := by
  refine BitVec.eq_of_getLsbD_eq fun i _ => ?_
  rw [BitVec.getLsbD_and]
  cases hx : x.getLsbD i with
  | false => rw [Bool.and_false]
  | true => rw [h i hx, Bool.and_true]

theorem bitsIn_or {x y z : Flags} (hx : BitsIn x z) (hy : BitsIn y z) : BitsIn (x ||| y) z := by
  intro i hi
  rw [BitVec.getLsbD_or, Bool.or_eq_true] at hi
  exact hi.elim (hx i) (hy i)

theorem setProtMask_bitsIn_iff (prot : Flags) (personality : BitVec 32) :
    BitsIn ((setProtMask s a prot personality).1.area a).protMask (s.area a).protMask ↔
      (Op.setProtMask a prot personality).AddsNothing s := by
  unfold setProtMask Op.AddsNothing
  split
  · rename_i hne
    exact ⟨fun _ heq => absurd heq hne, fun _ => .refl _⟩
  · rename_i heq
    rw [not_not] at heq
    dsimp only [State.setArea]
    rw [Function.update_self]
    dsimp only
    split
    · rename_i himplies
      constructor
      · intro hin _ _ _
        refine and_of_bitsIn fun i hi => hin i ?_
        rw [BitVec.getLsbD_or, hi, Bool.or_true]
      · intro hexec
        exact bitsIn_or (bitsIn_of_and heq) (bitsIn_of_and (hexec heq himplies.1 himplies.2))
    · rename_i himplies
      exact ⟨fun _ _ hread hpers => absurd ⟨hread, hpers⟩ himplies, fun _ => bitsIn_of_and heq⟩

/-- What a step does to the masks of the areas that are open before. -/
structure MasksShrink (s s' : State) : Prop where
  opened : ∀ a ∈ s'.opened, a ∈ s.opened ∨ s.nextArea ≤ a ∧ a < s'.nextArea
  nextArea : s.nextArea ≤ s'.nextArea
  protMask : ∀ a, a < s.nextArea → BitsIn (s'.area a).protMask (s.area a).protMask

theorem KeepsMasks.masksShrink (h : KeepsMasks s s') : MasksShrink s s' :=
  ⟨fun a ha => .inl (h.opened a ha), Nat.le_of_eq h.nextArea.symm,
    fun a _ => h.protMask a ▸ .refl _⟩

theorem masksShrink_setProtMask {prot : Flags} {personality : BitVec 32}
    (hok : (Op.setProtMask a prot personality).AddsNothing s) :
    MasksShrink s (setProtMask s a prot personality).1 := by
  refine ⟨fun b hb => .inl ?_, ?_, fun b _ => ?_⟩
  · unfold setProtMask at hb
    split at hb
    · exact hb
    · exact hb
  · unfold setProtMask
    split
    · exact Nat.le_refl _
    · exact Nat.le_refl _
  · by_cases hb : b = a
    · rw [hb]
      exact (setProtMask_bitsIn_iff prot personality).mpr hok
    · unfold setProtMask
      split
      · exact .refl _
      · dsimp only [State.setArea]
        rw [Function.update_of_ne hb]
        exact .refl _

theorem masksShrink_ashmemOpen (s : State) (zalloc : Bool) :
    MasksShrink s (ashmemOpen s zalloc).1 := by
  unfold ashmemOpen
  split
  · refine ⟨fun b hb => ?_, Nat.le_succ _, fun b hb => ?_⟩
    · rcases List.mem_cons.mp hb with rfl | hb
      · exact .inr ⟨Nat.le_refl _, Nat.lt_succ_self _⟩
      · exact .inl hb
    · dsimp only [State.setArea]
      rw [Function.update_of_ne (Nat.ne_of_lt hb)]
      exact .refl _
  · exact (KeepsMasks.refl s).masksShrink

theorem masksShrink_step (hok : op.AddsNothing s) (hstep : step s op = .ok s') :
    MasksShrink s s' := by
  have happly : apply s op = .ok s' := by
    unfold step at hstep
    split at hstep
    · exact hstep
    · split at hstep
      · exact hstep
      · cases hstep
  cases op with
  | «open» zalloc =>
      cases happly
      exact masksShrink_ashmemOpen s zalloc
  | release a =>
      cases happly
      exact (KeepsMasks.ashmemRelease s a).masksShrink
  | setSize a n =>
      cases happly
      unfold setSize
      split
      · exact (KeepsMasks.refl s).masksShrink
      · have hkeeps : KeepsMasks s (s.setArea a { s.area a with size := n % wordSize }) :=
          .setArea rfl
        exact hkeeps.masksShrink
  | setProtMask a prot personality =>
      cases happly
      exact masksShrink_setProtMask hok
  | mmap a vmFlags x y =>
      cases happly
      exact (KeepsMasks.ashmemMmap s a vmFlags x y).masksShrink
  | pinUnpin a cmd offset len zalloc =>
      unfold apply ashmemPinUnpin at happly
      dsimp only at happly
      cases hi : pinInterval (s.area a) offset len with
      | none =>
          rw [hi] at happly
          cases happly
          exact (KeepsMasks.refl s).masksShrink
      | some i =>
          rw [hi] at happly
          cases cmd with
          | pin =>
              cases happly
              exact KeepsMasks.pinLoop.masksShrink
          | unpin =>
              dsimp only at happly
              cases hout : ashmemUnpin s a i.1 i.2 zalloc with
              | none =>
                  rw [hout] at happly
                  cases happly
              | some out =>
                  rw [hout] at happly
                  cases happly
                  exact (KeepsMasks.unpinLoop hout).masksShrink
          | getPinStatus =>
              cases happly
              exact (KeepsMasks.refl s).masksShrink
  | shrinkScan gfpFs nr =>
      cases happly
      unfold ashmemShrinkScan
      split
      · exact KeepsMasks.shrinkLoop.masksShrink
      · exact (KeepsMasks.refl s).masksShrink

/-! ### Runs -/

theorem MasksShrink.trans (h : MasksShrink s s₁) (h' : MasksShrink s₁ s₂) : MasksShrink s s₂ := by
  refine ⟨fun a ha => ?_, Nat.le_trans h.nextArea h'.nextArea, fun a ha => ?_⟩
  · have := h.nextArea
    have := h'.nextArea
    rcases h'.opened a ha with ha | ⟨hle, hlt⟩
    · rcases h.opened a ha with ha | ⟨hle, hlt⟩
      · exact .inl ha
      · exact .inr ⟨hle, by omega⟩
    · exact .inr ⟨by omega, hlt⟩
  · exact (h'.protMask a (Nat.lt_of_lt_of_le ha h.nextArea)).trans (h.protMask a ha)

theorem masksShrink_of_reach (h : Reach step (fun s op => op.AddsNothing s) s₁ s₂) :
    MasksShrink s₁ s₂ :=
  h.invariant (I := fun s => MasksShrink s₁ s) (KeepsMasks.refl s₁).masksShrink
    fun _ _ _ hs hok hstep => hs.trans (masksShrink_step hok hstep)

/-- In every run whose calls of `set_prot_mask` meet the condition, the mask of an area only gets
smaller, and a mapping that is accepted stays within all masks that there were before. -/
theorem protection_shrinks (h₁ : Reach step (fun s op => op.AddsNothing s) State.init s₁)
    (h₂ : Reach step (fun s op => op.AddsNothing s) s₁ s₂) (ha : a ∈ s₁.opened) :
    BitsIn (s₂.area a).protMask (s₁.area a).protMask ∧
      ∀ vmFlags x y f s', ashmemMmap s₂ a vmFlags x y = (s', .ok f) →
        AccessIn f (s₂.area a).protMask ∧ AccessIn f (s₁.area a).protMask := by
  have hlt : a < s₁.nextArea := by
    rcases (masksShrink_of_reach h₁).opened a ha with ha | ⟨-, hlt⟩
    · cases ha
    · exact hlt
  have hin := (masksShrink_of_reach h₂).protMask a hlt
  refine ⟨hin, fun vmFlags x y f s' hmap => ?_⟩
  have haccess := accessIn_of_mmap hmap
  exact ⟨haccess, fun i hi =>
    ⟨fun hbit => hin i ((haccess i hi).1 hbit), fun hbit => hin i ((haccess i hi).2 hbit)⟩⟩

instance (s : State) (op : Op) : Decidable (op.AddsNothing s) :=
  match op with
  | .setProtMask a prot personality =>
      inferInstanceAs (Decidable ((s.area a).protMask &&& prot = prot →
        prot &&& protRead ≠ 0 → personality &&& readImpliesExec ≠ 0 →
        (s.area a).protMask &&& protExec = protExec))
  | .open _ | .release _ | .setSize _ _ | .mmap _ _ _ _ | .pinUnpin _ _ _ _ _
  | .shrinkScan _ _ => .isTrue trivial

/-- A process for which reading implies executing sets a mask without the bit for writing, and
another one then one for reading only. -/
theorem protection_shrinks_read : ∃ s₁ s₂,
    Reach step (fun s op => op.AddsNothing s) s₁ s₂ ∧ (s₁.area 0).protMask = 5 ∧
      (s₂.area 0).protMask = 1 ∧ BitsIn (s₂.area 0).protMask (s₁.area 0).protMask := by
  obtain ⟨s₁, hs₁, hfirst⟩ := Option.map_eq_some_iff.mp
    (show (runChecked step (fun s op => op.AddsNothing s) State.init
        [.open true, .setProtMask 0 1 0x0400000]).map
          (fun s => ((s.area 0).protMask, decide (0 ∈ s.opened),
            (runChecked step (fun s op => op.AddsNothing s) s [.setProtMask 0 1 0]).map
              fun s => (s.area 0).protMask)) = some (5, true, some 1) by decide +kernel)
  simp only [Prod.mk.injEq, decide_eq_true_eq] at hfirst
  obtain ⟨hmask, ha, hsecond⟩ := hfirst
  obtain ⟨s₂, hs₂, hmask'⟩ := Option.map_eq_some_iff.mp hsecond
  have hreach := reach_of_runChecked hs₂
  exact ⟨s₁, s₂, hreach, hmask, hmask',
    (protection_shrinks (reach_of_runChecked hs₁) hreach ha).1⟩

/-- A process for which reading implies executing gives the bit back that was taken away. -/
theorem protection_grows : ¬ ∀ s₁ s₂ : State,
    Reach step (fun _ _ => True) State.init s₁ → Reach step (fun _ _ => True) s₁ s₂ →
    0 ∈ s₁.opened → BitsIn (s₂.area 0).protMask (s₁.area 0).protMask := by
  intro hall
  obtain ⟨s₁, s₂, hs₁, hs₂, ha, hmask, hmask'⟩ : ∃ s₁ s₂,
      runActions step State.init [.open true, .setProtMask 0 1 0] = .ok s₁ ∧
      runActions step s₁ [.setProtMask 0 1 0x0400000] = .ok s₂ ∧ 0 ∈ s₁.opened ∧
      (s₁.area 0).protMask.getLsbD 2 = false ∧ (s₂.area 0).protMask.getLsbD 2 = true :=
    ⟨_, _, rfl, rfl, by decide +kernel, by decide +kernel, by decide +kernel⟩
  have hin := hall s₁ s₂ (reach_of_runActions hs₁) (reach_of_runActions hs₂) ha 2 hmask'
  rw [hmask] at hin
  cases hin

end Ashmem

end BinderForLinux
