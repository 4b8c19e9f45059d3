import BinderForLinux.Parcel.Tables

/-!
# The blocks of the parcels

Growth, `restartWrite`, taking possession of received data and the release of the data each
allocate, reallocate or free the block of a parcel, and each has its own rule for the two global
counters. A step is balanced if the blocks it allocates and those it held are the ones it frees
and those it holds afterwards, and the counters follow. Two branches of `restartWrite` are
not: the first data of a parcel are not counted, and `realloc` to no bytes frees the block that
the parcel keeps.
-/

namespace BinderForLinux

namespace Parcel

open Library

/-! ### What a parcel holds -/

def ownBlock (p : Parcel) : Option ℕ := if p.mOwner then none else p.mData

def holds (b : ℕ) (p : Parcel) : ℕ := if ownBlock p = some b then 1 else 0

/-- What a parcel adds to the two global counters. -/
def heapCount (p : Parcel) : ℕ := if (ownBlock p).isSome then 1 else 0

def heapSize (p : Parcel) : ℕ := if (ownBlock p).isSome then p.mDataCapacity else 0

def mallocs (b : ℕ) (l : List Effect) : ℕ := l.count (.malloc b)

def frees (b : ℕ) (l : List Effect) : ℕ := l.count (.free b)

/-- A counter that was a total, and is one after a part of it was replaced. -/
def Follows (c c' part part' : ℕ) : Prop :=
  ∀ total, part ≤ total → c = total % sizeT → c' = (total - part + part') % sizeT

/-- The effects of a step, from the first world to the second. -/
structure Ledger (p p' : Parcel) (w w' : World) (l : List Effect) : Prop where
  log : p'.log = p.log ++ l
  balance : ∀ b, mallocs b l + holds b p = frees b l + holds b p'
  once : ∀ b, mallocs b l ≤ 1
  fresh : ∀ b, .malloc b ∈ l → w.allocs ≤ b ∧ b < w'.allocs

structure Balanced (p p' : Parcel) (w w' : World) : Prop where
  allocs_le : w.allocs ≤ w'.allocs
  ledger : ∃ l, Ledger p p' w w' l
  size : Follows w.gParcelGlobalAllocSize w'.gParcelGlobalAllocSize (heapSize p) (heapSize p')
  count : Follows w.gParcelGlobalAllocCount w'.gParcelGlobalAllocCount (heapCount p) (heapCount p')

/-- A parcel of its own has a capacity that the counters can hold. -/
def Sized (p : Parcel) : Prop := p.mOwner = false → p.mDataCapacity ≤ int32Max

section Ledgers

variable {o : Oracle} {p p' q : Parcel} {w w' w'' : World} {len : ℕ} {st : Status}
  {l l' : List Effect}

@[simp] theorem mallocs_append (b : ℕ) (l l' : List Effect) :
    mallocs b (l ++ l') = mallocs b l + mallocs b l' := List.count_append

@[simp] theorem frees_append (b : ℕ) (l l' : List Effect) :
    frees b (l ++ l') = frees b l + frees b l' := List.count_append

theorem mallocs_eq_zero {b : ℕ} (h : ∀ b, Effect.malloc b ∉ l) : mallocs b l = 0 :=
  List.count_eq_zero.mpr (h b)

theorem frees_eq_zero {b : ℕ} (h : ∀ b, Effect.free b ∉ l) : frees b l = 0 :=
  List.count_eq_zero.mpr (h b)

theorem Follows.trans {c c' c'' a a' a'' : ℕ} (h : Follows c c' a a') (h' : Follows c' c'' a' a'') :
    Follows c c'' a a'' := by
  intro total hle htotal
  have h1 := h total hle htotal
  have h2 := h' (total - a + a') (by omega) h1
  rw [h2]
  congr 1
  omega

theorem Follows.same {c a a' : ℕ} (h : a' = a) : Follows c c a a' := by
  intro total hle htotal
  rw [htotal, h]
  congr 1
  omega

/-- What is neither an allocation nor a release of a block. -/
def Effect.Aside : Effect → Prop
  | .malloc _ => False
  | .free _ => False
  | _ => True

/-- A step that leaves the block, its capacity and the owner alone. -/
structure Aside (p p' : Parcel) : Prop where
  data : p'.mData = p.mData
  owner : p'.mOwner = p.mOwner
  capacity : p'.mDataCapacity = p.mDataCapacity
  log : ∃ l, p'.log = p.log ++ l ∧ ∀ e ∈ l, e.Aside

theorem Balanced.refl (p : Parcel) (w : World) : Balanced p p w w where
  allocs_le := le_rfl
  ledger := ⟨[], by simp, by simp [mallocs, frees], by simp [mallocs], by simp⟩
  size := .same rfl
  count := .same rfl

theorem Balanced.trans (h : Balanced p q w w') (h' : Balanced q p' w' w'') :
    Balanced p p' w w'' where
  allocs_le := h.allocs_le.trans h'.allocs_le
  ledger := by
    obtain ⟨l, hl⟩ := h.ledger
    obtain ⟨l', hl'⟩ := h'.ledger
    have h1 := h.allocs_le
    have h2 := h'.allocs_le
    refine ⟨l ++ l', by rw [hl'.log, hl.log, List.append_assoc], fun b => ?_, fun b => ?_,
      fun b hb => ?_⟩
    · have := hl.balance b
      have := hl'.balance b
      simp only [mallocs_append, frees_append]
      omega
    · -- A block is named after its allocation, so it is not allocated in both parts.
      rw [mallocs_append]
      have := hl.once b
      have := hl'.once b
      by_contra hne
      have hb1 := (hl.fresh b (List.count_pos_iff.mp (by unfold mallocs at *; omega))).2
      have hb2 := (hl'.fresh b (List.count_pos_iff.mp (by unfold mallocs at *; omega))).1
      omega
    · rcases List.mem_append.mp hb with hb | hb
      · have := hl.fresh b hb
        omega
      · have := hl'.fresh b hb
        omega
  size := h.size.trans h'.size
  count := h.count.trans h'.count

theorem Aside.balanced (h : Aside p p') (hle : w.allocs ≤ w'.allocs)
    (hsize : w'.gParcelGlobalAllocSize = w.gParcelGlobalAllocSize)
    (hcount : w'.gParcelGlobalAllocCount = w.gParcelGlobalAllocCount) : Balanced p p' w w' := by
  have hblock : ownBlock p' = ownBlock p := by
    unfold ownBlock
    rw [h.owner, h.data]
  obtain ⟨l, hl, haside⟩ := h.log
  have hm : ∀ b, Effect.malloc b ∉ l := fun b hb => haside _ hb
  have hf : ∀ b, Effect.free b ∉ l := fun b hb => haside _ hb
  refine ⟨hle, ⟨l, hl, fun b => ?_, fun b => ?_, fun b hb => absurd hb (hm b)⟩, ?_, ?_⟩
  · rw [mallocs_eq_zero hm, frees_eq_zero hf]
    unfold holds
    rw [hblock]
  · rw [mallocs_eq_zero hm]
    omega
  · rw [hsize]
    refine .same ?_
    unfold heapSize
    rw [hblock, h.capacity]
  · rw [hcount]
    refine .same ?_
    unfold heapCount
    rw [hblock]

/-! ### Steps beside the block -/

namespace Aside

theorem refl (p : Parcel) : Aside p p := ⟨rfl, rfl, rfl, [], by simp, by simp⟩

theorem trans (h : Aside p q) (h' : Aside q p') : Aside p p' := by
  obtain ⟨l, hl, haside⟩ := h.log
  obtain ⟨l', hl', haside'⟩ := h'.log
  refine ⟨h'.data.trans h.data, h'.owner.trans h.owner, h'.capacity.trans h.capacity, l ++ l',
    by rw [hl', hl, List.append_assoc], fun e he => ?_⟩
  rcases List.mem_append.mp he with he | he
  · exact haside e he
  · exact haside' e he

theorem account (p : Parcel) (m : ℕ) (hl : ∀ e ∈ l, e.Aside) : Aside p (account p m l) :=
  ⟨rfl, rfl, rfl, l, rfl, hl⟩

theorem store (p : Parcel) (off : ℕ) (bs : List UInt8) : Aside p (p.store off bs) :=
  ⟨rfl, rfl, rfl, _, rfl, by simp [Effect.Aside]⟩

theorem storeAll (p : Parcel) (fills : List (ℕ × List UInt8)) : Aside p (storeAll p fills) := by
  induction fills generalizing p with
  | nil => exact refl p
  | cons f fills ih => exact (store p f.1 f.2).trans (ih _)

theorem finishWrite (p : Parcel) (len : ℕ) : Aside p (finishWrite p len) :=
  ⟨rfl, rfl, rfl, [], by simp [Parcel.finishWrite], by simp⟩

theorem flagFds (val : FlatObject) (p : Parcel) : Aside p (flagFds val p) := by
  unfold Parcel.flagFds
  split
  · exact ⟨rfl, rfl, rfl, [], by simp, by simp⟩
  · exact refl p

theorem listed (val : FlatObject) (off : ℕ) (p : Parcel) : Aside p (listed o val off p) :=
  ⟨rfl, rfl, rfl, _, rfl, by simp [Effect.Aside]⟩

theorem give (p : Parcel) : Aside p p.give := ⟨rfl, rfl, rfl, [], by simp, by simp⟩

theorem tableGrown (p : Parcel) (n : ℕ) : Aside p (tableGrown p n) :=
  ⟨rfl, rfl, rfl, [], by simp [Parcel.tableGrown], by simp⟩

theorem putObject {val : FlatObject} {nullMetaData : Bool}
    (h : putObject o p val nullMetaData = (st, p')) : Aside p p' := by
  have hflag := (store p p.mDataPos val.bytes).trans (flagFds val _)
  obtain ⟨-, -, -, rfl⟩ | ⟨-, -, -, rfl⟩ | ⟨-, -, -, rfl⟩ := putObject_cases h
  · exact store p _ _
  · exact hflag.trans (finishWrite _ _)
  · exact (hflag.trans (listed _ _ _)).trans (finishWrite _ _)

theorem adopted (fd off : ℕ) (p : Parcel) : Aside p (adopted o fd off p) := by
  refine ⟨rfl, rfl, rfl, [.tableStore p.objects.length p.room, .acquire (objectAt p.bytes off),
    .dup (objectAt p.bytes off).handle fd, .store (off + 8) 4 p.mDataCapacity,
    .store (off + 16) 8 p.mDataCapacity], ?_, by simp [Effect.Aside]⟩
  simp [Parcel.adopted, Parcel.listed, Parcel.record, Parcel.store]

theorem appendObjects (p : Parcel) (w : World) (offs : List ℕ) :
    Aside p (appendObjects o p w offs).2.1 := by
  unfold Parcel.appendObjects
  suffices hfold : ∀ st : Status, Aside p (offs.foldl (appendObject o) (st, p, w)).2.1 from
    hfold .noError
  intro st
  induction offs generalizing p w st with
  | nil => exact refl p
  | cons off offs ih =>
      rw [List.foldl_cons]
      obtain ⟨-, hr⟩ | ⟨-, st', hr⟩ := appendObject_cases (rfl : appendObject o (st, p, w) off = _)
      · rw [hr]
        exact (listed _ _ p).trans (ih _ _ st)
      · rw [hr]
        exact (adopted _ _ p).trans (ih _ _ st')

theorem appendData (p parcel : Parcel) (offset len : ℕ) :
    Aside p (appendData p parcel offset len) :=
  ⟨rfl, rfl, rfl, _, rfl, by simp [Effect.Aside]⟩

theorem readOnly (h : ReadOnly p p') : Aside p p' := by
  obtain ⟨l, hl, hload⟩ := h.loads
  refine ⟨by rw [h.same], by rw [h.same], by rw [h.same], l, hl, fun e he => ?_⟩
  have hload := hload e he
  cases e with
  | load off len => trivial
  | _ => exact hload.elim

theorem aside_release (fs : List FlatObject) : ∀ e ∈ fs.flatMap releaseEffects, e.Aside := by
  intro e he
  obtain ⟨f, -, hf⟩ := List.mem_flatMap.mp he
  unfold releaseEffects at hf
  split at hf
  · rcases List.mem_pair.mp hf with rfl | rfl
    · trivial
    · trivial
  · obtain rfl := List.mem_singleton.mp hf
    trivial

theorem aside_close (fs : List FlatObject) : ∀ e ∈ fs.flatMap closeEffects, e.Aside := by
  intro e he
  obtain ⟨f, -, hf⟩ := List.mem_flatMap.mp he
  unfold closeEffects at hf
  split at hf
  · obtain rfl := List.mem_singleton.mp hf
    trivial
  · cases hf

theorem releaseObjects (p : Parcel) : Aside p (releaseObjects o p) := by
  rw [releaseObjects_eq]
  exact account p _ (aside_release _)

theorem freeBuffer (p : Parcel) : Aside p (freeBuffer p) := by
  rw [freeBuffer_eq]
  refine account p _ fun e he => ?_
  rcases List.mem_append.mp he with he | he
  · exact aside_close _ e he
  · obtain rfl := List.mem_singleton.mp he
    trivial

theorem dropObjects (p : Parcel) (desired : ℕ) (shrinks : Bool) :
    Aside p (dropObjects o p desired shrinks) := by
  unfold Parcel.dropObjects
  dsimp only
  split
  · rw [releaseEach_eq]
    exact ⟨rfl, rfl, rfl, _, rfl, aside_release _⟩
  · exact refl p

end Aside

/-! ### Steps that change the block -/

/-- The rule by which the counters are changed. -/
theorem follows_add {c added removed part part' : ℕ} (hle : removed ≤ sizeT)
    (h : part' + removed = part + added) :
    Follows c ((c + added + (sizeT - removed)) % sizeT) part part' := by
  intro total hpart htotal
  subst htotal
  unfold sizeT at *
  omega

theorem ownBlock_of_owned (h : p.mOwner = true) : ownBlock p = none := by simp [ownBlock, h]

theorem ownBlock_of_own (h : p.mOwner = false) : ownBlock p = p.mData := by simp [ownBlock, h]

theorem Sized.le (h : Sized p) (hown : p.mOwner = false) : p.mDataCapacity ≤ sizeT :=
  (h hown).trans (by decide)

/-- The counters after a step that replaces one block by another, or none by one, or one by
none. -/
theorem balanced_of_ledger {n added removed blocks unblocks : ℕ} (hl : Ledger p p' w (w.tried n) l)
    (hremoved : removed ≤ sizeT) (hunblocks : unblocks ≤ sizeT)
    (hsize : heapSize p' + removed = heapSize p + added)
    (hcount : heapCount p' + unblocks = heapCount p + blocks) :
    Balanced p p' w ((w.tried n).count added removed blocks unblocks) where
  allocs_le := Nat.le_add_right _ _
  ledger := ⟨l, hl.log, hl.balance, hl.once, hl.fresh⟩
  size := follows_add hremoved hsize
  count := follows_add hunblocks hcount

/-- The block the parcel had is freed and the one it has is allocated, and no other. -/
theorem ledger_of_swap (hlog : p'.log = p.log ++ l) (hm : ∀ b, mallocs b l = holds b p')
    (hf : ∀ b, frees b l = holds b p)
    (hfresh : ∀ b, ownBlock p' = some b → w.allocs ≤ b ∧ b < w'.allocs) : Ledger p p' w w' l where
  log := hlog
  balance := fun b => by
    rw [hm, hf]
    omega
  once := fun b => by
    rw [hm]
    unfold holds
    split
    · exact le_rfl
    · exact Nat.zero_le _
  fresh := fun b hb => by
    have hpos : 0 < mallocs b l := List.count_pos_iff.mpr hb
    rw [hm] at hpos
    unfold holds at hpos
    split at hpos
    · rename_i hsome
      exact hfresh b hsome
    · omega

theorem mallocs_aside {b : ℕ} (h : ∀ e ∈ l, e.Aside) : mallocs b l = 0 :=
  mallocs_eq_zero fun _ hb => h _ hb

theorem frees_aside {b : ℕ} (h : ∀ e ∈ l, e.Aside) : frees b l = 0 :=
  frees_eq_zero fun _ hb => h _ hb

@[simp] theorem mallocs_cons (b : ℕ) (e : Effect) (l : List Effect) :
    mallocs b (e :: l) = (if e = .malloc b then 1 else 0) + mallocs b l := by
  unfold mallocs
  rw [List.count_cons]
  simp only [beq_iff_eq]
  omega

@[simp] theorem frees_cons (b : ℕ) (e : Effect) (l : List Effect) :
    frees b (e :: l) = (if e = .free b then 1 else 0) + frees b l := by
  unfold frees
  rw [List.count_cons]
  simp only [beq_iff_eq]
  omega

@[simp] theorem mallocs_nil (b : ℕ) : mallocs b [] = 0 := rfl

@[simp] theorem frees_nil (b : ℕ) : frees b [] = 0 := rfl

theorem holds_none (h : ownBlock p = none) (b : ℕ) : holds b p = 0 := by simp [holds, h]

theorem holds_some {a : ℕ} (h : ownBlock p = some a) (b : ℕ) :
    holds b p = if a = b then 1 else 0 := by
  simp [holds, h]

theorem heapSize_some {a : ℕ} (h : ownBlock p = some a) : heapSize p = p.mDataCapacity := by
  simp [heapSize, h]

theorem heapSize_none (h : ownBlock p = none) : heapSize p = 0 := by simp [heapSize, h]

theorem heapCount_some {a : ℕ} (h : ownBlock p = some a) : heapCount p = 1 := by
  simp [heapCount, h]

theorem heapCount_none (h : ownBlock p = none) : heapCount p = 0 := by simp [heapCount, h]

theorem balanced_first {n b desired : ℕ} (hp : ownBlock p = none) (hp' : ownBlock p' = some b)
    (hcap : p'.mDataCapacity = desired) (hb : w.allocs ≤ b ∧ b < w.allocs + n)
    (hlog : p'.log = p.log ++ .malloc b :: l) (hl : ∀ e ∈ l, e.Aside) :
    Balanced p p' w ((w.tried n).count desired 0 1 0) := by
  have hledger : Ledger p p' w (w.tried n) (.malloc b :: l) := by
    refine ledger_of_swap hlog (fun x => ?_) (fun x => ?_) fun x hx => ?_
    · simp [holds_some hp', mallocs_aside hl]
    · simp [holds_none hp, frees_aside hl]
    · obtain rfl := Option.some.inj (hp'.symm.trans hx)
      exact hb
  refine balanced_of_ledger hledger (Nat.zero_le _) (Nat.zero_le _) ?_ ?_
  · rw [heapSize_some hp', heapSize_none hp, hcap]
    omega
  · rw [heapCount_some hp', heapCount_none hp]

theorem balanced_replaced {n a b desired : ℕ} (hp : ownBlock p = some a)
    (hp' : ownBlock p' = some b) (hcap : p'.mDataCapacity = desired)
    (hle : p.mDataCapacity ≤ sizeT) (hb : w.allocs ≤ b ∧ b < w.allocs + n)
    (hlog : p'.log = p.log ++ .free a :: .malloc b :: l) (hl : ∀ e ∈ l, e.Aside) :
    Balanced p p' w ((w.tried n).count desired p.mDataCapacity 0 0) := by
  have hledger : Ledger p p' w (w.tried n) (.free a :: .malloc b :: l) := by
    refine ledger_of_swap hlog (fun x => ?_) (fun x => ?_) fun x hx => ?_
    · simp [holds_some hp', mallocs_aside hl]
    · simp [holds_some hp, frees_aside hl]
    · obtain rfl := Option.some.inj (hp'.symm.trans hx)
      exact hb
  refine balanced_of_ledger hledger hle (Nat.zero_le _) ?_ ?_
  · rw [heapSize_some hp', heapSize_some hp, hcap]
    omega
  · rw [heapCount_some hp', heapCount_some hp]

theorem balanced_freed {a : ℕ} (hp : ownBlock p = some a) (hp' : ownBlock p' = none)
    (hle : p.mDataCapacity ≤ sizeT) (hlog : p'.log = p.log ++ (l ++ [.free a]))
    (hl : ∀ e ∈ l, e.Aside) : Balanced p p' w (w.count 0 p.mDataCapacity 0 1) := by
  have hledger : Ledger p p' w (w.tried 0) (l ++ [.free a]) := by
    refine ledger_of_swap hlog (fun x => ?_) (fun x => ?_) fun x hx => ?_
    · simp [holds_none hp', mallocs_aside hl]
    · simp [holds_some hp, frees_aside hl]
    · rw [hp'] at hx
      cases hx
  refine balanced_of_ledger hledger hle (by decide) ?_ ?_
  · rw [heapSize_none hp', heapSize_some hp]
    omega
  · rw [heapCount_none hp', heapCount_some hp]

/-! ### The operations -/

/-- A balanced step to a parcel whose capacity the counters can hold. -/
def Keeps (p p' : Parcel) (w w' : World) : Prop := Balanced p p' w w' ∧ Sized p'

theorem Keeps.trans (h : Keeps p q w w') (h' : Keeps q p' w' w'') : Keeps p p' w w'' :=
  ⟨h.1.trans h'.1, h'.2⟩

theorem Aside.sized (h : Aside p p') (hs : Sized p) : Sized p' := fun hown => by
  rw [h.capacity]
  exact hs (h.owner ▸ hown)

theorem Aside.keeps (h : Aside p p') (hs : Sized p) (n : ℕ) : Keeps p p' w (w.tried n) :=
  ⟨h.balanced (Nat.le_add_right _ _) rfl rfl, h.sized hs⟩

theorem Aside.keeps' (h : Aside p p') (hs : Sized p) : Keeps p p' w w := h.keeps hs 0

theorem keeps_started {b : ℕ} {desired : ℕ} (hown : p.mOwner = false) (hb : p.mData = none)
    (hmax : desired ≤ int32Max) (hfresh : b = w.allocs) :
    Keeps p (started o p b desired) w ((w.tried 1).count desired 0 1 0) := by
  have hp : ownBlock p = none := (ownBlock_of_own hown).trans hb
  have hp' : ownBlock (started o p b desired) = some b := ownBlock_of_own hown
  exact ⟨balanced_first hp hp' rfl (by omega) rfl (by simp), fun _ => hmax⟩

theorem keeps_possessed {n desired : ℕ} (hown : p.mOwner = true) (hmax : desired ≤ int32Max) :
    Keeps p (possessed o p w.allocs desired) w ((w.tried (n + 1)).count desired 0 1 0) := by
  refine ⟨balanced_first (ownBlock_of_owned hown) rfl rfl (by omega) rfl fun e he => ?_,
    fun _ => hmax⟩
  rcases List.mem_append.mp he with he | he
  · obtain ⟨f, -, rfl⟩ := List.mem_map.mp he
    trivial
  · rcases List.mem_append.mp he with he | he
    · exact Aside.aside_close _ e he
    · obtain rfl := List.mem_singleton.mp he
      trivial

theorem keeps_reallocated {n b desired : ℕ} (hs : Sized p) (hown : p.mOwner = false)
    (hb : p.mData = some b) (hmax : desired ≤ int32Max) :
    Keeps p (reallocated o p b (w.allocs + n) desired) w
      ((w.tried (n + 1)).count desired p.mDataCapacity 0 0) := by
  have hp : ownBlock p = some b := (ownBlock_of_own hown).trans hb
  have hp' : ownBlock (reallocated o p b (w.allocs + n) desired) = some (w.allocs + n) :=
    ownBlock_of_own hown
  exact ⟨balanced_replaced hp hp' rfl (hs.le hown) (by omega) rfl (by simp), fun _ => hmax⟩

theorem keeps_refused {n : ℕ} {err : Status} (hs : Sized p)
    (hl : l = [] ∨ p.mOwner = true ∧ l = [.malloc w.allocs, .free w.allocs] ∧ 0 < n) :
    Keeps p { p.record l with mError := err } w (w.tried n) := by
  refine ⟨⟨Nat.le_add_right _ _, ⟨l, rfl, fun b => ?_, fun b => ?_, fun b hb => ?_⟩, .same rfl,
    .same rfl⟩, hs⟩
  · have hholds : holds b { p.record l with mError := err } = holds b p := rfl
    rw [hholds]
    rcases hl with rfl | ⟨-, rfl, -⟩
    · rfl
    · simp
  · rcases hl with rfl | ⟨-, rfl, -⟩
    · simp
    · simp
      split
      · exact le_rfl
      · exact Nat.zero_le _
  · rcases hl with rfl | ⟨-, rfl, hn⟩
    · cases hb
    · rcases List.mem_pair.mp hb with hb | hb
      · cases hb
        exact ⟨le_rfl, Nat.lt_add_of_pos_right hn⟩
      · cases hb

theorem keeps_grown (hs : Sized p) (hg : Grown o p w len st p' w') : Keeps p p' w w' := by
  cases hg with
  | failed _ err n l hst hl => exact keeps_refused hs hl
  | possessed n hown hgrow => exact keeps_possessed hown hgrow.le
  | reallocated n b hown hb hgrow hlt => exact keeps_reallocated hs hown hb hgrow.le
  | kept n b hown hb hgrow hle =>
      have haside : Aside p { p with mDataPos := min p.mDataPos (growTo p len) } :=
        ⟨rfl, rfl, rfl, [], by simp, by simp⟩
      exact haside.keeps hs n
  | started hown hb hgrow => exact keeps_started hown hb hgrow.le rfl

theorem balanced_none (hp : ownBlock p = none) (hp' : ownBlock p' = none)
    (hlog : p'.log = p.log ++ l) (hl : ∀ e ∈ l, e.Aside) : Balanced p p' w w := by
  refine ⟨le_rfl, ⟨l, ledger_of_swap hlog (fun x => ?_) (fun x => ?_) fun x hx => ?_⟩, .same ?_,
    .same ?_⟩
  · rw [holds_none hp', mallocs_aside hl]
  · rw [holds_none hp, frees_aside hl]
  · rw [hp'] at hx
    cases hx
  · rw [heapSize_none hp', heapSize_none hp]
  · rw [heapCount_none hp', heapCount_none hp]

theorem balanced_free (hs : Sized p) (hf : freeDataNoInit o p w = (q, w'))
    (hp' : ownBlock p' = none) (hlog : p'.log = q.log) : Balanced p p' w w' := by
  obtain ⟨hown, rfl, rfl⟩ | ⟨hown, hb, rfl, rfl⟩ | ⟨b, hown, hb, rfl, rfl⟩ :=
    freeDataNoInit_cases hf
  · obtain ⟨l, hl, haside⟩ := (Aside.freeBuffer p).log
    exact balanced_none (ownBlock_of_owned hown) hp' (hlog.trans hl) haside
  · obtain ⟨l, hl, haside⟩ := (Aside.releaseObjects (o := o) p).log
    exact balanced_none ((ownBlock_of_own hown).trans hb) hp' (hlog.trans hl) haside
  · obtain ⟨l, hl, haside⟩ := (Aside.releaseObjects (o := o) p).log
    refine balanced_freed ((ownBlock_of_own hown).trans hb) hp' (hs.le hown) ?_ haside
    rw [hlog, Parcel.freeTable_log, Parcel.record, hl, List.append_assoc]

theorem keeps_released (hown : p.mOwner = true) : Keeps p (initState (freeBuffer p)) w w := by
  obtain ⟨l, hl, haside⟩ := (Aside.freeBuffer p).log
  exact ⟨balanced_none (ownBlock_of_owned hown) rfl hl haside, fun _ => Nat.zero_le _⟩

theorem keeps_continued {desired : ℕ} (hs : Sized p) (hc : Continued o p w desired st p' w') :
    Keeps p p' w w' := by
  cases hc with
  | tooLarge hbig => exact ⟨.refl p w, hs⟩
  | released hown hzero => exact keeps_released hown
  | refused n l hl => exact keeps_refused hs hl
  | possessed n hown hpos hmax => exact keeps_possessed hown hmax
  | reallocated n b sh hown hb hmax hlt =>
      have hdrop := Aside.dropObjects (o := o) p desired sh
      have hkeep : Keeps p (dropObjects o p desired sh) w w := hdrop.keeps' hs
      rw [← hdrop.capacity]
      exact hkeep.trans (keeps_reallocated hkeep.2 (hdrop.owner.trans hown)
        (hdrop.data.trans hb) hmax)
  | exhausted n b sh hown hb hlt =>
      have hdrop := Aside.dropObjects (o := o) p desired sh
      have herr : Aside (dropObjects o p desired sh) (outOfMemory (dropObjects o p desired sh)) :=
        ⟨rfl, rfl, rfl, [], by simp [outOfMemory], by simp⟩
      exact (hdrop.trans herr).keeps hs n
  | truncated n b sh hown hb hle hmax =>
      have hdrop := Aside.dropObjects (o := o) p desired sh
      have hcut : Aside (dropObjects o p desired sh)
          (truncated (dropObjects o p desired sh) desired) :=
        ⟨rfl, rfl, rfl, [], by simp [truncated], by simp⟩
      exact (hdrop.trans hcut).keeps hs n
  | started hown hb hmax => exact keeps_started hown hb hmax rfl

theorem keeps_room (hs : Sized p) (hroom : Room o p w len q w') : Keeps p q w w' := by
  cases hroom with
  | fits _ => exact ⟨.refl p w, hs⟩
  | grown _ hg => exact keeps_grown hs (growData_cases hg)

theorem keeps_written (hs : Sized p) (hw : Written o p w len p' w') : Keeps p p' w w' := by
  cases hw with
  | unchanged => exact ⟨.refl p w, hs⟩
  | failed hst hfits hg => exact keeps_grown hs hg
  | put fills hroom hin =>
      have hkeep := keeps_room hs hroom
      exact hkeep.trans (((Aside.storeAll _ fills).trans (.finishWrite _ _)).keeps' hkeep.2)

theorem keeps_objectWritten {val : FlatObject} {nullMetaData : Bool} (hs : Sized p)
    (hw : ObjectWritten o p w val nullMetaData st p' w') : Keeps p p' w w' := by
  cases hw with
  | failed hst hfits hg => exact keeps_grown hs hg
  | tableFull hroom hfull =>
      have hkeep := keeps_room hs hroom
      exact hkeep.trans ((Aside.give _).keeps hkeep.2 1)
  | put hroom henough =>
      have hkeep := keeps_room hs hroom
      exact hkeep.trans ((Aside.putObject rfl).keeps' hkeep.2)
  | putGrown hroom hfull =>
      have hkeep := keeps_room hs hroom
      exact hkeep.trans (((Aside.tableGrown _ _).trans (Aside.putObject rfl)).keeps hkeep.2 1)

theorem keeps_appendRoom (hs : Sized p) (hroom : AppendRoom o p w len q w') :
    Keeps p q w w' := by
  cases hroom with
  | enough _ => exact ⟨.refl p w, hs⟩
  | grown _ hg => exact keeps_grown hs (growData_cases hg)

theorem keeps_appendObjects (hs : Sized p) (offs : List ℕ) :
    Keeps p (appendObjects o p w offs).2.1 w (appendObjects o p w offs).2.2 := by
  obtain ⟨n, hn⟩ := appendObjects_world (o := o) p w offs
  have haside := Aside.appendObjects (o := o) p w offs
  rw [hn]
  exact ⟨haside.balanced le_rfl rfl rfl, haside.sized hs⟩

theorem keeps_appended {parcel : Parcel} {offset : ℕ} (hs : Sized p)
    (ha : Appended o p w parcel offset len p' w') : Keeps p p' w w' := by
  cases ha with
  | unchanged => exact ⟨.refl p w, hs⟩
  | failed hst hcap hg => exact keeps_grown hs hg
  | plain hsrc hroom hnone =>
      have hkeep := keeps_appendRoom hs hroom
      exact hkeep.trans ((Aside.appendData _ _ _ _).keeps' hkeep.2)
  | tableFull hsrc hroom hsome hfull =>
      have hkeep := keeps_appendRoom hs hroom
      exact hkeep.trans (((Aside.appendData _ _ _ _).trans (.give _)).keeps hkeep.2 1)
  | listed hsrc hroom henough =>
      have hkeep := keeps_appendRoom hs hroom
      have hdata := hkeep.trans ((Aside.appendData _ parcel offset len).keeps' hkeep.2)
      exact hdata.trans (keeps_appendObjects hdata.2 _)
  | listedGrown hsrc hroom hsome hfull =>
      have hkeep := keeps_appendRoom hs hroom
      have hdata := hkeep.trans ((Aside.appendData _ parcel offset len).keeps' hkeep.2)
      refine (hdata.trans ((Aside.tableGrown _ _).keeps hdata.2 1)).trans
        (keeps_appendObjects ?_ _)
      exact (Aside.tableGrown _ _).sized hdata.2

theorem keeps_restarted {desired : ℕ} (hs : Sized p)
    (hsafe : p.mOwner = true ∨ int32Max < desired ∨
      if p.mData = none then o.allocates w.allocs = false else 0 < desired)
    (hr : Restarted o p w desired st p' w') : Keeps p p' w w' := by
  cases hr with
  | tooLarge hbig => exact ⟨.refl p w, hs⟩
  | received hown hc =>
      have hfree : Keeps p (initState (freeBuffer p)) w w := keeps_released hown
      exact hfree.trans (keeps_continued hfree.2 hc)
  | refused hown hlt =>
      have herr : Aside p (outOfMemory p) := ⟨rfl, rfl, rfl, [], by simp [outOfMemory], by simp⟩
      exact herr.keeps hs 1
  | replaced bs l hown hmax ha hl =>
      obtain ⟨b, hb, hl'⟩ : ∃ b, p.mData = some b ∧ l = [.free b, .malloc w.allocs] := by
        rcases hl with ⟨hb, -⟩ | ⟨b, hb, -, -, hl⟩
        · -- Here the new block would not be counted.
          rw [hown, if_pos hb, ha] at hsafe
          simp at hsafe
          omega
        · exact ⟨b, hb, hl⟩
      subst hl'
      have hown' := (releaseObjects_owner (o := o) (account { p with bytes := bs }
        p.mOpenAshmemSize [.free b, .malloc w.allocs])).trans hown
      obtain ⟨l, hl, haside⟩ := (Aside.releaseObjects (o := o) (account { p with bytes := bs }
        p.mOpenAshmemSize [.free b, .malloc w.allocs])).log
      refine ⟨balanced_replaced ((ownBlock_of_own hown).trans hb) (ownBlock_of_own hown') rfl
        (hs.le hown) (by omega) (hl.trans ?_) haside, fun _ => hmax⟩
      simp [account]
  | freed b hown hb hzero =>
      exfalso
      rw [hown, hb, hzero] at hsafe
      simp [int32Max] at hsafe
  | kept hown hb hle hmax =>
      have hempty : Aside (releaseObjects o p) (emptied (releaseObjects o p)) :=
        ⟨rfl, rfl, rfl, [], by simp [emptied], by simp⟩
      exact ((Aside.releaseObjects p).trans hempty).keeps hs 1

/-- `setData` on data of the parcel's own keeps the block and its account: the parcel has a
block and gets some data, or it has none and gets none. -/
def Op.Kept (o : Oracle) (s : State) : Op → Prop
  | .setData buffer =>
      s.1.mOwner = true ∨ int32Max < buffer.length ∨
        if s.1.mData = none then o.allocates s.2.allocs = false else 0 < buffer.length
  | _ => True

theorem keeps_outcome {op : Op} (hs : Sized p) (hkept : op.Kept o (p, w))
    (hout : Outcome o p w op p' w') : Keeps p p' w w' := by
  have hdup (fd : ℕ) : Keeps p (p.record [.dup fd (o.dup w.dups)]) w w.duped :=
    ⟨(Aside.account p _ (by simp [Effect.Aside])).balanced le_rfl rfl rfl, hs⟩
  cases hout with
  | plain hlen hw => exact keeps_written hs hw
  | object hw => exact keeps_objectWritten hs hw
  | notDup hdup => exact ⟨(Aside.refl p).balanced le_rfl rfl rfl, hs⟩
  | dup _ hw => exact (hdup _).trans (keeps_objectWritten (hdup _).2 hw)
  | dupFailed _ hst hw =>
      have hkeep := (hdup _).trans (keeps_objectWritten (hdup _).2 hw)
      exact hkeep.trans ((Aside.account _ _ (by simp [Effect.Aside])).keeps' hkeep.2)
  | append ha => exact keeps_appended hs ha
  | sameSize => exact ⟨.refl p w, hs⟩
  | sizeFailed hst hc => exact keeps_continued hs hc
  | sized hc =>
      rename_i size q
      have hkeep := keeps_continued hs hc
      have hsize : Aside q { q with mDataSize := size } :=
        ⟨rfl, rfl, rfl, [], by simp, by simp⟩
      exact hkeep.trans (hsize.keeps' hkeep.2)
  | sameCapacity => exact ⟨.refl p w, hs⟩
  | capacity hlt hc => exact keeps_continued hs hc
  | position hle =>
      exact Aside.keeps' ⟨rfl, rfl, rfl, [], by simp, by simp⟩ hs
  | sameData => exact ⟨.refl p w, hs⟩
  | dataFailed hst hr => exact keeps_restarted hs hkept hr
  | data hr =>
      rename_i buffer q
      have hkeep := keeps_restarted hs hkept hr
      have hdata : Aside (q.store 0 buffer)
          { q.store 0 buffer with mDataSize := buffer.length, mFdsKnown := false } :=
        ⟨rfl, rfl, rfl, [], by simp, by simp⟩
      exact hkeep.trans (((Aside.store q 0 buffer).trans hdata).keeps' hkeep.2)
  | received hf => exact ⟨balanced_free hs hf rfl rfl, nofun⟩
  | freed hf => exact ⟨balanced_free hs hf rfl rfl, fun _ => Nat.zero_le _⟩
  | allowFds => exact Aside.keeps' ⟨rfl, rfl, rfl, [], by simp, by simp⟩ hs
  | setError => exact Aside.keeps' ⟨rfl, rfl, rfl, [], by simp, by simp⟩ hs
  | reads _ hr => exact (Aside.readOnly hr).keeps' hs

end Ledgers

/-! ### The parcels of a process -/

/-- The parcels of a process, with a gap for each that was destroyed, all their effects, and
what the destroyed ones gave to `realloc` and `free` as their table. -/
structure Heap where
  parcels : List (Option Parcel)
  world : World
  history : List Effect
  given : List Table

namespace Heap

def init : Heap := ⟨[], World.init, [], []⟩

inductive Act
  | construct
  | destroy (i : ℕ)
  | call (i : ℕ) (op : Op)

def replace (h : Heap) (i : ℕ) (p : Parcel) (slot : Option Parcel) (log : List Effect)
    (w : World) : Heap where
  parcels := h.parcels.set i slot
  world := w
  history := h.history ++ log.drop p.log.length
  given := h.given

def step (o : Oracle) (h : Heap) : Act → Except Abort Heap
  | .construct => .ok { h with parcels := h.parcels ++ [some new] }
  | .destroy i =>
      match h.parcels.getD i none with
      | none => .ok h
      | some p =>
          let r := freeDataNoInit o p h.world
          .ok { h.replace i p none r.1.log r.2 with given := h.given ++ r.1.given }
  | .call i op =>
      match h.parcels.getD i none with
      | none => .ok h
      | some p =>
          match Parcel.step o (p, h.world) op with
          | .error e => .error e
          | .ok (p', w') => .ok (h.replace i p (some p') p'.log w')

/-- Every call of `setData` keeps the block, and no parcel comes to a table that is gone. -/
def Kept (o : Oracle) (h : Heap) : Act → Prop
  | .construct => True
  | .destroy i => ∀ p, h.parcels.getD i none = some p → Op.freeData.SparesTable o (p, h.world)
  | .call i op => ∀ p, h.parcels.getD i none = some p →
      op.Kept o (p, h.world) ∧ op.SparesTable o (p, h.world)

def slot (f : Parcel → ℕ) (x : Option Parcel) : ℕ := x.elim 0 f

@[simp] theorem slot_none (f : Parcel → ℕ) : slot f none = 0 := rfl

@[simp] theorem slot_some (f : Parcel → ℕ) (p : Parcel) : slot f (some p) = f p := rfl

def total (f : Parcel → ℕ) (h : Heap) : ℕ := (h.parcels.map (slot f)).sum

/-- Each block was allocated once, and is held or was freed, once. -/
structure Sound (h : Heap) : Prop where
  sized : ∀ p, some p ∈ h.parcels → Sized p
  tables : ∀ p, some p ∈ h.parcels → TableSound p
  given : ∀ t ∈ h.given, t.usable = true
  balance : ∀ b, frees b h.history + h.total (holds b) = mallocs b h.history
  once : ∀ b, mallocs b h.history ≤ 1
  fresh : ∀ b, .malloc b ∈ h.history → b < h.world.allocs
  size : h.world.gParcelGlobalAllocSize = h.total heapSize % sizeT
  count : h.world.gParcelGlobalAllocCount = h.total heapCount % sizeT

variable {o : Oracle} {h h' : Heap} {w w' : World} {p p' : Parcel} {i : ℕ}

theorem sum_map_set {α : Type} (f : α → ℕ) {l : List α} {i : ℕ} {a : α} (hi : l[i]? = some a)
    (b : α) : ((l.set i b).map f).sum + f a = (l.map f).sum + f b := by
  induction l generalizing i with
  | nil => cases hi
  | cons x l ih =>
      cases i with
      | zero =>
          obtain rfl := Option.some.inj hi
          simp only [List.set_cons_zero, List.map_cons, List.sum_cons]
          omega
      | succ i =>
          have := ih hi
          simp only [List.set_cons_succ, List.map_cons, List.sum_cons]
          omega

theorem getElem?_of_getD (h : h'.parcels.getD i none = some p) :
    h'.parcels[i]? = some (some p) := by
  rw [List.getD_eq_getElem?_getD] at h
  cases hx : h'.parcels[i]? with
  | none =>
      rw [hx] at h
      cases h
  | some x =>
      rw [hx] at h
      exact congrArg some h

theorem Sound.replace (hs : Sound h) (hi : h.parcels[i]? = some (some p)) (x : Option Parcel)
    (hbal : Balanced p p' h.world w') (hslot : ∀ q ∈ x, Sized q ∧ TableSound q)
    (hsame : ∀ f : Parcel → ℕ, (f = heapSize ∨ f = heapCount ∨ ∃ b, f = holds b) →
      slot f x = f p') :
    Sound (h.replace i p x p'.log w') := by
  obtain ⟨l, hl⟩ := hbal.ledger
  have hdrop : p'.log.drop p.log.length = l := by
    rw [hl.log]
    exact List.drop_left
  have hle := hbal.allocs_le
  have htotal (f : Parcel → ℕ) (hf : f = heapSize ∨ f = heapCount ∨ ∃ b, f = holds b) :
      f p ≤ h.total f ∧
        (h.replace i p x p'.log w').total f = h.total f - f p + f p' := by
    have hpart := sum_map_set (slot f) hi none
    have hset := sum_map_set (slot f) hi x
    rw [hsame f hf] at hset
    rw [slot_some] at hpart hset
    rw [slot_none] at hpart
    simp only [total, Heap.replace]
    constructor
    · omega
    · omega
  refine ⟨?_, ?_, hs.given, fun b => ?_, fun b => ?_, fun b hb => ?_, ?_, ?_⟩
  · intro q hq
    rcases List.mem_or_eq_of_mem_set hq with hq | hq
    · exact hs.sized q hq
    · exact (hslot q hq.symm).1
  · intro q hq
    rcases List.mem_or_eq_of_mem_set hq with hq | hq
    · exact hs.tables q hq
    · exact (hslot q hq.symm).2
  · have h1 := hs.balance b
    have h2 := hl.balance b
    obtain ⟨h3, h4⟩ := htotal (holds b) (.inr (.inr ⟨b, rfl⟩))
    rw [h4]
    simp only [Heap.replace, hdrop, mallocs_append, frees_append]
    omega
  · have h1 := hs.once b
    have h2 := hl.once b
    simp only [Heap.replace, hdrop, mallocs_append]
    by_contra hne
    have hb1 := hs.fresh b (List.count_pos_iff.mp (by unfold mallocs at *; omega))
    have hb2 := (hl.fresh b (List.count_pos_iff.mp (by unfold mallocs at *; omega))).1
    omega
  · simp only [Heap.replace, hdrop] at hb
    rcases List.mem_append.mp hb with hb | hb
    · exact lt_of_lt_of_le (hs.fresh b hb) hle
    · exact (hl.fresh b hb).2
  · obtain ⟨h3, h4⟩ := htotal heapSize (.inl rfl)
    rw [h4]
    exact hbal.size _ h3 hs.size
  · obtain ⟨h3, h4⟩ := htotal heapCount (.inr (.inl rfl))
    rw [h4]
    exact hbal.count _ h3 hs.count

theorem sound_init : Sound init where
  sized := by simp [init]
  tables := by simp [init]
  given := by simp [init]
  balance := fun _ => rfl
  once := fun _ => Nat.zero_le _
  fresh := by simp [init]
  size := rfl
  count := rfl

theorem Sound.construct (hs : Sound h) : Sound { h with parcels := h.parcels ++ [some new] } := by
  have htotal (f : Parcel → ℕ) (hf : f new = 0) :
      ({ h with parcels := h.parcels ++ [some new] } : Heap).total f = h.total f := by
    simp [total, hf]
  refine ⟨fun p hp => ?_, fun p hp => ?_, hs.given, fun b => ?_, hs.once, hs.fresh, ?_, ?_⟩
  · rcases List.mem_append.mp hp with hp | hp
    · exact hs.sized p hp
    · obtain rfl := Option.some.inj (List.mem_singleton.mp hp)
      exact fun _ => Nat.zero_le _
  · rcases List.mem_append.mp hp with hp | hp
    · exact hs.tables p hp
    · obtain rfl := Option.some.inj (List.mem_singleton.mp hp)
      exact .init
  · rw [htotal _ rfl]
    exact hs.balance b
  · rw [htotal _ rfl]
    exact hs.size
  · rw [htotal _ rfl]
    exact hs.count

theorem Sound.gives (hs : Sound h) {l : List Table} (hl : ∀ t ∈ l, t.usable = true) :
    Sound { h with given := h.given ++ l } where
  sized := hs.sized
  tables := hs.tables
  given := fun t ht => (List.mem_append.mp ht).elim (hs.given t) (hl t)
  balance := hs.balance
  once := hs.once
  fresh := hs.fresh
  size := hs.size
  count := hs.count

theorem Sound.step {a : Act} (hs : Sound h) (hkept : Kept o h a) (hstep : step o h a = .ok h') :
    Sound h' := by
  cases a with
  | construct =>
      cases hstep
      exact hs.construct
  | destroy i =>
      simp only [Heap.step] at hstep
      split at hstep
      · cases hstep
        exact hs
      · rename_i p hp
        obtain rfl := Except.ok.inj hstep
        have hi := getElem?_of_getD hp
        have hsized := hs.sized p (List.mem_of_getElem? hi)
        have hbal : Balanced p (initState (freeDataNoInit o p h.world).1) h.world
            (freeDataNoInit o p h.world).2 := balanced_free hsized rfl rfl rfl
        have hsound : Sound (h.replace i p none (initState (freeDataNoInit o p h.world).1).log
            (freeDataNoInit o p h.world).2) := by
          refine hs.replace hi none hbal (by simp) fun f hf => ?_
          rcases hf with rfl | rfl | ⟨b, rfl⟩
          · rfl
          · rfl
          · rfl
        have hgiven := (hs.tables p (List.mem_of_getElem? hi)).freed (hkept p hp)
          (rfl : freeDataNoInit o p h.world = _)
        exact hsound.gives hgiven
  | call i op =>
      simp only [Heap.step] at hstep
      split at hstep
      · cases hstep
        exact hs
      · rename_i p hp
        have hi := getElem?_of_getD hp
        have hsized := hs.sized p (List.mem_of_getElem? hi)
        cases hop : Parcel.step o (p, h.world) op with
        | error e =>
            rw [hop] at hstep
            cases hstep
        | ok r =>
            obtain ⟨p', w'⟩ := r
            rw [hop] at hstep
            obtain rfl := Except.ok.inj hstep
            obtain ⟨hblock, hspares⟩ := hkept p hp
            have hkeep := keeps_outcome hsized hblock (outcome hop)
            have htables := (hs.tables p (List.mem_of_getElem? hi)).outcome hspares (outcome hop)
            refine hs.replace hi (some p') hkeep.1 (fun q hq => ?_) fun f hf => rfl
            obtain rfl := Option.some.inj hq
            exact ⟨hkeep.2, htables⟩

theorem sound_of_reach (hr : Reach (step o) (Kept o) init h) : Sound h :=
  hr.invariant sound_init fun _ _ _ hs hkept hstep => hs.step hkept hstep

theorem slot_le_sum (f : Parcel → ℕ) {l : List (Option Parcel)} (hi : l[i]? = some (some p)) :
    f p ≤ (l.map (slot f)).sum := by
  have hset := sum_map_set (slot f) hi none
  rw [slot_some, slot_none] at hset
  omega

theorem total_holds_eq_zero {b : ℕ}
    (hnone : ∀ p, some p ∈ h.parcels → p.mOwner = false → p.mData ≠ some b) :
    h.total (holds b) = 0 := by
  refine List.sum_eq_zero fun n hn => ?_
  obtain ⟨x, hx, rfl⟩ := List.mem_map.mp hn
  cases x with
  | none => rfl
  | some p =>
      cases hown : p.mOwner with
      | true => exact holds_none (ownBlock_of_owned hown) b
      | false =>
          have hne : ownBlock p ≠ some b := by
            rw [ownBlock_of_own hown]
            exact hnone p hx hown
          exact if_neg hne

theorem total_heapCount (h : Heap) :
    h.total heapCount = (h.parcels.filterMap fun x => x.bind ownBlock).length := by
  unfold total
  induction h.parcels with
  | nil => rfl
  | cons x l ih =>
      rw [List.map_cons, List.sum_cons, ih]
      cases x with
      | none => simp
      | some p =>
          cases hb : ownBlock p with
          | none => simp [hb, heapCount_none hb]
          | some b =>
              simp [hb, heapCount_some hb]
              omega

/-- In every run whose calls of `setData` keep the block, and in which no parcel comes to a table
that is gone, a parcel without an external owner has no block or one that was allocated, was not
freed and that no other parcel has; a block that no parcel has was freed once; the two counters
are the number of the blocks and the sum of their capacities; and every table that was given to
`realloc` or `free` was the parcel's own. -/
theorem blocks_owned_and_counted (o : Oracle) {h : Heap} (hr : Reach (step o) (Kept o) init h) :
    (∀ (i : ℕ) (p : Parcel) (b : ℕ), h.parcels[i]? = some (some p) → p.mOwner = false →
      p.mData = some b → h.history.count (.malloc b) = 1 ∧ h.history.count (.free b) = 0 ∧
        ∀ (j : ℕ) (q : Parcel), j ≠ i → h.parcels[j]? = some (some q) → q.mOwner = false →
          q.mData ≠ some b) ∧
    (∀ b, h.history.count (.free b) ≤ h.history.count (.malloc b)) ∧
    (∀ b, .malloc b ∈ h.history →
      (∀ p, some p ∈ h.parcels → p.mOwner = false → p.mData ≠ some b) →
        h.history.count (.free b) = 1) ∧
    h.world.gParcelGlobalAllocCount =
      (h.parcels.filterMap fun x => x.bind ownBlock).length % sizeT ∧
    h.world.gParcelGlobalAllocSize = (h.parcels.map (slot heapSize)).sum % sizeT ∧
    (∀ p, some p ∈ h.parcels → ∀ t ∈ p.given, t.usable = true) ∧
      ∀ t ∈ h.given, t.usable = true := by
  have hs := sound_of_reach hr
  refine ⟨fun i p b hi hown hb => ?_, fun b => ?_, fun b hmem hnone => ?_, ?_, hs.size,
    fun p hp => (hs.tables p hp).given, hs.given⟩
  · have hholds : holds b p = 1 := if_pos ((ownBlock_of_own hown).trans hb)
    have hbal := hs.balance b
    have honce := hs.once b
    have hset := sum_map_set (slot (holds b)) hi none
    rw [slot_some, slot_none, hholds] at hset
    unfold total at hbal
    unfold frees mallocs at *
    refine ⟨by omega, by omega, fun j q hne hj hown' hb' => ?_⟩
    -- A second holder would still be there if the first were destroyed.
    have hj' : (h.parcels.set i none)[j]? = some (some q) := by
      rw [List.getElem?_set_ne hne.symm]
      exact hj
    have hle := slot_le_sum (holds b) hj'
    have hholds' : holds b q = 1 := if_pos ((ownBlock_of_own hown').trans hb')
    omega
  · have hbal := hs.balance b
    unfold frees mallocs at hbal
    omega
  · have hbal := hs.balance b
    have honce := hs.once b
    have hpos : 0 < mallocs b h.history := List.count_pos_iff.mpr hmem
    rw [total_holds_eq_zero hnone] at hbal
    unfold frees mallocs at *
    omega
  · rw [← total_heapCount]
    exact hs.count

/-- Some acts on parcels with a table that they may free: `setData` has some data, for a parcel
with a block. -/
def keepsBlock (h : Heap) : Act → Bool
  | .construct => true
  | .destroy i => (h.parcels.getD i none).all fun p => p.mObjects.usable
  | .call i (.setData buffer) => (h.parcels.getD i none).all fun p =>
      p.mData.isSome && 0 < buffer.length && p.mObjects.usable
  | .call i (.writeObject _ _) => (h.parcels.getD i none).all fun p => p.mObjects.usable
  | .call _ (.writeAligned _) | .call _ (.setDataCapacity _) | .call _ (.setDataSize _) => true
  | .call _ _ => false

theorem kept_of_keepsBlock {a : Act} (hkeep : h.keepsBlock a = true) : Kept o h a := by
  cases a with
  | construct => trivial
  | destroy i =>
      intro p hp
      simp only [keepsBlock, hp, Option.all_some] at hkeep
      exact .inr hkeep
  | call i op =>
      intro p hp
      cases op with
      | setData buffer =>
          simp only [keepsBlock, hp, Option.all_some, Bool.and_eq_true, decide_eq_true_eq] at hkeep
          have hne : p.mData ≠ none := Option.isSome_iff_ne_none.mp hkeep.1.1
          refine ⟨.inr (.inr ?_), .inr (.inr (.inr hkeep.2))⟩
          rw [if_neg hne]
          exact hkeep.1.2
      | writeObject =>
          simp only [keepsBlock, hp, Option.all_some] at hkeep
          exact ⟨trivial, fun _ _ => .inr hkeep⟩
      | writeAligned | setDataCapacity | setDataSize => exact ⟨trivial, trivial⟩
      | _ => cases hkeep

/-- Two parcels; one drops an object and is set anew, and the other is destroyed. -/
theorem blocks_owned_and_counted_two : ∃ h,
    Reach (step plainOracle) (Kept plainOracle) init h ∧
      h.world.gParcelGlobalAllocCount = 1 ∧ h.world.gParcelGlobalAllocSize = 2 ∧
    (∀ (i : ℕ) (p : Parcel) (b : ℕ), h.parcels[i]? = some (some p) → p.mOwner = false →
      p.mData = some b → h.history.count (.malloc b) = 1 ∧ h.history.count (.free b) = 0 ∧
        ∀ (j : ℕ) (q : Parcel), j ≠ i → h.parcels[j]? = some (some q) → q.mOwner = false →
          q.mData ≠ some b) ∧
    (∀ b, h.history.count (.free b) ≤ h.history.count (.malloc b)) ∧
    (∀ b, .malloc b ∈ h.history →
      (∀ p, some p ∈ h.parcels → p.mOwner = false → p.mData ≠ some b) →
        h.history.count (.free b) = 1) ∧
    h.world.gParcelGlobalAllocCount =
      (h.parcels.filterMap fun x => x.bind ownBlock).length % sizeT ∧
    h.world.gParcelGlobalAllocSize = (h.parcels.map (slot heapSize)).sum % sizeT ∧
    (∀ p, some p ∈ h.parcels → ∀ t ∈ p.given, t.usable = true) ∧
      ∀ t ∈ h.given, t.usable = true := by
  obtain ⟨h, hrun, hworld⟩ := Option.map_eq_some_iff.mp
    (show (runChecked (step plainOracle) (fun h a => h.keepsBlock a = true) init
        [.construct, .construct,
          .call 0 (.writeObject (flattenBinder (.remoteBinder 5)) false),
          .call 0 (.writeObject (flattenBinder (.remoteBinder 6)) false), .call 0 (.setDataSize 24),
          .call 1 (.writeObject (flattenBinder (.remoteBinder 5)) false),
          .call 1 (.setDataCapacity 80), .call 0 (.setData [9, 9]), .destroy 1]).map
        (fun h => (h.world.gParcelGlobalAllocCount, h.world.gParcelGlobalAllocSize)) =
      some (1, 2) by decide +kernel)
  obtain ⟨hcount, hsize⟩ := Prod.mk.inj hworld
  have hreach := (reach_of_runChecked hrun).mono fun _ _ => kept_of_keepsBlock (o := plainOracle)
  exact ⟨h, hreach, hcount, hsize, blocks_owned_and_counted plainOracle hreach⟩

/-- The data set first are not counted. -/
theorem first_data_not_counted : ¬ ∀ h : Heap,
    Reach (step plainOracle) (fun _ _ => True) init h →
      h.world.gParcelGlobalAllocCount =
        (h.parcels.filterMap fun x => x.bind ownBlock).length % sizeT := by
  intro hall
  obtain ⟨h, hrun, hcount, hlen⟩ : ∃ h,
      runActions (step plainOracle) init [.construct, .call 0 (.setData [1, 2, 3, 4])] = .ok h ∧
      h.world.gParcelGlobalAllocCount = 0 ∧
        (h.parcels.filterMap fun x => x.bind ownBlock).length = 1 :=
    ⟨_, rfl, by decide +kernel, by decide +kernel⟩
  have heq := hall h (reach_of_runActions hrun)
  rw [hcount, hlen] at heq
  exact absurd heq (by decide)

end Heap

end Parcel

end BinderForLinux
