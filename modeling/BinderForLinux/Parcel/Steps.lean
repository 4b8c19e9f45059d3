import BinderForLinux.Parcel.Read
import BinderForLinux.Library.Run

/-!
# Parcels taking step after step

The public operations as actions. The typed writers are not among them, since each is a
sequence of these: a length is written with `writeAligned`, a string with `write` or
`writeChars`, a binder or descriptor with `writeObject`.

The second half says once what `continueWrite` can do, for everything that has to be shown of
runs.
-/

namespace BinderForLinux

namespace Parcel

open Library

/-- The readers. Those of aligned values read four bytes or, where `wide`, eight. -/
inductive Reader
  | read (len : ℕ)
  | readInplace (len : ℕ)
  | readAligned (wide : Bool)
  | readCString
  | readString8
  | readString16
  | readStrongBinder
  | readFileDescriptor
  | readExceptionCode
  deriving DecidableEq, Repr

def alignedSize (wide : Bool) : ℕ := if wide then 8 else 4

/-- The parcel after a reader, which may abort. -/
def Reader.step (p : Parcel) : Reader → Option Parcel
  | .read len => some (Parcel.read p len).2
  | .readInplace len => some (Parcel.readInplace p len).2
  | .readAligned wide => some (Parcel.readAligned p (alignedSize wide)).2
  | .readCString => (Parcel.readCString p).map Prod.snd
  | .readString8 => some (Parcel.readString8 p).2
  | .readString16 => some (Parcel.readString16 p).2
  -- What `unflatten_binder` does with the object is not the parcel's.
  | .readStrongBinder => some (Parcel.readObject p false).2
  | .readFileDescriptor => some (Parcel.readFileDescriptor p).2
  | .readExceptionCode => (Parcel.readExceptionCode p).map Prod.snd

/-! ### What readers change -/

def Effect.IsLoad : Effect → Prop
  | .load _ _ => True
  | _ => False

/-- The parcel after some reading: only the position, the hint and the record of the loads are
others. -/
structure ReadOnly (p p' : Parcel) : Prop where
  same : p' = { p with
    mDataPos := p'.mDataPos, mNextObjectHint := p'.mNextObjectHint, log := p'.log }
  loads : ∃ l, p'.log = p.log ++ l ∧ ∀ e ∈ l, e.IsLoad

namespace ReadOnly

variable {p p' p'' : Parcel}

theorem refl (p : Parcel) : ReadOnly p p := ⟨rfl, [], by simp, by simp⟩

theorem trans (h : ReadOnly p p') (h' : ReadOnly p' p'') : ReadOnly p p'' := by
  obtain ⟨l, hl, hload⟩ := h.loads
  obtain ⟨l', hl', hload'⟩ := h'.loads
  refine ⟨?_, l ++ l', by rw [hl', hl, List.append_assoc], fun e he => ?_⟩
  · rw [h'.same, h.same]
  · rcases List.mem_append.mp he with he | he
    · exact hload e he
    · exact hload' e he

theorem of_load (off len pos hint : ℕ) :
    ReadOnly p { p.record [.load off len] with mDataPos := pos, mNextObjectHint := hint } :=
  ⟨rfl, [.load off len], rfl, by simp [Effect.IsLoad]⟩

theorem of_move (pos hint : ℕ) : ReadOnly p { p with mDataPos := pos, mNextObjectHint := hint } :=
  ⟨rfl, [], by simp, by simp⟩

end ReadOnly

section

variable {p : Parcel}

theorem readOnly_readAligned (p : Parcel) (n : ℕ) : ReadOnly p (readAligned p n).2 := by
  unfold readAligned
  split
  · exact .of_load _ _ _ _
  · exact .refl p

theorem readOnly_readInt32 (p : Parcel) : ReadOnly p (readInt32 p).2 := readOnly_readAligned p 4

theorem placeAt_of_data (h : p.mDataSize ≠ 0) : placeAt p = some p.mDataPos :=
  if_neg fun hnone => h hnone.1

theorem placeAt_cases (p : Parcel) : placeAt p = none ∨ placeAt p = some p.mDataPos := by
  unfold placeAt
  split
  · exact .inl rfl
  · exact .inr rfl

theorem readOnly_readInplace (p : Parcel) (len : ℕ) : ReadOnly p (readInplace p len).2 := by
  unfold readInplace
  split
  · exact .refl p
  split
  · exact .of_move _ _
  · exact .refl p

theorem readOnly_readString8 (p : Parcel) : ReadOnly p (readString8 p).2 := by
  have h1 := readOnly_readInt32 p
  rcases hr : readInt32 p with ⟨size, q⟩
  rw [hr] at h1
  simp only [readString8, hr]
  split
  · have h2 := readOnly_readInplace q (size.toNat + 1)
    rcases hd : readInplace q (size.toNat + 1) with ⟨_ | d, q'⟩
    · rw [hd] at h2
      exact h1.trans h2
    · rw [hd] at h2
      exact h1.trans (h2.trans (.of_load _ _ _ _))
  · exact h1

theorem readOnly_readString16 (p : Parcel) : ReadOnly p (readString16 p).2 := by
  have h1 := readOnly_readInt32 p
  rcases hr : readInt32 p with ⟨size, q⟩
  rw [hr] at h1
  simp only [readString16, readString16Inplace, hr]
  by_cases hsize : 0 ≤ size ∧ size.toNat < int32Max
  · simp only [if_pos hsize]
    have h2 := readOnly_readInplace q ((size.toNat + 1) * 2)
    rcases hd : readInplace q ((size.toNat + 1) * 2) with ⟨_ | d, q'⟩
    · rw [hd] at h2
      exact h1.trans h2
    · rw [hd] at h2
      exact h1.trans (h2.trans (.of_load _ _ _ _))
  · simp only [if_neg hsize]
    exact h1

theorem readOnly_readCString {p' : Parcel} {str : Option (List UInt8)}
    (h : readCString p = some (str, p')) : ReadOnly p p' := by
  simp only [readCString] at h
  split at h
  · split at h
    · cases h
      exact .of_load _ _ _ _
    · split at h
      · cases h
      · cases h
        exact .of_load _ _ _ _
  · cases h
    exact .refl p

theorem readOnly_readExceptionCode {p' : Parcel} {code : ℤ}
    (h : readExceptionCode p = some (code, p')) : ReadOnly p p' := by
  have h1 := readOnly_readInt32 p
  rcases hr : readInt32 p with ⟨size, q⟩
  rw [hr] at h1
  simp only [readExceptionCode, hr] at h
  split at h
  · have h2 := readOnly_readInt32 q
    rcases hs : readInt32 q with ⟨header, q'⟩
    rw [hs] at h2
    simp only [hs, setDataPosition] at h
    split at h
    · cases h
    · cases h
      exact h1.trans (h2.trans (.of_move _ _))
  · cases h
    exact h1

theorem readOnly_readObject (p : Parcel) (nullMetaData : Bool) :
    ReadOnly p (readObject p nullMetaData).2 := by
  unfold readObject
  dsimp only
  split
  · split
    · exact .of_load _ _ _ _
    split
    · exact .of_load _ _ _ _
    · exact .of_load _ _ _ _
  · exact .refl p

theorem readFileDescriptor_snd (p : Parcel) :
    (readFileDescriptor p).2 = (readObject p true).2 := by
  unfold readFileDescriptor
  split
  · rename_i flat q hq
    rw [hq]
  · rename_i q hq
    rw [hq]

theorem readOnly_readFileDescriptor (p : Parcel) : ReadOnly p (readFileDescriptor p).2 := by
  rw [readFileDescriptor_snd]
  exact readOnly_readObject p true

theorem readOnly_read (p : Parcel) (len : ℕ) : ReadOnly p (read p len).2 := by
  unfold read
  split
  · exact .refl p
  split
  · exact .of_load _ _ _ _
  · exact .refl p

theorem readOnly_step {p' : Parcel} {r : Reader} (h : r.step p = some p') : ReadOnly p p' := by
  cases r with
  | read len =>
      cases h
      exact readOnly_read p len
  | readInplace len =>
      cases h
      exact readOnly_readInplace p len
  | readAligned wide =>
      cases h
      exact readOnly_readAligned p (alignedSize wide)
  | readCString =>
      obtain ⟨⟨str, q⟩, hq, rfl⟩ := Option.map_eq_some_iff.mp h
      exact readOnly_readCString hq
  | readString8 =>
      cases h
      exact readOnly_readString8 p
  | readString16 =>
      cases h
      exact readOnly_readString16 p
  | readStrongBinder =>
      cases h
      exact readOnly_readObject p false
  | readFileDescriptor =>
      cases h
      exact readOnly_readFileDescriptor p
  | readExceptionCode =>
      obtain ⟨⟨code, q⟩, hq, rfl⟩ := Option.map_eq_some_iff.mp h
      exact readOnly_readExceptionCode hq

end

/-- The public operations of a parcel. -/
inductive Op
  | writeAligned (val : List UInt8)
  | writeUnpadded (data : List UInt8)
  | writeInplace (len : ℕ)
  | write (data : List UInt8)
  | writeChars (str : List UInt16)
  | writeObject (val : FlatObject) (nullMetaData : Bool)
  | writeDupFileDescriptor (fd : ℕ)
  | appendFrom (parcel : Parcel) (offset len : ℕ)
  | setDataSize (size : ℕ)
  | setDataCapacity (size : ℕ)
  | setDataPosition (pos : ℕ)
  | setData (buffer : List UInt8)
  | ipcSetDataReference (data : Data) (dataSize : ℕ) (objects : List ℕ)
  | freeData
  /-- `pushAllowFds` and `restoreAllowFds`. -/
  | allowFds (allow : Bool)
  | setError (err : Status)
  | reads (r : Reader)

/-- The call of `abort`. -/
inductive Abort
  | aborted
  deriving DecidableEq, Repr

abbrev State := Parcel × World

def ofOption (x : Option Parcel) (w : World) : Except Abort State :=
  match x with
  | some p => .ok (p, w)
  | none => .error .aborted

def step (o : Oracle) (s : State) : Op → Except Abort State
  | .writeAligned val => .ok (writeAligned o s.1 s.2 val).2
  | .writeUnpadded data => .ok (writeUnpadded o s.1 s.2 data).2
  | .writeInplace len => .ok (writeInplace o s.1 s.2 len).2
  | .write data => .ok (write o s.1 s.2 data).2
  | .writeChars str => .ok (writeChars o s.1 s.2 str).2
  | .writeObject val nullMetaData => .ok (writeObject o s.1 s.2 val nullMetaData).2
  | .writeDupFileDescriptor fd => .ok (writeDupFileDescriptor o s.1 s.2 fd).2
  | .appendFrom parcel offset len => .ok (appendFrom o s.1 s.2 parcel offset len).2
  | .setDataSize size => .ok (setDataSize o s.1 s.2 size).2
  | .setDataCapacity size => .ok (setDataCapacity o s.1 s.2 size).2
  | .setDataPosition pos => ofOption (setDataPosition s.1 pos) s.2
  | .setData buffer => .ok (setData o s.1 s.2 buffer).2
  | .ipcSetDataReference data dataSize objects =>
      .ok (ipcSetDataReference o s.1 s.2 data dataSize objects)
  | .freeData => .ok (freeData o s.1 s.2)
  | .allowFds allow => .ok ({ s.1 with mAllowFds := allow }, s.2)
  | .setError err => .ok ({ s.1 with mError := err }, s.2)
  | .reads r => ofOption (r.step s.1) s.2

/-! ### Only the accounts change

Acquiring, releasing and closing change the log and the total of shared memory. -/

section Accounts

variable {o : Oracle} {p : Parcel}

def account (p : Parcel) (m : ℕ) (l : List Effect) : Parcel :=
  { p with mOpenAshmemSize := m, log := p.log ++ l }

/-- The total after the objects were acquired, and after they were released. -/
def addAshmem (o : Oracle) (m : ℕ) (fs : List FlatObject) : ℕ :=
  fs.foldl (fun m f => (m + ashmemOf o f) % sizeT) m

def subAshmem (o : Oracle) (m : ℕ) (fs : List FlatObject) : ℕ :=
  fs.foldl (fun m f => (m + (sizeT - ashmemOf o f % sizeT)) % sizeT) m

def releaseEffects (f : FlatObject) : List Effect :=
  .release f :: if f.isOwnedFd then [.close f.handle] else []

/-- What `closeFileDescriptors` does with an object. -/
def closeEffects (f : FlatObject) : List Effect :=
  if f.type = binderTypeFd then [.close f.handle] else []

def held (p : Parcel) : List FlatObject := p.objects.map (objectAt p.bytes)

theorem mem_releaseEffects {fs : List FlatObject} {e : Effect}
    (h : e ∈ fs.flatMap releaseEffects) : ∃ f, e = .release f ∨ e = .close f.handle := by
  obtain ⟨f, -, hf⟩ := List.mem_flatMap.mp h
  unfold releaseEffects at hf
  split at hf
  · exact ⟨f, List.mem_pair.mp hf⟩
  · exact ⟨f, .inl (List.mem_singleton.mp hf)⟩

theorem mem_closeEffects {fs : List FlatObject} {e : Effect}
    (h : e ∈ fs.flatMap closeEffects) : ∃ f, e = .close (FlatObject.handle f) := by
  obtain ⟨f, -, hf⟩ := List.mem_flatMap.mp h
  unfold closeEffects at hf
  split at hf
  · exact ⟨f, List.mem_singleton.mp hf⟩
  · cases hf

theorem record_eq (p : Parcel) (l : List Effect) : p.record l = account p p.mOpenAshmemSize l := rfl

@[simp] theorem record_nil (p : Parcel) : p.record [] = p := by simp [Parcel.record]

theorem account_account (p : Parcel) (m m' : ℕ) (l l' : List Effect) :
    account (account p m l) m' l' = account p m' (l ++ l') := by
  simp [account]

theorem acquireEach_eq (o : Oracle) (p : Parcel) (offs : List ℕ) :
    acquireEach o p offs =
      account p (addAshmem o p.mOpenAshmemSize (offs.map (objectAt p.bytes)))
        ((offs.map (objectAt p.bytes)).map .acquire) := by
  induction offs generalizing p with
  | nil => simp [acquireEach, account, addAshmem]
  | cons off offs ih =>
      have hstep : acquireEach o p (off :: offs) =
          acquireEach o (acquireObject o p (objectAt p.bytes off)) offs := rfl
      rw [hstep, ih]
      simp [acquireObject, account, addAshmem]

theorem releaseEach_eq (o : Oracle) (p : Parcel) (offs : List ℕ) :
    releaseEach o p offs =
      account p (subAshmem o p.mOpenAshmemSize (offs.map (objectAt p.bytes)))
        ((offs.map (objectAt p.bytes)).flatMap releaseEffects) := by
  induction offs generalizing p with
  | nil => simp [releaseEach, account, subAshmem]
  | cons off offs ih =>
      have hstep : releaseEach o p (off :: offs) =
          releaseEach o (releaseObject o p (objectAt p.bytes off)) offs := rfl
      rw [hstep, ih]
      simp [releaseObject, account, subAshmem, releaseEffects]

theorem releaseObjects_eq (o : Oracle) (p : Parcel) :
    releaseObjects o p =
      account p (subAshmem o p.mOpenAshmemSize (held p).reverse)
        ((held p).reverse.flatMap releaseEffects) := by
  rw [releaseObjects, releaseEach_eq, List.map_reverse]
  rfl

theorem freeBuffer_eq (p : Parcel) :
    freeBuffer p = account p p.mOpenAshmemSize ((held p).reverse.flatMap closeEffects ++
      [.freeBuffer]) := by
  have hclose : p.objects.reverse.filterMap (fun off =>
      if (objectAt p.bytes off).type = binderTypeFd then
        some (Effect.close (objectAt p.bytes off).handle) else none) =
      (held p).reverse.flatMap closeEffects := by
    rw [held, ← List.map_reverse, List.flatMap_map]
    induction p.objects.reverse with
    | nil => rfl
    | cons off offs ih =>
        by_cases h : (objectAt p.bytes off).type = binderTypeFd
        · simp [closeEffects, h, ih]
        · simp [closeEffects, h, ih]
  rw [freeBuffer, closeFileDescriptors]
  simp only [record_eq, account_account]
  rw [hclose]
  rfl

end Accounts

/-! ### What `continueWrite` does -/

section Continue

variable {o : Oracle} {p : Parcel} {w : World} {desired len : ℕ}

/-- A world after `n` allocations were tried. -/
def World.tried (w : World) (n : ℕ) : World := { w with allocs := w.allocs + n }

@[simp] theorem World.alloc_snd (w : World) : (w.alloc o).2 = w.tried 1 := rfl

@[simp] theorem World.tried_zero (w : World) : w.tried 0 = w := rfl

def outOfMemory (p : Parcel) : Parcel := { p with mError := .noMemory }

/-- The parcel that has taken possession of data of the driver, in block `b`. -/
def possessed (o : Oracle) (p : Parcel) (b desired : ℕ) : Parcel :=
  let kept := keptObjects p desired
  let fs := kept.reverse.map (objectAt p.bytes)
  { p with
    mOwner := false
    mData := some b
    bytes := fun i => if i < min p.mDataSize desired then p.bytes i else o.fresh b i
    mDataSize := min p.mDataSize desired
    mDataCapacity := desired
    objects := kept
    mObjects := if kept = [] then .null else .own
    mObjectsCapacity := kept.length
    room := kept.length
    mNextObjectHint := 0
    mOpenAshmemSize := addAshmem o p.mOpenAshmemSize fs
    log := p.log ++ (.malloc b :: fs.map .acquire ++
      ((held p).reverse.flatMap closeEffects ++ [.freeBuffer])) }

/-- The parcel whose block `b` was replaced by the larger `b'`. -/
def reallocated (o : Oracle) (p : Parcel) (b b' desired : ℕ) : Parcel :=
  { p with
    mData := some b'
    bytes := fun i => if i < p.mDataCapacity then p.bytes i else o.fresh b' i
    mDataCapacity := desired
    log := p.log ++ [.free b, .malloc b'] }

def truncated (p : Parcel) (desired : ℕ) : Parcel :=
  { p with mDataSize := min p.mDataSize desired, mDataPos := min p.mDataPos desired }

def started (o : Oracle) (p : Parcel) (b desired : ℕ) : Parcel :=
  { p with
    mData := some b
    bytes := o.fresh b
    mDataSize := 0
    mDataPos := 0
    mDataCapacity := desired
    log := p.log ++ [.malloc b] }

/-- The ways in which `continueWrite` can end. A block has the number of its allocation. -/
inductive Continued (o : Oracle) (p : Parcel) (w : World) (desired : ℕ) :
    Status → Parcel → World → Prop
  | tooLarge (h : desired > int32Max) : Continued o p w desired .badValue p w
  | released (hown : p.mOwner = true) (h : desired = 0) :
      Continued o p w desired .noError (initState (freeBuffer p)) w
  | refused (n : ℕ) (l : List Effect)
      (hl : l = [] ∨ p.mOwner = true ∧ l = [.malloc w.allocs, .free w.allocs] ∧ 0 < n) :
      Continued o p w desired .noMemory (outOfMemory (p.record l)) (w.tried n)
  | possessed (n : ℕ) (hown : p.mOwner = true) (hpos : 0 < desired) (hmax : desired ≤ int32Max) :
      Continued o p w desired .noError (possessed o p w.allocs desired)
        ((w.tried (n + 1)).count desired 0 1 0)
  | reallocated (n b : ℕ) (shrinks : Bool) (hown : p.mOwner = false) (hb : p.mData = some b)
      (hmax : desired ≤ int32Max) (hlt : p.mDataCapacity < desired) :
      Continued o p w desired .noError
        (reallocated o (dropObjects o p desired shrinks) b (w.allocs + n) desired)
        ((w.tried (n + 1)).count desired p.mDataCapacity 0 0)
  | exhausted (n b : ℕ) (shrinks : Bool) (hown : p.mOwner = false) (hb : p.mData = some b)
      (hlt : p.mDataCapacity < desired) :
      Continued o p w desired .noMemory (outOfMemory (dropObjects o p desired shrinks))
        (w.tried n)
  | truncated (n b : ℕ) (shrinks : Bool) (hown : p.mOwner = false) (hb : p.mData = some b)
      (hle : desired ≤ p.mDataCapacity) (hmax : desired ≤ int32Max) :
      Continued o p w desired .noError (truncated (dropObjects o p desired shrinks) desired)
        (w.tried n)
  | started (hown : p.mOwner = false) (hb : p.mData = none) (hmax : desired ≤ int32Max) :
      Continued o p w desired .noError (started o p w.allocs desired)
        ((w.tried 1).count desired 0 1 0)

theorem takePossession_cases (hown : p.mOwner = true) (hpos : 0 < desired)
    (hmax : desired ≤ int32Max) {st : Status} {p' : Parcel} {w' : World}
    (h : takePossession o p w desired = (st, p', w')) : Continued o p w desired st p' w' := by
  unfold takePossession World.alloc at h
  by_cases ha : o.allocates w.allocs
  · simp only [if_pos ha, acquireEach_eq, freeBuffer_eq, record_eq, account_account] at h
    by_cases hk : keptObjects (account p p.mOpenAshmemSize [.malloc w.allocs]) desired = []
    · simp only [if_pos hk, if_true] at h
      cases h
      exact .possessed 0 hown hpos hmax
    · simp only [if_neg hk] at h
      by_cases ht : o.allocates (w.allocs + 1)
      · simp only [if_pos ht, Option.isSome_some, if_true] at h
        cases h
        exact .possessed 1 hown hpos hmax
      · simp only [if_neg ht, Option.isSome_none, Bool.false_eq_true, if_false] at h
        cases h
        exact .refused 2 [.malloc w.allocs, .free w.allocs] (.inr ⟨hown, rfl, by omega⟩)
  · simp only [if_neg ha] at h
    cases h
    have hrefused : Continued o p w desired .noMemory (outOfMemory (p.record [])) (w.tried 1) :=
      .refused 1 [] (.inl rfl)
    rw [record_nil] at hrefused
    exact hrefused

theorem dropObjects_capacity (shrinks : Bool) :
    (dropObjects o p desired shrinks).mDataCapacity = p.mDataCapacity := by
  unfold dropObjects
  dsimp only
  split
  · rw [releaseEach_eq]
    rfl
  · rfl

theorem dropObjects_owner {shrinks : Bool} :
    (dropObjects o p desired shrinks).mOwner = p.mOwner := by
  unfold dropObjects
  dsimp only
  split
  · rw [releaseEach_eq]
    rfl
  · rfl

theorem resize_cases {n b : ℕ} {shrinks : Bool} (hown : p.mOwner = false) (hb : p.mData = some b)
    (hmax : desired ≤ int32Max) {st : Status} {p' : Parcel} {w' : World}
    (h : resize o (dropObjects o p desired shrinks) (w.tried n) b desired = (st, p', w')) :
    Continued o p w desired st p' w' := by
  unfold resize World.alloc at h
  split at h
  · rename_i hlt
    rw [dropObjects_capacity] at hlt
    by_cases ha : o.allocates (w.tried n).allocs
    · simp only [if_pos ha, dropObjects_capacity] at h
      cases h
      have hgrown : Continued o p w desired .noError
          (Parcel.reallocated o (dropObjects o p desired shrinks) b (w.allocs + n) desired)
          ((w.tried (n + 1)).count desired p.mDataCapacity 0 0) :=
        .reallocated n b shrinks hown hb hmax hlt
      unfold Parcel.reallocated at hgrown
      rw [dropObjects_capacity] at hgrown
      exact hgrown
    · simp only [if_neg ha] at h
      cases h
      exact .exhausted (n + 1) b shrinks hown hb hlt
  · rename_i hle
    have hle' : desired ≤ p.mDataCapacity := by
      rw [dropObjects_capacity] at hle
      omega
    cases h
    exact .truncated n b shrinks hown hb hle' hmax

theorem continueWrite_cases {st : Status} {p' : Parcel} {w' : World}
    (h : continueWrite o p w desired = (st, p', w')) : Continued o p w desired st p' w' := by
  unfold continueWrite at h
  split at h
  · cases h
    exact .tooLarge (by assumption)
  rename_i hmax
  split at h
  · rename_i hown
    split at h
    · rename_i hzero
      simp only [freeData, freeDataNoInit, hown, if_true] at h
      cases h
      exact .released hown hzero
    · exact takePossession_cases hown (by omega) (by omega) h
  · rename_i hown
    have hown' : p.mOwner = false := by simpa using hown
    split at h
    · rename_i b hb
      obtain ⟨n, hn⟩ : ∃ n, (if (keptObjects p desired).length < p.objects.length then
          (w.alloc o).2 else w) = w.tried n := by
        split
        · exact ⟨1, rfl⟩
        · exact ⟨0, rfl⟩
      dsimp only at h
      rw [hn] at h
      exact resize_cases hown' hb (by omega) h
    · rename_i hb
      unfold World.alloc at h
      by_cases ha : o.allocates w.allocs
      · simp only [if_pos ha] at h
        cases h
        exact .started hown' hb (by omega)
      · simp only [if_neg ha] at h
        cases h
        have hrefused : Continued o p w desired .noMemory (outOfMemory (p.record []))
            (w.tried 1) := .refused 1 [] (.inl rfl)
        rw [record_nil] at hrefused
        exact hrefused

/-! ### What `growData` does -/

def growTo (p : Parcel) (len : ℕ) : ℕ := ((p.mDataSize + len) * 3) % sizeT / 2

theorem keptObjects_of_le (h : p.mDataSize ≤ desired) : keptObjects p desired = p.objects := by
  unfold keptObjects
  rw [if_neg (by omega)]

theorem dropObjects_of_le (h : p.mDataSize ≤ desired) (shrinks : Bool) :
    dropObjects o p desired shrinks = p := by
  unfold dropObjects
  simp only [keptObjects_of_le h, lt_self_iff_false, if_false]

/-- The size asked for, where the data can grow to it. -/
structure CanGrow (p : Parcel) (len : ℕ) : Prop where
  growTo_eq : growTo p len = (p.mDataSize + len) * 3 / 2
  lt : p.mDataSize < growTo p len
  le : growTo p len ≤ int32Max

theorem canGrow (hlen : len ≤ int32Max) (hlt : p.mDataSize < growTo p len)
    (hmax : growTo p len ≤ int32Max) : CanGrow p len where
  growTo_eq := by
    unfold growTo at *
    rw [Nat.mod_eq_of_lt]
    simp only [int32Max, sizeT] at *
    omega
  lt := hlt
  le := hmax

/-- The ways in which `growData` can end. -/
inductive Grown (o : Oracle) (p : Parcel) (w : World) (len : ℕ) :
    Status → Parcel → World → Prop
  | failed (st err : Status) (n : ℕ) (l : List Effect) (hst : st ≠ .noError)
      (hl : l = [] ∨ p.mOwner = true ∧ l = [.malloc w.allocs, .free w.allocs] ∧ 0 < n) :
      Grown o p w len st { p.record l with mError := err } (w.tried n)
  | possessed (n : ℕ) (hown : p.mOwner = true) (hgrow : CanGrow p len) :
      Grown o p w len .noError (possessed o p w.allocs (growTo p len))
        ((w.tried (n + 1)).count (growTo p len) 0 1 0)
  | reallocated (n b : ℕ) (hown : p.mOwner = false) (hb : p.mData = some b)
      (hgrow : CanGrow p len) (hlt : p.mDataCapacity < growTo p len) :
      Grown o p w len .noError (reallocated o p b (w.allocs + n) (growTo p len))
        ((w.tried (n + 1)).count (growTo p len) p.mDataCapacity 0 0)
  | kept (n b : ℕ) (hown : p.mOwner = false) (hb : p.mData = some b) (hgrow : CanGrow p len)
      (hle : growTo p len ≤ p.mDataCapacity) :
      Grown o p w len .noError { p with mDataPos := min p.mDataPos (growTo p len) } (w.tried n)
  | started (hown : p.mOwner = false) (hb : p.mData = none) (hgrow : CanGrow p len) :
      Grown o p w len .noError (started o p w.allocs (growTo p len))
        ((w.tried 1).count (growTo p len) 0 1 0)

theorem Grown.unchanged {st : Status} (hst : st ≠ .noError) : Grown o p w len st p w := by
  have h : Grown o p w len st { p.record [] with mError := p.mError } (w.tried 0) :=
    .failed st p.mError 0 [] hst (.inl rfl)
  rw [record_nil] at h
  exact h

theorem growData_cases {st : Status} {p' : Parcel} {w' : World}
    (h : growData o p w len = (st, p', w')) : Grown o p w len st p' w' := by
  unfold growData at h
  split at h
  · cases h
    exact .unchanged (by decide)
  rename_i hlen
  dsimp only at h
  split at h
  · cases h
    exact .unchanged (by decide)
  rename_i hlt
  have hlt' : p.mDataSize < growTo p len := not_le.mp hlt
  have hall (sh : Bool) : dropObjects o p (growTo p len) sh = p :=
    dropObjects_of_le (le_of_lt hlt') sh
  have hcan (hmax : growTo p len ≤ int32Max) : CanGrow p len := canGrow (by omega) hlt' hmax
  cases continueWrite_cases h with
  | tooLarge hbig => exact .unchanged (by decide)
  | released hown hzero =>
      have : growTo p len = 0 := hzero
      omega
  | refused n l hl => exact .failed _ _ n l (by decide) hl
  | possessed n hown hpos hmax => exact .possessed n hown (hcan hmax)
  | reallocated n b sh hown hb hmax hcap =>
      change Grown o p w len .noError (Parcel.reallocated o (dropObjects o p (growTo p len) sh) b
        (w.allocs + n) (growTo p len)) _
      rw [hall]
      exact .reallocated n b hown hb (hcan hmax) hcap
  | exhausted n b sh hown hb hcap =>
      change Grown o p w len .noMemory (outOfMemory (dropObjects o p (growTo p len) sh)) _
      have hfailed : Grown o p w len .noMemory { p.record [] with mError := .noMemory }
          (w.tried n) := .failed _ _ n [] (by decide) (.inl rfl)
      rw [record_nil] at hfailed
      rw [hall]
      exact hfailed
  | truncated n b sh hown hb hle hmax =>
      change Grown o p w len .noError (Parcel.truncated (dropObjects o p (growTo p len) sh)
        (growTo p len)) _
      rw [hall]
      unfold Parcel.truncated
      rw [min_eq_left (le_of_lt hlt')]
      exact .kept n b hown hb (hcan hmax) hle
  | started hown hb hmax => exact .started hown hb (hcan hmax)

end Continue

end Parcel

end BinderForLinux
