import BinderForLinux.Parcel.Writers

/-!
# Reading received data

The data come from another process, so a length in them may be any number. The readers check
it against the end of the data, with two exceptions. `readCString` takes the bytes that are left
to be the size less the position, although its own padding, or the header that
`readExceptionCode` skips, may have moved the position beyond the end. And `readExceptionCode`
passes a sum that may be negative to `setDataPosition`, which aborts.
-/

namespace BinderForLinux

namespace Parcel

open Library

/-! ### Results -/

/-- What a reader returns. For `readStrongBinder` it is the object from which
`unflatten_binder` makes the pointer. -/
inductive Result
  | bytes (r : Except Status (List UInt8))
  | place (len : ℕ) (r : Option ℕ)
  | number (r : Except Status ℕ)
  | cString (r : Option (List UInt8))
  | string8 (r : List UInt8)
  | string16 (r : List UInt16)
  | binder (flat : Option FlatObject)
  | descriptor (fd : Option ℕ)
  | code (c : ℤ)

def Reader.run (p : Parcel) : Reader → Option (Result × Parcel)
  | .read len => some (.bytes (Parcel.read p len).1, (Parcel.read p len).2)
  | .readInplace len => some (.place len (Parcel.readInplace p len).1, (Parcel.readInplace p len).2)
  | .readAligned wide =>
      some (.number (Parcel.readAligned p (alignedSize wide)).1,
        (Parcel.readAligned p (alignedSize wide)).2)
  | .readCString => (Parcel.readCString p).map fun r => (.cString r.1, r.2)
  | .readString8 => some (.string8 (Parcel.readString8 p).1, (Parcel.readString8 p).2)
  | .readString16 => some (.string16 (Parcel.readString16 p).1, (Parcel.readString16 p).2)
  | .readStrongBinder => some (.binder (readObject p false).1, (readObject p false).2)
  | .readFileDescriptor =>
      some (.descriptor (Parcel.readFileDescriptor p).1, (Parcel.readFileDescriptor p).2)
  | .readExceptionCode => (Parcel.readExceptionCode p).map fun r => (.code r.1, r.2)

theorem Reader.step_eq_run (p : Parcel) (r : Reader) : r.step p = (r.run p).map Prod.snd := by
  cases r with
  | readCString => simp [Reader.step, Reader.run, Option.map_map, Function.comp_def]
  | readExceptionCode => simp [Reader.step, Reader.run, Option.map_map, Function.comp_def]
  | _ => rfl

/-- The error or the empty value that is documented for a failed read. No object, or one of
another type, is a null pointer. -/
def Result.Failed : Result → Prop
  | .bytes r => r = .error .badValue ∨ r = .error .notEnoughData
  | .place _ r => r = none
  | .number r => r = .error .notEnoughData
  | .cString r => r = none
  | .string8 r => r = []
  | .string16 r => r = []
  | .binder flat => ∀ s e, unflattenBinder s e flat = .ok (none, s)
  | .descriptor fd => fd = none
  | .code c => c = 0

/-- What is returned was read from bytes of the data. -/
def Result.Delivered (p : Parcel) : Result → Prop
  | .bytes r => ∃ off n, off + n ≤ p.mDataSize ∧ r = .ok (getBytes p.bytes off n)
  | .place len r => ∃ off, off + len ≤ p.mDataSize ∧ r = some off
  | .number r => ∃ off n, off + n ≤ p.mDataSize ∧ r = .ok (getLE p.bytes off n)
  | .cString r =>
      ∃ off n, off + n < p.mDataSize ∧ p.bytes (off + n) = 0 ∧ r = some (getBytes p.bytes off n)
  | .string8 r => ∃ off n, off + n ≤ p.mDataSize ∧ r = getBytes p.bytes off n
  | .string16 r => ∃ off n, off + 2 * n ≤ p.mDataSize ∧ r = charsAt p.bytes off n
  | .binder flat => ∃ off, off + objectSize ≤ p.mDataSize ∧ flat = some (objectAt p.bytes off)
  | .descriptor fd =>
      ∃ off, off + objectSize ≤ p.mDataSize ∧ fd = some (objectAt p.bytes off).handle
  | .code c => ∃ off, off + 4 ≤ p.mDataSize ∧ c = toSigned 32 (getLE p.bytes off 4)

/-! ### Where a reader is safe -/

/-- `readCString` has to start in the data, and the string it finds has to be one that
`pad_size` takes. -/
def CStringSafe (p : Parcel) : Prop :=
  p.mDataPos ≤ p.mDataSize ∧
    ∀ len, findZero p.bytes p.mDataPos (p.mDataSize - p.mDataPos) = some len →
      len + 1 ≤ 2 ^ 32 - 1 - 3

/-- The header that `readExceptionCode` skips has to end at a position. -/
def HeaderSafe (p : Parcel) : Prop :=
  (readInt32 p).1 = exHasReplyHeader →
    headerEnd (readInt32 p).2 (readInt32 (readInt32 p).2).1 ≤ int32Max

def Reader.Safe (p : Parcel) : Reader → Prop
  | .readCString => CStringSafe p
  | .readExceptionCode => HeaderSafe p
  | _ => True

/-! ### The invariant -/

/-- No buffer has more bytes than the address space of a process. -/
def maxBuffer : ℕ := 2 ^ 63

/-- The position is at most where the padding of the last string ends, and nothing was read
outside the data. -/
structure Readable (size : ℕ) (p : Parcel) : Prop where
  size_eq : p.mDataSize = size
  size_le : size ≤ maxBuffer
  pos_le : p.mDataPos ≤ maxBuffer + 3
  loads : ∀ off len, .load off len ∈ p.log → off + len ≤ size

/-- A reader ends, with something from the data or a documented failure. -/
def Ends (size : ℕ) (p : Parcel) (x : Option (Result × Parcel)) : Prop :=
  ∃ res p', x = some (res, p') ∧ (res.Delivered p ∨ res.Failed) ∧ Readable size p'

section

variable {size : ℕ} {p : Parcel}

theorem Readable.load (h : Readable size p) {off len pos hint : ℕ} (hin : off + len ≤ size)
    (hpos : pos ≤ maxBuffer + 3) :
    Readable size
      { p.record [.load off len] with mDataPos := pos, mNextObjectHint := hint } where
  size_eq := h.size_eq
  size_le := h.size_le
  pos_le := hpos
  loads := by
    intro off' len' hmem
    rcases List.mem_append.mp hmem with hmem | hmem
    · exact h.loads off' len' hmem
    · cases List.mem_singleton.mp hmem
      exact hin

theorem Readable.move (h : Readable size p) {pos hint : ℕ} (hpos : pos ≤ maxBuffer + 3) :
    Readable size { p with mDataPos := pos, mNextObjectHint := hint } :=
  ⟨h.size_eq, h.size_le, hpos, h.loads⟩

theorem Readable.mod_eq (h : Readable size p) {n : ℕ} (hn : n ≤ 2 ^ 32) :
    (p.mDataPos + n) % sizeT = p.mDataPos + n := by
  have hpos := h.pos_le
  unfold maxBuffer at hpos
  unfold sizeT
  omega

theorem Readable.canRead_iff (h : Readable size p) {len : ℕ} (hlen : len ≤ int32Max) :
    canRead p len = true ↔ p.mDataPos + padUnsafe len ≤ size := by
  have hpad := padUnsafe_le len
  unfold int32Max at hlen
  unfold canRead
  rw [h.mod_eq (by omega), h.size_eq]
  simp

theorem Readable.read (h : Readable size p) (len : ℕ) : Ends size p ((Reader.read len).run p) := by
  refine ⟨_, _, rfl, ?_⟩
  unfold Parcel.read
  split
  · exact ⟨.inr (.inl rfl), h⟩
  rename_i hlen
  have hlen' : len ≤ int32Max := not_lt.mp hlen
  have hpad := le_padUnsafe len
  split
  · rename_i hcan
    have hin := (h.canRead_iff hlen').mp hcan
    have hsize := h.size_eq
    have hmax := h.size_le
    refine ⟨.inl ⟨p.mDataPos, len, by omega, rfl⟩, h.load (by omega) ?_⟩
    exact (Nat.mod_le _ _).trans (by omega)
  · exact ⟨.inr (.inr rfl), h⟩

theorem Readable.readInplace_cases (h : Readable size p) (len : ℕ) :
    Readable size (Parcel.readInplace p len).2 ∧
      ((Parcel.readInplace p len).1 = none ∨
        (Parcel.readInplace p len).1 = some p.mDataPos ∧ p.mDataPos + len ≤ size) := by
  unfold Parcel.readInplace
  split
  · exact ⟨h, .inl rfl⟩
  rename_i hlen
  have hpad := le_padUnsafe len
  split
  · rename_i hcan
    have hin := (h.canRead_iff (not_lt.mp hlen)).mp hcan
    have hmax := h.size_le
    exact ⟨h.move ((Nat.mod_le _ _).trans (by omega)),
      (placeAt_cases p).imp_right fun hplace => ⟨hplace, by omega⟩⟩
  · exact ⟨h, .inl rfl⟩

theorem Readable.readInplace (h : Readable size p) (len : ℕ) :
    Ends size p ((Reader.readInplace len).run p) := by
  obtain ⟨hq, hnone | ⟨hsome, hin⟩⟩ := h.readInplace_cases len
  · exact ⟨_, _, rfl, .inr hnone, hq⟩
  · exact ⟨_, _, rfl, .inl ⟨_, h.size_eq ▸ hin, hsome⟩, hq⟩

theorem Readable.readAligned_cases (h : Readable size p) {n : ℕ} (hn : n ≤ 8) :
    Readable size (Parcel.readAligned p n).2 ∧
      ((Parcel.readAligned p n).1 = .error .notEnoughData ∨
        (Parcel.readAligned p n).1 = .ok (getLE p.bytes p.mDataPos n) ∧
          p.mDataPos + n ≤ size) := by
  unfold Parcel.readAligned
  rw [h.mod_eq (by omega), h.size_eq]
  have hmax := h.size_le
  split
  · rename_i hin
    exact ⟨h.load hin (by omega), .inr ⟨rfl, hin⟩⟩
  · exact ⟨h, .inl rfl⟩

theorem Readable.readAligned (h : Readable size p) (wide : Bool) :
    Ends size p ((Reader.readAligned wide).run p) := by
  have hn : alignedSize wide ≤ 8 := by
    cases wide with
    | false => decide
    | true => decide
  obtain ⟨hq, herr | ⟨hok, hin⟩⟩ := h.readAligned_cases hn
  · exact ⟨_, _, rfl, .inr herr, hq⟩
  · exact ⟨_, _, rfl, .inl ⟨_, _, h.size_eq ▸ hin, hok⟩, hq⟩

theorem Readable.readInt32 (h : Readable size p) :
    Readable size (readInt32 p).2 ∧
      ((readInt32 p).1 = 0 ∨ (readInt32 p).1 = toSigned 32 (getLE p.bytes p.mDataPos 4) ∧
        p.mDataPos + 4 ≤ size) := by
  obtain ⟨hq, herr | ⟨hok, hin⟩⟩ := h.readAligned_cases (by omega : 4 ≤ 8)
  · refine ⟨hq, .inl ?_⟩
    simp only [Parcel.readInt32, orZero, herr, Except.toOption]
    rfl
  · refine ⟨hq, .inr ⟨?_, hin⟩⟩
    simp only [Parcel.readInt32, orZero, hok, Except.toOption]
    rfl

theorem findZero_some {m : Data} {off n len : ℕ} (h : findZero m off n = some len) :
    len < n ∧ m (off + len) = 0 := by
  induction n generalizing off len with
  | zero => cases h
  | succ n ih =>
      rw [findZero] at h
      split at h
      · rename_i hz
        obtain rfl := Option.some.inj h
        exact ⟨by omega, hz⟩
      · obtain ⟨k, hk, rfl⟩ := Option.map_eq_some_iff.mp h
        obtain ⟨hlt, hz⟩ := ih hk
        refine ⟨by omega, ?_⟩
        rw [show off + (k + 1) = off + 1 + k by omega]
        exact hz

theorem Readable.readCString (h : Readable size p) (hsafe : CStringSafe p) :
    Ends size p (Reader.readCString.run p) := by
  obtain ⟨hpos, hshort⟩ := hsafe
  have hsize := h.size_eq
  have hmax := h.size_le
  have havail : (p.mDataSize + (sizeT - p.mDataPos)) % sizeT = p.mDataSize - p.mDataPos := by
    unfold maxBuffer at hmax
    unfold sizeT
    omega
  simp only [Reader.run, Parcel.readCString, havail]
  split
  · cases hz : findZero p.bytes p.mDataPos (p.mDataSize - p.mDataPos) with
    | none =>
        refine ⟨_, _, rfl, .inr rfl, h.load (by omega) ?_⟩
        exact h.pos_le
    | some len =>
        obtain ⟨hlt, hzero⟩ := findZero_some hz
        have hpad := padUnsafe_le (len + 1)
        simp only [padSize, if_neg (not_lt.mpr (hshort len hz)), Option.map_some]
        refine ⟨_, _, rfl, .inl ⟨p.mDataPos, len, by omega, hzero, rfl⟩, h.load (by omega) ?_⟩
        exact (Nat.mod_le _ _).trans (by omega)
  · exact ⟨_, _, rfl, .inr rfl, h⟩

theorem ReadOnly.bytes_eq {q : Parcel} (h : ReadOnly p q) : q.bytes = p.bytes := by
  rw [h.same]

theorem Readable.readString8 (h : Readable size p) :
    Ends size p (Reader.readString8.run p) := by
  refine ⟨_, _, rfl, ?_⟩
  obtain ⟨hq, -⟩ := h.readInt32
  have hsame := readOnly_readInt32 p
  rcases hr : Parcel.readInt32 p with ⟨n, q⟩
  rw [hr] at hq hsame
  change Readable size q at hq
  simp only [Parcel.readString8, hr]
  split
  · obtain ⟨hq', hplace⟩ := hq.readInplace_cases (n.toNat + 1)
    have hsame' := readOnly_readInplace q (n.toNat + 1)
    rcases hd : Parcel.readInplace q (n.toNat + 1) with ⟨_ | d, q'⟩
    · rw [hd] at hq'
      exact ⟨.inr rfl, hq'⟩
    · rw [hd] at hq' hplace hsame'
      obtain hnone | ⟨hd', hin⟩ := hplace
      · cases hnone
      · obtain rfl := Option.some.inj hd'
        have hbytes : q'.bytes = p.bytes := (hsame.trans hsame').bytes_eq
        have hsize := h.size_eq
        refine ⟨.inl ⟨q.mDataPos, n.toNat, by omega, ?_⟩, hq'.load (by omega) hq'.pos_le⟩
        simp only [hbytes]
  · exact ⟨.inr rfl, hq⟩

theorem Readable.readString16 (h : Readable size p) :
    Ends size p (Reader.readString16.run p) := by
  refine ⟨_, _, rfl, ?_⟩
  obtain ⟨hq, -⟩ := h.readInt32
  have hsame := readOnly_readInt32 p
  rcases hr : Parcel.readInt32 p with ⟨n, q⟩
  rw [hr] at hq hsame
  change Readable size q at hq
  simp only [Parcel.readString16, readString16Inplace, hr]
  by_cases hn : 0 ≤ n ∧ n.toNat < int32Max
  · simp only [if_pos hn]
    obtain ⟨hq', hplace⟩ := hq.readInplace_cases ((n.toNat + 1) * 2)
    have hsame' := readOnly_readInplace q ((n.toNat + 1) * 2)
    rcases hd : Parcel.readInplace q ((n.toNat + 1) * 2) with ⟨_ | d, q'⟩
    · rw [hd] at hq'
      exact ⟨.inr rfl, hq'⟩
    · rw [hd] at hq' hplace hsame'
      obtain hnone | ⟨hd', hin⟩ := hplace
      · cases hnone
      · obtain rfl := Option.some.inj hd'
        have hbytes : q'.bytes = p.bytes := (hsame.trans hsame').bytes_eq
        have hsize := h.size_eq
        refine ⟨.inl ⟨q.mDataPos, n.toNat, by omega, ?_⟩, hq'.load (by omega) hq'.pos_le⟩
        simp only [hbytes]
  · simp only [if_neg hn]
    exact ⟨.inr rfl, hq⟩

theorem Readable.readObject (h : Readable size p) (nullMetaData : Bool) :
    Readable size (Parcel.readObject p nullMetaData).2 ∧
      ((Parcel.readObject p nullMetaData).1 = none ∨
        (Parcel.readObject p nullMetaData).1 = some (objectAt p.bytes p.mDataPos) ∧
          p.mDataPos + objectSize ≤ size) := by
  unfold Parcel.readObject
  have hmax := h.size_le
  simp only [h.mod_eq (show objectSize ≤ 2 ^ 32 by decide), h.size_eq]
  split
  · rename_i hin
    have hpos : p.mDataPos + objectSize ≤ maxBuffer + 3 := by omega
    split
    · exact ⟨h.load hin hpos, .inr ⟨rfl, hin⟩⟩
    split
    · exact ⟨h.load hin hpos, .inr ⟨rfl, hin⟩⟩
    · exact ⟨h.load hin hpos, .inl rfl⟩
  · exact ⟨h, .inl rfl⟩

theorem Readable.readStrongBinder (h : Readable size p) :
    Ends size p (Reader.readStrongBinder.run p) := by
  obtain ⟨hq, hnone | ⟨hsome, hin⟩⟩ := h.readObject false
  · refine ⟨_, _, rfl, .inr ?_, hq⟩
    intro s e
    rw [hnone]
    rfl
  · exact ⟨_, _, rfl, .inl ⟨_, h.size_eq ▸ hin, hsome⟩, hq⟩

theorem Readable.readFileDescriptor (h : Readable size p) :
    Ends size p (Reader.readFileDescriptor.run p) := by
  obtain ⟨hq, hobj⟩ := h.readObject true
  refine ⟨_, _, rfl, ?_, ?_⟩
  · unfold Parcel.readFileDescriptor
    rcases hr : Parcel.readObject p true with ⟨_ | flat, q⟩
    · exact .inr rfl
    · rw [hr] at hobj
      obtain hnone | ⟨hsome, hin⟩ := hobj
      · cases hnone
      · obtain rfl := Option.some.inj hsome
        dsimp only
        split
        · exact .inl ⟨_, h.size_eq ▸ hin, rfl⟩
        · exact .inr rfl
  · rw [readFileDescriptor_snd]
    exact hq

theorem Readable.readExceptionCode (h : Readable size p) (hsafe : HeaderSafe p) :
    Ends size p (Reader.readExceptionCode.run p) := by
  obtain ⟨hq, hcode⟩ := h.readInt32
  unfold HeaderSafe at hsafe
  simp only [Reader.run, Parcel.readExceptionCode]
  rcases hr : Parcel.readInt32 p with ⟨c, q⟩
  rw [hr] at hq hcode hsafe
  dsimp only at hsafe ⊢
  split
  · rename_i hc
    obtain ⟨hq', -⟩ := hq.readInt32
    rcases hs : Parcel.readInt32 q with ⟨n, q'⟩
    rw [hs] at hq' hsafe
    have hle : headerEnd q n ≤ int32Max := hsafe hc
    simp only [setDataPosition, if_neg (not_lt.mpr hle), Option.map_some]
    refine ⟨_, _, rfl, .inr rfl, hq'.move ?_⟩
    unfold int32Max at hle
    unfold maxBuffer
    omega
  · refine ⟨_, _, rfl, ?_, hq⟩
    rcases hcode with hzero | ⟨hval, hin⟩
    · exact .inr hzero
    · exact .inl ⟨p.mDataPos, h.size_eq ▸ hin, hval⟩

theorem Readable.run (h : Readable size p) {r : Reader} (hsafe : r.Safe p) :
    Ends size p (r.run p) := by
  cases r with
  | read len => exact h.read len
  | readInplace len => exact h.readInplace len
  | readAligned wide => exact h.readAligned wide
  | readCString => exact h.readCString hsafe
  | readString8 => exact h.readString8
  | readString16 => exact h.readString16
  | readStrongBinder => exact h.readStrongBinder
  | readFileDescriptor => exact h.readFileDescriptor
  | readExceptionCode => exact h.readExceptionCode hsafe

end

/-! ### Runs -/

def readStep (p : Parcel) (r : Reader) : Except Abort Parcel :=
  match r.step p with
  | some p' => .ok p'
  | none => .error .aborted

theorem Readable.step {size : ℕ} {p p' : Parcel} {r : Reader} (h : Readable size p)
    (hsafe : r.Safe p) (hstep : readStep p r = .ok p') : Readable size p' := by
  obtain ⟨res, q, hrun, -, hq⟩ := h.run hsafe
  simp only [readStep, Reader.step_eq_run, hrun, Option.map_some, Except.ok.injEq] at hstep
  exact hstep ▸ hq

theorem readable_received (data : Data) {dataSize : ℕ} (objects : List ℕ)
    (hsize : dataSize ≤ maxBuffer) : Readable dataSize (received new data dataSize objects) where
  size_eq := rfl
  size_le := hsize
  pos_le := Nat.zero_le _
  loads := by simp [received, scanForFds, new]

/-- In data below four gigabytes, `readCString` is safe wherever it starts in the data. -/
def Reader.safeBelow (p : Parcel) : Reader → Bool
  | .readCString => p.mDataPos ≤ p.mDataSize && p.mDataSize ≤ 2 ^ 32 - 1 - 3
  | .readExceptionCode => false
  | _ => true

theorem Reader.safe_of_safeBelow {p : Parcel} {r : Reader} (h : r.safeBelow p = true) :
    r.Safe p := by
  cases r with
  | readCString =>
      simp only [Reader.safeBelow, Bool.and_eq_true, decide_eq_true_eq] at h
      refine ⟨h.1, fun len hlen => ?_⟩
      have hlt := (findZero_some hlen).1
      omega
  | readExceptionCode => cases h
  | _ => trivial

def ofList (l : List UInt8) : Data := fun i => l.getD i 0

/-- A message of a string with a terminator and of one with a length. -/
def twoStrings : Data := ofList [104, 105, 0, 0, 1, 0, 0, 0, 65, 0, 0, 0]

-- A header of negative size: the position it ends at is refused by an abort.
example : readExceptionCode
    (received new (ofList [0x80, 0xff, 0xff, 0xff, 0, 0, 0, 0x80]) 8 []) = none := by
  decide +kernel

end Parcel

end BinderForLinux
