import BinderForLinux.Parcel.Bounds
import BinderForLinux.Parcel.Typed
import Mathlib.Tactic.Positivity
import Mathlib.Tactic.Zify

/-!
# Reading back what was written

The reader of each type takes the encoding of a value off the data and moves on to the next one.
The hint of the table is the number of entries that were passed, so the entry of the next object
is found where the search begins.
-/

namespace BinderForLinux

namespace Parcel

open Library

/-! ### Readers by type -/

inductive Kind
  | int32
  | uint32
  | int64
  | uint64
  | pointer
  | cString
  | string8
  | string16
  | byteArray
  | int32Array
  | strongBinder
  | fileDescriptor
  deriving DecidableEq, Repr

/-- What is read back. A binder is a pointer. -/
inductive Back
  | int (x : ℤ)
  | nat (x : ℕ)
  | cString (str : Option (List UInt8))
  | string8 (str : List UInt8)
  | string16 (str : List UInt16)
  | byteArray (val : Except Status (Option (List UInt8)))
  | int32Array (val : Except Status (Option (List ℤ)))
  | binder (address : Option ℕ)
  | descriptor (fd : Option ℕ)

/-- An array is read by `readInt32` and `read`; a negative length is a null pointer. -/
def readArray (p : Parcel) (size : ℕ) : Except Status (Option (List UInt8)) × Parcel :=
  let (n, p) := readInt32 p
  if n < 0 then (.ok none, p)
  else
    match read p (n.toNat * size) with
    | (.ok bs, p) => (.ok (some bs), p)
    | (.error e, p) => (.error e, p)

/-- The elements of an array of `int32_t` in the memory of the caller. -/
def intsOf : List UInt8 → List ℤ
  | b₀ :: b₁ :: b₂ :: b₃ :: bs => toSigned 32 (ofBytesLE [b₀, b₁, b₂, b₃]) :: intsOf bs
  | _ => []

/-- The reader for a type, in a process with its table of proxies. Nothing is returned where
the reader aborts or the table leads to freed memory. -/
def readKind (s : ProxyTable.ProcessState) (e : ProxyTable.LookupEnv) (p : Parcel) :
    Kind → Option (Back × ProxyTable.ProcessState × Parcel)
  | .int32 => some (.int (readInt32 p).1, s, (readInt32 p).2)
  | .uint32 => some (.nat (readUint32 p).1, s, (readUint32 p).2)
  | .int64 => some (.int (readInt64 p).1, s, (readInt64 p).2)
  | .uint64 => some (.nat (readUint64 p).1, s, (readUint64 p).2)
  | .pointer => some (.nat (readPointer p).1, s, (readPointer p).2)
  | .cString => (readCString p).map fun r => (.cString r.1, s, r.2)
  | .string8 => some (.string8 (readString8 p).1, s, (readString8 p).2)
  | .string16 => some (.string16 (readString16 p).1, s, (readString16 p).2)
  | .byteArray => some (.byteArray (readArray p 1).1, s, (readArray p 1).2)
  | .int32Array =>
      some (.int32Array ((readArray p 4).1.map fun val => val.map intsOf), s, (readArray p 4).2)
  | .strongBinder =>
      match readStrongBinder s e p with
      | (.ok (address, s'), p') => some (.binder address, s', p')
      | (.error _, _) => none
  | .fileDescriptor => some (.descriptor (readFileDescriptor p).1, s, (readFileDescriptor p).2)

def readAll (s : ProxyTable.ProcessState) (e : ProxyTable.LookupEnv) (p : Parcel) :
    List Kind → Option (List Back × ProxyTable.ProcessState × Parcel)
  | [] => some ([], s, p)
  | k :: ks => do
      let (b, s, p) ← readKind s e p k
      let (bs, s, p) ← readAll s e p ks
      pure (b :: bs, s, p)

namespace Value

def kind : Value → Kind
  | .int32 _ => .int32
  | .uint32 _ => .uint32
  | .int64 _ => .int64
  | .uint64 _ => .uint64
  | .pointer _ => .pointer
  | .cString _ => .cString
  | .string8 _ => .string8
  | .string16 _ => .string16
  | .byteArray _ => .byteArray
  | .int32Array _ => .int32Array
  | .strongBinder _ => .strongBinder
  | .fileDescriptor _ _ => .fileDescriptor

def back : Value → Back
  | .int32 x => .int x
  | .uint32 x => .nat x
  | .int64 x => .int x
  | .uint64 x => .nat x
  | .pointer x => .nat x
  | .cString str => .cString (some str)
  | .string8 str => .string8 str
  | .string16 str => .string16 str
  | .byteArray val => .byteArray (.ok val)
  | .int32Array val => .int32Array (.ok val)
  | .strongBinder .null => .binder none
  | .strongBinder (.object _ this) => .binder (some this)
  | .strongBinder (.proxy address _) => .binder (some address)
  | .fileDescriptor fd _ => .descriptor (some fd)

end Value

/-- The range of the signed numbers of so many bits. -/
def InSigned (bits : ℕ) (x : ℤ) : Prop := -2 ^ (bits - 1) ≤ x ∧ x < 2 ^ (bits - 1)

/-- A proxy of the handle at the address, on which there is a reference. -/
def Live (s : ProxyTable.ProcessState) (address handle : ℕ) : Prop :=
  ∃ pr, s.memory address = some pr ∧ pr.mHandle = handle ∧ 0 < pr.mWeak

/-- The value is one of its type: numbers are in range, a C string has no zero, the pointers of
a local object are not null, and a proxy is alive. -/
def Value.Ok (s : ProxyTable.ProcessState) : Value → Prop
  | .int32 x => InSigned 32 x
  | .uint32 x => x < 2 ^ 32
  | .int64 x => InSigned 64 x
  | .uint64 x => x < 2 ^ 64
  | .pointer x => x < 2 ^ 64
  | .cString str => 0 ∉ str
  | .int32Array (some l) => ∀ x ∈ l, InSigned 32 x
  | .strongBinder (.object refs this) => 0 < refs ∧ refs < 2 ^ 64 ∧ 0 < this ∧ this < 2 ^ 64
  | .strongBinder (.proxy address handle) => handle < 2 ^ 32 ∧ Live s address handle
  | .fileDescriptor fd _ => fd < 2 ^ 32
  | _ => True

/-! ### Taking bytes off the data -/

/-- The bytes from the position to the end of the data. -/
structure Cursor (p : Parcel) (bs : List UInt8) : Prop where
  carries : Carries p.bytes p.mDataPos bs
  ends : p.mDataPos + bs.length = p.mDataSize
  small : p.mDataSize ≤ int32Max

/-- Some bytes were read, and no object. -/
structure Advances (p p' : Parcel) (n : ℕ) : Prop where
  readOnly : ReadOnly p p'
  pos : p'.mDataPos = p.mDataPos + n
  hint : p'.mNextObjectHint = p.mNextObjectHint

section Cursors

variable {p p' q : Parcel} {bs rest : List UInt8} {n m : ℕ}

theorem Advances.trans (h : Advances p q n) (h' : Advances q p' m) : Advances p p' (n + m) :=
  ⟨h.readOnly.trans h'.readOnly, by rw [h'.pos, h.pos, Nat.add_assoc],
    h'.hint.trans h.hint⟩

theorem ReadOnly.size_eq (h : ReadOnly p p') : p'.mDataSize = p.mDataSize := by rw [h.same]

theorem ReadOnly.same_bytes (h : ReadOnly p p') : p'.bytes = p.bytes := by rw [h.same]

theorem ReadOnly.same_objects (h : ReadOnly p p') : p'.objects = p.objects := by rw [h.same]

theorem Cursor.advance (h : Cursor p (bs ++ rest)) (ha : Advances p p' bs.length) :
    Cursor p' rest where
  carries := by
    rw [ha.readOnly.same_bytes, ha.pos]
    exact (carries_append.mp h.carries).2
  ends := by
    have hends := h.ends
    rw [List.length_append] at hends
    rw [ha.pos, ha.readOnly.size_eq]
    omega
  small := by
    rw [ha.readOnly.size_eq]
    exact h.small

theorem Cursor.mod_eq (h : Cursor p (bs ++ rest)) (hn : n ≤ bs.length) :
    (p.mDataPos + n) % sizeT = p.mDataPos + n := by
  have hends := h.ends
  have hsmall := h.small
  rw [List.length_append] at hends
  unfold int32Max at hsmall
  unfold sizeT
  omega

theorem Cursor.readAligned (h : Cursor p (bs ++ rest)) :
    ∃ p', Parcel.readAligned p bs.length = (.ok (ofBytesLE bs), p') ∧
      Advances p p' bs.length := by
  have hends := h.ends
  rw [List.length_append] at hends
  have hval : getLE p.bytes p.mDataPos bs.length = ofBytesLE bs := by
    rw [getLE_eq_ofBytesLE, (carries_append.mp h.carries).1]
  unfold Parcel.readAligned
  rw [h.mod_eq le_rfl, if_pos (by omega), hval]
  exact ⟨_, rfl, .of_load _ _ _ _, rfl, rfl⟩

theorem Cursor.canRead (h : Cursor p (padded bs ++ rest)) : canRead p bs.length = true := by
  have hends := h.ends
  have hmod : (p.mDataPos + padUnsafe bs.length) % sizeT = p.mDataPos + padUnsafe bs.length :=
    h.mod_eq (length_padded bs).ge
  rw [List.length_append, length_padded] at hends
  unfold Parcel.canRead
  simp only [hmod, Bool.and_eq_true, decide_eq_true_eq]
  omega

theorem Cursor.length_le (h : Cursor p (padded bs ++ rest)) : bs.length ≤ int32Max := by
  have hends := h.ends
  have hsmall := h.small
  have hle := le_padUnsafe bs.length
  rw [List.length_append, length_padded] at hends
  omega

theorem Cursor.front (h : Cursor p (padded bs ++ rest)) :
    getBytes p.bytes p.mDataPos bs.length = bs :=
  (carries_append.mp (carries_append.mp h.carries).1).1

theorem Cursor.readInplace (h : Cursor p (padded bs ++ rest)) (hne : 0 < bs.length) :
    ∃ p', Parcel.readInplace p bs.length = (some p.mDataPos, p') ∧
      Advances p p' (padded bs).length := by
  have hmod : (p.mDataPos + padUnsafe bs.length) % sizeT = p.mDataPos + padUnsafe bs.length :=
    h.mod_eq (length_padded bs).ge
  have hsize : p.mDataSize ≠ 0 := by
    have hends := h.ends
    have hle := le_padUnsafe bs.length
    rw [List.length_append, length_padded] at hends
    omega
  unfold Parcel.readInplace
  rw [if_neg (not_lt.mpr h.length_le), if_pos h.canRead, placeAt_of_data hsize, hmod,
    length_padded]
  exact ⟨_, rfl, .of_move _ _, rfl, rfl⟩

theorem Cursor.read (h : Cursor p (padded bs ++ rest)) :
    ∃ p', Parcel.read p bs.length = (.ok bs, p') ∧ Advances p p' (padded bs).length := by
  have hmod : (p.mDataPos + padUnsafe bs.length) % sizeT = p.mDataPos + padUnsafe bs.length :=
    h.mod_eq (length_padded bs).ge
  unfold Parcel.read
  rw [if_neg (not_lt.mpr h.length_le), if_pos h.canRead, hmod, h.front, length_padded]
  exact ⟨_, rfl, .of_load _ _ _ _, rfl, rfl⟩

/-! ### Numbers -/

theorem ofBytesLE_intBytes (k : ℕ) (x : ℤ) : (ofBytesLE (intBytes k x) : ℤ) = x % 256 ^ k := by
  have hpos : (0 : ℤ) < 256 ^ k := by positivity
  have hnonneg : 0 ≤ x % 256 ^ k := Int.emod_nonneg x hpos.ne'
  have hlt : x % 256 ^ k < 256 ^ k := Int.emod_lt_of_pos x hpos
  unfold intBytes
  rw [ofBytesLE_bytesLE, Int.toNat_of_nonneg hnonneg]
  zify
  rw [Int.toNat_of_nonneg hnonneg]
  exact hlt

theorem toSigned_intBytes {k bits : ℕ} (hk : 0 < k) (hbits : bits = 8 * k) {x : ℤ}
    (hx : InSigned bits x) : toSigned bits (ofBytesLE (intBytes k x)) = x := by
  subst hbits
  obtain ⟨hlow, hhigh⟩ := hx
  have hval := ofBytesLE_intBytes k x
  have hpos : (0 : ℤ) < 2 ^ (8 * k - 1) := by positivity
  have hpow : (2 : ℤ) ^ (8 * k) = 2 * 2 ^ (8 * k - 1) := by
    rw [← pow_succ']
    congr 1
    omega
  have hbytes : (256 : ℤ) ^ k = 2 * 2 ^ (8 * k - 1) := by
    rw [← hpow, pow_mul]
    norm_num
  have hcast : ((2 ^ (8 * k - 1) : ℕ) : ℤ) = 2 ^ (8 * k - 1) := by push_cast; rfl
  unfold toSigned
  rcases lt_or_ge x 0 with hneg | hnonneg
  · have hmod : x % 256 ^ k = x + 256 ^ k := by
      rw [← Int.add_emod_right]
      exact Int.emod_eq_of_lt (by omega) (by omega)
    rw [if_neg (by omega)]
    omega
  · have hmod : x % 256 ^ k = x := Int.emod_eq_of_lt hnonneg (by omega)
    rw [if_pos (by omega)]
    omega

theorem Cursor.orZero (h : Cursor p (bs ++ rest)) :
    ∃ p', orZero (Parcel.readAligned p bs.length) = (ofBytesLE bs, p') ∧
      Advances p p' bs.length := by
  obtain ⟨p', hread, ha⟩ := h.readAligned
  refine ⟨p', ?_, ha⟩
  rw [hread]
  rfl

theorem Cursor.readNat {v : ℕ} (h : Cursor p (bytesLE n v ++ rest)) (hv : v < 256 ^ n) :
    ∃ p', Parcel.orZero (Parcel.readAligned p n) = (v, p') ∧ Advances p p' n := by
  obtain ⟨p', hread, ha⟩ := h.orZero
  rw [length_bytesLE, ofBytesLE_bytesLE hv] at hread
  rw [length_bytesLE] at ha
  exact ⟨p', hread, ha⟩

theorem Cursor.readInt32 {x : ℤ} (h : Cursor p (intBytes 4 x ++ rest)) (hx : InSigned 32 x) :
    ∃ p', Parcel.readInt32 p = (x, p') ∧ Advances p p' (intBytes 4 x).length := by
  obtain ⟨p', hread, ha⟩ := h.orZero
  rw [length_intBytes] at hread
  refine ⟨p', ?_, ha⟩
  unfold Parcel.readInt32
  rw [hread]
  dsimp only
  rw [toSigned_intBytes (show 0 < 4 by decide) (show 32 = 8 * 4 by decide) hx]

theorem Cursor.readInt64 {x : ℤ} (h : Cursor p (intBytes 8 x ++ rest)) (hx : InSigned 64 x) :
    ∃ p', Parcel.readInt64 p = (x, p') ∧ Advances p p' (intBytes 8 x).length := by
  obtain ⟨p', hread, ha⟩ := h.orZero
  rw [length_intBytes] at hread
  refine ⟨p', ?_, ha⟩
  unfold Parcel.readInt64
  rw [hread]
  dsimp only
  rw [toSigned_intBytes (show 0 < 8 by decide) (show 64 = 8 * 8 by decide) hx]

theorem Cursor.readLength {len : ℕ} (h : Cursor p (intBytes 4 len ++ rest))
    (hlen : len ≤ int32Max) :
    ∃ p', Parcel.readInt32 p = ((len : ℤ), p') ∧ Advances p p' (intBytes 4 len).length ∧
      Cursor p' rest := by
  unfold int32Max at hlen
  obtain ⟨p', hread, ha⟩ := h.readInt32 ⟨by omega, by norm_num; omega⟩
  exact ⟨p', hread, ha, h.advance ha⟩

/-! ### Strings -/

theorem findZero_of_carries {m : Data} {off : ℕ} {str : List UInt8} (h : Carries m off (str ++ [0]))
    (hzero : 0 ∉ str) (hn : str.length < n) : findZero m off n = some str.length := by
  obtain ⟨n, rfl⟩ : ∃ k, n = k + 1 := ⟨n - 1, by omega⟩
  induction str generalizing off n with
  | nil =>
      have hhead : [m off] = [0] := h
      simp only [findZero, List.cons.inj hhead, if_true, List.length_nil]
  | cons b str ih =>
      have h' : Carries m off ([b] ++ (str ++ [0])) := h
      obtain ⟨hb, hrest⟩ := carries_append.mp h'
      have hhead : [m off] = [b] := hb
      have hne : m off ≠ 0 := by
        rw [(List.cons.inj hhead).1]
        exact fun hb => hzero (hb ▸ List.mem_cons_self)
      simp only [List.length_cons] at hn
      obtain ⟨n, rfl⟩ : ∃ k, n = k + 1 := ⟨n - 1, by omega⟩
      have hzero' : 0 ∉ str := fun hmem => hzero (List.mem_cons_of_mem b hmem)
      have hfind : findZero m (off + 1) (n + 1) = some str.length :=
        ih hrest hzero' n (by omega)
      rw [findZero, if_neg hne, hfind]
      rfl

theorem Cursor.readCString {str : List UInt8} (h : Cursor p (padded (str ++ [0]) ++ rest))
    (hzero : 0 ∉ str) :
    ∃ p', Parcel.readCString p = some (some str, p') ∧
      Advances p p' (padded (str ++ [0])).length := by
  have hends := h.ends
  have hsmall := h.small
  have hle := le_padUnsafe (str ++ [0]).length
  have hmod := h.mod_eq (length_padded (str ++ [0])).ge
  rw [List.length_append, length_padded] at hends
  rw [List.length_append, List.length_singleton] at hends hle hmod
  have havail : (p.mDataSize + (sizeT - p.mDataPos)) % sizeT = p.mDataSize - p.mDataPos := by
    unfold int32Max at hsmall
    unfold sizeT
    omega
  have hcarries := (carries_append.mp (carries_append.mp h.carries).1).1
  have hstr : Library.getBytes p.bytes p.mDataPos str.length = str :=
    (carries_append.mp hcarries).1
  have hfind := findZero_of_carries (n := p.mDataSize - p.mDataPos) hcarries hzero (by omega)
  have hpad : padSize (str.length + 1) = some (padUnsafe (str.length + 1)) := by
    unfold padSize
    unfold int32Max at hsmall
    rw [if_neg (by omega)]
  unfold Parcel.readCString
  simp only [havail, if_pos (show p.mDataSize - p.mDataPos > 0 by omega), hfind, hpad, hmod,
    hstr, length_padded, List.length_append, List.length_singleton]
  exact ⟨_, rfl, .of_load _ _ _ _, rfl, rfl⟩

theorem Advances.record (h : Advances p q n) (off len : ℕ) :
    Advances p (q.record [.load off len]) n :=
  ⟨h.readOnly.trans (.of_load _ _ _ _), h.pos, h.hint⟩

theorem Cursor.readString8 {str : List UInt8}
    (h : Cursor p
      ((intBytes 4 str.length ++ if str = [] then [] else padded (str ++ [0])) ++ rest)) :
    ∃ p', Parcel.readString8 p = (str, p') ∧
      Advances p p' (Value.string8 str).encode.length := by
  by_cases hnil : str = []
  · subst hnil
    obtain ⟨p', hread, ha, -⟩ := Cursor.readLength h (Nat.zero_le _)
    refine ⟨p', ?_, ha⟩
    unfold Parcel.readString8
    rw [hread]
    rfl
  · rw [if_neg hnil, List.append_assoc] at h
    have hlen : str.length + 1 ≤ int32Max := by
      have hends := h.ends
      have hsmall := h.small
      have hle := le_padUnsafe (str ++ [0]).length
      simp only [List.length_append, length_padded, List.length_singleton] at hends hle
      omega
    obtain ⟨q, hread, ha, hq⟩ := h.readLength (by omega)
    obtain ⟨p', hplace, ha'⟩ := hq.readInplace (by simp)
    have hpos := List.length_pos_iff.mpr hnil
    have hsize : 0 < (str.length : ℤ) ∧ (str.length : ℤ).toNat < int32Max := by
      rw [Int.toNat_natCast]
      omega
    have hstr : getBytes p'.bytes q.mDataPos str.length = str := by
      rw [ha'.readOnly.same_bytes]
      exact (carries_append.mp (carries_append.mp (carries_append.mp hq.carries).1).1).1
    rw [List.length_append, List.length_singleton] at hplace
    unfold Parcel.readString8
    simp only [hread, if_pos hsize]
    simp only [Int.toNat_natCast, hplace, hstr]
    refine ⟨_, rfl, ?_⟩
    simp only [Value.encode, if_neg hnil, List.length_append]
    exact (ha.trans ha').record _ _

theorem charsAt_succ (m : Data) (off n : ℕ) :
    charsAt m off (n + 1) = UInt16.ofNat (getLE m off 2) :: charsAt m (off + 2) n := by
  simp only [charsAt, List.range_succ_eq_map, List.map_cons, List.map_map, Nat.mul_zero,
    Nat.add_zero, List.cons.injEq, true_and]
  refine List.map_congr_left fun i _ => ?_
  simp only [Function.comp, Nat.succ_eq_add_one, Nat.mul_add, Nat.mul_one]
  rw [Nat.add_comm (2 * i) 2, Nat.add_assoc]

theorem charsAt_of_carries {m : Data} {off : ℕ} {str : List UInt16}
    (h : Carries m off (charsBytes str)) : charsAt m off str.length = str := by
  induction str generalizing off with
  | nil => rfl
  | cons c str ih =>
      have h' : Carries m off (bytesLE 2 c.toNat ++ charsBytes str) := h
      obtain ⟨hc, hrest⟩ := carries_append.mp h'
      rw [length_bytesLE] at hrest
      rw [List.length_cons, charsAt_succ, hc.getLE c.toNat_lt, ih hrest]
      simp

theorem Cursor.readString16 {str : List UInt16}
    (h : Cursor p ((intBytes 4 str.length ++ padded (charsBytes str ++ bytesLE 2 0)) ++ rest)) :
    ∃ p', Parcel.readString16 p = (str, p') ∧
      Advances p p' (Value.string16 str).encode.length := by
  rw [List.append_assoc] at h
  have hchars : (charsBytes str ++ bytesLE 2 0).length = (str.length + 1) * 2 := by
    simp
    omega
  have hlen : str.length + 1 ≤ int32Max := by
    have hends := h.ends
    have hsmall := h.small
    have hle := le_padUnsafe (charsBytes str ++ bytesLE 2 0).length
    rw [List.length_append, List.length_append, length_padded] at hends
    omega
  obtain ⟨q, hread, ha, hq⟩ := h.readLength (by omega)
  obtain ⟨p', hplace, ha'⟩ := hq.readInplace (by omega)
  have hsize : 0 ≤ (str.length : ℤ) ∧ (str.length : ℤ).toNat < int32Max := by
    rw [Int.toNat_natCast]
    omega
  have hstr : charsAt p'.bytes q.mDataPos str.length = str := by
    rw [ha'.readOnly.same_bytes]
    exact charsAt_of_carries
      (carries_append.mp (carries_append.mp (carries_append.mp hq.carries).1).1).1
  rw [hchars] at hplace
  unfold Parcel.readString16 Parcel.readString16Inplace
  simp only [hread, if_pos hsize]
  simp only [Int.toNat_natCast, hplace, hstr]
  refine ⟨_, rfl, ?_⟩
  simp only [Value.encode, List.length_append]
  exact (ha.trans ha').record _ _

/-! ### Arrays -/

theorem Cursor.readArray {len : ℕ} (size : ℕ) {val : Option (List UInt8)}
    (h : Cursor p (encodeArray len val ++ rest)) (hsize : 0 < size)
    (hval : ∀ bs ∈ val, bs.length = len * size) :
    ∃ p', Parcel.readArray p size = (.ok val, p') ∧
      Advances p p' (encodeArray len val).length := by
  unfold Parcel.readArray
  cases val with
  | none =>
      obtain ⟨p', hread, ha⟩ := Cursor.readInt32 h ⟨by omega, by omega⟩
      rw [hread]
      exact ⟨p', rfl, ha⟩
  | some bs =>
      simp only [encodeArray, List.append_assoc] at h
      have hlen : len ≤ int32Max := by
        have hends := h.ends
        have hsmall := h.small
        have hle := le_padUnsafe bs.length
        have hmul := Nat.le_mul_of_pos_right len hsize
        rw [← hval bs rfl] at hmul
        rw [List.length_append, List.length_append, length_padded] at hends
        omega
      obtain ⟨q, hread, ha, hq⟩ := h.readLength hlen
      obtain ⟨p', hbytes, ha'⟩ := hq.read
      rw [hval bs rfl] at hbytes
      rw [hread]
      simp only [if_neg (show ¬ (len : ℤ) < 0 by omega), Int.toNat_natCast, hbytes]
      refine ⟨p', rfl, ?_⟩
      simp only [encodeArray, List.length_append]
      exact ha.trans ha'

theorem intsOf_append (x : ℤ) (hx : InSigned 32 x) (bs : List UInt8) :
    intsOf (intBytes 4 x ++ bs) = x :: intsOf bs := by
  have hval := toSigned_intBytes (show 0 < 4 by decide) (show 32 = 8 * 4 by decide) hx
  have hlen := length_intBytes 4 x
  generalize intBytes 4 x = l at hval hlen
  obtain ⟨b₀, b₁, b₂, b₃, rfl⟩ := List.length_eq_four.mp hlen
  rw [← hval]
  rfl

theorem intsOf_flatMap {l : List ℤ} (h : ∀ x ∈ l, InSigned 32 x) :
    intsOf (l.flatMap (intBytes 4)) = l := by
  induction l with
  | nil => rfl
  | cons x l ih =>
      rw [List.flatMap_cons, intsOf_append x (h x List.mem_cons_self),
        ih fun y hy => h y (List.mem_cons_of_mem x hy)]

/-! ### Objects -/

theorem ranged_fdObject {fd : ℕ} (hfd : fd < 2 ^ 32) (takeOwnership : Bool) :
    (fdObject fd takeOwnership).Ranged where
  type := show binderTypeFd < 2 ^ 32 by decide
  flags := show 0x17f < 2 ^ 32 by decide
  binder := lt_trans hfd (by decide)
  cookie := by
    cases takeOwnership with
    | false => exact show 0 < 2 ^ 64 by decide
    | true => exact show 1 < 2 ^ 64 by decide

theorem ranged_flattenBinder {val : Strong} {s : ProxyTable.ProcessState}
    (h : (Value.strongBinder val).Ok s) : (flattenBinder val.binder).Ranged := by
  have hflags : 0x17f < 2 ^ 32 := by decide
  have hzero : 0 < 2 ^ 64 := by decide
  cases val with
  | null => exact ⟨by decide, hflags, hzero, hzero⟩
  | object refs this =>
      exact ⟨show binderTypeBinder < 2 ^ 32 by decide, hflags, h.2.1, h.2.2.2⟩
  | proxy address handle =>
      exact ⟨show binderTypeHandle < 2 ^ 32 by decide, hflags, lt_trans h.1 (by decide), hzero⟩

theorem findObject_next (before after : List ℕ) (dpos : ℕ) :
    findObject (before ++ dpos :: after) before.length dpos = some before.length := by
  have hget : (before ++ dpos :: after).getD before.length 0 = dpos := by simp
  have hsearch (n : ℕ) : searchForward (before ++ dpos :: after) dpos n before.length =
      before.length := by
    cases n with
    | zero => rfl
    | succ n => rw [searchForward, hget, if_neg (lt_irrefl dpos)]
  have hlen : before.length < (before ++ dpos :: after).length := by simp
  unfold findObject
  rw [if_pos (by omega)]
  simp only [if_pos hlen, hsearch, hget, if_true]

theorem Cursor.object {f : FlatObject} (h : Cursor p (f.bytes ++ rest)) (hf : f.Ranged) :
    objectAt p.bytes p.mDataPos = f ∧
      (p.mDataPos + objectSize) % sizeT = p.mDataPos + objectSize ∧
        p.mDataPos + objectSize ≤ p.mDataSize := by
  have hends := h.ends
  rw [List.length_append, FlatObject.length_bytes] at hends
  exact ⟨objectAt_of_carries (carries_append.mp h.carries).1 hf,
    h.mod_eq (FlatObject.length_bytes f).ge, by omega⟩

theorem Cursor.readObject_null {f : FlatObject} (h : Cursor p (f.bytes ++ rest)) (hf : f.Ranged)
    (hbinder : f.binder = 0) (hcookie : f.cookie = 0) :
    ∃ p', Parcel.readObject p false = (some f, p') ∧ Advances p p' f.bytes.length := by
  obtain ⟨hobj, hmod, hle⟩ := h.object hf
  unfold Parcel.readObject
  simp only [hmod, hobj, if_pos hle, hbinder, hcookie, Bool.false_eq_true, not_false_eq_true,
    and_self, if_true]
  exact ⟨_, rfl, .of_load _ _ _ _, by rw [FlatObject.length_bytes], rfl⟩

theorem Cursor.readObject_listed {f : FlatObject} {nullMetaData : Bool} {before after : List ℕ}
    (h : Cursor p (f.bytes ++ rest)) (hf : f.Ranged)
    (hlisted : nullMetaData = true ∨ f.binder ≠ 0)
    (hobjs : p.objects = before ++ p.mDataPos :: after)
    (hhint : p.mNextObjectHint = before.length) :
    ∃ p', Parcel.readObject p nullMetaData = (some f, p') ∧ ReadOnly p p' ∧
      p'.mDataPos = p.mDataPos + f.bytes.length ∧ p'.mNextObjectHint = before.length + 1 := by
  obtain ⟨hobj, hmod, hle⟩ := h.object hf
  have hmeta : ¬ (¬ nullMetaData = true ∧ f.cookie = 0 ∧ f.binder = 0) := by tauto
  have hfind : findObject p.objects p.mNextObjectHint p.mDataPos = some before.length := by
    rw [hobjs, hhint]
    exact findObject_next before after p.mDataPos
  unfold Parcel.readObject
  simp only [hmod, hobj, if_pos hle, if_neg hmeta, Parcel.record, hfind]
  exact ⟨_, rfl, .of_load _ _ _ _, by rw [FlatObject.length_bytes], rfl⟩

end Cursors

/-! ### Sequences of values -/

/-- The values that are still to be read, with their entries. -/
structure Reading (p : Parcel) (vs : List Value) : Prop where
  cursor : Cursor p (encodeAll vs)
  entries : ∃ before, p.objects = before ++ allEntries p.mDataPos vs ∧
    p.mNextObjectHint = before.length

section Reading

open ProxyTable (ProcessState LookupEnv Coherent)

variable {p p' : Parcel} {v : Value} {vs : List Value} {s : ProcessState} {e : LookupEnv}

theorem Reading.front (h : Reading p (v :: vs)) : Cursor p (v.encode ++ encodeAll vs) := h.cursor

theorem Reading.advance (h : Reading p (v :: vs)) (hlisted : v.listed = false)
    (ha : Advances p p' v.encode.length) : Reading p' vs := by
  obtain ⟨before, hobjs, hhint⟩ := h.entries
  refine ⟨h.front.advance ha, before, ?_, ha.hint.trans hhint⟩
  rw [ha.readOnly.same_objects, hobjs, ha.pos]
  simp [allEntries, Value.entries, hlisted]

theorem Reading.readObject {f : FlatObject} (nullMetaData : Bool) (h : Reading p (v :: vs))
    (hencode : v.encode = f.bytes) (hlisted : v.listed = true) (hf : f.Ranged)
    (hmeta : nullMetaData = true ∨ f.binder ≠ 0) :
    ∃ p', Parcel.readObject p nullMetaData = (some f, p') ∧ Reading p' vs := by
  obtain ⟨before, hobjs, hhint⟩ := h.entries
  have hentries : allEntries p.mDataPos (v :: vs) =
      p.mDataPos :: allEntries (p.mDataPos + f.bytes.length) vs := by
    simp [allEntries, Value.entries, hlisted, hencode]
  have hcursor := h.front
  rw [hencode] at hcursor
  rw [hentries] at hobjs
  obtain ⟨p', hread, hro, hpos, hhint'⟩ := hcursor.readObject_listed hf hmeta hobjs hhint
  refine ⟨p', hread, ⟨?_, ?_, ?_⟩, before ++ [p.mDataPos], ?_, ?_⟩
  · rw [hro.same_bytes, hpos]
    exact (carries_append.mp hcursor.carries).2
  · have hends := hcursor.ends
    rw [List.length_append] at hends
    rw [hpos, hro.size_eq]
    omega
  · rw [hro.size_eq]
    exact hcursor.small
  · rw [hro.same_objects, hobjs, hpos]
    simp
  · rw [hhint']
    simp

theorem Value.Ok.mono {s' : ProcessState} (h : v.Ok s)
    (hlive : ∀ address handle, Live s address handle → Live s' address handle) : v.Ok s' := by
  cases v with
  | strongBinder val =>
      cases val with
      | null => trivial
      | object refs this => exact h
      | proxy address handle => exact ⟨h.1, hlive address handle h.2⟩
  | int32Array val =>
      cases val with
      | none => trivial
      | some l => exact h
  | _ => exact h

/-- What a reader leaves: the values after it, and a table with the proxies it had. -/
structure Left (s s' : ProcessState) (p' : Parcel) (vs : List Value) : Prop where
  reading : Reading p' vs
  coherent : Coherent s'
  live : ∀ address handle, Live s address handle → Live s' address handle

theorem Left.same (hs : Coherent s) (h : Reading p' vs) : Left s s p' vs :=
  ⟨h, hs, fun _ _ hlive => hlive⟩

theorem readKind_strongBinder {s' : ProcessState} {flat : Option FlatObject} {address : Option ℕ}
    (hread : Parcel.readObject p false = (flat, p'))
    (hflat : unflattenBinder s e flat = .ok (address, s')) :
    readKind s e p .strongBinder = some (.binder address, s', p') := by
  simp only [readKind, readStrongBinder, hread, hflat]

theorem Live.unflatten {address handle : ℕ} (hs : Coherent s) (h : Live s address handle)
    (hhandle : handle < 2 ^ 32) :
    ∃ s', unflattenBinder s e (some (flattenBinder (.remoteBinder handle))) =
        .ok (some address, s') ∧ Coherent s' ∧ ∀ a k, Live s a k → Live s' a k := by
  obtain ⟨pr, hmem, rfl, hpos⟩ := h
  have hsound := hs.sound address pr hmem
  have hflat : unflattenBinder s e (some (flattenBinder (.remoteBinder pr.mHandle))) =
      s.getStrongProxyForHandle (pr.mHandle % 2 ^ 32) e := rfl
  rw [Nat.mod_eq_of_lt hhandle, hs.getStrong_live e hmem hpos] at hflat
  refine ⟨_, hflat, hs.setProxy hmem hpos rfl
    (ProxyTable.Proxy.takes_incStrong.sound pr hsound hpos)
    (ProxyTable.Proxy.takes_incStrong.stage pr hsound hpos), fun a k hlive => ?_⟩
  obtain ⟨pr', hmem', hk, hpos'⟩ := hlive
  by_cases ha : a = address
  · subst ha
    rw [hmem] at hmem'
    obtain rfl := Option.some.inj hmem'
    have hnew : (s.setProxy a pr.incWeak.incStrong.decWeak).memory a =
        some pr.incWeak.incStrong.decWeak := by
      rw [ProcessState.memory_setProxy, if_pos rfl]
    refine ⟨_, hnew, hk, ?_⟩
    change 0 < pr.mWeak + 1 + 1 - 1
    omega
  · exact ⟨pr', by rw [ProcessState.memory_setProxy, if_neg ha, hmem'], hk, hpos'⟩

theorem Reading.readKind (hs : Coherent s) (h : Reading p (v :: vs)) (hok : v.Ok s) :
    ∃ s' p', Parcel.readKind s e p v.kind = some (v.back, s', p') ∧ Left s s' p' vs := by
  have hfront := h.front
  have hplain {p'} (hlisted : v.listed = false) (ha : Advances p p' v.encode.length) :
      Left s s p' vs := .same hs (h.advance hlisted ha)
  cases v with
  | int32 x =>
      obtain ⟨p', hread, ha⟩ := hfront.readInt32 hok
      refine ⟨s, p', ?_, hplain rfl ha⟩
      simp only [Parcel.readKind, Value.kind, hread, Value.back]
  | uint32 x =>
      obtain ⟨p', hread, ha⟩ := hfront.readNat (lt_of_lt_of_eq hok (by norm_num))
      refine ⟨s, p', ?_, hplain rfl ((length_bytesLE 4 x).symm ▸ ha)⟩
      simp only [Parcel.readKind, Value.kind, readUint32, hread, Value.back]
  | int64 x =>
      obtain ⟨p', hread, ha⟩ := hfront.readInt64 hok
      refine ⟨s, p', ?_, hplain rfl ha⟩
      simp only [Parcel.readKind, Value.kind, hread, Value.back]
  | uint64 x =>
      obtain ⟨p', hread, ha⟩ := hfront.readNat (lt_of_lt_of_eq hok (by norm_num))
      refine ⟨s, p', ?_, hplain rfl ((length_bytesLE 8 x).symm ▸ ha)⟩
      simp only [Parcel.readKind, Value.kind, readUint64, hread, Value.back]
  | pointer x =>
      obtain ⟨p', hread, ha⟩ := hfront.readNat (lt_of_lt_of_eq hok (by norm_num))
      refine ⟨s, p', ?_, hplain rfl ((length_bytesLE 8 x).symm ▸ ha)⟩
      simp only [Parcel.readKind, Value.kind, readPointer, hread, Value.back]
  | cString str =>
      obtain ⟨p', hread, ha⟩ := hfront.readCString hok
      refine ⟨s, p', ?_, hplain rfl ha⟩
      simp only [Parcel.readKind, Value.kind, hread, Option.map_some, Value.back]
  | string8 str =>
      obtain ⟨p', hread, ha⟩ := hfront.readString8
      refine ⟨s, p', ?_, hplain rfl ha⟩
      simp only [Parcel.readKind, Value.kind, hread, Value.back]
  | string16 str =>
      obtain ⟨p', hread, ha⟩ := hfront.readString16
      refine ⟨s, p', ?_, hplain rfl ha⟩
      simp only [Parcel.readKind, Value.kind, hread, Value.back]
  | byteArray val =>
      obtain ⟨p', hread, ha⟩ := Cursor.readArray 1 hfront one_pos
        (by rintro bs rfl; simp)
      refine ⟨s, p', ?_, hplain rfl ha⟩
      simp only [Parcel.readKind, Value.kind, hread, Value.back]
  | int32Array val =>
      obtain ⟨p', hread, ha⟩ := Cursor.readArray 4 hfront (by decide) (by
        rintro bs hbs
        obtain ⟨l, rfl, rfl⟩ := Option.map_eq_some_iff.mp hbs
        rw [length_flatMap_intBytes]
        exact Nat.mul_comm 4 l.length)
      refine ⟨s, p', ?_, hplain rfl ha⟩
      simp only [Parcel.readKind, Value.kind, hread, Value.back]
      cases val with
      | none => rfl
      | some l =>
          simp only [Option.map_some, Except.map]
          rw [intsOf_flatMap hok]
  | strongBinder val =>
      have hrange := ranged_flattenBinder hok
      obtain ⟨p', hread, hreading⟩ : ∃ p', Parcel.readObject p false =
          (some (flattenBinder val.binder), p') ∧ Reading p' vs := by
        by_cases hbinder : (flattenBinder val.binder).binder = 0
        · have hcookie : (flattenBinder val.binder).cookie = 0 := by
            cases val with
            | null => rfl
            | object refs this => exact absurd hbinder hok.1.ne'
            | proxy address handle => rfl
          obtain ⟨p', hread, ha⟩ := hfront.readObject_null hrange hbinder hcookie
          exact ⟨p', hread, h.advance (by simp [Value.listed, hbinder]) ha⟩
        · exact h.readObject false rfl (by simp [Value.listed, hbinder]) hrange (.inr hbinder)
      cases val with
      | null => exact ⟨s, p', readKind_strongBinder hread rfl, .same hs hreading⟩
      | object refs this =>
          have hflat : unflattenBinder s e (some (flattenBinder (.localBinder refs this))) =
              .ok (if this = 0 then none else some this, s) := rfl
          rw [if_neg hok.2.2.1.ne'] at hflat
          exact ⟨s, p', readKind_strongBinder hread hflat, .same hs hreading⟩
      | proxy address handle =>
          obtain ⟨s', hflat, hs', hlive⟩ := hok.2.unflatten (e := e) hs hok.1
          exact ⟨s', p', readKind_strongBinder hread hflat, hreading, hs', hlive⟩
  | fileDescriptor fd takeOwnership =>
      have hhandle : (fdObject fd takeOwnership).handle = fd := Nat.mod_eq_of_lt hok
      obtain ⟨p', hread, hreading⟩ := h.readObject true rfl rfl
        (ranged_fdObject hok takeOwnership) (.inl rfl)
      refine ⟨s, p', ?_, .same hs hreading⟩
      simp only [Parcel.readKind, Value.kind, readFileDescriptor, hread, hhandle, Value.back]
      rfl

theorem Reading.readAll (hs : Coherent s) (h : Reading p vs) (hok : ∀ v ∈ vs, v.Ok s) :
    ∃ s' p', Parcel.readAll s e p (vs.map Value.kind) = some (vs.map Value.back, s', p') ∧
      p'.mDataPos = p'.mDataSize := by
  induction vs generalizing s p with
  | nil =>
      have hends := h.cursor.ends
      exact ⟨s, p, rfl, by simpa [encodeAll] using hends⟩
  | cons v vs ih =>
      obtain ⟨s₁, p₁, hread, hleft⟩ := h.readKind (e := e) hs (hok v List.mem_cons_self)
      obtain ⟨s', p', hrest, hend⟩ := ih hleft.coherent hleft.reading fun w hw =>
        (hok w (List.mem_cons_of_mem v hw)).mono hleft.live
      refine ⟨s', p', ?_, hend⟩
      simp only [List.map_cons, Parcel.readAll, hread, hrest, Option.bind_eq_bind, Option.bind_some,
        Option.pure_def]

end Reading

/-- Typed values that are written to a new parcel, whatever the growth of the data, are all
accepted, and the readers of their types return them from the first byte to the last. -/
theorem values_round_trip (o : Oracle) (w : World) {s : ProxyTable.ProcessState}
    (e : ProxyTable.LookupEnv) (vs : List Value)
    (hreach : Reach ProxyTable.step ProxyTable.Allowed ProxyTable.init s)
    (hall : ∀ n, o.allocates n = true) (hok : ∀ v ∈ vs, v.Ok s)
    (hmax : (encodeAll vs).length * 3 / 2 ≤ int32Max) :
    (∀ st ∈ (writeAll o new w vs).1, st = .noError) ∧
      ∃ p s' q, setDataPosition (writeAll o new w vs).2.1 0 = some p ∧
        readAll s e p (vs.map Value.kind) = some (vs.map Value.back, s', q) ∧
          q.mDataPos = q.mDataSize := by
  have hzero : new.mDataSize = 0 := rfl
  obtain ⟨hstatus, hext⟩ := writeAll_extends (w := w) hall ready_new vs
    (by rw [hzero, Nat.zero_add]; exact hmax)
  refine ⟨hstatus, ?_⟩
  obtain ⟨p, hp⟩ : ∃ p, p = (writeAll o new w vs).2.1 := ⟨_, rfl⟩
  rw [← hp] at hext ⊢
  have hsize : p.mDataSize = (encodeAll vs).length := by rw [hext.size, hzero, Nat.zero_add]
  have hreading : Reading { p with mDataPos := 0, mNextObjectHint := 0 } vs := by
    refine ⟨⟨hext.carries, ?_, ?_⟩, [], hext.objects, rfl⟩
    · change 0 + (encodeAll vs).length = p.mDataSize
      omega
    · change p.mDataSize ≤ int32Max
      omega
  obtain ⟨s', q, hread, hend⟩ := hreading.readAll (e := e) (ProxyTable.coherent_of_reach hreach) hok
  exact ⟨_, s', q, rfl, hread, hend⟩

/-- A negative number, strings, an array, a null reference, a proxy and two descriptors. -/
def sampleValues : List Value :=
  [.int32 (-5), .string8 [104, 105], .cString [], .string16 [65, 66, 67], .strongBinder .null,
    .fileDescriptor 7 true, .byteArray (some [1, 2, 3]), .int32Array none,
    .strongBinder (.proxy 10 1), .fileDescriptor 8 false, .uint64 (2 ^ 40)]

theorem values_round_trip_sample :
    ∃ s, Reach ProxyTable.step ProxyTable.Allowed ProxyTable.init s ∧
      (∀ v ∈ sampleValues, v.Ok s) ∧
      ∃ p s' q, setDataPosition (writeAll plainOracle new World.init sampleValues).2.1 0 = some p ∧
        readAll s ⟨true, none, false⟩ p (sampleValues.map Value.kind) =
          some (sampleValues.map Value.back, s', q) ∧ q.mDataPos = q.mDataSize := by
  obtain ⟨s, hrun, hmem⟩ := Option.map_eq_some_iff.mp
    (show (runChecked ProxyTable.step ProxyTable.Allowed ProxyTable.init
        [.getStrong 1 ⟨true, some 10, false⟩]).map (fun s => s.memory 10) =
          some (some ⟨1, 1, 1, .alive⟩) by decide +kernel)
  have hreach := reach_of_runChecked hrun
  have hok : ∀ v ∈ sampleValues, v.Ok s := by
    simp only [sampleValues, List.forall_mem_cons, Value.Ok, InSigned, List.not_mem_nil,
      not_false_eq_true, and_true, true_and, false_imp_iff, implies_true]
    exact ⟨⟨by omega, by omega⟩, by omega, ⟨by omega, _, hmem, rfl, by decide⟩, by omega, by omega⟩
  exact ⟨s, hreach, hok, (values_round_trip plainOracle World.init ⟨true, none, false⟩ sampleValues
    hreach (fun _ => rfl) hok (by decide +kernel)).2⟩

end Parcel

end BinderForLinux
