import BinderForLinux.Parcel.RoundTrip

/-!
# Native handles and flattenables

The readers and writers that are composed of others: `writeNativeHandle`, `readNativeHandle`
and `read(FlattenableHelperInterface)`. An array of `int` that is not initialised holds what
the oracle puts into fresh memory. A call of `dup` is recorded where it succeeds.
-/

namespace BinderForLinux

namespace Parcel

open Library

/-! ### `int` -/

theorem inSigned_toSigned (v : ℕ) : InSigned 32 (toSigned 32 (v % 2 ^ 32)) := by
  have hlt : v % 2 ^ 32 < 2 ^ 32 := Nat.mod_lt _ (by norm_num)
  unfold InSigned toSigned
  split
  · constructor <;> omega
  · constructor <;> push_cast <;> omega

/-- An `int`. -/
@[ext]
structure CInt where
  val : ℤ
  inRange : InSigned 32 val

namespace CInt

def wrap (x : ℤ) : CInt := ⟨toSigned 32 ((x % 2 ^ 32).toNat % 2 ^ 32), inSigned_toSigned _⟩

def bits (x : CInt) : ℕ := (x.val % 2 ^ 32).toNat

end CInt

def intsAt (m : Data) (off n : ℕ) : List CInt :=
  (List.range n).map fun i => .wrap (getLE m (off + 4 * i) 4)

/-! ### Native handles -/

/-- `native_handle_t`. The array `data` is split where the descriptors end, so `numFds` and
`numInts` are the lengths of its parts. -/
structure NativeHandle where
  version : ℤ
  fds : List CInt
  ints : List CInt

def NativeHandle.numFds (h : NativeHandle) : ℕ := h.fds.length

def NativeHandle.numInts (h : NativeHandle) : ℕ := h.ints.length

def nativeHandleSize : ℕ := 12

def kMaxNativeFds : ℤ := 1024
def kMaxNativeInts : ℤ := 1024

section

variable (o : Oracle)

/-- `native_handle_create`; nothing is initialised after the counts. -/
def nativeHandleCreate (w : World) (numFds numInts : ℤ) : Option NativeHandle × World :=
  if numFds < 0 ∨ numInts < 0 ∨ numFds > kMaxNativeFds ∨ numInts > kMaxNativeInts then (none, w)
  else
    match w.alloc o with
    | (none, w) => (none, w)
    | (some b, w) =>
        (some
          { version := nativeHandleSize
            fds := intsAt (o.fresh b) nativeHandleSize numFds.toNat
            ints := intsAt (o.fresh b) (nativeHandleSize + 4 * numFds.toNat) numInts.toNat },
          w)

def nativeHandleClose (h : NativeHandle) : List Effect := h.fds.map fun fd => .close fd.bits

def writeDups (p : Parcel) (w : World) : List CInt → Status × Parcel × World
  | [] => (.noError, p, w)
  | fd :: fds =>
      andThen (writeDupFileDescriptor o p w fd.bits) fun p w => writeDups p w fds

def writeNativeHandle (p : Parcel) (w : World) (handle : Option NativeHandle) :
    Status × Parcel × World :=
  match handle with
  | none => (.badType, p, w)
  | some h =>
      if h.version ≠ nativeHandleSize then (.badType, p, w)
      else
        andThen (writeInt32 o p w h.numFds) fun p w =>
          andThen (writeInt32 o p w h.numInts) fun p w =>
            andThen (writeDups o p w h.fds) fun p w =>
              write o p w (h.ints.flatMap fun x => intBytes 4 x.val)

/-! ### Duplicating what is read -/

/-- What a call of `dup` takes and returns, if it succeeds; `BAD_TYPE` is no descriptor. -/
def dupOf (dups : ℕ) (fd : Option ℕ) : Option (ℕ × ℕ) :=
  match fd with
  | none => none
  | some fd => if fd < 2 ^ 31 ∧ o.dup dups < 2 ^ 31 then some (fd, o.dup dups) else none

/-- `h->data[i] = dup(readFileDescriptor())` for the entries of an array, up to the first that
fails. -/
def dupEach (p : Parcel) (w : World) : List CInt → Status × List CInt × Parcel × World
  | [] => (.noError, [], p, w)
  | _ :: fds =>
      let r := readFileDescriptor p
      let w' := { w with dups := w.dups + 1 }
      match dupOf o w.dups r.1 with
      | none => (.badValue, .wrap (-1) :: fds, r.2, w')
      | some (fd, new) =>
          let rest := dupEach (r.2.record [.dup fd new]) w' fds
          (rest.1, .wrap new :: rest.2.1, rest.2.2)

/-- The two counts that `readNativeHandle` reads first. -/
def readCounts (p : Parcel) : Option (ℤ × ℤ) × Parcel :=
  match readAligned p 4 with
  | (.error _, p) => (none, p)
  | (.ok numFds, p) =>
      match readAligned p 4 with
      | (.error _, p) => (none, p)
      | (.ok numInts, p) => (some (toSigned 32 numFds, toSigned 32 numInts), p)

/-- `readNativeHandle` once the handle is created. -/
def fillNativeHandle (p : Parcel) (w : World) (h : NativeHandle) :
    Option NativeHandle × Parcel × World :=
  -- The status of the loop is overwritten by that of `read`.
  let r := dupEach o p w h.fds
  let h := { h with fds := r.2.1 }
  match read r.2.2.1 (4 * h.numInts) with
  | (.ok bs, p) => (some { h with ints := (intsOf bs).map .wrap }, p, r.2.2.2)
  | (.error _, p) => (none, p.record (nativeHandleClose h), r.2.2.2)

def readNativeHandle (p : Parcel) (w : World) : Option NativeHandle × Parcel × World :=
  match readCounts p with
  | (none, p) => (none, p, w)
  | (some counts, p) =>
      match nativeHandleCreate o w counts.1 counts.2 with
      | (none, w) => (none, p, w)
      | (some h, w) => fillNativeHandle o p w h

/-! ### Flattenables -/

/-- A negative `int32_t` is a large `size_t`. -/
def sizeOfInt (x : ℤ) : ℕ := (x % 2 ^ 64).toNat

/-- The length, the number of descriptors and the payload of a flattenable, if they are there. -/
def readPayload (p : Parcel) : Option (List UInt8 × ℕ) × Parcel :=
  let r := readInt32 p
  let len := sizeOfInt r.1
  let r := readInt32 r.2
  if len > int32Max then (none, r.2)
  else
    -- `pad_size` does not abort for such a length.
    match readInplace r.2 (padUnsafe len) with
    | (none, p) => (none, p)
    | (some buf, p) => (some (getBytes p.bytes buf len, sizeOfInt r.1), p)

/-- `new int[n]`, which throws where the array is too large or there is no memory. -/
def newInts (w : World) (n : ℕ) : Option (List CInt) × World :=
  if n = 0 then (some [], w)
  else if 4 * n ≥ 2 ^ 63 then (none, w)
  else
    match w.alloc o with
    | (none, w) => (none, w)
    | (some b, w) => (some (intsAt (o.fresh b) 0 n), w)

/-- The callback of a flattenable: what it returns for a payload and descriptors, and which
descriptors it closes. -/
abbrev Unflatten := List UInt8 → List CInt → Status × List ℕ

/-- `Parcel::read(FlattenableHelperInterface)` once there is an array for the descriptors. -/
def unflattenFds (unflatten : Unflatten) (p : Parcel) (w : World) (buf : List UInt8)
    (fds : List CInt) : Status × Parcel × World :=
  match dupEach o p w fds with
  | (.noError, fds, p, w) =>
      let u := unflatten buf fds
      (u.1, p.record (u.2.map .close), w)
  | (err, _, p, w) => (err, p, w)

/-- `Parcel::read(FlattenableHelperInterface)`; there is no status where it throws. -/
def readFlattenable (unflatten : Unflatten) (p : Parcel) (w : World) :
    Option Status × Parcel × World :=
  match readPayload p with
  | (none, p) => (some .badValue, p, w)
  | (some (buf, fdCount), p) =>
      match newInts o w fdCount with
      | (none, w) => (none, p, w)
      | (some fds, w) =>
          let r := unflattenFds o unflatten p w buf fds
          (some r.1, r.2)

end

end Parcel

end BinderForLinux
