import BinderForLinux.Parcel.Write
import BinderForLinux.Proxy.Table

/-!
# Reading parcels

The readers of `Parcel`. Each records the bytes of the data that it looks at. A reader that may
reach `abort` returns an option.
-/

namespace BinderForLinux

namespace Parcel

open Library

/-- `pad_size`, which aborts above `UINT_MAX - 3`. -/
def padSize (s : ℕ) : Option ℕ := if s > 2 ^ 32 - 1 - 3 then none else some (padUnsafe s)

/-- The number with this two's complement of so many bits. -/
def toSigned (bits v : ℕ) : ℤ := if v < 2 ^ (bits - 1) then v else v - 2 ^ bits

/-- The bound that `read` and `readInplace` check. -/
def canRead (p : Parcel) (len : ℕ) : Bool :=
  let stop := (p.mDataPos + padUnsafe len) % sizeT
  p.mDataPos ≤ stop && stop ≤ p.mDataSize

/-- `mData + mDataPos`, a null pointer where there are no data and no block. -/
def placeAt (p : Parcel) : Option ℕ :=
  if p.mDataSize = 0 ∧ p.mData = none ∧ p.mOwner = false then none else some p.mDataPos

/-- `Parcel::readInplace`: where the `len` bytes are. -/
def readInplace (p : Parcel) (len : ℕ) : Option ℕ × Parcel :=
  if len > int32Max then (none, p)
  else if canRead p len then
    (placeAt p, { p with mDataPos := (p.mDataPos + padUnsafe len) % sizeT })
  else (none, p)

def read (p : Parcel) (len : ℕ) : Except Status (List UInt8) × Parcel :=
  if len > int32Max then (.error .badValue, p)
  else if canRead p len then
    (.ok (getBytes p.bytes p.mDataPos len),
      { p.record [.load p.mDataPos len] with
        mDataPos := (p.mDataPos + padUnsafe len) % sizeT })
  else (.error .notEnoughData, p)

def readAligned (p : Parcel) (n : ℕ) : Except Status ℕ × Parcel :=
  if (p.mDataPos + n) % sizeT ≤ p.mDataSize then
    (.ok (getLE p.bytes p.mDataPos n),
      { p.record [.load p.mDataPos n] with mDataPos := (p.mDataPos + n) % sizeT })
  else (.error .notEnoughData, p)

def orZero (r : Except Status ℕ × Parcel) : ℕ × Parcel := (r.1.toOption.getD 0, r.2)

def readInt32 (p : Parcel) : ℤ × Parcel :=
  let (v, p) := orZero (readAligned p 4)
  (toSigned 32 v, p)

def readUint32 (p : Parcel) : ℕ × Parcel := orZero (readAligned p 4)

def readInt64 (p : Parcel) : ℤ × Parcel :=
  let (v, p) := orZero (readAligned p 8)
  (toSigned 64 v, p)

def readUint64 (p : Parcel) : ℕ × Parcel := orZero (readAligned p 8)

def readPointer (p : Parcel) : ℕ × Parcel := orZero (readAligned p 8)

/-! ### Strings -/

/-- `memchr` for a zero: how far it is among the `n` bytes at `off`. -/
def findZero (m : Data) (off : ℕ) : ℕ → Option ℕ
  | 0 => none
  | n + 1 => if m off = 0 then some 0 else (findZero m (off + 1) n).map (· + 1)

/-- `Parcel::readCString`: the bytes before the zero. -/
def readCString (p : Parcel) : Option (Option (List UInt8) × Parcel) :=
  let avail := (p.mDataSize + (sizeT - p.mDataPos)) % sizeT
  if avail > 0 then
    match findZero p.bytes p.mDataPos avail with
    | none => some (none, p.record [.load p.mDataPos avail])
    | some len =>
        match padSize (len + 1) with
        | none => none
        | some padded =>
            some (some (getBytes p.bytes p.mDataPos len),
              { p.record [.load p.mDataPos (len + 1)] with
                mDataPos := (p.mDataPos + padded) % sizeT })
  else some (none, p)

def readString8 (p : Parcel) : List UInt8 × Parcel :=
  let (size, p) := readInt32 p
  if 0 < size ∧ size.toNat < int32Max then
    match readInplace p (size.toNat + 1) with
    | (some d, p) => (getBytes p.bytes d size.toNat, p.record [.load d size.toNat])
    | (none, p) => ([], p)
  else ([], p)

def charsAt (m : Data) (off n : ℕ) : List UInt16 :=
  (List.range n).map fun i => UInt16.ofNat (getLE m (off + 2 * i) 2)

/-- `Parcel::readString16Inplace`: where the string is, and its length. -/
def readString16Inplace (p : Parcel) : Option (ℕ × ℕ) × Parcel :=
  let (size, p) := readInt32 p
  if 0 ≤ size ∧ size.toNat < int32Max then
    match readInplace p ((size.toNat + 1) * 2) with
    | (some d, p) => (some (d, size.toNat), p)
    | (none, p) => (none, p)
  else (none, p)

def readString16 (p : Parcel) : List UInt16 × Parcel :=
  match readString16Inplace p with
  | (some (d, len), p) => (charsAt p.bytes d len, p.record [.load d (2 * len)])
  | (none, p) => ([], p)

/-! ### Objects -/

/-- The search from the hint on, for at most `n` more entries. -/
def searchForward (objs : List ℕ) (dpos : ℕ) : ℕ → ℕ → ℕ
  | 0, opos => opos
  | n + 1, opos =>
      if objs.getD opos 0 < dpos then searchForward objs dpos n (opos + 1) else opos

def searchBackward (objs : List ℕ) (dpos : ℕ) : ℕ → ℕ
  | 0 => 0
  | opos + 1 =>
      if objs.getD (opos + 1) 0 > dpos then searchBackward objs dpos opos else opos + 1

/-- The index of the object at `dpos`, as `readObject` finds it. -/
def findObject (objs : List ℕ) (hint dpos : ℕ) : Option ℕ :=
  if objs.length > 0 then
    let opos :=
      if hint < objs.length then searchForward objs dpos (objs.length - 1 - hint) hint
      else objs.length - 1
    if objs.getD opos 0 = dpos then some opos
    else
      let opos := searchBackward objs dpos opos
      if objs.getD opos 0 = dpos then some opos else none
  else none

/-- `Parcel::readObject`, with the bytes that its callers look at. -/
def readObject (p : Parcel) (nullMetaData : Bool) : Option FlatObject × Parcel :=
  let dpos := p.mDataPos
  if (dpos + objectSize) % sizeT ≤ p.mDataSize then
    let obj := objectAt p.bytes dpos
    let p :=
      { p.record [.load dpos objectSize] with mDataPos := (dpos + objectSize) % sizeT }
    if ¬ nullMetaData ∧ obj.cookie = 0 ∧ obj.binder = 0 then (some obj, p)
    else
      match findObject p.objects p.mNextObjectHint dpos with
      | some opos => (some obj, { p with mNextObjectHint := opos + 1 })
      | none => (none, p)
  else (none, p)

/-- The pointer `unflatten_binder` gets from a flat object: the cookie, or the proxy of the
handle in the process. -/
def unflattenBinder (s : ProxyTable.ProcessState) (e : ProxyTable.LookupEnv)
    (flat : Option FlatObject) :
    Except ProxyTable.Fault (Option ℕ × ProxyTable.ProcessState) :=
  match flat with
  | none => .ok (none, s)
  | some f =>
      if f.type = binderTypeBinder then
        .ok (if f.cookie = 0 then none else some f.cookie, s)
      else if f.type = binderTypeHandle then s.getStrongProxyForHandle f.handle e
      else .ok (none, s)

def readStrongBinder (s : ProxyTable.ProcessState) (e : ProxyTable.LookupEnv) (p : Parcel) :
    Except ProxyTable.Fault (Option ℕ × ProxyTable.ProcessState) × Parcel :=
  let (flat, p) := readObject p false
  (unflattenBinder s e flat, p)

/-- `Parcel::readFileDescriptor`; no descriptor is `BAD_TYPE`. -/
def readFileDescriptor (p : Parcel) : Option ℕ × Parcel :=
  match readObject p true with
  | (some flat, p) => (if flat.type = binderTypeFd then some flat.handle else none, p)
  | (none, p) => (none, p)

/-! ### Exceptions -/

def exHasReplyHeader : ℤ := -128

/-- The position as an `int32_t`, and the `int32_t` sum as a `size_t`. -/
def headerEnd (p : Parcel) (headerSize : ℤ) : ℕ :=
  intToSizeT (Int.toNat ((toSigned 32 (p.mDataPos % 2 ^ 32) + headerSize) % 2 ^ 32))

def readExceptionCode (p : Parcel) : Option (ℤ × Parcel) :=
  let (code, p) := readInt32 p
  if code = exHasReplyHeader then
    let (headerSize, p') := readInt32 p
    (setDataPosition p' (headerEnd p headerSize)).map fun p => (0, p)
  else some (code, p)

end Parcel

end BinderForLinux
