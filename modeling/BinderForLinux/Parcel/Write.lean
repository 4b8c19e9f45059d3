import BinderForLinux.Parcel.Types

/-!
# Writing parcels

The operations of `Parcel` that change its data. A writer that finds too little room grows the
data and then goes back to the store without a second look at the bound.
-/

namespace BinderForLinux

namespace Parcel

open Library

/-- `PAD_SIZE_UNSAFE`; `pad_size` checks for an overflow, which a length up to `INT32_MAX`
passes. -/
def padUnsafe (s : ℕ) : ℕ := (s + 3) / 4 * 4

/-- `Parcel::finishWrite`, for a length up to `INT32_MAX`. -/
def finishWrite (p : Parcel) (len : ℕ) : Parcel :=
  { p with mDataPos := p.mDataPos + len, mDataSize := max p.mDataSize (p.mDataPos + len) }

section Writers

variable (o : Oracle)

/-- The bound that the writers check, with the wrap of `size_t`. -/
def fits (p : Parcel) (len : ℕ) : Bool := (p.mDataPos + len) % sizeT ≤ p.mDataCapacity

/-- Grow by `len` if they do not fit, then store. -/
def storeGrowing (p : Parcel) (w : World) (len : ℕ) (put : Parcel → Status × Parcel) :
    Status × Parcel × World :=
  if fits p len then ((put p).1, (put p).2, w)
  else
    match growData o p w len with
    | (.noError, p, w) => ((put p).1, (put p).2, w)
    | r => r

def writeUnpadded (p : Parcel) (w : World) (data : List UInt8) : Status × Parcel × World :=
  if data.length > int32Max then (.badValue, p, w)
  else if (p.mDataPos + data.length) % sizeT < p.mDataPos then (.badValue, p, w)
  else
    storeGrowing o p w data.length fun p =>
      (.noError, finishWrite (p.store p.mDataPos data) data.length)

/-- `Parcel::writeAligned` of a value with these bytes. -/
def writeAligned (p : Parcel) (w : World) (val : List UInt8) : Status × Parcel × World :=
  storeGrowing o p w val.length fun p =>
    (.noError, finishWrite (p.store p.mDataPos val) val.length)

/-- The last word of a padded string is masked, so that the padding is zero. -/
def maskPadding (p : Parcel) (len : ℕ) : Parcel :=
  let padded := padUnsafe len
  if padded = len then p
  else
    let off := p.mDataPos + padded - 4
    p.store off (getBytes p.bytes off (len + 4 - padded) ++ List.replicate (padded - len) 0)

/-- `Parcel::writeInplace`: where the caller may put its `len` bytes. -/
def writeInplace (p : Parcel) (w : World) (len : ℕ) : Option ℕ × Parcel × World :=
  if len > int32Max then (none, p, w)
  else
    let padded := padUnsafe len
    if (p.mDataPos + padded) % sizeT < p.mDataPos then (none, p, w)
    else if fits p padded then (some p.mDataPos, finishWrite (maskPadding p len) padded, w)
    else
      match growData o p w padded with
      | (.noError, p, w) => (some p.mDataPos, finishWrite (maskPadding p len) padded, w)
      | (_, p, w) => (none, p, w)

/-- `Parcel::write`. The place for no bytes is a null pointer while there is no block. -/
def write (p : Parcel) (w : World) (data : List UInt8) : Status × Parcel × World :=
  if data.length > int32Max then (.badValue, p, w)
  else
    match writeInplace o p w data.length with
    | (some d, p, w) =>
        if p.mData = none ∧ p.mOwner = false then (p.mError, p, w)
        else (.noError, p.store d data, w)
    | (none, p, w) => (p.mError, p, w)

/-- `writeObject` from `restart_write` on. -/
def putObject (p : Parcel) (val : FlatObject) (nullMetaData : Bool) : Status × Parcel :=
  let p := p.store p.mDataPos val.bytes
  if val.type = binderTypeFd ∧ ¬ p.mAllowFds then (.fdsNotAllowed, p)
  else
    let p := if val.type = binderTypeFd then { p with mHasFds := true, mFdsKnown := true } else p
    let p :=
      if nullMetaData ∨ val.binder ≠ 0 then
        let p := p.record [.tableStore p.objects.length p.room]
        { acquireObject o p val with objects := p.objects ++ [p.mDataPos] }
      else p
    (.noError, finishWrite p objectSize)

def growObjects (p : Parcel) (w : World) (newSize : ℕ) : Status × Parcel × World :=
  match w.alloc o with
  | (none, w) => (.noMemory, p.give, w)
  | (some _, w) =>
      (.noError, { p.give with mObjects := .own, mObjectsCapacity := newSize, room := newSize }, w)

def writeObject (p : Parcel) (w : World) (val : FlatObject) (nullMetaData : Bool) :
    Status × Parcel × World :=
  let enoughObjects := decide (p.objects.length < p.mObjectsCapacity)
  let grown := if fits p objectSize then (.noError, p, w) else growData o p w objectSize
  match grown with
  | (.noError, p, w) =>
      let grown :=
        if enoughObjects then (.noError, p, w)
        else growObjects o p w ((p.objects.length + 2) * 3 / 2)
      match grown with
      | (.noError, p, w) => ((putObject o p val nullMetaData).1,
          (putObject o p val nullMetaData).2, w)
      | r => r
  | r => r

def writeFileDescriptor (p : Parcel) (w : World) (fd : ℕ) (takeOwnership : Bool) :
    Status × Parcel × World :=
  writeObject o p w
    { type := binderTypeFd, flags := 0x17f, binder := fd, cookie := if takeOwnership then 1 else 0 }
    true

def writeDupFileDescriptor (p : Parcel) (w : World) (fd : ℕ) : Status × Parcel × World :=
  let dupFd := o.dup w.dups
  let w := { w with dups := w.dups + 1 }
  if dupFd ≥ 2 ^ 31 then (.errno, p, w)
  else
    match writeFileDescriptor o (p.record [.dup fd dupFd]) w dupFd true with
    | (.noError, p, w) => (.noError, p, w)
    | (err, p, w) => (err, p.record [.close dupFd], w)

/-! ### Typed writers -/

def intBytes (n : ℕ) (x : ℤ) : List UInt8 := bytesLE n (x % 256 ^ n).toNat

def andThen (r : Status × Parcel × World) (f : Parcel → World → Status × Parcel × World) :
    Status × Parcel × World :=
  match r with
  | (.noError, p, w) => f p w
  | r => r

def writeInt32 (p : Parcel) (w : World) (val : ℤ) : Status × Parcel × World :=
  writeAligned o p w (intBytes 4 val)

def writeUint32 (p : Parcel) (w : World) (val : ℕ) : Status × Parcel × World :=
  writeAligned o p w (bytesLE 4 val)

def writeInt64 (p : Parcel) (w : World) (val : ℤ) : Status × Parcel × World :=
  writeAligned o p w (intBytes 8 val)

def writeUint64 (p : Parcel) (w : World) (val : ℕ) : Status × Parcel × World :=
  writeAligned o p w (bytesLE 8 val)

def writePointer (p : Parcel) (w : World) (val : ℕ) : Status × Parcel × World :=
  writeAligned o p w (bytesLE 8 val)

/-- What `writeByteArray` and `writeInt32Array` share: `len` elements, whose bytes are `val`.
No bytes are a null pointer. -/
def writeArray (p : Parcel) (w : World) (len : ℕ) (val : Option (List UInt8)) :
    Status × Parcel × World :=
  if len > int32Max then (.badValue, p, w)
  else
    match val with
    | none => writeInt32 o p w (-1)
    | some bs => andThen (writeInt32 o p w len) fun p w => write o p w bs

def writeByteArray (p : Parcel) (w : World) (val : Option (List UInt8)) :
    Status × Parcel × World :=
  writeArray o p w (val.elim 0 List.length) val

def writeInt32Array (p : Parcel) (w : World) (val : Option (List ℤ)) :
    Status × Parcel × World :=
  writeArray o p w (val.elim 0 List.length) (val.map (List.flatMap (intBytes 4)))

/-- `Parcel::writeCString` of the bytes before the zero. -/
def writeCString (p : Parcel) (w : World) (str : List UInt8) : Status × Parcel × World :=
  write o p w (str ++ [0])

/-- `Parcel::writeString8`, which writes no terminator for an empty string. -/
def writeString8 (p : Parcel) (w : World) (str : List UInt8) : Status × Parcel × World :=
  andThen (writeInt32 o p w str.length) fun p w =>
    if 0 < str.length then write o p w (str ++ [0]) else (.noError, p, w)

def charsBytes (str : List UInt16) : List UInt8 := str.flatMap fun c => bytesLE 2 c.toNat

/-- `Parcel::writeString16` once the length is written. -/
def writeChars (p : Parcel) (w : World) (str : List UInt16) : Status × Parcel × World :=
  match writeInplace o p w (2 * str.length + 2) with
  | (some d, p, w) =>
      (.noError, (p.store d (charsBytes str)).store (d + 2 * str.length) (bytesLE 2 0), w)
  | (none, p, w) => (p.mError, p, w)

def writeString16 (p : Parcel) (w : World) (str : List UInt16) : Status × Parcel × World :=
  andThen (writeInt32 o p w str.length) fun p w => writeChars o p w str

/-- An `IBinder`: a null pointer, an object of this process with the address of its weak
references and its own, or the handle of a proxy. -/
inductive IBinder
  | null
  | localBinder (refs this : ℕ)
  | remoteBinder (handle : ℕ)
  deriving DecidableEq, Repr

/-- The object `flatten_binder` writes for a strong reference. -/
def flattenBinder : IBinder → FlatObject
  | .null => { type := binderTypeBinder, flags := 0x17f, binder := 0, cookie := 0 }
  | .localBinder refs this =>
      { type := binderTypeBinder, flags := 0x17f, binder := refs, cookie := this }
  | .remoteBinder handle =>
      { type := binderTypeHandle, flags := 0x17f, binder := handle, cookie := 0 }

def writeStrongBinder (p : Parcel) (w : World) (val : IBinder) : Status × Parcel × World :=
  writeObject o p w (flattenBinder val) false

/-! ### Size, capacity, position -/

def setDataSize (p : Parcel) (w : World) (size : ℕ) : Status × Parcel × World :=
  if size > int32Max then (.badValue, p, w)
  else
    match continueWrite o p w size with
    | (.noError, p, w) => (.noError, { p with mDataSize := size }, w)
    | r => r

/-- `Parcel::setDataPosition`, which aborts for a position above `INT32_MAX`. -/
def setDataPosition (p : Parcel) (pos : ℕ) : Option Parcel :=
  if pos > int32Max then none else some { p with mDataPos := pos, mNextObjectHint := 0 }

def setDataCapacity (p : Parcel) (w : World) (size : ℕ) : Status × Parcel × World :=
  if size > int32Max then (.badValue, p, w)
  else if size > p.mDataCapacity then continueWrite o p w size
  else (.noError, p, w)

def setData (p : Parcel) (w : World) (buffer : List UInt8) : Status × Parcel × World :=
  if buffer.length > int32Max then (.badValue, p, w)
  else
    match restartWrite o p w buffer.length with
    | (.noError, p, w) =>
        (.noError, { p.store 0 buffer with mDataSize := buffer.length, mFdsKnown := false }, w)
    | r => r

/-! ### Appending -/

/-- Whether an object of the source lies in the range that is appended. -/
def inRange (offset len off : ℕ) : Bool :=
  offset ≤ off && (off + objectSize) % sizeT ≤ (offset + len) % sizeT

def rangeObjects (objects : List ℕ) (offset len : ℕ) : List ℕ :=
  (objects.dropWhile fun off => !inRange offset len off).rdropWhile
    fun off => !inRange offset len off

def intToSizeT (x : ℕ) : ℕ :=
  if x % 2 ^ 32 < 2 ^ 31 then x % 2 ^ 32 else x % 2 ^ 32 + (sizeT - 2 ^ 32)

/-- One turn of the loop of `appendFrom` that takes the objects over. -/
def appendObject (r : Status × Parcel × World) (off : ℕ) : Status × Parcel × World :=
  let (err, p, w) := r
  let p := p.record [.tableStore p.objects.length p.room]
  let p := { p with objects := p.objects ++ [off] }
  let f := objectAt p.bytes off
  let p := acquireObject o p f
  if f.type = binderTypeFd then
    let fd := o.dup w.dups
    let p := p.record [.dup f.handle fd]
    let p := (p.store (off + 8) (bytesLE 4 fd)).store (off + 16) (bytesLE 8 1)
    (if p.mAllowFds then err else .fdsNotAllowed, { p with mHasFds := true, mFdsKnown := true },
      { w with dups := w.dups + 1 })
  else (err, p, w)

/-- `Parcel::appendFrom` from another parcel. -/
def appendFrom (p : Parcel) (w : World) (parcel : Parcel) (offset len : ℕ) :
    Status × Parcel × World :=
  let startPos := intToSizeT p.mDataPos
  if len = 0 then (.noError, p, w)
  else if len > int32Max then (.badValue, p, w)
  else if offset > parcel.mDataSize ∨ len > parcel.mDataSize ∨ offset + len > parcel.mDataSize then
    (.badValue, p, w)
  else
    let objects := rangeObjects parcel.objects offset len
    let grown :=
      if p.mDataSize + len > p.mDataCapacity then growData o p w len else (.noError, p, w)
    match grown with
    | (.noError, p, w) =>
        let p := p.store p.mDataPos (getBytes parcel.bytes offset len)
        let p := { p with mDataPos := p.mDataPos + len, mDataSize := p.mDataSize + len }
        if objects = [] then (.noError, p, w)
        else
          let grown :=
            if p.mObjectsCapacity < p.objects.length + objects.length then
              growObjects o p w ((p.objects.length + objects.length) * 3 / 2)
            else (.noError, p, w)
          match grown with
          | (.noError, p, w) =>
              (objects.map fun off => (off + sizeT - offset + startPos) % sizeT).foldl
                (appendObject o) (.noError, p, w)
          | r => r
    | r => r

/-! ### Data of the driver -/

/-- The check of the offsets in `ipcSetDataReference`. -/
def offsetsOk : ℕ → List ℕ → Bool
  | _, [] => true
  | minOffset, off :: l => minOffset ≤ off && offsetsOk ((off + objectSize) % sizeT) l

def scanForFds (p : Parcel) : Parcel :=
  { p with
    mHasFds := p.objects.any fun off => (objectAt p.bytes off).type = binderTypeFd
    mFdsKnown := true }

/-- `Parcel::ipcSetDataReference`, with `IPCThreadState::freeBuffer` to release the data. -/
def ipcSetDataReference (p : Parcel) (w : World) (data : Data) (dataSize : ℕ)
    (objects : List ℕ) : Parcel × World :=
  let (p, w) := freeDataNoInit o p w
  (scanForFds
    { p with
      mError := .noError
      mData := none
      bytes := data
      mDataSize := dataSize
      mDataCapacity := dataSize
      mDataPos := 0
      objects := if offsetsOk 0 objects then objects else []
      mObjects := .driver
      mObjectsCapacity := objects.length
      room := 0
      mNextObjectHint := 0
      mOwner := true },
    w)

end Writers

end Parcel

end BinderForLinux
