import BinderForLinux.Library.Bytes

/-!
# `binder_io`

The readers and writers of messages in `servicemanager/binder.c`, in a 64-bit build. A
pointer into a message is its distance from the start of the data or of the offsets. What
a function reads of a message and the lengths it computes are kept in a log, with every
length as it is before it is cut to a `size_t`.
-/

namespace BinderForLinux

namespace ServiceManager

open Library

def sizeT : ℕ := 2 ^ 64

def packChars (c₁ c₂ c₃ c₄ : ℕ) : ℕ := c₁ * 2 ^ 24 + c₂ * 2 ^ 16 + c₃ * 2 ^ 8 + c₄

def binderTypeHandle : ℕ := packChars 's'.toNat 'h'.toNat '*'.toNat 0x85

def objectSize : ℕ := 24

/-- A `struct binder_transaction_data`, with what its two pointers point to. -/
structure Txn where
  target : ℕ
  code : ℕ
  senderPid : ℕ
  senderEuid : ℕ
  dataSize : ℕ
  offsetsSize : ℕ
  buffer : ℕ → UInt8
  offsets : ℕ → ℕ

/-- `struct binder_io`. The flags are `BIO_F_SHARED` and `BIO_F_OVERFLOW`. -/
structure BinderIo where
  data : ℕ
  offs : ℕ
  dataAvail : ℕ
  offsAvail : ℕ
  data0 : ℕ
  offs0 : ℕ
  shared : Bool
  overflow : Bool
  deriving DecidableEq, Repr

def roundUp4 (size : ℕ) : ℕ := (size + 3) % sizeT / 4 * 4

/-! ### Reading -/

/-- What is done with a message: bytes of the data and entries of the offsets are read, a length is
computed, the cursor is moved. -/
inductive Access
  | data (off len : ℕ)
  | offset (n : ℕ)
  | length (v : ℕ)
  | moved (io : BinderIo)
  deriving DecidableEq, Repr

/-- A message that is being read. -/
structure Msg where
  io : BinderIo
  log : List Access

def Msg.note (m : Msg) (a : Access) : Msg := { m with log := m.log ++ [a] }

def Msg.move (m : Msg) (io : BinderIo) : Msg := { io := io, log := m.log ++ [.moved io] }

def bioInitFromTxn (txn : Txn) : BinderIo where
  data := 0
  offs := 0
  dataAvail := txn.dataSize
  offsAvail := txn.offsetsSize / 8
  data0 := 0
  offs0 := 0
  shared := true
  overflow := false

def bioGet (m : Msg) (size : ℕ) : Option ℕ × Msg :=
  let m := m.note (.length (size + 3))
  let size := roundUp4 size
  if m.io.dataAvail < size then
    (none, m.move { m.io with dataAvail := 0, overflow := true })
  else
    (some m.io.data,
      m.move { m.io with data := m.io.data + size, dataAvail := m.io.dataAvail - size })

def bioGetUint32 (txn : Txn) (m : Msg) : ℕ × Msg :=
  let r := bioGet m 4
  match r.1 with
  | some ptr => (getLE txn.buffer ptr 4, r.2.note (.data ptr 4))
  | none => (0, r.2)

/-- `bio_get_string16`: the string, its length and the message after it. -/
def bioGetString16 (txn : Txn) (m : Msg) : Option ℕ × ℕ × Msg :=
  let r := bioGetUint32 txn m
  let len := r.1
  let r := bioGet (r.2.note (.length ((len + 1) * 2))) ((len + 1) * 2 % sizeT)
  (r.1, len, r.2)

/-- The loop of `_bio_get_obj` over the offsets from `n` on. -/
def findOffset (txn : Txn) (off : ℕ) : ℕ → ℕ → Msg → Bool × Msg
  | 0, _, m => (false, m)
  | k + 1, n, m =>
      let m := m.note (.offset n)
      if txn.offsets n = off then (true, m) else findOffset txn off k (n + 1) m

def bioGetObj (txn : Txn) (m : Msg) : Option ℕ × Msg :=
  let r := findOffset txn (m.io.data - m.io.data0) m.io.offsAvail 0 m
  if r.1 then bioGet r.2 objectSize
  else (none, r.2.move { r.2.io with dataAvail := 0, overflow := true })

def bioGetRef (txn : Txn) (m : Msg) : ℕ × Msg :=
  let r := bioGetObj txn m
  match r.1 with
  | none => (0, r.2)
  | some obj =>
      let m := r.2.note (.data obj 4)
      if getLE txn.buffer obj 4 = binderTypeHandle then
        (getLE txn.buffer (obj + 8) 4, m.note (.data (obj + 8) 4))
      else (0, m)

/-! ### Writing -/

/-- A message that is being built in a block of the caller: the offsets come first. -/
structure Reply where
  io : BinderIo
  block : ℕ → UInt8
  /-- The bytes that were stored, as where each store starts and how long it is. -/
  stores : List (ℕ × ℕ)

def bioInit (io : BinderIo) (maxdata maxoffs : ℕ) : BinderIo :=
  let n := maxoffs * 8 % sizeT
  if n > maxdata then
    { io with shared := false, overflow := true, dataAvail := 0, offsAvail := 0 }
  else
    { data := n
      offs := 0
      dataAvail := maxdata - n
      offsAvail := maxoffs
      data0 := n
      offs0 := 0
      shared := false
      overflow := false }

def Reply.store (r : Reply) (off n v : ℕ) : Reply :=
  { r with block := putLE r.block off n v, stores := r.stores ++ [(off, n)] }

def Reply.overflows (r : Reply) : Reply := { r with io := { r.io with overflow := true } }

def bioAlloc (r : Reply) (size : ℕ) : Option ℕ × Reply :=
  let size := roundUp4 size
  if size > r.io.dataAvail then (none, r.overflows)
  else
    (some r.io.data,
      { r with io := { r.io with data := r.io.data + size, dataAvail := r.io.dataAvail - size } })

def bioPutUint32 (r : Reply) (n : ℕ) : Reply :=
  let a := bioAlloc r 4
  match a.1 with
  | some ptr => a.2.store ptr 4 n
  | none => a.2

def bioAllocObj (r : Reply) : Option ℕ × Reply :=
  let a := bioAlloc r objectSize
  match a.1 with
  | none => (none, a.2.overflows)
  | some obj =>
      if a.2.io.offsAvail = 0 then (none, a.2.overflows)
      else
        let r := a.2.store a.2.io.offs 8 (obj - a.2.io.data0)
        (some obj,
          { r with io := { r.io with offs := r.io.offs + 8, offsAvail := r.io.offsAvail - 1 } })

/-- The fields that `bio_put_ref` sets; the upper half of the union is left as it was. -/
def putRefAt (r : Reply) (obj handle : ℕ) : Reply :=
  (((r.store (obj + 4) 4 (0x7f + 0x100)).store obj 4 binderTypeHandle).store (obj + 8) 4
    handle).store (obj + 16) 8 0

def bioPutRef (r : Reply) (handle : ℕ) : Reply :=
  let a := if handle ≠ 0 then bioAllocObj r else bioAlloc r objectSize
  match a.1 with
  | none => a.2
  | some obj => putRefAt a.2 obj handle

def maxBioSize : ℕ := 2 ^ 30

/-- `memcpy` of units, each with its low byte first. -/
def copyUnits (r : Reply) : ℕ → List UInt16 → Reply
  | _, [] => r
  | off, u :: us => copyUnits (r.store off 2 u.toNat) (off + 2) us

/-- `bio_put_string16` of a string that ends before its first zero unit. -/
def bioPutString16 (r : Reply) (str : List UInt16) : Reply :=
  let units := str.takeWhile (· ≠ 0)
  if units.length ≥ maxBioSize / 2 then bioPutUint32 r 0xffffffff
  else
    let a := bioAlloc (bioPutUint32 r units.length) ((units.length + 1) * 2)
    match a.1 with
    | some ptr => copyUnits a.2 ptr (units ++ [0])
    | none => a.2

/-- `bio_put_string16_x` of bytes that end before the first zero byte. -/
def bioPutString16X (r : Reply) (str : List UInt8) : Reply :=
  let chars := str.takeWhile (· ≠ 0)
  if chars.length ≥ maxBioSize / 2 then bioPutUint32 r 0xffffffff
  else
    let a := bioAlloc (bioPutUint32 r chars.length) ((chars.length + 1) * 2)
    match a.1 with
    | some ptr => copyUnits a.2 ptr ((chars ++ [0]).map UInt8.toUInt16)
    | none => a.2

end ServiceManager

end BinderForLinux
