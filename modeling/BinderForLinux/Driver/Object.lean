import BinderForLinux.Library.Bytes
import BinderForLinux.Driver.Types

/-!
# Objects in transaction data

`struct flat_binder_object`: 24 bytes at a 4-aligned offset of the data, with
the type at 0, the flags at 4, the binder (8 bytes) or the handle (4 bytes) at 8
and the cookie at 16. An object is read from the bytes each time and rewritten
in place.
-/

namespace BinderForLinux

namespace Driver

open Library

/-- The type of an object, with its strength. -/
inductive ObjectType
  | binder (strong : Bool)
  | handle (strong : Bool)
  | fd
deriving DecidableEq, Repr

def ObjectType.code : ObjectType → ℕ
  | .binder true => 0x73622a85
  | .binder false => 0x77622a85
  | .handle true => 0x73682a85
  | .handle false => 0x77682a85
  | .fd => 0x66642a85

def ObjectType.ofCode (c : ℕ) : Option ObjectType :=
  if c = 0x73622a85 then some (.binder true)
  else if c = 0x77622a85 then some (.binder false)
  else if c = 0x73682a85 then some (.handle true)
  else if c = 0x77682a85 then some (.handle false)
  else if c = 0x66642a85 then some .fd
  else none

@[simp] theorem ObjectType.ofCode_code (ty : ObjectType) : ofCode ty.code = some ty := by
  rcases ty with (_ | _) | (_ | _) | _ <;> decide

theorem ObjectType.code_lt (ty : ObjectType) : ty.code < 256 ^ 4 := by
  rcases ty with (_ | _) | (_ | _) | _ <;> decide

def objectSize : ℕ := 24

abbrev Data := ℕ → UInt8

namespace Data

def typeCode (data : Data) (off : ℕ) : ℕ := getLE data off 4

def type (data : Data) (off : ℕ) : Option ObjectType := ObjectType.ofCode (data.typeCode off)

def flags (data : Data) (off : ℕ) : ℕ := getLE data (off + 4) 4

def binder (data : Data) (off : ℕ) : ℕ := getLE data (off + 8) 8

def handle (data : Data) (off : ℕ) : ℕ := getLE data (off + 8) 4

def cookie (data : Data) (off : ℕ) : ℕ := getLE data (off + 16) 8

def setType (data : Data) (off : ℕ) (ty : ObjectType) : Data := putLE data off 4 ty.code

def setHandle (data : Data) (off h : ℕ) : Data := putLE data (off + 8) 4 h

def setBinder (data : Data) (off ptr cookie : ℕ) : Data :=
  putLE (putLE data (off + 8) 8 ptr) (off + 16) 8 cookie

end Data

/-- The check of an offset against the size of the data, the same in
`binder_transaction` and in `binder_transaction_buffer_release`. -/
def validOffset (dataSize off : ℕ) : Bool :=
  objectSize ≤ dataSize && off ≤ dataSize - objectSize && off % 4 = 0

end Driver

end BinderForLinux
