import BinderForLinux.VectorImpl.Runs
import Mathlib.Algebra.Order.Ring.Nat

/-!
# Vectors whose sizes are counted in bytes

The same functions again, with all sizes as they are computed, in 64 bits and without a check, and
with allocations that may fail. A buffer has as many cells as items fit into its bytes. What is
done with an address that is not one of an item is a fault, and so is the header of a buffer
outside of what was allocated for it.
-/

namespace BinderForLinux

namespace VectorImpl

namespace Sized

open Library

variable {α : Type}

def wrap (n : ℕ) : ℕ := n % 2 ^ 64

def sub (x y : ℕ) : ℕ := wrap (x + (2 ^ 64 - y))

/-- `sizeof(SharedBuffer)`. -/
def headerSize : ℕ := 24

/-- `mItemSize`, which is the size of a type. -/
structure ItemSize where
  bytes : ℕ
  pos : 0 < bytes
  lt : bytes < 2 ^ 64

/-- Whether so many bytes are allocated, for a buffer with the address. -/
structure Allocator where
  malloc : ℕ → ℕ → Bool
  realloc : ℕ → ℕ → Bool

/-- The buffers, and `mSize` of each. -/
structure Memory (α : Type) where
  heap : Heap α
  size : ℕ → ℕ

variable (t : Traits) (dflt : α) (junk : ℕ → ℕ → α) (z : ItemSize) (a : Allocator)
  (m : Memory α) (h : Heap α) (v : Vec)

def Memory.withHeap : Memory α := { m with heap := h }

def Memory.make (bytes : ℕ) : Memory α := ⟨h, Function.update m.size m.heap.next bytes⟩

/-! ### Buffers -/

/-- `SharedBuffer::alloc`; the check of the size is compiled to nothing. -/
def alloc (bytes : ℕ) : Except Fault (Option (Memory α)) :=
  let total := wrap (headerSize + bytes)
  if a.malloc m.heap.next total = false then .ok none
  else if total < headerSize then .error .outOfBounds
  else .ok (some (m.make (VectorImpl.alloc junk m.heap (bytes / z.bytes)) bytes))

/-- `SharedBuffer::editResize`, with the address of the buffer. -/
def editResize (b bytes : ℕ) : Except Fault (Option (Memory α × ℕ)) :=
  let total := wrap (headerSize + bytes)
  if (m.heap.buf b).allocated = true then
    if (m.heap.buf b).refs = 1 then
      if m.size b = bytes then .ok (some (m, b))
      -- `realloc` of nothing frees the buffer
      else if total = 0 then .error .freed
      else if a.realloc m.heap.next total = true then
        if total < headerSize then .error .outOfBounds
        else
          let new := newWithBytes junk m.heap b (bytes / z.bytes)
          .ok (some (m.make (new.setBuf b { m.heap.buf b with allocated := false }) bytes,
            m.heap.next))
      else copyBytes total
    else copyBytes total
  else .error .freed
where
  /-- The bytes go to a new buffer. -/
  copyBytes (total : ℕ) : Except Fault (Option (Memory α × ℕ)) :=
    if a.malloc m.heap.next total = false then .ok none
    else if total < headerSize then .error .outOfBounds
    else (release t (newWithBytes junk m.heap b (bytes / z.bytes)) b false).map fun r =>
      some (m.make r.1 bytes, m.heap.next)

/-! ### Items -/

/-- The item whose address is `i * mItemSize` bytes behind that of the first. -/
def place (i : ℕ) : Except Fault ℕ :=
  if z.bytes ∣ wrap (i * z.bytes) then .ok (wrap (i * z.bytes) / z.bytes)
  else .error .outOfBounds

/-- How many whole items there are, where their bytes are counted. -/
def span (bytewise : Bool) (n : ℕ) : ℕ :=
  if bytewise = true then wrap (n * z.bytes) / z.bytes else n

def doCopy (d i : ℕ) (src : Option ℕ) (j n : ℕ) : Except Fault (Heap α) := do
  let i ← place z i
  let j ← place z j
  VectorImpl.doCopy t h d i src j (span z t.trivialCopy n)

def doMoveForward (d s n : ℕ) : Except Fault (Heap α) := do
  let d ← place z d
  let s ← place z s
  edit h v fun m => VectorImpl.doMoveForward t m d s (span z (decide (MovesBytes t)) n)

def doMoveBackward (d s n : ℕ) : Except Fault (Heap α) := do
  let d ← place z d
  let s ← place z s
  edit h v fun m => VectorImpl.doMoveBackward t m d s (span z (decide (MovesBytes t)) n)

def doDestroy (i n : ℕ) : Except Fault (Heap α) := do
  let i ← place z i
  edit h v fun m => VectorImpl.doDestroy t m i n

/-! ### Vectors -/

def capacity : ℕ :=
  match v.storage with
  | none => 0
  | some b => m.size b / z.bytes

/-- `VectorImpl::itemLocation` gives no address behind the capacity. -/
def hasLocation (pos : ℕ) : Bool := decide (pos < capacity z m v)

def editArrayImpl : Except Fault (Memory α × Vec) :=
  match v.storage with
  | none => .ok (m, v)
  | some b =>
      -- `attemptEdit`
      if (m.heap.buf b).refs = 1 then .ok (m, v)
      else do
        let r ← alloc junk z a m (wrap (capacity z m v * z.bytes))
        match r with
        | none => .ok (m, v)
        | some new => do
            let h ← doCopy t z new.heap m.heap.next 0 v.storage 0 v.count
            let h ← releaseStorage t h v
            .ok (new.withHeap h, { v with storage := some m.heap.next })

def grownCapacity (newSize : ℕ) : ℕ := max minVectorCapacity (wrap (newSize * 3 + 1) / 2)

/-- `VectorImpl::_grow`, and whether there is an address for the new items. -/
def grow (pos amount : ℕ) : Except Fault (Memory α × Vec × Bool) :=
  let newSize := wrap (v.count + amount)
  if capacity z m v < newSize then
    let bytes := wrap (grownCapacity newSize * z.bytes)
    match v.storage with
    | some b =>
        if v.count = pos ∧ t.trivialCopy = true ∧ t.trivialDtor = true then do
          let r ← editResize t junk z a m b bytes
          match r with
          | some r => .ok (withPlace r.1 ⟨some r.2, newSize⟩)
          | none => .ok (m, v, false)
        else reallocate bytes newSize
    | none => reallocate bytes newSize
  else do
    let r ← editArrayImpl t junk z a m v
    let h ← (if pos ≠ v.count then
        doMoveForward t z r.1.heap r.2 (wrap (pos + amount)) pos (v.count - pos)
      else .ok r.1.heap)
    .ok (withPlace (r.1.withHeap h) { r.2 with count := newSize })
where
  /-- `free_space`. -/
  withPlace (m : Memory α) (v : Vec) : Memory α × Vec × Bool := (m, v, hasLocation z m v pos)
  /-- The items are copied to a new buffer, with a gap. -/
  reallocate (bytes newSize : ℕ) : Except Fault (Memory α × Vec × Bool) := do
    let r ← alloc junk z a m bytes
    match r with
    | none => .ok (m, v, false)
    | some new => do
        let h ← (if pos ≠ 0 then doCopy t z new.heap m.heap.next 0 v.storage 0 pos
          else .ok new.heap)
        let h ← (if pos ≠ v.count then
            doCopy t z h m.heap.next (wrap (pos + amount)) v.storage pos (v.count - pos)
          else .ok h)
        let h ← releaseStorage t h v
        .ok (withPlace (new.withHeap h) ⟨some m.heap.next, newSize⟩)

/-- `new_capacity` of `VectorImpl::_shrink`. -/
def shrunkCapacity (newSize : ℕ) : ℕ := max minVectorCapacity (wrap (newSize * 2))

def shrink (pos amount : ℕ) : Except Fault (Memory α × Vec) :=
  match v.storage with
  | none => .ok (m, v)
  | some b =>
      let newSize := sub v.count amount
      if wrap (newSize * 3) < capacity z m v then
        let bytes := wrap (shrunkCapacity newSize * z.bytes)
        if pos = newSize ∧ t.trivialCopy = true ∧ t.trivialDtor = true then do
          let r ← editResize t junk z a m b bytes
          match r with
          | some r => .ok (r.1, ⟨some r.2, newSize⟩)
          | none => .ok (m, v)
        else do
          let r ← alloc junk z a m bytes
          match r with
          | none => .ok (m, v)
          | some new => do
              let h ← (if pos ≠ 0 then doCopy t z new.heap m.heap.next 0 v.storage 0 pos
                else .ok new.heap)
              let h ← (if pos ≠ newSize then
                  doCopy t z h m.heap.next pos v.storage (wrap (pos + amount)) (sub newSize pos)
                else .ok h)
              let h ← releaseStorage t h v
              .ok (new.withHeap h, ⟨some m.heap.next, newSize⟩)
      else do
        let r ← editArrayImpl t junk z a m v
        let h ← doDestroy t z r.1.heap r.2 pos amount
        let h ← (if pos ≠ newSize then
            doMoveBackward t z h r.2 pos (wrap (pos + amount)) (sub newSize pos)
          else .ok h)
        .ok (r.1.withHeap h, { r.2 with count := newSize })

/-- `VectorImpl::insertArrayAt`, with the items of a buffer. -/
def insertArrayAt (src : Option ℕ) (index length : ℕ) :
    Except Fault (Memory α × Vec × Status) :=
  if v.count < index then .ok (m, v, .badIndex)
  else do
    let r ← grow t junk z a m v index length
    match r.2.1.storage, r.2.2 with
    | some d, true => do
        let h ← doCopy t z r.1.heap d index src 0 length
        .ok (r.1.withHeap h, r.2.1, .ok index)
    | _, _ => .ok (r.1, r.2.1, .noMemory)

/-- `VectorImpl::insertAt`; without an item new ones are constructed. -/
def insertAt (item : Option α) (index numItems : ℕ) :
    Except Fault (Memory α × Vec × Status) :=
  if v.count < index then .ok (m, v, .badIndex)
  else do
    let r ← grow t junk z a m v index numItems
    if r.2.2 = true then do
      let i ← place z index
      let h ← edit r.1.heap r.2.1 fun m =>
        match item with
        | some x => m.fillLoop t.trivialDtor x i numItems
        | none => doConstruct t dflt m i numItems
      .ok (r.1.withHeap h, r.2.1, .ok index)
    else .ok (r.1, r.2.1, .noMemory)

def removeItemsAt (index count : ℕ) : Except Fault (Memory α × Vec × Status) :=
  if v.count < wrap (index + count) then .ok (m, v, .badValue)
  else do
    let r ← shrink t junk z a m v index count
    .ok (r.1, r.2, .ok index)

def editItemLocation (index : ℕ) : Except Fault (Memory α × Vec × Option ℕ) :=
  if hasLocation z m v index = true then do
    let r ← editArrayImpl t junk z a m v
    .ok (r.1, r.2, r.2.storage.map fun _ => index)
  else .ok (m, v, none)

end Sized

end VectorImpl

end BinderForLinux
