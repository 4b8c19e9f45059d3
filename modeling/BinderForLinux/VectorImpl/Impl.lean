import BinderForLinux.Library.Storage

/-!
# Vectors and the buffers they share

`VectorImpl` keeps its items in a `SharedBuffer`, which several vectors may have as `mStorage`; it
is copied before one of them changes it. All vectors have items of one type, with `Traits` that
decide what is done with `memcpy`, `memmove` and `realloc` or not at all. Sizes are counted in
items and do not overflow, allocations succeed, and a buffer is known by an address that is not
used again: `realloc` is taken to move it. `junk` is what new memory contains.
-/

namespace BinderForLinux

namespace VectorImpl

open Library

variable {α : Type}

/-- `traits<TYPE>`. -/
structure Traits where
  trivialCtor : Bool
  trivialDtor : Bool
  trivialCopy : Bool
  trivialMove : Bool
  deriving DecidableEq

structure SharedBuffer (α : Type) where
  refs : ℕ
  block : Block α
  allocated : Bool

/-- The buffers by their addresses. -/
structure Heap (α : Type) where
  buf : ℕ → SharedBuffer α
  next : ℕ

structure Vec where
  storage : Option ℕ
  count : ℕ
  deriving DecidableEq

/-- What the functions return. -/
inductive Status
  | ok (n : ℕ)
  | badIndex
  | badValue
  | noMemory
  deriving DecidableEq

/-- The code does something that is not defined. -/
abbrev Fault := StorageFault

def minVectorCapacity : ℕ := 4

variable (t : Traits) (dflt : α) (junk : ℕ → ℕ → α) (h : Heap α)

/-! ### Items -/

def doConstruct (m : Block α) (i n : ℕ) : Except Fault (Block α) :=
  if t.trivialCtor = true then m.beginLoop t.trivialDtor i n
  else m.fillLoop t.trivialDtor dflt i n

def doDestroy (m : Block α) (i n : ℕ) : Except Fault (Block α) :=
  if t.trivialDtor = true then .ok m else m.destroyLoop i n

def MovesBytes : Prop :=
  t.trivialDtor = true ∧ t.trivialCopy = true ∨ t.trivialMove = true

instance : Decidable (MovesBytes t) :=
  inferInstanceAs (Decidable (t.trivialDtor = true ∧ t.trivialCopy = true ∨ t.trivialMove = true))

/-- `move_forward_type`. -/
def doMoveForward (m : Block α) (d s n : ℕ) : Except Fault (Block α) :=
  if MovesBytes t then m.memmove t.trivialDtor d s n else Block.forwardLoop t.trivialDtor d s m n

/-- `move_backward_type`. -/
def doMoveBackward (m : Block α) (d s n : ℕ) : Except Fault (Block α) :=
  if MovesBytes t then m.memmove t.trivialDtor d s n
  else Block.backwardLoop t.trivialDtor m d s n

/-! ### Buffers -/

def Heap.setBuf (b : ℕ) (x : SharedBuffer α) : Heap α :=
  { h with buf := Function.update h.buf b x }

def Heap.block (b : ℕ) : Except Fault (Block α) :=
  if (h.buf b).allocated = true then .ok (h.buf b).block else .error .freed

def Heap.setBlock (b : ℕ) (m : Block α) : Heap α := h.setBuf b { h.buf b with block := m }

/-- `SharedBuffer::alloc`; the new buffer is at `h.next`. -/
def alloc (cap : ℕ) : Heap α :=
  { h.setBuf h.next ⟨1, ⟨cap, fun k => ⟨junk h.next k, false⟩⟩, true⟩ with next := h.next + 1 }

/-- `free` of a buffer; items that are left in it are not destroyed any more. -/
def free (b : ℕ) : Except Fault (Heap α) :=
  if (h.buf b).allocated = true then
    if ∀ k < (h.buf b).block.cap, (h.buf b).block.CanHold t.trivialDtor k then
      .ok (h.setBuf b { h.buf b with allocated := false })
    else .error .leaked
  else .error .freed

def dealloc (b : ℕ) : Except Fault (Heap α) :=
  if (h.buf b).refs ≠ 0 then .ok h else free t h b

def acquire (b : ℕ) : Except Fault (Heap α) :=
  if (h.buf b).allocated = true then
    .ok (h.setBuf b { h.buf b with refs := (h.buf b).refs + 1 })
  else .error .freed

/-- `SharedBuffer::release`, and the count before. -/
def release (b : ℕ) (keepStorage : Bool) : Except Fault (Heap α × ℕ) :=
  if (h.buf b).allocated = true then
    let prev := (h.buf b).refs
    let h := h.setBuf b { h.buf b with refs := prev - 1 }
    if prev = 1 ∧ keepStorage = false then (free t h b).map fun h => (h, prev) else .ok (h, prev)
  else .error .freed

def newWithBytes (b cap : ℕ) : Heap α :=
  let new := alloc junk h cap
  let m := (h.buf b).block
  new.setBlock h.next ⟨cap, fun k =>
    if k < m.cap ∧ k < cap then m.cell k else ⟨junk h.next k, false⟩⟩

/-- `SharedBuffer::editResize`, with the address of the buffer. -/
def editResize (b cap : ℕ) : Except Fault (Heap α × ℕ) :=
  if (h.buf b).allocated = true then
    if (h.buf b).refs = 1 then
      if (h.buf b).block.cap = cap then .ok (h, b)
      else
        -- `realloc`
        let new := newWithBytes junk h b cap
        .ok (new.setBuf b { h.buf b with allocated := false }, h.next)
    else (release t (newWithBytes junk h b cap) b false).map fun r => (r.1, h.next)
  else .error .freed

/-- `VectorImpl::_do_copy`; nothing is read if there is nothing to copy. -/
def doCopy (d i : ℕ) (src : Option ℕ) (j n : ℕ) : Except Fault (Heap α) :=
  match src with
  | none => if n = 0 then .ok h else .error .freed
  | some b => do
      let src ← h.block b
      let m ← h.block d
      let m ← Block.copyLoop t.trivialDtor src m i j n
      .ok (h.setBlock d m)

/-! ### Vectors -/

variable (v : Vec)

def capacity : ℕ :=
  match v.storage with
  | none => 0
  | some b => (h.buf b).block.cap

def releaseStorage : Except Fault (Heap α) :=
  match v.storage with
  | none => .ok h
  | some b => do
      let r ← release t h b true
      if r.2 = 1 then
        let m ← r.1.block b
        let m ← doDestroy t m 0 v.count
        dealloc t (r.1.setBlock b m) b
      else .ok r.1

def editArrayImpl : Except Fault (Heap α × Vec) :=
  match v.storage with
  | none => .ok (h, v)
  | some b =>
      -- `attemptEdit`
      if (h.buf b).refs = 1 then .ok (h, v)
      else do
        let new := h.next
        let h ← doCopy t (alloc junk h (capacity h v)) new 0 v.storage 0 v.count
        let h ← releaseStorage t h v
        .ok (h, { v with storage := some new })

def edit (f : Block α → Except Fault (Block α)) : Except Fault (Heap α) :=
  match v.storage with
  | none => .error .freed
  | some b => do
      let m ← h.block b
      let m ← f m
      .ok (h.setBlock b m)

def grow (pos amount : ℕ) : Except Fault (Heap α × Vec) :=
  let newSize := v.count + amount
  if capacity h v < newSize then
    let newCapacity := max minVectorCapacity ((newSize * 3 + 1) / 2)
    match v.storage with
    | some b =>
        if v.count = pos ∧ t.trivialCopy = true ∧ t.trivialDtor = true then
          (editResize t junk h b newCapacity).map fun r => (r.1, ⟨some r.2, newSize⟩)
        else reallocate newCapacity newSize
    | none => reallocate newCapacity newSize
  else do
    let r ← editArrayImpl t junk h v
    if pos ≠ v.count then
      let h ← edit r.1 r.2 fun m => doMoveForward t m (pos + amount) pos (v.count - pos)
      .ok (h, { r.2 with count := newSize })
    else .ok (r.1, { r.2 with count := newSize })
where
  /-- The items are copied to a new buffer, with a gap. -/
  reallocate (newCapacity newSize : ℕ) : Except Fault (Heap α × Vec) := do
    let new := h.next
    let h ← (if pos ≠ 0 then doCopy t (alloc junk h newCapacity) new 0 v.storage 0 pos
      else .ok (alloc junk h newCapacity))
    let h ← (if pos ≠ v.count then doCopy t h new (pos + amount) v.storage pos (v.count - pos)
      else .ok h)
    let h ← releaseStorage t h v
    .ok (h, ⟨some new, newSize⟩)

def shrink (pos amount : ℕ) : Except Fault (Heap α × Vec) :=
  match v.storage with
  | none => .ok (h, v)
  | some b =>
      let newSize := v.count - amount
      if newSize * 3 < capacity h v then
        let newCapacity := max minVectorCapacity (newSize * 2)
        if pos = newSize ∧ t.trivialCopy = true ∧ t.trivialDtor = true then
          (editResize t junk h b newCapacity).map fun r => (r.1, ⟨some r.2, newSize⟩)
        else do
          let new := h.next
          let h ← (if pos ≠ 0 then doCopy t (alloc junk h newCapacity) new 0 v.storage 0 pos
            else .ok (alloc junk h newCapacity))
          let h ← (if pos ≠ newSize then
              doCopy t h new pos v.storage (pos + amount) (newSize - pos)
            else .ok h)
          let h ← releaseStorage t h v
          .ok (h, ⟨some new, newSize⟩)
      else do
        let r ← editArrayImpl t junk h v
        let h ← edit r.1 r.2 fun m => doDestroy t m pos amount
        let h ← (if pos ≠ newSize then
            edit h r.2 fun m => doMoveBackward t m pos (pos + amount) (newSize - pos)
          else .ok h)
        .ok (h, { r.2 with count := newSize })

/-- `VectorImpl::itemLocation` gives no address behind the capacity. -/
def hasLocation (pos : ℕ) : Bool := decide (pos < capacity h v)

/-- `VectorImpl::insertArrayAt`, with the items of a buffer. -/
def insertArrayAt (src : Option ℕ) (index length : ℕ) : Except Fault (Heap α × Vec × Status) :=
  if v.count < index then .ok (h, v, .badIndex)
  else do
    let r ← grow t junk h v index length
    match r.2.storage, hasLocation r.1 r.2 index with
    | some d, true =>
        let h ← doCopy t r.1 d index src 0 length
        .ok (h, r.2, .ok index)
    | _, _ => .ok (r.1, r.2, .noMemory)

/-- `VectorImpl::insertAt`; without an item new ones are constructed. -/
def insertAt (item : Option α) (index numItems : ℕ) : Except Fault (Heap α × Vec × Status) :=
  if v.count < index then .ok (h, v, .badIndex)
  else do
    let r ← grow t junk h v index numItems
    if hasLocation r.1 r.2 index = true then
      let h ← edit r.1 r.2 fun m =>
        match item with
        | some x => m.fillLoop t.trivialDtor x index numItems
        | none => doConstruct t dflt m index numItems
      .ok (h, r.2, .ok index)
    else .ok (r.1, r.2, .noMemory)

def removeItemsAt (index count : ℕ) : Except Fault (Heap α × Vec × Status) :=
  if v.count < index + count then .ok (h, v, .badValue)
  else do
    let r ← shrink t junk h v index count
    .ok (r.1, r.2, .ok index)

def clear : Except Fault (Heap α × Vec) := shrink t junk h v 0 v.count

def replaceAt (prototype : Option α) (index : ℕ) : Except Fault (Heap α × Vec × Status) :=
  if v.count ≤ index then .ok (h, v, .badIndex)
  else if hasLocation h v index = true then do
    -- `editItemLocation`
    let r ← editArrayImpl t junk h v
    let h ← edit r.1 r.2 fun m => do
      let m ← doDestroy t m index 1
      match prototype with
      | some x => m.fillLoop t.trivialDtor x index 1
      | none => doConstruct t dflt m index 1
    .ok (h, r.2, .ok index)
  else .ok (h, v, .noMemory)

/-- An assignment to `*editItemLocation(index)`. -/
def assignItem (index : ℕ) (x : α) : Except Fault (Heap α × Vec) :=
  if hasLocation h v index = true then do
    let r ← editArrayImpl t junk h v
    let h ← edit r.1 r.2 fun m => m.assign index x
    .ok (h, r.2)
  else .error .outOfBounds

def setCapacity (newCapacity : ℕ) : Except Fault (Heap α × Vec × Status) :=
  if newCapacity ≤ v.count then .ok (h, v, .ok (capacity h v))
  else do
    let new := h.next
    let h ← doCopy t (alloc junk h newCapacity) new 0 v.storage 0 v.count
    let h ← releaseStorage t h v
    .ok (h, { v with storage := some new }, .ok newCapacity)

/-- `VectorImpl::operator =`, of another vector. -/
def assign (rhs : Vec) : Except Fault (Heap α × Vec) := do
  let h ← releaseStorage t h v
  if rhs.count ≠ 0 then
    match rhs.storage with
    | some b => (acquire h b).map fun h => (h, rhs)
    | none => .error .freed
  else .ok (h, ⟨none, 0⟩)

/-! ### Any number of vectors -/

/-- The buffers and the vectors. -/
structure World (α : Type) where
  heap : Heap α
  vec : ℕ → Option Vec
  /-- The address of the next vector. -/
  next : ℕ

def World.init : World α :=
  ⟨⟨fun _ => ⟨0, ⟨0, fun k => ⟨junk 0 k, false⟩⟩, false⟩, 0⟩, fun _ => none, 0⟩

inductive Op (α : Type)
  | construct
  | copy (rhs : ℕ)
  | assign (i rhs : ℕ)
  | insertAt (i : ℕ) (item : Option α) (index numItems : ℕ)
  | insertVectorAt (i vector index : ℕ)
  | removeItemsAt (i index count : ℕ)
  | replaceAt (i : ℕ) (prototype : Option α) (index : ℕ)
  | assignItem (i index : ℕ) (x : α)
  | setCapacity (i newCapacity : ℕ)
  | clear (i : ℕ)
  | destruct (i : ℕ)

variable (w : World α)

def World.get (i : ℕ) : Except Fault Vec :=
  match w.vec i with
  | some v => .ok v
  | none => .error .freed

def World.put (i : ℕ) (h : Heap α) (v : Option Vec) : World α :=
  { w with heap := h, vec := Function.update w.vec i v }

def World.add (h : Heap α) (v : Vec) : World α :=
  { w.put w.next h (some v) with next := w.next + 1 }

def step : Op α → Except Fault (World α)
  | .construct => .ok (w.add w.heap ⟨none, 0⟩)
  | .copy rhs => do
      let v ← w.get rhs
      match v.storage with
      | some b => (acquire w.heap b).map fun h => w.add h v
      | none => .ok (w.add w.heap v)
  | .assign i rhs => do
      let v ← w.get i
      let v' ← w.get rhs
      if i = rhs then .ok w
      else (assign t w.heap v v').map fun r => w.put i r.1 (some r.2)
  | .insertAt i item index numItems => do
      let v ← w.get i
      (insertAt t dflt junk w.heap v item index numItems).map fun r => w.put i r.1 (some r.2.1)
  | .insertVectorAt i vector index => do
      let v ← w.get i
      let v' ← w.get vector
      (insertArrayAt t junk w.heap v v'.storage index v'.count).map fun r =>
        w.put i r.1 (some r.2.1)
  | .removeItemsAt i index count => do
      let v ← w.get i
      (removeItemsAt t junk w.heap v index count).map fun r => w.put i r.1 (some r.2.1)
  | .replaceAt i prototype index => do
      let v ← w.get i
      (replaceAt t dflt junk w.heap v prototype index).map fun r => w.put i r.1 (some r.2.1)
  | .assignItem i index x => do
      let v ← w.get i
      (assignItem t junk w.heap v index x).map fun r => w.put i r.1 (some r.2)
  | .setCapacity i newCapacity => do
      let v ← w.get i
      (setCapacity t junk w.heap v newCapacity).map fun r => w.put i r.1 (some r.2.1)
  | .clear i => do
      let v ← w.get i
      (clear t junk w.heap v).map fun r => w.put i r.1 (some r.2)
  | .destruct i => do
      let v ← w.get i
      -- `finish_vector`
      (releaseStorage t w.heap v).map fun h => w.put i h none

end VectorImpl

end BinderForLinux
