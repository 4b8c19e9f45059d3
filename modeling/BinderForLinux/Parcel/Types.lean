import BinderForLinux.Library.Blocks
import Mathlib.Data.List.DropRight
import Mathlib.Tactic.Common

set_option linter.dupNamespace false

/-!
# Parcels

The data model of `Parcel`: the data with its size, capacity and position, the table of the
objects in the data, and who owns both. The data are a byte array; what is stored and loaded,
which references are taken and given up, which descriptors are duplicated and closed and which
blocks are allocated and freed on behalf of a parcel is recorded in its `log`, in this order.

Numbers are `size_t` on a 64-bit machine, and `struct flat_binder_object` has 24 bytes. What
the code does not decide (whether an allocation succeeds, what fresh memory contains, what
`dup` returns, how large a region of shared memory is) is asked of an oracle.
-/

namespace BinderForLinux

namespace Parcel

open Library

/-- A `status_t`; `errno` stands for any negated error number. -/
inductive Status
  | noError
  | badValue
  | noMemory
  | notEnoughData
  | fdsNotAllowed
  | badType
  | errno
  deriving DecidableEq, Repr

def int32Max : ℕ := 2 ^ 31 - 1

def sizeT : ℕ := 2 ^ 64

abbrev Data := ℕ → UInt8

/-! ### Objects -/

/-- `struct flat_binder_object`. The union of `binder` and `handle` is kept as `binder`. -/
structure FlatObject where
  type : ℕ
  flags : ℕ
  binder : ℕ
  cookie : ℕ
  deriving DecidableEq, Repr

def binderTypeBinder : ℕ := 0x73622a85
def binderTypeHandle : ℕ := 0x73682a85
def binderTypeFd : ℕ := 0x66642a85

def objectSize : ℕ := 24

namespace FlatObject

def handle (f : FlatObject) : ℕ := f.binder % 2 ^ 32

def bytes (f : FlatObject) : List UInt8 :=
  bytesLE 4 f.type ++ bytesLE 4 f.flags ++ bytesLE 8 f.binder ++ bytesLE 8 f.cookie

def isOwnedFd (f : FlatObject) : Bool := f.type = binderTypeFd && f.cookie ≠ 0

end FlatObject

def objectAt (m : Data) (off : ℕ) : FlatObject where
  type := getLE m off 4
  flags := getLE m (off + 4) 4
  binder := getLE m (off + 8) 8
  cookie := getLE m (off + 16) 8

/-! ### State -/

/-- What happens on behalf of a parcel. A store carries the capacity at its time, a store into
the table of objects the entries that the block of the table has. -/
inductive Effect
  | load (off len : ℕ)
  | store (off len capacity : ℕ)
  | tableStore (index room : ℕ)
  | malloc (block : ℕ)
  | free (block : ℕ)
  | acquire (f : FlatObject)
  | release (f : FlatObject)
  | dup (fd new : ℕ)
  | close (fd : ℕ)
  /-- `BC_FREE_BUFFER` for received data. -/
  | freeBuffer
  deriving DecidableEq, Repr

/-- What the code does not decide, for the `n`-th allocation or `dup` of a run. -/
structure Oracle where
  allocates : ℕ → Bool
  /-- The contents of a fresh block. -/
  fresh : ℕ → Data
  /-- What is left in a block after it was given to `realloc`. -/
  stale : ℕ → Data
  /-- The result of `dup`; the largest 32-bit number is `-1`. -/
  dup : ℕ → ℕ
  /-- `ashmem_get_size_region`. -/
  ashmemSize : ℕ → ℤ

/-- What all parcels of a process share. -/
structure World where
  allocs : ℕ
  dups : ℕ
  gParcelGlobalAllocSize : ℕ
  gParcelGlobalAllocCount : ℕ
  deriving DecidableEq, Repr

def World.init : World := ⟨0, 0, 0, 0⟩

/-- Where `mObjects` points: nowhere, to a block of the parcel's own, to a block that was freed,
or into a buffer of the driver. -/
inductive Table
  | null
  | own
  | freed
  | driver
  deriving DecidableEq, Repr

/-- `Parcel`. `mData` names the block of the data, `bytes` are its contents, and `objects` are
the first `mObjectsSize` entries of `mObjects`, whose block has `room` entries. `mOwner` says
that the data are a buffer of the driver, to be released by `IPCThreadState::freeBuffer`. `given`
is what `mObjects` was each time it was given to `realloc` or `free`. -/
structure Parcel where
  mError : Status
  mData : Option ℕ
  bytes : Data
  mDataSize : ℕ
  mDataCapacity : ℕ
  mDataPos : ℕ
  objects : List ℕ
  mObjects : Table
  mObjectsCapacity : ℕ
  room : ℕ
  mNextObjectHint : ℕ
  mFdsKnown : Bool
  mHasFds : Bool
  mAllowFds : Bool
  mOwner : Bool
  mOpenAshmemSize : ℕ
  given : List Table
  log : List Effect

def initState (p : Parcel) : Parcel :=
  { p with
    mError := .noError
    mData := none
    mDataSize := 0
    mDataCapacity := 0
    mDataPos := 0
    objects := []
    mObjects := .null
    mObjectsCapacity := 0
    room := 0
    mNextObjectHint := 0
    mHasFds := false
    mFdsKnown := true
    mAllowFds := true
    mOwner := false
    mOpenAshmemSize := 0 }

def new : Parcel where
  mError := .noError
  mData := none
  bytes := fun _ => 0
  mDataSize := 0
  mDataCapacity := 0
  mDataPos := 0
  objects := []
  mObjects := .null
  mObjectsCapacity := 0
  room := 0
  mNextObjectHint := 0
  mFdsKnown := true
  mHasFds := false
  mAllowFds := true
  mOwner := false
  mOpenAshmemSize := 0
  given := []
  log := []

namespace Parcel

def record (p : Parcel) (l : List Effect) : Parcel := { p with log := p.log ++ l }

def store (p : Parcel) (off : ℕ) (bs : List UInt8) : Parcel :=
  { p with
    bytes := putBytes p.bytes off bs
    log := p.log ++ [.store off bs.length p.mDataCapacity] }

/-- `mObjects` is given to `realloc` or `free`. -/
def give (p : Parcel) : Parcel := { p with given := p.given ++ [p.mObjects] }

/-- `free(mObjects)`, which does nothing to a null pointer. -/
def freeTable (p : Parcel) : Parcel :=
  { p with
    mObjects := if p.mObjects = .null then .null else .freed
    given := p.given ++ if p.mObjects = .null then [] else [p.mObjects] }

@[simp] theorem give_log (p : Parcel) : p.give.log = p.log := rfl

@[simp] theorem freeTable_log (p : Parcel) : p.freeTable.log = p.log := rfl

end Parcel

/-! ### References and descriptors -/

section Objects

variable (o : Oracle)

def ashmemOf (f : FlatObject) : ℕ :=
  if f.isOwnedFd then (o.ashmemSize f.handle).toNat else 0

def acquireObject (p : Parcel) (f : FlatObject) : Parcel :=
  { p with
    mOpenAshmemSize := (p.mOpenAshmemSize + ashmemOf o f) % sizeT
    log := p.log ++ [.acquire f] }

def releaseObject (p : Parcel) (f : FlatObject) : Parcel :=
  { p with
    mOpenAshmemSize := (p.mOpenAshmemSize + (sizeT - ashmemOf o f % sizeT)) % sizeT
    log := p.log ++ .release f :: if f.isOwnedFd then [.close f.handle] else [] }

/-- The objects at the offsets, one after the other. -/
def acquireEach (p : Parcel) (offs : List ℕ) : Parcel :=
  offs.foldl (fun p off => acquireObject o p (objectAt p.bytes off)) p

def releaseEach (p : Parcel) (offs : List ℕ) : Parcel :=
  offs.foldl (fun p off => releaseObject o p (objectAt p.bytes off)) p

def releaseObjects (p : Parcel) : Parcel := releaseEach o p p.objects.reverse

end Objects

def closeFileDescriptors (p : Parcel) : Parcel :=
  p.record (p.objects.reverse.filterMap fun off =>
    let f := objectAt p.bytes off
    if f.type = binderTypeFd then some (.close f.handle) else none)

/-- `IPCThreadState::freeBuffer`, called by the parcel that has the buffer. -/
def freeBuffer (p : Parcel) : Parcel := (closeFileDescriptors p).record [.freeBuffer]

/-! ### Growing and freeing -/

section Memory

variable (o : Oracle)

def World.alloc (w : World) : Option ℕ × World :=
  (if o.allocates w.allocs then some w.allocs else none, { w with allocs := w.allocs + 1 })

def World.count (w : World) (added removed blocks unblocks : ℕ) : World :=
  { w with
    gParcelGlobalAllocSize := (w.gParcelGlobalAllocSize + added + (sizeT - removed)) % sizeT
    gParcelGlobalAllocCount :=
      (w.gParcelGlobalAllocCount + blocks + (sizeT - unblocks)) % sizeT }

def freeDataNoInit (p : Parcel) (w : World) : Parcel × World :=
  if p.mOwner then (freeBuffer p, w)
  else
    let p := releaseObjects o p
    match p.mData with
    | none => (p.freeTable, w)
    | some b => ((p.record [.free b]).freeTable, w.count 0 p.mDataCapacity 0 1)

def freeData (p : Parcel) (w : World) : Parcel × World :=
  let (p, w) := freeDataNoInit o p w
  (initState p, w)

/-- The objects that stay when the data shrink to `desired` bytes. -/
def keptObjects (p : Parcel) (desired : ℕ) : List ℕ :=
  if desired < p.mDataSize then
    if desired = 0 then [] else p.objects.rdropWhile fun off => decide (desired ≤ off)
  else p.objects

/-- `continueWrite` on data of the driver: the parcel takes possession. -/
def takePossession (p : Parcel) (w : World) (desired : ℕ) : Status × Parcel × World :=
  match w.alloc o with
  | (none, w) => (.noMemory, { p with mError := .noMemory }, w)
  | (some b, w) =>
      let p := p.record [.malloc b]
      let kept := keptObjects p desired
      let (table, w) := if kept = [] then (true, w) else ((w.alloc o).1.isSome, (w.alloc o).2)
      if table then
        let p := acquireEach o p kept.reverse
        let bytes : Data := fun i => if i < min p.mDataSize desired then p.bytes i else o.fresh b i
        let p := freeBuffer p
        (.noError,
          { p with
            mOwner := false
            mData := some b
            bytes := bytes
            mDataSize := min p.mDataSize desired
            mDataCapacity := desired
            objects := kept
            mObjects := if kept = [] then .null else .own
            mObjectsCapacity := kept.length
            room := kept.length
            mNextObjectHint := 0 },
          w.count desired 0 1 0)
      else (.noMemory, { p.record [.free b] with mError := .noMemory }, w)

/-- The part of `continueWrite` that drops objects of a parcel that owns its data. `shrinks`
says whether `realloc` of the table to fewer entries succeeds. To no entries it frees the table
and returns a null pointer, for which `mObjects` is left as it was. -/
def dropObjects (p : Parcel) (desired : ℕ) (shrinks : Bool) : Parcel :=
  let kept := keptObjects p desired
  if kept.length < p.objects.length then
    let dropped := p.objects.drop kept.length
    let hasFd := dropped.any fun off => (objectAt p.bytes off).type = binderTypeFd
    let p := releaseEach o p dropped
    { p with
      mFdsKnown := if hasFd then false else p.mFdsKnown
      objects := kept
      mObjects := if kept = [] then .freed else if shrinks then .own else p.mObjects
      room := if kept = [] then 0 else if shrinks then kept.length else p.room
      mNextObjectHint := 0
      given := p.given ++ [p.mObjects] }
  else p

/-- `continueWrite` on a block `b` of the parcel's own, after objects were dropped. -/
def resize (p : Parcel) (w : World) (b desired : ℕ) : Status × Parcel × World :=
  if desired > p.mDataCapacity then
    match w.alloc o with
    | (none, w) => (.noMemory, { p with mError := .noMemory }, w)
    | (some b', w) =>
        (.noError,
          { p with
            mData := some b'
            bytes := fun i => if i < p.mDataCapacity then p.bytes i else o.fresh b' i
            mDataCapacity := desired
            log := p.log ++ [.free b, .malloc b'] },
          w.count desired p.mDataCapacity 0 0)
  else
    (.noError, { p with mDataSize := min p.mDataSize desired, mDataPos := min p.mDataPos desired },
      w)

def continueWrite (p : Parcel) (w : World) (desired : ℕ) : Status × Parcel × World :=
  if desired > int32Max then (.badValue, p, w)
  else if p.mOwner then
    if desired = 0 then
      let (p, w) := freeData o p w
      (.noError, p, w)
    else takePossession o p w desired
  else
    match p.mData with
    | some b =>
        -- Shrinking the table is an allocation of its own.
        let drops := (keptObjects p desired).length < p.objects.length
        let shrinks := (w.alloc o).1.isSome
        let w := if drops then (w.alloc o).2 else w
        resize o (dropObjects o p desired shrinks) w b desired
    | none =>
        match w.alloc o with
        | (none, w) => (.noMemory, { p with mError := .noMemory }, w)
        | (some b, w) =>
            (.noError,
              { p with
                mData := some b
                bytes := o.fresh b
                mDataSize := 0
                mDataPos := 0
                mDataCapacity := desired
                log := p.log ++ [.malloc b] },
              w.count desired 0 1 0)

def growData (p : Parcel) (w : World) (len : ℕ) : Status × Parcel × World :=
  if len > int32Max then (.badValue, p, w)
  else
    let newSize := ((p.mDataSize + len) * 3) % sizeT / 2
    if newSize ≤ p.mDataSize then (.noMemory, p, w) else continueWrite o p w newSize

/-- What `realloc(mData, desired)` does in `restartWrite`: the new block, if any, and what is in
the old one after it. `realloc` to no bytes frees the block. -/
def reallocData (p : Parcel) (w : World) (desired : ℕ) : Option ℕ × Parcel × World :=
  match p.mData with
  | none =>
      match w.alloc o with
      | (none, w) => (none, p, w)
      | (some b', w) => (some b', p.record [.malloc b'], w)
  | some b =>
      if desired = 0 then (none, { p with bytes := o.stale w.allocs }.record [.free b], w)
      else
        match w.alloc o with
        | (none, w) => (none, p, w)
        | (some b', w) =>
            (some b', { p with bytes := o.stale b' }.record [.free b, .malloc b'], w)

/-- `Parcel::restartWrite`. The objects are released after `realloc` has taken their block. What
is in the new block is of no account, since `setData` writes all of it. -/
def restartWrite (p : Parcel) (w : World) (desired : ℕ) : Status × Parcel × World :=
  if desired > int32Max then (.badValue, p, w)
  else if p.mOwner then
    let (p, w) := freeData o p w
    continueWrite o p w desired
  else
    let (data, p, w) := reallocData o p w desired
    if data = none ∧ desired > p.mDataCapacity then (.noMemory, { p with mError := .noMemory }, w)
    else
      let p := releaseObjects o p
      let (p, w) :=
        match data with
        | none => (p, w)
        | some b' =>
            ({ p with mData := some b', bytes := o.fresh b', mDataCapacity := desired },
              w.count desired p.mDataCapacity 0 0)
      (.noError,
        { p.freeTable with
          mDataSize := 0
          mDataPos := 0
          objects := []
          mObjects := .null
          mObjectsCapacity := 0
          room := 0
          mNextObjectHint := 0
          mHasFds := false
          mFdsKnown := true
          mAllowFds := true },
        w)

end Memory

end Parcel

end BinderForLinux
