import BinderForLinux.Library.LinkedList
import BinderForLinux.Library.Run
import Mathlib.Algebra.Order.Ring.Nat
import Mathlib.Data.Int.Notation

/-!
# The allocator of a memory dealer

`SimpleBestFitAllocator` keeps the heap as a doubly linked list of chunks, counted in units of
`kMemoryAlign` bytes. A chunk has 28 bits for its size. Chunks are known by their addresses, which
are not used again; the page size is what `getpagesize` returns. Loops follow the pointers of the
list; they get as many rounds as chunks were made.
-/

namespace BinderForLinux

namespace MemoryDealer

open Library

def memoryAlign : ℕ := 32

def sizeT : ℕ := 2 ^ 64

def pageAligned : UInt32 := 1

/-- What is kept of a number in the field `size` of a chunk. -/
def bits28 (n : ℕ) : ℕ := n % 2 ^ 28

/-- `chunk_t`, without its links. -/
structure Chunk where
  start : ℕ
  size : ℕ
  free : Bool
  deriving DecidableEq, Repr

/-- `SimpleBestFitAllocator`. -/
structure Allocator where
  list : LinkedList Chunk
  heapSize : ℕ
  /-- The next address of a chunk. -/
  next : ℕ

/-- The code does not return, or ends the process. -/
inductive Fault
  | loops
  | fatal
  deriving DecidableEq, Repr

/-- The constructor. The page size is a power of two. -/
def Allocator.new (pagesize size : ℕ) : Allocator :=
  let heapSize := (size + (pagesize - 1)) % sizeT / pagesize * pagesize
  let list : LinkedList Chunk := ⟨fun _ => ⟨⟨0, 0, false⟩, none, none⟩, none, none⟩
  { list := list.insertHead 0 ⟨0, bits28 (heapSize / memoryAlign), true⟩
    heapSize := heapSize
    next := 1 }

variable (a : Allocator) (pagesize : ℕ) (flags : UInt32) (size : ℕ)

def Allocator.chunk (n : ℕ) : Chunk := (a.list.node n).val

/-- The units before the next page, where pages are asked for. -/
def extra (start : ℕ) : ℕ :=
  if flags &&& pageAligned ≠ 0 then
    (sizeT - start % sizeT) % sizeT &&& (pagesize / memoryAlign - 1)
  else 0

def better (cur : ℕ) : Option ℕ → ℕ
  | none => cur
  | some c => if (a.chunk cur).size < (a.chunk c).size then cur else c

/-- The loop of `alloc` that looks for the best fit. -/
def scan : ℕ → Option ℕ → Option ℕ → Except Fault (Option ℕ)
  | _, none, freeChunk => .ok freeChunk
  | 0, some _, _ => .error .loops
  | fuel + 1, some cur, freeChunk =>
      if (a.chunk cur).free = true ∧
          size + extra pagesize flags (a.chunk cur).start ≤ (a.chunk cur).size then
        let freeChunk := some (better a cur freeChunk)
        if (a.chunk cur).size = size then .ok freeChunk
        else scan fuel (a.list.node cur).next freeChunk
      else scan fuel (a.list.node cur).next freeChunk

def splitFront (c extra : ℕ) : Allocator :=
  if extra ≠ 0 then
    let x := a.chunk c
    let list := a.list.setVal c { x with start := x.start + extra }
    { a with
      list := list.insertBefore c a.next ⟨x.start, bits28 extra, true⟩
      next := a.next + 1 }
  else a

def splitTail (c : ℕ) (tailFree : ℤ) : Allocator :=
  if 0 < tailFree then
    let x := a.chunk c
    { a with
      list := a.list.insertAfter c a.next ⟨x.start + x.size, bits28 tailFree.toNat, true⟩
      next := a.next + 1 }
  else a

/-- `alloc` once the chunk is found. -/
def takeChunk (c : ℕ) : Allocator :=
  let freeSize := (a.chunk c).size
  let a := { a with list := a.list.setVal c { a.chunk c with free := false, size := bits28 size } }
  if size < freeSize then
    let extra := extra pagesize flags (a.chunk c).start
    let a := splitFront a c extra
    splitTail a c ((freeSize : ℤ) - (size + extra : ℕ))
  else a

/-- `none` is `NO_MEMORY`. -/
def alloc : Except Fault (Allocator × Option ℕ) :=
  if size = 0 then .ok (a, some 0)
  else
    let size := (size + (memoryAlign - 1)) % sizeT / memoryAlign
    match scan a pagesize flags size a.next a.list.first none with
    | .error e => .error e
    | .ok none => .ok (a, none)
    | .ok (some c) =>
        let a := takeChunk a pagesize flags size c
        .ok (a, some ((a.chunk c).start * memoryAlign))

def find (start : ℕ) : ℕ → Option ℕ → Except Fault (Option ℕ)
  | _, none => .ok none
  | 0, some _ => .error .loops
  | fuel + 1, some cur =>
      if (a.chunk cur).start = start then .ok (some cur)
      else find start fuel (a.list.node cur).next

/-- One round of merging: the chunk before `cur` absorbs it. -/
def mergeStep (list : LinkedList Chunk) (cur freed : ℕ) : LinkedList Chunk × ℕ :=
  match (list.node cur).prev with
  | none => (list, freed)
  | some p =>
      let x := (list.node p).val
      let y := (list.node cur).val
      if x.free = true ∨ y.size = 0 then
        ((list.setVal p { x with size := bits28 (x.size + y.size) }).remove cur, p)
      else (list, freed)

def mergeLoop : ℕ → LinkedList Chunk → ℕ → ℕ → Except Fault (LinkedList Chunk × ℕ)
  | 0, _, _, _ => .error .loops
  | fuel + 1, list, cur, freed =>
      let next := (list.node cur).next
      let r := mergeStep list cur freed
      match next with
      | none => .ok r
      | some n => if (r.1.node n).val.free = true then mergeLoop fuel r.1 n r.2 else .ok r

/-- The chunk that was freed, or `none` if there is none at the offset. -/
def dealloc (offset : ℕ) : Except Fault (Allocator × Option ℕ) :=
  match find a (offset / memoryAlign) a.next a.list.first with
  | .error e => .error e
  | .ok none => .ok (a, none)
  | .ok (some cur) =>
      if (a.chunk cur).free = true then .error .fatal
      else
        let list := a.list.setVal cur { a.chunk cur with free := true }
        match mergeLoop (a.next + 1) list cur cur with
        | .error e => .error e
        | .ok (list, freed) =>
            if (list.node freed).val.free = true then .ok ({ a with list := list }, some freed)
            else .error .fatal

/-! ### Runs -/

inductive Op
  | alloc (size : ℕ) (flags : UInt32)
  | dealloc (offset : ℕ)

/-- A step, with the offsets that were returned for blocks and not given back. -/
def step (s : Allocator × List ℕ) : Op → Except Fault (Allocator × List ℕ)
  | .alloc size flags => (alloc s.1 pagesize flags size).map fun r =>
      (r.1, if size = 0 then s.2 else r.2.toList ++ s.2)
  | .dealloc offset => (dealloc s.1 offset).map fun r => (r.1, s.2.erase offset)

/-- Sizes that can be rounded up, and blocks that are held. -/
def Op.Proper (s : Allocator × List ℕ) : Op → Prop
  | .alloc size _ => size ≤ sizeT - memoryAlign
  | .dealloc offset => offset ∈ s.2

end MemoryDealer

end BinderForLinux
