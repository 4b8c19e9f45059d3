import BinderForLinux.Driver.Types

/-!
# The buffer allocator

`binder_alloc_buf`, `binder_free_buf` and what they call, on the area of one
process. The area is a run of buffers, each a header of `headerSize` bytes
followed by its data; a buffer does not store how long its data is, that is
recomputed from where the next one starts. `env` decides which pages the kernel
can provide.
-/

namespace BinderForLinux

namespace Driver

open Library

/-- `PAGE_SIZE` and `sizeof(struct binder_buffer)`. -/
structure Layout where
  pageSize : ℕ
  headerSize : ℕ
  eight_le_headerSize : 8 ≤ headerSize
  two_mul_headerSize_lt : 2 * headerSize < pageSize

/-- The 64-bit build with pages of 4096 bytes. -/
def Layout.x86 : Layout where
  pageSize := 4096
  headerSize := 80
  eight_le_headerSize := by decide
  two_mul_headerSize_lt := by decide

/-- What the kernel provides to `binder_update_page_range`: whether the memory
map of the task can be had, and whether page `i` of the area can be allocated
and mapped. -/
structure PageEnv where
  mm : Bool
  page : ℕ → Bool

/-- `ALIGN(x, sizeof(void *))` on a 64-bit `size_t`. -/
def ptrAlign (x : ℕ) : ℕ := (x + 7) % 2 ^ 64 / 8 * 8

def Layout.pageAlign (L : Layout) (x : ℕ) : ℕ :=
  (x + (L.pageSize - 1)) / L.pageSize * L.pageSize

def Layout.pageMask (L : Layout) (x : ℕ) : ℕ := x / L.pageSize * L.pageSize

/-! ### The list of buffers -/

def findBuffer (bs : List Buffer) (a : ℕ) : Option Buffer :=
  bs.find? fun b => b.addr = a

/-- The buffer after the one at `a`; `none` when that is the last. -/
def nextBuffer : List Buffer → ℕ → Option Buffer
  | [], _ => none
  | b :: bs, a => if b.addr = a then bs.head? else nextBuffer bs a

/-- The buffer before the one at `a`; `none` when that is the first. -/
def prevBuffer : List Buffer → ℕ → Option Buffer
  | [], _ => none
  | b :: bs, a => if bs.head?.map Buffer.addr = some a then some b else prevBuffer bs a

def modifyBuffer (a : ℕ) (f : Buffer → Buffer) (bs : List Buffer) : List Buffer :=
  bs.map fun b => if b.addr = a then f b else b

/-- `list_add(&new->entry, &buffer->entry)` for the buffer at `a`. -/
def insertAfter (new : Buffer) (a : ℕ) : List Buffer → List Buffer
  | [] => []
  | b :: bs => if b.addr = a then b :: new :: bs else b :: insertAfter new a bs

def removeBuffer (a : ℕ) (bs : List Buffer) : List Buffer :=
  bs.filter fun b => b.addr ≠ a

def Area.isFree (ar : Area) (a : ℕ) : Bool := (findBuffer ar.buffers a).any Buffer.free

def Area.bufferEnd (ar : Area) (a : ℕ) : ℕ :=
  match nextBuffer ar.buffers a with
  | some b => b.addr
  | none => ar.buffer + ar.bufferSize

def binderBufferSize (L : Layout) (ar : Area) (a : ℕ) : ℕ :=
  ar.bufferEnd a - (a + L.headerSize)

/-! ### The two trees -/

def binderInsertFreeBuffer (L : Layout) (ar : Area) (new : ℕ) : Except Fault Area := do
  bugOn .insertFreeBuffer (!ar.isFree new)
  let newSize := binderBufferSize L ar new
  let dir (a : ℕ) : Except Fault Bool :=
    if ar.isFree a then .ok (decide (newSize < binderBufferSize L ar a))
    else .error (.bug .insertFreeBuffer)
  let tree ← ar.freeBuffers.link dir new
  return { ar with freeBuffers := tree }

def binderInsertAllocatedBuffer (ar : Area) (new : ℕ) : Except Fault Area := do
  bugOn .insertAllocatedBuffer (ar.isFree new)
  let dir (a : ℕ) : Except Fault Bool :=
    if ar.isFree a then .error (.bug .insertAllocatedBuffer)
    else if new < a then .ok true
    else if a < new then .ok false
    else .error (.bug .insertAllocatedBuffer)
  let tree ← ar.allocatedBuffers.link dir new
  return { ar with allocatedBuffers := tree }

/-- The address of the allocated buffer whose data is at `userPtr` in the
process. -/
def binderBufferLookup (L : Layout) (ar : Area) (userPtr : ℕ) : Except Fault (Option ℕ) :=
  let kernPtr : ℤ := userPtr - ar.userBufferOffset - L.headerSize
  ar.allocatedBuffers.find fun a =>
    if ar.isFree a then .error (.bug .bufferLookup) else .ok (compare kernPtr (a : ℤ))

/-! ### Pages -/

/-- The loop at `free_range`: free the `k` pages from `first` on, the last one
first. -/
def freePages (first : ℕ) : ℕ → (ℕ → Bool) → Except Fault (ℕ → Bool)
  | 0, pages => .ok pages
  | k + 1, pages =>
      if pages (first + k) then freePages first k (Function.update pages (first + k) false)
      else .error .badPointer

/-- The allocating loop, with `k` pages done and `n` to go. When a page cannot
be had, the loop at `free_range` gives the `k` pages back. -/
def allocPages (env : PageEnv) (first : ℕ) :
    ℕ → ℕ → (ℕ → Bool) → Except Fault (Bool × (ℕ → Bool))
  | _, 0, pages => .ok (true, pages)
  | k, n + 1, pages =>
      if pages (first + k) then .error (.bug .updatePageRange)
      else if env.page (first + k) then
        allocPages env first (k + 1) n (Function.update pages (first + k) true)
      else (freePages first k pages).map fun ps => (false, ps)

/-- `binder_update_page_range`; the flag returned is true for 0 and false for
`-ENOMEM`. Both ends are page aligned. -/
def binderUpdatePageRange (L : Layout) (ar : Area) (allocate : Bool) (start stop : ℕ)
    (env : PageEnv) : Except Fault (Bool × Area) :=
  let first := (start - ar.buffer) / L.pageSize
  let count := (stop - start) / L.pageSize
  if stop ≤ start then .ok (true, ar)
  else if allocate then
    if env.mm then
      (allocPages env first 0 count ar.pages).map fun r => (r.1, { ar with pages := r.2 })
    else .ok (false, ar)
  else (freePages first count ar.pages).map fun ps => (false, { ar with pages := ps })

/-! ### Allocating -/

/-- The aligned size of a request, in 64-bit arithmetic. -/
def requestSize (dataSize offsetsSize : ℕ) : ℕ :=
  (ptrAlign dataSize + ptrAlign offsetsSize) % 2 ^ 64

def binderBestFit (L : Layout) (ar : Area) (size : ℕ) : Except Fault (Option ℕ × Bool) :=
  ar.freeBuffers.bestFit
    (fun a =>
      if ar.isFree a then .ok (compare size (binderBufferSize L ar a))
      else .error (.bug .allocBuf))
    none

/-- The part of `binder_alloc_buf` after the pages are there: take the buffer at
`a` out of the free ones and, when `split`, make what is left after `size` bytes
a buffer of its own. The source writes only `free` and the list entry of the new
header; its other fields are set when it is allocated in its turn. -/
def takeBuffer (L : Layout) (ar : Area) (a size : ℕ) (split : Bool)
    (dataSize offsetsSize : ℕ) (isAsync : Bool) : Except Fault Area := do
  let ar := { ar with
    freeBuffers := ar.freeBuffers.remove a
    buffers := modifyBuffer a (fun b => { b with free := false }) ar.buffers }
  let ar ← binderInsertAllocatedBuffer ar a
  let ar ←
    if split then
      let new : Buffer :=
        { addr := a + L.headerSize + size, free := true, allowUserFree := false,
          asyncTransaction := false, transaction := none, targetNode := none,
          dataSize := 0, offsetsSize := 0, data := fun _ => 0, offsets := [] }
      binderInsertFreeBuffer L { ar with buffers := insertAfter new a ar.buffers } new.addr
    else pure ar
  let buffers := modifyBuffer a
    (fun b => { b with
      dataSize := dataSize, offsetsSize := offsetsSize, asyncTransaction := isAsync })
    ar.buffers
  let space := if isAsync then ar.freeAsyncSpace - (size + L.headerSize) else ar.freeAsyncSpace
  return { ar with buffers := buffers, freeAsyncSpace := space }

/-- `binder_alloc_buf`: the address of the buffer, or `none` for `NULL`. -/
def binderAllocBuf (L : Layout) (ar : Area) (dataSize offsetsSize : ℕ) (isAsync : Bool)
    (env : PageEnv) : Except Fault (Option ℕ × Area) := do
  if !ar.vma then return (none, ar)
  let size := requestSize dataSize offsetsSize
  if size < dataSize || size < offsetsSize then return (none, ar)
  if isAsync && ar.freeAsyncSpace < (size + L.headerSize) % 2 ^ 64 then return (none, ar)
  match ← binderBestFit L ar size with
  | (none, _) => return (none, ar)
  | (some a, exact) =>
      let bufferSize := binderBufferSize L ar a
      let data := a + L.headerSize
      let hasPageAddr := L.pageMask (data + bufferSize)
      let used :=
        if exact then bufferSize
        else if size + L.headerSize + 4 ≥ bufferSize then size  -- no room for other buffers
        else size + L.headerSize
      let endPageAddr := min (L.pageAlign (data + used)) hasPageAddr
      let (mapped, ar) ← binderUpdatePageRange L ar true (L.pageAlign data) endPageAddr env
      if !mapped then return (none, ar)
      let ar ← takeBuffer L ar a size (used ≠ size) dataSize offsetsSize isAsync
      return (some a, ar)

/-! ### Freeing -/

def bufferStartPage (L : Layout) (a : ℕ) : ℕ := L.pageMask a

def bufferEndPage (L : Layout) (a : ℕ) : ℕ := L.pageMask (a + L.headerSize - 1)

/-- A page environment for calls that only free pages. -/
def PageEnv.unused : PageEnv := { mm := true, page := fun _ => true }

/-- The pages that `binder_delete_free_buffer` gives back when the header at `a`,
between the headers at `prev` and `next`, goes away: a page stays when the header
before or after is on it too. -/
def releaseHeaderPages (L : Layout) (ar : Area) (prev a : ℕ) (next : Option ℕ) :
    Except Fault Area :=
  let startPage := bufferStartPage L a
  let endPage := bufferEndPage L a
  let prevPage := bufferEndPage L prev
  let nextPage := next.map (bufferStartPage L)
  let freePageStart := prevPage ≠ startPage ∧
    ¬ (nextPage = some endPage ∧ nextPage = some startPage)
  let freePageEnd := ¬ (prevPage = startPage ∧ prevPage = endPage) ∧ nextPage ≠ some endPage
  if freePageStart ∨ freePageEnd then
    (binderUpdatePageRange L ar false
      (if freePageStart then startPage else endPage)
      ((if freePageEnd then endPage else startPage) + L.pageSize) PageEnv.unused).map Prod.snd
  else .ok ar

def binderDeleteFreeBuffer (L : Layout) (ar : Area) (a : ℕ) : Except Fault Area := do
  bugOn .deleteFreeBuffer (ar.buffers.head?.map Buffer.addr = some a)
  match prevBuffer ar.buffers a with
  | none => .error .badPointer
  | some prev => do
      bugOn .deleteFreeBuffer (!prev.free)
      releaseHeaderPages L { ar with buffers := removeBuffer a ar.buffers } prev.addr a
        ((nextBuffer ar.buffers a).map Buffer.addr)

/-- Merge the buffer at `a`, just marked free, with a free buffer after it. -/
def mergeNext (L : Layout) (ar : Area) (a : ℕ) : Except Fault Area :=
  match nextBuffer ar.buffers a with
  | none => .ok ar
  | some next =>
      if next.free then
        binderDeleteFreeBuffer L { ar with freeBuffers := ar.freeBuffers.remove next.addr }
          next.addr
      else .ok ar

/-- Merge the buffer at `a` with a free buffer before it; returns the address of
the buffer that is left. -/
def mergePrev (L : Layout) (ar : Area) (a : ℕ) : Except Fault (ℕ × Area) :=
  match prevBuffer ar.buffers a with
  | none => .ok (a, ar)
  | some prev =>
      if prev.free then
        (binderDeleteFreeBuffer L ar a).map fun ar =>
          (prev.addr, { ar with freeBuffers := ar.freeBuffers.remove prev.addr })
      else .ok (a, ar)

def binderFreeBuf (L : Layout) (ar : Area) (a : ℕ) : Except Fault Area :=
  match findBuffer ar.buffers a with
  | none => .error .badPointer
  | some b => do
      let bufferSize := binderBufferSize L ar a
      let size := requestSize b.dataSize b.offsetsSize
      bugOn .freeBuf b.free
      bugOn .freeBuf (size > bufferSize)
      bugOn .freeBuf b.transaction.isSome
      bugOn .freeBuf (a < ar.buffer)
      bugOn .freeBuf (a > ar.buffer + ar.bufferSize)
      let space := if b.asyncTransaction then ar.freeAsyncSpace + (size + L.headerSize)
        else ar.freeAsyncSpace
      let (_, ar) ← binderUpdatePageRange L { ar with freeAsyncSpace := space } false
        (L.pageAlign (a + L.headerSize)) (L.pageMask (a + L.headerSize + bufferSize)) PageEnv.unused
      let ar := { ar with
        allocatedBuffers := ar.allocatedBuffers.remove a
        buffers := modifyBuffer a (fun b => { b with free := true }) ar.buffers }
      let ar ← mergeNext L ar a
      let (left, ar) ← mergePrev L ar a
      binderInsertFreeBuffer L ar left

/-! ### Mapping -/

/-- The successful part of `binder_mmap` for a mapping of `size` bytes at the
kernel address `base`; the flag is false when the first page cannot be had. -/
def binderMmap (L : Layout) (base size : ℕ) (userOffset : ℤ) (env : PageEnv) :
    Except Fault (Bool × Area) := do
  let ar := { Area.unmapped with
    buffer := base, bufferSize := size, userBufferOffset := userOffset }
  let (mapped, ar) ← binderUpdatePageRange L ar true base
    (base + L.pageSize) { env with mm := true }
  if !mapped then return (false, Area.unmapped)
  let first : Buffer :=
    { addr := base, free := true, allowUserFree := false, asyncTransaction := false,
      transaction := none, targetNode := none, dataSize := 0, offsetsSize := 0,
      data := fun _ => 0, offsets := [] }
  let ar ← binderInsertFreeBuffer L { ar with buffers := [first] } base
  return (true, { ar with freeAsyncSpace := size / 2, vma := true })

end Driver

end BinderForLinux
