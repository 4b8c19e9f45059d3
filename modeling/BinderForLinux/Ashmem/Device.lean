import BinderForLinux.Library.Run
import Mathlib.Algebra.Order.Ring.Nat
import Mathlib.Logic.Function.Basic

/-!
# Anonymous shared memory

The device of `ashmem.c`: its areas, the unpinned ranges of each area and the list of all ranges
that may be purged. Areas and ranges are known by their addresses, which are not used again.
The lists are touched under `ashmem_mutex` only, so an operation is one step. Numbers are
`unsigned long` on a 64-bit machine; what the kernel decides (whether an allocation succeeds) is
an argument of the operation.
-/

namespace BinderForLinux

namespace Ashmem

def wordSize : ℕ := 2 ^ 64

def wadd (m n : ℕ) : ℕ := (m + n) % wordSize

def wsub (m n : ℕ) : ℕ := (m + (wordSize - n % wordSize)) % wordSize

def pageSize : ℕ := 4096

def pageAlign (n : ℕ) : ℕ := wadd n (pageSize - 1) / pageSize * pageSize

inductive Errno
  | enomem
  | einval
  | eperm
  deriving DecidableEq, Repr

/-! ### Protection bits -/

abbrev Flags := BitVec 64

def protRead : Flags := 1
def protWrite : Flags := 2
def protExec : Flags := 4

def protMask : Flags := protExec ||| protRead ||| protWrite

def vmRead : Flags := 0x1
def vmWrite : Flags := 0x2
def vmExec : Flags := 0x4
def vmShared : Flags := 0x8
def vmMayRead : Flags := 0x10
def vmMayWrite : Flags := 0x20
def vmMayExec : Flags := 0x40

def readImpliesExec : BitVec 32 := 0x0400000

def calcVmTrans (x bit1 bit2 : Flags) : Flags :=
  if bit1 ≤ bit2 then (x &&& bit1) * (bit2 / bit1) else (x &&& bit1) / (bit1 / bit2)

/-- `calc_vm_prot_bits`, where the architecture adds no bits. -/
def calcVmProtBits (prot : Flags) : Flags :=
  calcVmTrans prot protRead vmRead ||| calcVmTrans prot protWrite vmWrite |||
    calcVmTrans prot protExec vmExec

def calcVmMayFlags (prot : Flags) : Flags :=
  calcVmTrans prot protRead vmMayRead ||| calcVmTrans prot protWrite vmMayWrite |||
    calcVmTrans prot protExec vmMayExec

/-! ### The state -/

/-- `struct ashmem_range`; `purged` is `ASHMEM_WAS_PURGED`. -/
structure Range where
  asma : ℕ
  pgstart : ℕ
  pgend : ℕ
  purged : Bool
  deriving DecidableEq, Repr

/-- `struct ashmem_area`, with whether it has a file. -/
structure Area where
  unpinnedList : List ℕ
  file : Bool
  size : ℕ
  protMask : Flags
  deriving DecidableEq, Repr

structure State where
  range : ℕ → Range
  area : ℕ → Area
  /-- The areas that are open. -/
  opened : List ℕ
  ashmemLruList : List ℕ
  lruCount : ℕ
  /-- The next addresses of a range and of an area. -/
  nextRange : ℕ
  nextArea : ℕ

def State.init : State where
  range _ := ⟨0, 0, 0, false⟩
  area _ := ⟨[], false, 0, 0⟩
  opened := []
  ashmemLruList := []
  lruCount := 0
  nextRange := 0
  nextArea := 0

variable (s : State)

def State.setRange (r : ℕ) (x : Range) : State :=
  { s with range := Function.update s.range r x }

def State.setArea (a : ℕ) (x : Area) : State := { s with area := Function.update s.area a x }

def State.setUnpinned (a : ℕ) (l : List ℕ) : State :=
  s.setArea a { s.area a with unpinnedList := l }

/-! ### Ranges -/

namespace Range

def rangeSize (x : Range) : ℕ := wadd (wsub x.pgend x.pgstart) 1

def onLru (x : Range) : Bool := !x.purged

/-- `page_range_subsumes_range`. -/
def SubsumedBy (x : Range) (first last : ℕ) : Prop := first ≤ x.pgstart ∧ x.pgend ≤ last

/-- `page_range_subsumed_by_range`. -/
def Subsumes (x : Range) (first last : ℕ) : Prop := x.pgstart ≤ first ∧ last ≤ x.pgend

/-- `page_in_range`. -/
def HasPage (x : Range) (page : ℕ) : Prop := x.pgstart ≤ page ∧ page ≤ x.pgend

/-- `page_range_in_range`. -/
def Meets (x : Range) (first last : ℕ) : Prop :=
  x.HasPage first ∨ x.HasPage last ∨ x.SubsumedBy first last

/-- `range_before_page`. -/
def Before (x : Range) (page : ℕ) : Prop := x.pgend < page

instance (x : Range) (first last : ℕ) : Decidable (x.SubsumedBy first last) :=
  inferInstanceAs (Decidable (_ ∧ _))

instance (x : Range) (first last : ℕ) : Decidable (x.Subsumes first last) :=
  inferInstanceAs (Decidable (_ ∧ _))

instance (x : Range) (page : ℕ) : Decidable (x.HasPage page) :=
  inferInstanceAs (Decidable (_ ∧ _))

instance (x : Range) (first last : ℕ) : Decidable (x.Meets first last) :=
  inferInstanceAs (Decidable (_ ∨ _ ∨ _))

instance (x : Range) (page : ℕ) : Decidable (x.Before page) :=
  inferInstanceAs (Decidable (_ < _))

end Range

def lruAdd (r : ℕ) : State :=
  { s with
    ashmemLruList := s.ashmemLruList ++ [r]
    lruCount := wadd s.lruCount (s.range r).rangeSize }

def lruDel (r : ℕ) : State :=
  { s with
    ashmemLruList := s.ashmemLruList.erase r
    lruCount := wsub s.lruCount (s.range r).rangeSize }

/-- `list_add_tail` with a node of the list as its head: `r` is put before that node, and at the
end where the node is the head of the list itself. -/
def listAddTail (r : ℕ) (prev : Option ℕ) : List ℕ → List ℕ
  | [] => [r]
  | x :: l => if prev = some x then r :: x :: l else x :: listAddTail r prev l

/-- `range_alloc`; `none` is `-ENOMEM`. -/
def rangeAlloc (a : ℕ) (prevRange : Option ℕ) (purged : Bool) (start last : ℕ) (zalloc : Bool) :
    Option State :=
  if zalloc then
    let r := s.nextRange
    let s := { s with nextRange := r + 1 }.setRange r ⟨a, start, last, purged⟩
    let s := s.setUnpinned a (listAddTail r prevRange (s.area a).unpinnedList)
    some (if (s.range r).onLru then lruAdd s r else s)
  else none

def rangeDel (r : ℕ) : State :=
  let a := (s.range r).asma
  let s := s.setUnpinned a ((s.area a).unpinnedList.erase r)
  if (s.range r).onLru then lruDel s r else s

def rangeShrink (r start last : ℕ) : State :=
  let pre := (s.range r).rangeSize
  let s := s.setRange r { s.range r with pgstart := start, pgend := last }
  if (s.range r).onLru then
    { s with lruCount := wsub s.lruCount (wsub pre (s.range r).rangeSize) }
  else s

/-! ### Pinning and unpinning -/

/-- The loop of `ashmem_pin`. The next range is read before the body runs, which takes no range
out of the list but the current one. -/
def pinLoop (a pgstart pgend : ℕ) (zalloc : Bool) : List ℕ → State → Bool → State × Bool
  | [], s, ret => (s, ret)
  | r :: rest, s, ret =>
      let x := s.range r
      if x.Before pgstart then (s, ret)
      else if x.Meets pgstart pgend then
        let ret := ret || x.purged
        if x.SubsumedBy pgstart pgend then
          pinLoop a pgstart pgend zalloc rest (rangeDel s r) ret
        else if pgstart ≤ x.pgstart then
          pinLoop a pgstart pgend zalloc rest (rangeShrink s r (wadd pgend 1) x.pgend) ret
        else if x.pgend ≤ pgend then
          pinLoop a pgstart pgend zalloc rest (rangeShrink s r x.pgstart (wsub pgstart 1)) ret
        else
          -- the result of `range_alloc` is not looked at
          let s := (rangeAlloc s a (some r) x.purged (wadd pgend 1) x.pgend zalloc).getD s
          (rangeShrink s r (s.range r).pgstart (wsub pgstart 1), ret)
      else pinLoop a pgstart pgend zalloc rest s ret

/-- Whether a page was purged is what is returned. -/
def ashmemPin (a pgstart pgend : ℕ) (zalloc : Bool) : State × Bool :=
  pinLoop a pgstart pgend zalloc (s.area a).unpinnedList s false

/-- How one scan of the list ends in `ashmem_unpin`. -/
inductive Scan
  /-- The new range goes before this one, or to the end. -/
  | place (prevRange : Option ℕ)
  /-- All pages are unpinned. -/
  | covered
  /-- The range is merged. -/
  | merge (r : ℕ)
  deriving DecidableEq, Repr

def unpinScan (range : ℕ → Range) (pgstart pgend : ℕ) : List ℕ → Scan
  | [] => .place none
  | r :: rest =>
      if (range r).Before pgstart then .place (some r)
      else if (range r).Subsumes pgstart pgend then .covered
      else if (range r).Meets pgstart pgend then .merge r
      else unpinScan range pgstart pgend rest

/-- `ashmem_unpin` from the label `restart` on. A restart takes a range out of the list, so there
are at most as many as there are ranges. -/
def unpinLoop (a : ℕ) (zalloc : Bool) :
    ℕ → State → ℕ → ℕ → Bool → Option (State × Except Errno Unit)
  | fuel, s, pgstart, pgend, purged =>
      match unpinScan s.range pgstart pgend (s.area a).unpinnedList with
      | .covered => some (s, .ok ())
      | .place prev =>
          match rangeAlloc s a prev purged pgstart pgend zalloc with
          | some s' => some (s', .ok ())
          | none => some (s, .error .enomem)
      | .merge r =>
          match fuel with
          | 0 => none
          | fuel + 1 =>
              let x := s.range r
              unpinLoop a zalloc fuel (rangeDel s r) (min x.pgstart pgstart) (max x.pgend pgend)
                (purged || x.purged)

def ashmemUnpin (a pgstart pgend : ℕ) (zalloc : Bool) : Option (State × Except Errno Unit) :=
  unpinLoop a zalloc (s.area a).unpinnedList.length s pgstart pgend false

def ashmemGetPinStatus (range : ℕ → Range) (pgstart pgend : ℕ) : List ℕ → Bool
  | [] => true
  | r :: rest =>
      if (range r).Before pgstart then true
      else if (range r).Meets pgstart pgend then false
      else ashmemGetPinStatus range pgstart pgend rest

inductive PinCmd
  | pin
  | unpin
  | getPinStatus
  deriving DecidableEq, Repr

/-- The checks of `ashmem_pin_unpin`: the first and the last page. -/
def pinInterval (x : Area) (offset len : UInt32) : Option (ℕ × ℕ) :=
  let len := if len.toNat = 0 then wsub (pageAlign x.size) offset.toNat % 2 ^ 32 else len.toNat
  if x.file = false then none
  else if (offset.toNat ||| len) % pageSize ≠ 0 then none
  else if 2 ^ 32 - 1 - offset.toNat < len then none
  else if pageAlign x.size < offset.toNat + len then none
  else
    let pgstart := offset.toNat / pageSize
    some (pgstart, wsub (wadd pgstart (len / pageSize)) 1)

/-- What an operation returns. -/
inductive Reply
  | done
  | wasPurged (b : Bool)
  | isPinned (b : Bool)
  | error (e : Errno)
  deriving DecidableEq, Repr

def Reply.ofExcept : Except Errno Unit → Reply
  | .ok _ => .done
  | .error e => .error e

def ashmemPinUnpin (a : ℕ) (cmd : PinCmd) (offset len : UInt32) (zalloc : Bool) :
    Option (State × Reply) :=
  match pinInterval (s.area a) offset len with
  | none => some (s, .error .einval)
  | some (pgstart, pgend) =>
      match cmd with
      | .pin =>
          let (s, ret) := ashmemPin s a pgstart pgend zalloc
          some (s, .wasPurged ret)
      | .unpin => (ashmemUnpin s a pgstart pgend zalloc).map fun r => (r.1, .ofExcept r.2)
      | .getPinStatus =>
          some (s, .isPinned
            (ashmemGetPinStatus s.range pgstart pgend (s.area a).unpinnedList))

/-! ### The shrinker -/

/-- The loop of `ashmem_shrink_scan`; `nr` is `nr_to_scan`, which is unsigned. -/
def shrinkLoop : List ℕ → ℕ → State → ℕ → State × ℕ
  | [], _, s, freed => (s, freed)
  | r :: rest, nr, s, freed =>
      let s := s.setRange r { s.range r with purged := true }
      let s := lruDel s r
      let freed := wadd freed (s.range r).rangeSize
      let nr := wsub nr 1
      if nr = 0 then (s, freed) else shrinkLoop rest nr s freed

/-- `ashmem_shrink_scan`; `none` is `SHRINK_STOP`. -/
def ashmemShrinkScan (gfpFs : Bool) (nrToScan : ℕ) : State × Option ℕ :=
  if gfpFs then
    let (s, freed) := shrinkLoop s.ashmemLruList nrToScan s 0
    (s, some freed)
  else (s, none)

/-! ### Areas -/

/-- An area takes more than `2 ^ 8` of at most `2 ^ 52` bytes of memory, so there are fewer
than this. -/
def maxAreas : ℕ := 2 ^ 44

def ashmemOpen (zalloc : Bool) : State × Except Errno ℕ :=
  if zalloc ∧ s.opened.length + 1 < maxAreas then
    let a := s.nextArea
    let s := { s with nextArea := a + 1, opened := a :: s.opened }
    (s.setArea a ⟨[], false, 0, Ashmem.protMask⟩, .ok a)
  else (s, .error .enomem)

def ashmemRelease (a : ℕ) : State :=
  let s := (s.area a).unpinnedList.foldl rangeDel s
  { s with opened := s.opened.erase a }

def setSize (a n : ℕ) : State × Except Errno Unit :=
  if (s.area a).file then (s, .error .einval)
  else (s.setArea a { s.area a with size := n % wordSize }, .ok ())

def setProtMask (a : ℕ) (prot : Flags) (personality : BitVec 32) : State × Except Errno Unit :=
  if (s.area a).protMask &&& prot ≠ prot then (s, .error .einval)
  else
    let prot :=
      if prot &&& protRead ≠ 0 ∧ personality &&& readImpliesExec ≠ 0 then prot ||| protExec
      else prot
    (s.setArea a { s.area a with protMask := prot }, .ok ())

/-- `ashmem_mmap`; the flags of the mapping are returned. `shmemFileSetup` and `shmemZeroSetup`
say what the functions of these names return. -/
def ashmemMmap (a : ℕ) (vmFlags : Flags) (shmemFileSetup shmemZeroSetup : Except Errno Unit) :
    State × Except Errno Flags :=
  if (s.area a).size = 0 then (s, .error .einval)
  else if vmFlags &&& ~~~calcVmProtBits (s.area a).protMask &&& calcVmProtBits Ashmem.protMask ≠ 0
  then (s, .error .eperm)
  else
    let vmFlags := vmFlags &&& ~~~calcVmMayFlags (~~~(s.area a).protMask)
    match (if (s.area a).file then .ok () else shmemFileSetup : Except Errno Unit) with
    | .error e => (s, .error e)
    | .ok _ =>
        let s := s.setArea a { s.area a with file := true }
        match (if vmFlags &&& vmShared ≠ 0 then shmemZeroSetup else .ok () : Except Errno Unit) with
        | .error e => (s, .error e)
        | .ok _ => (s, .ok vmFlags)

/-! ### The device -/

/-- The operations on an area are operations on an open file. `ASHMEM_PURGE_ALL_CACHES` is a
`shrinkScan` too. -/
inductive Op
  | open (zalloc : Bool)
  | release (a : ℕ)
  | setSize (a n : ℕ)
  | setProtMask (a : ℕ) (prot : Flags) (personality : BitVec 32)
  | mmap (a : ℕ) (vmFlags : Flags) (shmemFileSetup shmemZeroSetup : Except Errno Unit)
  | pinUnpin (a : ℕ) (cmd : PinCmd) (offset len : UInt32) (zalloc : Bool)
  | shrinkScan (gfpFs : Bool) (nrToScan : ℕ)

/-- Why a step is not taken: the area is not open, or the code does not return. -/
inductive Stuck
  | notOpen
  | loops
  deriving DecidableEq, Repr

def Op.asma : Op → Option ℕ
  | .open _ | .shrinkScan _ _ => none
  | .release a | .setSize a _ | .setProtMask a _ _ | .mmap a _ _ _ | .pinUnpin a _ _ _ _ => some a

def apply : Op → Except Stuck State
  | .open zalloc => .ok (ashmemOpen s zalloc).1
  | .release a => .ok (ashmemRelease s a)
  | .setSize a n => .ok (setSize s a n).1
  | .setProtMask a prot personality => .ok (setProtMask s a prot personality).1
  | .mmap a vmFlags shmemFileSetup shmemZeroSetup =>
      .ok (ashmemMmap s a vmFlags shmemFileSetup shmemZeroSetup).1
  | .pinUnpin a cmd offset len zalloc =>
      match ashmemPinUnpin s a cmd offset len zalloc with
      | some (s, _) => .ok s
      | none => .error .loops
  | .shrinkScan gfpFs nrToScan => .ok (ashmemShrinkScan s gfpFs nrToScan).1

def step (op : Op) : Except Stuck State :=
  match op.asma with
  | none => apply s op
  | some a => if a ∈ s.opened then apply s op else .error .notOpen

end Ashmem

end BinderForLinux
