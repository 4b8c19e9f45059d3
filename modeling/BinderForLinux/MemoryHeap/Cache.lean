import BinderForLinux.Library.Run
import Mathlib.Logic.Function.Basic

/-!
# The cache of mapped heaps

A `BpMemoryHeap` does not map the memory itself. The first one for a binder has `gHeapCache` make
another one, the real heap, which does, and all of them copy its `mBase`. An entry of the cache
counts them. A call of `assertMapped` is interrupted wherever it takes or leaves a lock or reads
what another thread may write, so each such place has a constructor of `Pc`. `none` is the
descriptor `-1` and the address `MAP_FAILED`.
-/

namespace BinderForLinux

namespace MemoryHeap

open Library

/-- `BpMemoryHeap`, with what refers to it from outside. -/
structure Heap where
  binder : ℕ
  heapId : Option ℕ
  base : Option ℕ
  realHeap : Bool
  locked : Bool
  held : Bool
  live : Bool

/-- What `interface_cast` makes for a binder that is not local. -/
def Heap.new (binder : ℕ) (held : Bool) : Heap := ⟨binder, none, none, false, false, held, true⟩

/-- `heap_info_t`. -/
structure HeapInfo where
  heap : ℕ
  count : ℕ
  deriving DecidableEq

/-- Where a call of `assertMapped` is, with the heap it found. -/
inductive Pc
  | findHeap
  | really (heap : ℕ)
  | map (heap : ℕ)
  | mapped (heap fd : ℕ)
  | test (heap : ℕ)
  | store (heap : ℕ)
  | stored (heap : ℕ)
  | freeHeap (heap : ℕ)
  deriving DecidableEq

structure Call where
  this : ℕ
  pc : Pc
  deriving DecidableEq

/-- The objects by their addresses, the cache, and the calls in progress. -/
structure State where
  obj : ℕ → Heap
  next : ℕ
  cache : ℕ → Option HeapInfo
  calls : List Call

def State.init : State := ⟨fun _ => { Heap.new 0 false with live := false }, 0, fun _ => none, []⟩

/-- The step is not possible now. -/
inductive Fault
  | blocked
  deriving DecidableEq

variable (s : State)

def State.setObj (o : ℕ) (x : Heap) : State := { s with obj := Function.update s.obj o x }

def State.setCache (b : ℕ) (e : Option HeapInfo) : State :=
  { s with cache := Function.update s.cache b e }

def State.setCall (i : ℕ) (c : Call) : State := { s with calls := s.calls.set i c }

def State.endCall (i : ℕ) : State := { s with calls := s.calls.eraseIdx i }

/-- `interface_cast`. -/
def newHeap (b : ℕ) (held : Bool) : State :=
  { s.setObj s.next (Heap.new b held) with next := s.next + 1 }

def findHeap (b : ℕ) : State × ℕ :=
  match s.cache b with
  | some e => (s.setCache b (some { e with count := e.count + 1 }), e.heap)
  | none => ((newHeap s b false).setCache b (some ⟨s.next, 1⟩), s.next)

def freeHeap (b : ℕ) : State :=
  match s.cache b with
  | some e => s.setCache b (if e.count = 1 then none else some { e with count := e.count - 1 })
  | none => s

/-- What `mmap` and `dup` return. -/
structure Outcome where
  /-- The address, and the descriptor that was mapped. -/
  mmap : Option (ℕ × ℕ)
  dup : Option ℕ

/-- The next step of `assertMapped`, and of `assertReallyMapped`, which it calls. -/
def advance (i : ℕ) (c : Call) (out : Outcome) : Except Fault State :=
  let b := (s.obj c.this).binder
  match c.pc with
  | .findHeap =>
      let r := findHeap s b
      .ok (r.1.setCall i { c with pc := .really r.2 })
  | .really heap =>
      .ok (s.setCall i { c with
        pc := if (s.obj heap).heapId = none then .map heap else .test heap })
  | .map heap =>
      let x := s.obj heap
      if x.locked = true then .error .blocked
      else if x.heapId = none then
        match out.mmap with
        | some r => .ok ((s.setObj heap { x with
            realHeap := true, base := some r.1, locked := true }).setCall i
              { c with pc := .mapped heap r.2 })
        | none => .ok ((s.setObj heap { x with realHeap := true, base := none }).setCall i
              { c with pc := .test heap })
      else .ok (s.setCall i { c with pc := .test heap })
  | .mapped heap fd =>
      .ok ((s.setObj heap { s.obj heap with heapId := some fd, locked := false }).setCall i
        { c with pc := .test heap })
  | .test heap =>
      .ok (s.setCall i
        { c with pc := if (s.obj heap).base = none then .freeHeap heap else .store heap })
  | .store heap =>
      let x := s.obj c.this
      if x.locked = true then .error .blocked
      else if x.heapId = none then
        .ok ((s.setObj c.this { x with base := (s.obj heap).base, locked := true }).setCall i
          { c with pc := .stored heap })
      else .ok (s.endCall i)
  | .stored heap =>
      -- `dup` has nothing to duplicate before the heap has its descriptor
      let fd := if (s.obj heap).heapId = none then none else out.dup
      .ok ((s.setObj c.this { s.obj c.this with heapId := fd, locked := false }).endCall i)
  | .freeHeap _ => .ok ((freeHeap s b).endCall i)

def Call.Uses (c : Call) (o : ℕ) : Prop :=
  c.this = o ∨ match c.pc with
    | .findHeap => False
    | .really heap | .map heap | .mapped heap _ | .test heap | .store heap | .stored heap
    | .freeHeap heap => heap = o

instance (c : Call) (o : ℕ) : Decidable (c.Uses o) := by
  unfold Call.Uses
  cases c.pc <;> exact inferInstance

def Referenced (o : ℕ) : Prop :=
  (s.obj o).held = true ∨ (s.cache (s.obj o).binder).map HeapInfo.heap = some o ∨
    ∃ c ∈ s.calls, c.Uses o

instance (o : ℕ) : Decidable (Referenced s o) := by
  unfold Referenced
  exact inferInstance

/-- `~BpMemoryHeap`. A real heap is unmapped. -/
def destroy (o : ℕ) : State :=
  let x := s.obj o
  let s := s.setObj o { x with live := false }
  if x.heapId ≠ none ∧ x.realHeap = false then freeHeap s x.binder else s

inductive Op
  | interfaceCast (b : ℕ)
  | getHeap (b : ℕ)
  | assertMapped (o : ℕ)
  | advance (i : ℕ) (out : Outcome)
  | drop (o : ℕ)
  | destroy (o : ℕ)

/-- `get_heap` gives the heap of the cache to the caller, or makes one for it alone. -/
def getHeap (b : ℕ) : State :=
  match s.cache b with
  | some e => s.setObj e.heap { s.obj e.heap with held := true }
  | none => newHeap s b true

/-- A step of one of the threads. An object is used by who holds it, and destroyed when nobody
refers to it. -/
def step : Op → Except Fault State
  | .interfaceCast b => .ok (newHeap s b true)
  | .getHeap b => .ok (getHeap s b)
  | .assertMapped o =>
      if (s.obj o).live = true ∧ (s.obj o).held = true then
        if (s.obj o).heapId = none then .ok { s with calls := ⟨o, .findHeap⟩ :: s.calls } else .ok s
      else .error .blocked
  | .advance i out =>
      match s.calls[i]? with
      | some c => advance s i c out
      | none => .error .blocked
  | .drop o =>
      if (s.obj o).live = true ∧ (s.obj o).held = true then
        .ok (s.setObj o { s.obj o with held := false })
      else .error .blocked
  | .destroy o =>
      if (s.obj o).live = true ∧ ¬ Referenced s o then .ok (destroy s o) else .error .blocked

end MemoryHeap

end BinderForLinux
