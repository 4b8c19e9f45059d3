import BinderForLinux.TextOutput.Lines
import BinderForLinux.Library.Run
import Mathlib.Logic.Function.Basic

/-!
# Text outputs

The outputs that one thread uses. An output for several threads finds the buffer of the thread by
its index, and knows it by its sequence number; indices are used again. Outputs are known by the
order in which they were made, and `gSequence` is counted without end; of both an output gets what
fits into an `int32_t`.
-/

namespace BinderForLinux

namespace TextOutput

open Library

/-- `BufferedTextOutput`, with what its `writeLines` was given. -/
structure Output where
  multithreaded : Bool
  seq : ℤ
  index : ℕ
  globalState : BufferState
  written : Written

structure State where
  gSequence : ℕ
  gFreeBufferIndex : ℤ
  gTextBuffers : List ℤ
  outputs : ℕ → Option Output
  /-- `ThreadState::states`. -/
  states : List (Option BufferState)

def State.init : State := ⟨0, -1, [], fun _ => none, []⟩

namespace State

variable (s : State)

def allocBufferIndex : State × ℕ :=
  if 0 ≤ s.gFreeBufferIndex then
    let res := s.gFreeBufferIndex.toNat
    ({ s with
      gFreeBufferIndex := s.gTextBuffers.getD res (-1)
      gTextBuffers := s.gTextBuffers.set res (-1) }, res)
  else ({ s with gTextBuffers := s.gTextBuffers ++ [-1] }, s.gTextBuffers.length)

def freeBufferIndex (idx : ℕ) : State :=
  { s with
    gTextBuffers := s.gTextBuffers.set idx s.gFreeBufferIndex
    gFreeBufferIndex := idx }

def create (multithreaded : Bool) : State :=
  let seq := int32 s.gSequence
  let r := s.allocBufferIndex
  { r.1 with
    gSequence := s.gSequence + 1
    outputs := Function.update s.outputs s.gSequence
      (some ⟨multithreaded, seq, r.2, .new seq s.gSequence, ⟨[], 0⟩⟩) }

def destroy (id : ℕ) : State :=
  match s.outputs id with
  | none => s
  | some o => { s.freeBufferIndex o.index with outputs := Function.update s.outputs id none }

def threadState (states : List (Option BufferState)) (index : ℕ) : Option BufferState :=
  states.getD index none

def getBuffer (id : ℕ) (o : Output) : List (Option BufferState) × BufferState :=
  if o.multithreaded = true then
    let states := s.states ++ List.replicate (o.index + 1 - s.states.length) none
    let bs := BufferState.new (int32 o.index) id
    match threadState states o.index with
    | none => (states.set o.index (some bs), bs)
    | some b =>
        if b.seq = o.seq then (states, b) else (states.set o.index (some bs), bs)
  else (s.states, o.globalState)

def withBuffer (id : ℕ)
    (f : BufferState → Written → Except Fault (BufferState × Written)) : Except Fault State :=
  match s.outputs id with
  | none => .ok s
  | some o =>
      let r := s.getBuffer id o
      match f r.2 o.written with
      | .error e => .error e
      | .ok (b, out) =>
          if o.multithreaded = true then
            .ok { s with
              states := r.1.set o.index (some b)
              outputs := Function.update s.outputs id (some { o with written := out }) }
          else
            .ok { s with
              outputs := Function.update s.outputs id
                (some { o with globalState := b, written := out }) }

end State

inductive Op
  | create (multithreaded : Bool)
  | destroy (id : ℕ)
  | print (id : ℕ) (txt : List UInt8) (behind : UInt8)
  | moveIndent (id : ℕ) (delta : ℤ)
  | pushBundle (id : ℕ)
  | popBundle (id : ℕ)

def State.step (s : State) : Op → Except Fault State
  | .create multithreaded => .ok (s.create multithreaded)
  | .destroy id => .ok (s.destroy id)
  | .print id txt behind => s.withBuffer id (TextOutput.print txt behind)
  | .moveIndent id delta => s.withBuffer id fun b out => .ok (TextOutput.moveIndent delta b, out)
  | .pushBundle id => s.withBuffer id fun b out => .ok (TextOutput.pushBundle b, out)
  | .popBundle id => s.withBuffer id fun b out => .ok (TextOutput.popBundle b out)

/-! ### What is printed -/

/-- The outputs, and what was printed on each. -/
structure Run where
  code : State
  texts : ℕ → Text

def Run.init : Run := ⟨.init, fun _ => ⟨[], 0⟩⟩

def Run.printed (r : Run) : Op → ℕ → Text
  | .print id txt _ => Function.update r.texts id ((r.texts id).print txt)
  | .moveIndent id delta => Function.update r.texts id ((r.texts id).moveIndent delta)
  | _ => r.texts

def Run.step (r : Run) (op : Op) : Except Fault Run :=
  match r.code.step op with
  | .error e => .error e
  | .ok s => .ok ⟨s, r.printed op⟩

/-- The buffer that holds what the output has not written. -/
def State.current (s : State) (id : ℕ) (o : Output) : BufferState :=
  if o.multithreaded = true then
    match State.threadState s.states o.index with
    | none => .new (int32 o.index) id
    | some b => if b.owner = id then b else .new (int32 o.index) id
  else o.globalState

end TextOutput

end BinderForLinux
