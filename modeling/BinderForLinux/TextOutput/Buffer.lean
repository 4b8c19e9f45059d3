import Mathlib.Algebra.Order.Ring.Nat
import Mathlib.Data.Int.Notation
import Mathlib.Data.Nat.Notation
import Mathlib.Tactic.Common

/-!
# Buffers of text outputs

A `BufferedTextOutput` collects what is printed in a `BufferState` until a line is complete. Lines
that are complete from the start go past the buffer. Texts are lists of the caller's bytes; of what
lies behind them only the first byte matters.
-/

namespace BinderForLinux

namespace TextOutput

def sizeT : ℕ := 2 ^ 64

def int32 (n : ℤ) : ℤ := Int.bmod n (2 ^ 32)

def newline : UInt8 := 10

/-- No memory, or bytes outside of an array are accessed. -/
inductive Fault
  | noMemory
  | outside
  deriving DecidableEq, Repr

/-- `BufferState`, with the bytes before `bufferPos`. -/
structure BufferState where
  seq : ℤ
  buffer : List UInt8
  bufferSize : ℕ
  atFront : Bool
  indent : ℤ
  bundle : ℤ
  /-- The output that made the state, which the code does not keep. -/
  owner : ℕ
  deriving DecidableEq, Repr

def BufferState.new (seq : ℤ) (owner : ℕ) : BufferState := ⟨seq, [], 0, true, 0, 0, owner⟩

/-- What `writeLines` was given, and how many bytes outside of the texts were among it. -/
structure Written where
  lines : List (List UInt8)
  outside : ℕ
  deriving DecidableEq, Repr

def Written.write (out : Written) (line : List UInt8) : Written :=
  { out with lines := out.lines ++ [line] }

namespace BufferState

variable (b : BufferState)

/-- `memcpy` to the end of what is buffered. -/
def copy (txt : List UInt8) : Except Fault BufferState :=
  if txt.length + b.buffer.length ≤ b.bufferSize then .ok { b with buffer := b.buffer ++ txt }
  else .error .outside

def append (txt : List UInt8) : Except Fault BufferState :=
  let needed := (txt.length + b.buffer.length) % sizeT
  if b.bufferSize < needed then
    let newSize := needed * 3 % sizeT / 2
    if newSize < needed then .error .noMemory
    else copy { b with bufferSize := newSize } txt
  else copy b txt

def restart : BufferState :=
  { b with buffer := [], atFront := true, bufferSize := min b.bufferSize 256 }

end BufferState

def indentStr : List UInt8 := List.replicate 152 32

/-- `stringForIndent`, unless what it returns lies outside of `indentStr`. -/
def stringForIndent (indentLevel : ℤ) : Option (List UInt8) :=
  let off := (indentStr.length : ℤ) - int32 (indentLevel * 2)
  let off := if off < 0 then 0 else off
  if off ≤ indentStr.length then some (indentStr.drop off.toNat) else none

/-! ### Printing -/

def firstLine (txt : List UInt8) : List UInt8 :=
  txt.takeWhile (fun c => c ≠ newline) ++
    (txt.dropWhile fun c => c ≠ newline).takeWhile fun c => c = newline

def addIndent (b : BufferState) : Except Fault BufferState :=
  if b.atFront = true ∧ 0 < b.indent then
    match stringForIndent b.indent with
    | none => .error .outside
    | some spaces => b.append spaces
  else .ok b

/-- The text is appended, and written out if it ends a line outside of bundles. -/
def addLine (b : BufferState) (first : List UInt8) (out : Written) :
    Except Fault (BufferState × Written) :=
  match b.append first with
  | .error e => .error e
  | .ok b =>
      let b := { b with atFront := first.getLast? = some newline }
      if b.atFront = true ∧ b.bundle = 0 then .ok (b.restart, out.write b.buffer) else .ok (b, out)

/-- Where the last line ends, from the position and the end that was found so far. -/
def slurp : List UInt8 → ℕ → ℕ → ℕ
  | [], _, lastLine => lastLine
  | c :: txt, pos, lastLine => slurp txt (pos + 1) (if c = newline then pos + 1 else lastLine)

/-- The complete line that is written past the buffer. -/
def Direct (b : BufferState) (first : List UInt8) : Prop :=
  b.atFront = true ∧ ¬ 0 < b.indent ∧ first.getLast? = some newline ∧ b.bundle = 0

instance (b : BufferState) (first : List UInt8) : Decidable (Direct b first) :=
  inferInstanceAs (Decidable (_ ∧ _))

/-- The loop of `print`, with or without its fast path, where `behind` follows the text. -/
def printLoop (fast : Bool) (behind : UInt8) :
    ℕ → List UInt8 → BufferState → Written → Except Fault (BufferState × Written)
  | 0, _, b, out => .ok (b, out)
  | fuel + 1, txt, b, out =>
      if txt = [] then .ok (b, out)
      else
        let first := firstLine txt
        let txt := txt.drop first.length
        if fast = true ∧ Direct b first then
          let lastLine := slurp txt 0 1
          let out := out.write (first ++ (txt ++ [behind]).take lastLine)
          printLoop fast behind fuel (txt.drop lastLine) b
            { out with outside := out.outside + (lastLine - txt.length) }
        else
          match addIndent b with
          | .error e => .error e
          | .ok b =>
              match addLine b first out with
              | .error e => .error e
              | .ok (b, out) => printLoop fast behind fuel txt b out

/-- `print`. Every round of its loop reads at least a byte. -/
def print (txt : List UInt8) (behind : UInt8) (b : BufferState) (out : Written) :
    Except Fault (BufferState × Written) :=
  printLoop true behind txt.length txt b out

/-! ### Levels -/

def moveIndent (delta : ℤ) (b : BufferState) : BufferState :=
  let indent := int32 (b.indent + delta)
  { b with indent := if indent < 0 then 0 else indent }

def pushBundle (b : BufferState) : BufferState := { b with bundle := int32 (b.bundle + 1) }

def popBundle (b : BufferState) (out : Written) : BufferState × Written :=
  let bundle := int32 (b.bundle - 1)
  let b := { b with bundle := if bundle < 0 then 0 else bundle }
  if b.bundle = 0 ∧ b.buffer ≠ [] ∧ b.atFront = true then (b.restart, out.write b.buffer)
  else (b, out)

end TextOutput

end BinderForLinux
