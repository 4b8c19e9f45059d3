import Mathlib.Algebra.Order.Ring.Nat
import Mathlib.Data.Int.Notation
import Mathlib.Data.Nat.Notation
import Mathlib.Tactic.Common

/-!
# Dumps of bytes

`printHexData` prints the bytes of a buffer in lines, each of which is put together in an array of
256 characters. The bytes of a line come in groups of the alignment, each with its last byte first.
A `Line` keeps beside its characters which bytes were read for it, and of which of them it has the
digits.
-/

namespace BinderForLinux

namespace Debug

/-- The bytes at the offsets from `buf`, also where they are not of the buffer. -/
abbrev Bytes := ℕ → UInt8

/-- What is between `buffer` and `c`. -/
structure Line where
  text : List Char
  reads : List ℕ
  digits : List ℕ

/-- What the print function is called with; an indentation is what `stringForIndent` returns. -/
inductive Output
  | text (txt : String)
  | indent (indentLevel : ℤ)
  | line (l : Line)

/-- What is the same for all lines. -/
structure Format where
  bytesPerLine : ℕ
  alignment : ℕ
  cStyle : Bool
  oneLine : Bool

def makehexdigit (val : ℕ) : Char := "0123456789abcdef".toList.getD (val &&& 0xF) ' '

def bufferSize : ℕ := 256

def maxBytesPerLine : ℕ := (bufferSize - 1 - 11 - 4) / (3 + 1)

def int32 (n : ℕ) : ℤ := (n : ℤ).bmod (2 ^ 32)

variable (mem : Bytes) (f : Format)

namespace Line

variable (l : Line)

def put (cs : List Char) : Line := { l with text := l.text ++ cs }

def putDigits (off : ℕ) : Line :=
  let val := (mem off).toNat
  { text := l.text ++ [makehexdigit (val >>> 4), makehexdigit val]
    reads := l.reads ++ [off]
    digits := l.digits ++ [off] }

def putChar (off : ℕ) : Line :=
  let val := (mem off).toNat
  { l with
    text := l.text ++ [if 32 ≤ val ∧ val < 127 then Char.ofNat val else '.']
    reads := l.reads ++ [off] }

end Line

/-- `"0x%08x: "`. -/
def offsetText (offset : ℕ) : List Char :=
  ['0', 'x'] ++ (List.range 8).map (fun i => makehexdigit (offset >>> (28 - 4 * i))) ++ [':', ' ']

/-- One round of the loop over `index`; `start` is the offset of the line, and `remain` goes with
the line. -/
def printByte (start word : ℕ) (s : Line × ℤ) (index : ℕ) : Line × ℤ :=
  let startIndex := word + (f.alignment - 1)
  if f.cStyle = false then
    let l := if index = 0 ∧ 0 < word then s.1.put [' '] else s.1
    if 0 < s.2 then (l.putDigits mem (start + startIndex - index), s.2 - 1)
    else if f.oneLine = false then (l.put [' ', ' '], s.2 - 1)
    else (l, s.2 - 1)
  else if 0 < s.2 then
    let l := if index = 0 ∧ 0 < word then s.1.put [',', ' '] else s.1
    let l := if index = 0 then l.put ['0', 'x'] else l
    (l.putDigits mem (start + startIndex - index), s.2 - 1)
  else s

/-- The loop over `index`. The alignment is not zero here. -/
def printGroup (start word : ℕ) (s : Line × ℤ) : Line × ℤ :=
  (List.range f.alignment).foldl (printByte mem f start word) s

/-- The loop over `word`, of at most so many rounds. -/
def printGroups (start : ℕ) : ℕ → ℕ → Line × ℤ → Line × ℤ
  | 0, _, s => s
  | n + 1, word, s =>
      if word < f.bytesPerLine then
        printGroups start n (word + f.alignment) (printGroup mem f start word s)
      else s

/-- One round of the loop over the characters of a line. -/
def printChar (start : ℕ) (s : Line × ℤ) (index : ℕ) : Line × ℤ :=
  if 0 < s.2 then (s.1.putChar mem (start + index), s.2 - 1)
  else if f.oneLine = false then (s.1.put [' '], s.2 - 1)
  else (s.1, s.2 - 1)

def newLine (start : ℕ) : Line :=
  if f.oneLine = false ∧ f.cStyle = false then ⟨offsetText start, [], []⟩ else ⟨[], [], []⟩

/-- The line of the bytes from `start` on, of which `length` are left. -/
def printLine (start length : ℕ) : Line :=
  let s := printGroups mem f start f.bytesPerLine 0 (newLine f start, length)
  if f.cStyle = false then
    let l := s.1.put [' ', '\'']
    let s := (List.range f.bytesPerLine).foldl (printChar mem f start) (l, length)
    let l := s.1.put ['\'']
    if f.bytesPerLine < length then l.put ['\n'] else l
  else
    let l := if 0 < s.2 then s.1.put [','] else s.1
    l.put ['\n']

/-- The loop over the lines, of at most so many; it returns nothing if it goes on after them. -/
def printLines (indent : ℤ) : ℕ → ℕ → ℕ → Bool → Option (List Output)
  | 0, _, _, _ => none
  | n + 1, offset, length, newLine =>
      let out := (if newLine = true ∧ indent ≠ 0 then [.indent indent] else []) ++
        [.line (printLine mem f offset length)]
      if length ≤ f.bytesPerLine then some out
      else (printLines indent n (offset + f.bytesPerLine) (length - f.bytesPerLine) true).map
        (out ++ ·)

/-- The alignment that is taken where none is given. -/
def defaultAlignment (alignment bytesPerLine : ℕ) : ℕ :=
  if alignment = 0 then
    if 16 ≤ bytesPerLine then 4 else if 8 ≤ bytesPerLine then 2 else 1
  else alignment

/-- `printHexData`. The braces of the source's texts are written by their codes. -/
def printHexData (indent : ℤ) (buf : Option Bytes) (length bytesPerLine : ℕ)
    (singleLineBytesCutoff : ℤ) (alignment : ℕ) (cStyle : Bool) : Option (List Output) :=
  let alignment := defaultAlignment alignment bytesPerLine
  let cutoff : List Output := if singleLineBytesCutoff < 0 then [.text "\n"] else []
  match buf with
  | none => some (cutoff ++ [.text "(NULL)"])
  | some mem =>
      if length = 0 then some (cutoff ++ [.text "(empty)"])
      else if int32 length < 0 then
        some (cutoff ++ [.text ("(bad length: " ++ toString length ++ ")")])
      else
        let bytesPerLine := min bytesPerLine maxBytesPerLine
        let oneLine := decide (int32 length ≤ singleLineBytesCutoff)
        let f : Format := ⟨bytesPerLine, alignment, cStyle, oneLine⟩
        if cStyle = true then
          let indent := indent + 1
          (printLines mem f indent length 0 length true).map fun out => [.text "\x7b\n"] ++ out ++
            (if 0 < indent then [.indent (indent - 1)] else []) ++ [.text "\x7d;"]
        else if oneLine = false then
          (printLines mem f indent length 0 length true).map fun out => [.text "\n"] ++ out
        else printLines mem f indent length 0 length false

end Debug

end BinderForLinux
