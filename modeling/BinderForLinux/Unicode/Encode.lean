import Mathlib.Algebra.Order.Ring.Nat
import Mathlib.Data.Int.Notation
import Mathlib.Data.Nat.Notation
import Mathlib.Tactic.Common

/-!
# From UTF-16 to UTF-8

The length of the result is measured by one loop and written by another. In malformed strings both
leave out surrogates without a partner, but they do not always find the same ones.
-/

namespace BinderForLinux

namespace Unicode

def kByteMask : UInt32 := 0xBF

def kByteMark : UInt32 := 0x80

def kFirstByteMark : ℕ → UInt32
  | 2 => 0xC0
  | 3 => 0xE0
  | 4 => 0xF0
  | _ => 0

def utf32CodepointUtf8Length (srcChar : UInt32) : ℕ :=
  if srcChar < 0x80 then 1
  else if srcChar < 0x800 then 2
  else if srcChar < 0x10000 then
    if srcChar < 0xD800 ∨ 0xDFFF < srcChar then 3 else 0
  else if srcChar ≤ 0x10FFFF then 4
  else 0

/-- The cases that fall through, down to the first byte. -/
def writeBytes (mark : UInt32) : ℕ → UInt32 → List UInt8 → List UInt8
  | 0, _, dst => dst
  | 1, srcChar, dst => (srcChar ||| mark).toUInt8 :: dst
  | bytes + 2, srcChar, dst =>
      writeBytes mark (bytes + 1) (srcChar >>> 6)
        (((srcChar ||| kByteMark) &&& kByteMask).toUInt8 :: dst)

def utf32CodepointToUtf8 (srcChar : UInt32) (bytes : ℕ) : List UInt8 :=
  writeBytes (kFirstByteMark bytes) bytes srcChar []

def IsHigh (c : UInt16) : Prop := c &&& 0xFC00 = 0xD800

def IsLow (c : UInt16) : Prop := c &&& 0xFC00 = 0xDC00

instance (c : UInt16) : Decidable (IsHigh c) := inferInstanceAs (Decidable (_ = _))

instance (c : UInt16) : Decidable (IsLow c) := inferInstanceAs (Decidable (_ = _))

def surrogatePair (c d : UInt16) : UInt32 :=
  ((c.toUInt32 - 0xD800) <<< 10 ||| d.toUInt32 - 0xDC00) + 0x10000

def writeCodepoint (utf32 : UInt32) : List UInt8 :=
  utf32CodepointToUtf8 utf32 (utf32CodepointUtf8Length utf32)

/-- The loop of `utf16_to_utf8`. -/
def writeUtf8 : List UInt16 → List UInt8
  | [] => []
  | [c] => writeCodepoint c.toUInt32
  | c :: d :: src =>
      if IsHigh c ∧ IsLow d then writeCodepoint (surrogatePair c d) ++ writeUtf8 src
      else writeCodepoint c.toUInt32 ++ writeUtf8 (d :: src)

/-- What `utf16_to_utf8` writes, with the terminator. -/
def utf16ToUtf8 (src : List UInt16) : List UInt8 :=
  if src = [] then [] else writeUtf8 src ++ [0]

/-- The loop of `utf16_to_utf8_length`, where looking at what follows goes there. -/
def measureUtf8 : List UInt16 → ℕ
  | [] => 0
  | [c] => utf32CodepointUtf8Length c.toUInt32
  | c :: d :: src =>
      if IsHigh c then
        if IsLow d then 4 + measureUtf8 src
        else utf32CodepointUtf8Length d.toUInt32 + measureUtf8 src
      else utf32CodepointUtf8Length c.toUInt32 + measureUtf8 (d :: src)

def utf16ToUtf8Length (src : List UInt16) : ℤ := if src = [] then -1 else measureUtf8 src

/-- A buffer, and what was written into it. -/
structure Filled where
  size : ℕ
  bytes : List UInt8

/-- `allocFromUTF16` of `String8`. The empty string, which is shared, is `none`. -/
def allocFromUTF16 (src : List UInt16) : Option Filled :=
  if src = [] then none
  else
    let bytes := utf16ToUtf8Length src
    if bytes < 0 then none else some ⟨bytes.toNat + 1, utf16ToUtf8 src⟩

/-! ### Lengths -/

theorem length_writeBytes (mark : UInt32) (bytes : ℕ) (srcChar : UInt32) (dst : List UInt8) :
    (writeBytes mark bytes srcChar dst).length = bytes + dst.length := by
  induction bytes generalizing srcChar dst with
  | zero => rw [writeBytes, Nat.zero_add]
  | succ bytes ih =>
      cases bytes with
      | zero => rw [writeBytes, List.length_cons, Nat.add_comm]
      | succ bytes =>
          rw [writeBytes, ih, List.length_cons]
          omega

theorem length_writeCodepoint (utf32 : UInt32) :
    (writeCodepoint utf32).length = utf32CodepointUtf8Length utf32 :=
  length_writeBytes _ _ _ _

theorem and_fc00 {n : ℕ} (h : n < 65536) : n &&& 0xFC00 = n / 1024 * 1024 := by
  have hdiv : (n &&& 0xFC00) / 1024 = n / 1024 := by
    have hshift := Nat.shiftRight_and_distrib (a := n) (b := 0xFC00) (i := 10)
    have hmask : (0xFC00 : ℕ) >>> 10 = 2 ^ 6 - 1 := by decide
    rw [Nat.shiftRight_eq_div_pow, Nat.shiftRight_eq_div_pow, hmask,
      Nat.and_two_pow_sub_one_eq_mod] at hshift
    omega
  have hmod : (n &&& 0xFC00) % 1024 = 0 := by
    have hlow := Nat.and_mod_two_pow (a := n) (b := 0xFC00) (n := 10)
    simpa using hlow
  omega

theorem isHigh_iff {c : UInt16} : IsHigh c ↔ 0xD800 ≤ c.toNat ∧ c.toNat < 0xDC00 := by
  have hmask : (0xFC00 : UInt16).toNat = 0xFC00 := rfl
  have hhigh : (0xD800 : UInt16).toNat = 0xD800 := rfl
  unfold IsHigh
  rw [← UInt16.toNat_inj, UInt16.toNat_and, hmask, and_fc00 c.toNat_lt, hhigh]
  omega

theorem isLow_iff {c : UInt16} : IsLow c ↔ 0xDC00 ≤ c.toNat ∧ c.toNat < 0xE000 := by
  have hmask : (0xFC00 : UInt16).toNat = 0xFC00 := rfl
  have hlow : (0xDC00 : UInt16).toNat = 0xDC00 := rfl
  unfold IsLow
  rw [← UInt16.toNat_inj, UInt16.toNat_and, hmask, and_fc00 c.toNat_lt, hlow]
  omega

theorem IsLow.not_isHigh {c : UInt16} (h : IsLow c) : ¬ IsHigh c := by
  rw [isHigh_iff]
  have := (isLow_iff.mp h).1
  omega

theorem utf32CodepointUtf8Length_eq (srcChar : UInt32) : utf32CodepointUtf8Length srcChar =
    if srcChar.toNat < 0x80 then 1
    else if srcChar.toNat < 0x800 then 2
    else if srcChar.toNat < 0x10000 then
      if srcChar.toNat < 0xD800 ∨ 0xDFFF < srcChar.toNat then 3 else 0
    else if srcChar.toNat ≤ 0x10FFFF then 4
    else 0 := rfl

theorem length_of_surrogate {c : UInt16} (h : IsHigh c ∨ IsLow c) :
    utf32CodepointUtf8Length c.toUInt32 = 0 := by
  rw [isHigh_iff, isLow_iff] at h
  rw [utf32CodepointUtf8Length_eq, UInt16.toNat_toUInt32]
  rw [if_neg (by omega), if_neg (by omega), if_pos (by omega), if_neg (by omega)]

theorem toNat_surrogatePair {c d : UInt16} (hc : IsHigh c) (hd : IsLow d) :
    (surrogatePair c d).toNat =
      (c.toNat - 0xD800) * 1024 + (d.toNat - 0xDC00) + 0x10000 := by
  obtain ⟨hc, hc'⟩ := isHigh_iff.mp hc
  obtain ⟨hd, hd'⟩ := isLow_iff.mp hd
  have hhigh : (c.toUInt32 - 0xD800).toNat = c.toNat - 0xD800 :=
    UInt32.toNat_sub_of_le _ _ (by rw [UInt32.le_iff_toNat_le, UInt16.toNat_toUInt32]; exact hc)
  have hlow : (d.toUInt32 - 0xDC00).toNat = d.toNat - 0xDC00 :=
    UInt32.toNat_sub_of_le _ _ (by rw [UInt32.le_iff_toNat_le, UInt16.toNat_toUInt32]; exact hd)
  have hten : (10 : UInt32).toNat % 32 = 10 := rfl
  have hadd : (0x10000 : UInt32).toNat = 0x10000 := rfl
  unfold surrogatePair
  rw [UInt32.toNat_add, UInt32.toNat_or, UInt32.toNat_shiftLeft, hhigh, hlow, hten, hadd,
    Nat.shiftLeft_eq, Nat.mod_eq_of_lt (a := (c.toNat - 0xD800) * 2 ^ 10) (by omega),
    ← Nat.shiftLeft_eq, ← Nat.shiftLeft_add_eq_or_of_lt (by omega), Nat.shiftLeft_eq]
  omega

theorem length_of_pair {c d : UInt16} (hc : IsHigh c) (hd : IsLow d) :
    utf32CodepointUtf8Length (surrogatePair c d) = 4 := by
  have heq := toNat_surrogatePair hc hd
  obtain ⟨hc, hc'⟩ := isHigh_iff.mp hc
  obtain ⟨hd, hd'⟩ := isLow_iff.mp hd
  rw [utf32CodepointUtf8Length_eq]
  rw [if_neg (by omega), if_neg (by omega), if_neg (by omega), if_pos (by omega)]

end Unicode

end BinderForLinux
