import BinderForLinux.Unicode.Decode
import Mathlib.Data.List.GetD

/-!
# There and back

A well-formed string is read as it was written. What is measured for a byte string is what will be
written for it, and nothing behind the string is read if it is measured to its end.
-/

namespace BinderForLinux

namespace Unicode

variable {u8str : ℕ → UInt8} {u8len : ℕ} {c d : UInt16} {src units : List UInt16}

/-- Surrogates come in pairs. -/
inductive WellFormed : List UInt16 → Prop
  | nil : WellFormed []
  | unit {c : UInt16} {src : List UInt16} (hhigh : ¬ IsHigh c) (hlow : ¬ IsLow c)
      (h : WellFormed src) : WellFormed (c :: src)
  | pair {c d : UInt16} {src : List UInt16} (hc : IsHigh c) (hd : IsLow d)
      (h : WellFormed src) : WellFormed (c :: d :: src)

/-! ### Units -/

theorem length_utf16Units (codepoint : UInt32) :
    (utf16Units codepoint).length = if 0xFFFF < codepoint then 2 else 1 := by
  unfold utf16Units
  by_cases h : codepoint ≤ 0xFFFF
  · rw [if_pos h, if_neg (UInt32.not_lt.mpr h)]
    rfl
  · rw [if_neg h, if_pos (UInt32.not_le.mp h)]
    rfl

theorem utf16Units_unit (c : UInt16) : utf16Units c.toUInt32 = [c] := by
  have hle : c.toUInt32 ≤ 0xFFFF := by
    rw [UInt32.le_iff_toNat_le, UInt16.toNat_toUInt32]
    exact Nat.le_of_lt_succ c.toNat_lt
  rw [utf16Units, if_pos hle, UInt16.toUInt16_toUInt32]

theorem utf16Units_pair (hc : IsHigh c) (hd : IsLow d) :
    utf16Units (surrogatePair c d) = [c, d] := by
  have heq := toNat_surrogatePair hc hd
  obtain ⟨hc, hc'⟩ := isHigh_iff.mp hc
  obtain ⟨hd, hd'⟩ := isLow_iff.mp hd
  have hgt : ¬ surrogatePair c d ≤ 0xFFFF := by
    rw [UInt32.le_iff_toNat_le, heq]
    change ¬ _ ≤ 0xFFFF
    omega
  have hsub : (surrogatePair c d - 0x10000).toNat =
      (c.toNat - 0xD800) * 1024 + (d.toNat - 0xDC00) := by
    rw [UInt32.toNat_sub_of_le _ _ (by
      rw [UInt32.le_iff_toNat_le, heq]
      exact Nat.le_add_left _ _), heq]
    exact Nat.add_sub_cancel _ _
  have hten : (10 : UInt32).toNat % 32 = 10 := rfl
  have hmask : (0x3FF : UInt32).toNat = 2 ^ 10 - 1 := rfl
  have hhigh : (0xD800 : UInt32).toNat = 0xD800 := rfl
  have hlow : (0xDC00 : UInt32).toNat = 0xDC00 := rfl
  have hfirst : ((surrogatePair c d - 0x10000) >>> 10 + 0xD800).toUInt16 = c := by
    rw [← UInt16.toNat_inj, UInt32.toNat_toUInt16, UInt32.toNat_add, UInt32.toNat_shiftRight, hsub,
      hten, hhigh, Nat.shiftRight_eq_div_pow]
    omega
  have hsecond : (((surrogatePair c d - 0x10000) &&& 0x3FF) + 0xDC00).toUInt16 = d := by
    rw [← UInt16.toNat_inj, UInt32.toNat_toUInt16, UInt32.toNat_add, UInt32.toNat_and, hsub, hmask,
      hlow, Nat.and_two_pow_sub_one_eq_mod]
    omega
  rw [utf16Units, if_neg hgt]
  dsimp only
  rw [hfirst, hsecond]

/-! ### Loops -/

theorem loops_agree (u8str : ℕ → UInt8) (u8len : ℕ) (units : List UInt16) (fuel u8cur : ℕ) :
    (writeUtf16 u8str u8len fuel u8cur units u8cur).1.length =
        (measureUtf16 u8str u8len fuel u8cur units.length).2 ∧
      (writeUtf16 u8str u8len fuel u8cur units u8cur).2 =
        (measureUtf16 u8str u8len fuel u8cur units.length).1 := by
  induction fuel generalizing u8cur units with
  | zero => exact ⟨rfl, rfl⟩
  | succ fuel ih =>
      unfold writeUtf16 measureUtf16
      split
      · have hlength : (if 0xFFFF < codepointAt u8str u8cur then units.length + 2
            else units.length + 1) =
            (units ++ utf16Units (codepointAt u8str u8cur)).length := by
          rw [List.length_append, length_utf16Units]
          split <;> rfl
        rw [hlength]
        exact ih _ _
      · exact ⟨rfl, rfl⟩

theorem writeUtf16_step {x : UInt32} {rest : List UInt8} {u8cur : ℕ} (units : List UInt16)
    (fuel read : ℕ) (hx : utf32CodepointUtf8Length x ≠ 0)
    (hmem : ∀ i, i < (writeCodepoint x ++ rest).length →
      u8str (u8cur + i) = (writeCodepoint x ++ rest).getD i 0)
    (hlen : u8len = u8cur + (writeCodepoint x ++ rest).length) :
    writeUtf16 u8str u8len (fuel + 1) u8cur units read =
        writeUtf16 u8str u8len fuel (u8cur + (writeCodepoint x).length) (units ++ utf16Units x)
          (u8cur + (writeCodepoint x).length) ∧
      (∀ i, i < rest.length →
        u8str (u8cur + (writeCodepoint x).length + i) = rest.getD i 0) ∧
      u8len = u8cur + (writeCodepoint x).length + rest.length := by
  rw [List.length_append] at hmem hlen
  have hpos : 0 < (writeCodepoint x).length := by
    rw [length_writeCodepoint]
    omega
  have hsrc : ∀ i, i < (writeCodepoint x).length →
      (fun i => u8str (u8cur + i)) i = (writeCodepoint x).getD i 0 := fun i hi => by
    dsimp only
    rw [hmem i (by omega), List.getD_append _ _ _ _ hi]
  obtain ⟨hfirst, hcode⟩ := decode_writeCodepoint hx hsrc
  rw [Nat.add_zero] at hfirst
  refine ⟨?_, fun i hi => ?_, by omega⟩
  · have hat : codepointAt u8str u8cur = x := by
      rw [codepointAt, hfirst, hcode]
    have hlt : u8cur < u8len := by omega
    rw [writeUtf16, if_pos hlt]
    dsimp only
    rw [hat, hfirst]
  · rw [Nat.add_assoc, hmem _ (by omega), List.getD_append_right _ _ _ _ (Nat.le_add_right _ _),
      Nat.add_sub_cancel_left]

theorem length_of_unit (hhigh : ¬ IsHigh c) (hlow : ¬ IsLow c) :
    utf32CodepointUtf8Length c.toUInt32 ≠ 0 := by
  rw [isHigh_iff] at hhigh
  rw [isLow_iff] at hlow
  have hlt := c.toNat_lt
  rw [utf32CodepointUtf8Length_eq, UInt16.toNat_toUInt32]
  split_ifs <;> omega

theorem writeUtf8_unit (hhigh : ¬ IsHigh c) :
    writeUtf8 (c :: src) = writeCodepoint c.toUInt32 ++ writeUtf8 src := by
  cases src with
  | nil => exact (List.append_nil _).symm
  | cons d src => rw [writeUtf8, if_neg fun hpair => hhigh hpair.1]

theorem WellFormed.readBack (h : WellFormed src) (fuel u8cur : ℕ)
    (hmem : ∀ i, i < (writeUtf8 src).length → u8str (u8cur + i) = (writeUtf8 src).getD i 0)
    (hlen : u8len = u8cur + (writeUtf8 src).length) (hfuel : (writeUtf8 src).length ≤ fuel) :
    writeUtf16 u8str u8len fuel u8cur units u8cur = (units ++ src, u8len) := by
  induction h generalizing fuel u8cur units with
  | nil =>
      obtain rfl : u8len = u8cur := hlen
      rw [List.append_nil]
      cases fuel with
      | zero => rfl
      | succ fuel => rw [writeUtf16, if_neg (Nat.lt_irrefl _)]
  | @unit c src hhigh hlow h ih =>
      have hx := length_of_unit hhigh hlow
      rw [writeUtf8_unit hhigh] at hmem hlen hfuel
      obtain ⟨heq, hmem', hlen'⟩ :=
        writeUtf16_step units (fuel - 1) u8cur hx hmem hlen
      rw [List.length_append, length_writeCodepoint] at hfuel
      rw [Nat.sub_add_cancel (by omega)] at heq
      rw [heq, ih _ _ hmem' hlen' (by omega), utf16Units_unit, List.append_assoc]
      rfl
  | @pair c d src hc hd h ih =>
      have hx := length_of_pair hc hd
      have hwrite : writeUtf8 (c :: d :: src) =
          writeCodepoint (surrogatePair c d) ++ writeUtf8 src := by
        rw [writeUtf8, if_pos ⟨hc, hd⟩]
      rw [hwrite] at hmem hlen hfuel
      obtain ⟨heq, hmem', hlen'⟩ :=
        writeUtf16_step units (fuel - 1) u8cur (by rw [hx]; decide) hmem hlen
      rw [List.length_append, length_writeCodepoint] at hfuel
      rw [Nat.sub_add_cancel (by omega)] at heq
      rw [heq, ih _ _ hmem' hlen' (by omega), utf16Units_pair hc hd, List.append_assoc]
      rfl

theorem WellFormed.measured (h : WellFormed src) : (writeUtf8 src).length = measureUtf8 src := by
  induction h with
  | nil => rfl
  | @unit c src hhigh hlow h ih =>
      rw [writeUtf8_unit hhigh, List.length_append, length_writeCodepoint, ih]
      cases src with
      | nil => rfl
      | cons d src => rw [measureUtf8, if_neg hhigh]
  | @pair c d src hc hd h ih =>
      rw [writeUtf8, if_pos ⟨hc, hd⟩, measureUtf8, if_pos hc, if_pos hd, List.length_append,
        length_writeCodepoint, length_of_pair hc hd, ih]

/-- What a string is when it is converted and converted back, where the bytes lie in memory with
anything behind them. -/
structure ComesBack (src : List UInt16) (u8str : ℕ → UInt8) : Prop where
  length : utf8ToUtf16Length u8str (utf16ToUtf8Length src).toNat = src.length
  units : (utf8ToUtf16 u8str (utf16ToUtf8Length src).toNat).1 = src ++ [0]

/-- What was measured is written, and nothing behind the string is read. -/
structure Exact (u8str : ℕ → UInt8) (u8len n : ℕ) : Prop where
  units : ∃ units, (utf8ToUtf16 u8str u8len).1 = units ++ [0] ∧ units.length = n
  inside : (utf8ToUtf16 u8str u8len).2 ≤ u8len

theorem WellFormed.comesBack (h : WellFormed src) (hne : src ≠ [])
    (hmem : ∀ i, i < (utf16ToUtf8 src).length → u8str i = (utf16ToUtf8 src).getD i 0) :
    ComesBack src u8str := by
  have hwritten : utf16ToUtf8 src = writeUtf8 src ++ [0] := if_neg hne
  have hlength : (utf16ToUtf8Length src).toNat = (writeUtf8 src).length := by
    rw [utf16ToUtf8Length, if_neg hne, Int.toNat_natCast, h.measured]
  rw [hwritten, List.length_append] at hmem
  have hback : writeUtf16 u8str (writeUtf8 src).length (writeUtf8 src).length 0 [] 0 =
      ([] ++ src, (writeUtf8 src).length) := by
    refine h.readBack _ 0 (fun i hi => ?_) (Nat.zero_add _).symm (Nat.le_refl _)
    rw [Nat.zero_add, hmem i (by omega), List.getD_append _ _ _ _ hi]
  obtain ⟨hunits, hend⟩ := loops_agree u8str (writeUtf8 src).length [] (writeUtf8 src).length 0
  rw [hback, List.nil_append, List.length_nil] at hunits hend
  constructor
  · rw [hlength, utf8ToUtf16Length, ← hend, ← hunits, if_neg (not_not.mpr rfl)]
  · rw [hlength, utf8ToUtf16, hback]
    rfl

theorem exact_of_measured {n : ℕ} (h : utf8ToUtf16Length u8str u8len = n) :
    Exact u8str u8len n := by
  obtain ⟨hunits, hend⟩ := loops_agree u8str u8len [] u8len 0
  unfold utf8ToUtf16Length at h
  dsimp only at h
  split at h
  · omega
  · rename_i hcur
    rw [not_not] at hcur
    refine ⟨⟨_, rfl, ?_⟩, ?_⟩
    · exact hunits.trans (Int.ofNat.inj h)
    · exact Nat.le_of_eq (hend.trans hcur)

/-- Every well-formed string is what it was after being converted and converted back, and byte
strings that are measured are written as measured. -/
theorem utf_comesBack (u8str : ℕ → UInt8) :
    (∀ src, src ≠ [] → WellFormed src →
      (∀ i, i < (utf16ToUtf8 src).length → u8str i = (utf16ToUtf8 src).getD i 0) →
        ComesBack src u8str) ∧
    ∀ u8len n : ℕ, utf8ToUtf16Length u8str u8len = n → Exact u8str u8len n :=
  ⟨fun _ hne h hmem => h.comesBack hne hmem, fun _ _ h => exact_of_measured h⟩

/-- A letter and a pair. -/
theorem utf_comesBack_pair :
    ComesBack [0x41, 0xD83D, 0xDE00] (fun i => [0x41, 240, 159, 152, 128].getD i 0) ∧
      Exact (fun i => [0x41, 240, 159, 152, 128].getD i 0) 5 3 := by
  obtain ⟨hback, hexact⟩ := utf_comesBack fun i => [0x41, 240, 159, 152, 128].getD i 0
  have hformed : WellFormed [0x41, 0xD83D, 0xDE00] :=
    .unit (by decide) (by decide) (.pair (by decide) (by decide) .nil)
  have hbytes : utf16ToUtf8 [0x41, 0xD83D, 0xDE00] = [0x41, 240, 159, 152, 128, 0] := by
    decide +kernel
  refine ⟨hback _ (by decide) hformed ?_, hexact 5 3 (by decide +kernel)⟩
  rw [hbytes]
  decide

end Unicode

end BinderForLinux
