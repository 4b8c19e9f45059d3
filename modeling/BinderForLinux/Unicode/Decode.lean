import BinderForLinux.Unicode.Encode

/-!
# From UTF-8 to UTF-16

A byte string is the memory from a pointer on and a length. The number of bytes of a character is
told by its first byte, so that the last character may be thought to be longer than the string;
what is behind the string is then read.
-/

namespace BinderForLinux

namespace Unicode

/-- Two bits of the constant for the high bits of the byte. -/
def utf8CodepointLen (ch : UInt8) : ℕ :=
  (((0xe5000000 : UInt32) >>> ((ch.toUInt32 >>> 3) &&& 0x1e)) &&& 3).toNat + 1

def utf8ShiftAndMask (codePoint : UInt32) (byte : UInt8) : UInt32 :=
  codePoint <<< 6 ||| 0x3F &&& byte.toUInt32

def utf8ToUtf32Codepoint (src : ℕ → UInt8) : ℕ → UInt32
  | 1 => (src 0).toUInt32
  | 2 => utf8ShiftAndMask ((src 0).toUInt32 &&& 0x1f) (src 1)
  | 3 => utf8ShiftAndMask (utf8ShiftAndMask ((src 0).toUInt32 &&& 0x0f) (src 1)) (src 2)
  | 4 => utf8ShiftAndMask
      (utf8ShiftAndMask (utf8ShiftAndMask ((src 0).toUInt32 &&& 0x07) (src 1)) (src 2)) (src 3)
  | _ => 0xffff

variable (u8str : ℕ → UInt8) (u8len : ℕ)

def codepointAt (u8cur : ℕ) : UInt32 :=
  utf8ToUtf32Codepoint (fun i => u8str (u8cur + i)) (utf8CodepointLen (u8str u8cur))

/-- The loop of `utf8_to_utf16_length`: where it ends, and what it measured. -/
def measureUtf16 : ℕ → ℕ → ℕ → ℕ × ℕ
  | 0, u8cur, measured => (u8cur, measured)
  | fuel + 1, u8cur, measured =>
      if u8cur < u8len then
        measureUtf16 fuel (u8cur + utf8CodepointLen (u8str u8cur))
          (if 0xFFFF < codepointAt u8str u8cur then measured + 2 else measured + 1)
      else (u8cur, measured)

def utf8ToUtf16Length : ℤ :=
  let r := measureUtf16 u8str u8len u8len 0 0
  if r.1 ≠ u8len then -1 else r.2

def utf16Units (codepoint : UInt32) : List UInt16 :=
  if codepoint ≤ 0xFFFF then [codepoint.toUInt16]
  else
    let codepoint := codepoint - 0x10000
    [((codepoint >>> 10) + 0xD800).toUInt16, ((codepoint &&& 0x3FF) + 0xDC00).toUInt16]

/-- The loop of `utf8_to_utf16_no_null_terminator`: what it writes, and the end of what it reads. -/
def writeUtf16 : ℕ → ℕ → List UInt16 → ℕ → List UInt16 × ℕ
  | 0, _, units, read => (units, read)
  | fuel + 1, u8cur, units, read =>
      if u8cur < u8len then
        let next := u8cur + utf8CodepointLen (u8str u8cur)
        writeUtf16 fuel next (units ++ utf16Units (codepointAt u8str u8cur)) next
      else (units, read)

def utf8ToUtf16 : List UInt16 × ℕ :=
  let r := writeUtf16 u8str u8len u8len 0 [] 0
  (r.1 ++ [0], r.2)

/-! ### Bytes of a character -/

theorem utf8CodepointLen_eq (ch : UInt8) : utf8CodepointLen ch =
    if ch.toNat < 0xC0 then 1 else if ch.toNat < 0xE0 then 2 else if ch.toNat < 0xF0 then 3
    else 4 := by
  have hall : ∀ n : Fin 256, utf8CodepointLen (UInt8.ofNat n) =
      if n.val < 0xC0 then 1 else if n.val < 0xE0 then 2 else if n.val < 0xF0 then 3 else 4 := by
    decide +kernel
  have hch := hall ⟨ch.toNat, ch.toNat_lt⟩
  rwa [UInt8.ofNat_toNat] at hch

theorem toNat_shiftAndMask {codePoint : UInt32} (byte : UInt8) (h : codePoint.toNat < 2 ^ 26) :
    (utf8ShiftAndMask codePoint byte).toNat = codePoint.toNat * 64 + byte.toNat % 64 := by
  have hsix : (6 : UInt32).toNat % 32 = 6 := rfl
  have hmask : (0x3F : UInt32).toNat = 2 ^ 6 - 1 := rfl
  unfold utf8ShiftAndMask
  rw [UInt32.toNat_or, UInt32.toNat_shiftLeft, UInt32.toNat_and, UInt8.toNat_toUInt32, hsix, hmask,
    Nat.and_comm, Nat.and_two_pow_sub_one_eq_mod, Nat.shiftLeft_eq, Nat.mod_eq_of_lt (by omega),
    ← Nat.shiftLeft_eq, ← Nat.shiftLeft_add_eq_or_of_lt (Nat.mod_lt _ (by decide)),
    Nat.shiftLeft_eq]

theorem toNat_firstBits (byte : UInt8) (k : ℕ) (mask : UInt32) (hmask : mask.toNat = 2 ^ k - 1) :
    (byte.toUInt32 &&& mask).toNat = byte.toNat % 2 ^ k := by
  rw [UInt32.toNat_and, UInt8.toNat_toUInt32, hmask, Nat.and_two_pow_sub_one_eq_mod]

theorem toNat_tailByte (y : UInt32) :
    (((y ||| kByteMark) &&& kByteMask).toUInt8).toNat = 0x80 + y.toNat % 64 := by
  have hall : ∀ n : Fin 256, ((UInt8.ofNat n ||| 0x80) &&& 0xBF).toNat = 0x80 + n.val % 64 := by
    decide +kernel
  have hbyte := hall ⟨y.toUInt8.toNat, y.toUInt8.toNat_lt⟩
  rw [UInt8.ofNat_toNat] at hbyte
  rw [UInt32.toUInt8_and, UInt32.toUInt8_or]
  refine hbyte.trans ?_
  dsimp only
  rw [UInt32.toNat_toUInt8]
  omega

theorem toNat_firstByte {y mark : UInt32} {k j : ℕ} (hy : y.toNat < 2 ^ k)
    (hmark : mark.toNat = 2 ^ k * j) (hlt : 2 ^ k * j + 2 ^ k ≤ 256) :
    ((y ||| mark).toUInt8).toNat = mark.toNat + y.toNat := by
  have hor : y.toNat ||| mark.toNat = mark.toNat + y.toNat := by
    rw [Nat.or_comm, hmark, Nat.mul_comm, ← Nat.shiftLeft_eq, Nat.shiftLeft_add_eq_or_of_lt hy]
  rw [UInt32.toNat_toUInt8, UInt32.toNat_or, hor, Nat.mod_eq_of_lt (by omega)]

/-- The last of the bytes, with what stands for the others. -/
def tailByte (y : UInt32) : UInt8 := ((y ||| kByteMark) &&& kByteMask).toUInt8

theorem toNat_shiftRight_six (y : UInt32) : (y >>> 6).toNat = y.toNat / 64 := by
  have hsix : (6 : UInt32).toNat % 32 = 6 := rfl
  rw [UInt32.toNat_shiftRight, hsix, Nat.shiftRight_eq_div_pow]

section Codepoint

variable {x : UInt32} {src : ℕ → UInt8}

theorem decode_one (hx : utf32CodepointUtf8Length x = 1)
    (hsrc : ∀ i, i < (writeCodepoint x).length → src i = (writeCodepoint x).getD i 0) :
    utf8CodepointLen (src 0) = 1 ∧ utf8ToUtf32Codepoint src 1 = x := by
  have hlt : x.toNat < 0x80 := by
    rw [utf32CodepointUtf8Length_eq] at hx
    split_ifs at hx <;> omega
  have hbytes : writeCodepoint x = [(x ||| 0).toUInt8] := by
    rw [writeCodepoint, hx]
    rfl
  rw [hbytes] at hsrc
  change ∀ i, i < 1 → _ at hsrc
  have hzero : (src 0).toNat = x.toNat := by
    rw [hsrc 0 (by decide)]
    change (x ||| 0).toUInt8.toNat = _
    rw [UInt32.toNat_toUInt8, UInt32.toNat_or]
    change (x.toNat ||| 0) % 256 = _
    rw [Nat.or_zero]
    omega
  refine ⟨by rw [utf8CodepointLen_eq, if_pos (by omega)], ?_⟩
  rw [utf8ToUtf32Codepoint, ← UInt32.toNat_inj, UInt8.toNat_toUInt32, hzero]

theorem decode_two (hx : utf32CodepointUtf8Length x = 2)
    (hsrc : ∀ i, i < (writeCodepoint x).length → src i = (writeCodepoint x).getD i 0) :
    utf8CodepointLen (src 0) = 2 ∧ utf8ToUtf32Codepoint src 2 = x := by
  have hlt : 0x80 ≤ x.toNat ∧ x.toNat < 0x800 := by
    rw [utf32CodepointUtf8Length_eq] at hx
    split_ifs at hx <;> omega
  have hbytes : writeCodepoint x = [(x >>> 6 ||| 0xC0).toUInt8, tailByte x] := by
    rw [writeCodepoint, hx]
    rfl
  rw [hbytes] at hsrc
  change ∀ i, i < 2 → _ at hsrc
  have hzero : (src 0).toNat = 0xC0 + x.toNat / 64 := by
    rw [hsrc 0 (by decide), ← toNat_shiftRight_six]
    exact toNat_firstByte (k := 5) (j := 6) (by rw [toNat_shiftRight_six]; omega) rfl (by decide)
  have hone : (src 1).toNat = 0x80 + x.toNat % 64 := by
    rw [hsrc 1 (by decide)]
    exact toNat_tailByte x
  refine ⟨by rw [utf8CodepointLen_eq, if_neg (by omega), if_pos (by omega)], ?_⟩
  have hfirst := toNat_firstBits (src 0) 5 0x1f rfl
  rw [utf8ToUtf32Codepoint, ← UInt32.toNat_inj, toNat_shiftAndMask _ (by omega), hfirst, hzero,
    hone]
  omega

theorem decode_three (hx : utf32CodepointUtf8Length x = 3)
    (hsrc : ∀ i, i < (writeCodepoint x).length → src i = (writeCodepoint x).getD i 0) :
    utf8CodepointLen (src 0) = 3 ∧ utf8ToUtf32Codepoint src 3 = x := by
  have hlt : 0x800 ≤ x.toNat ∧ x.toNat < 0x10000 := by
    rw [utf32CodepointUtf8Length_eq] at hx
    split_ifs at hx <;> omega
  have hbytes : writeCodepoint x =
      [(x >>> 6 >>> 6 ||| 0xE0).toUInt8, tailByte (x >>> 6), tailByte x] := by
    rw [writeCodepoint, hx]
    rfl
  rw [hbytes] at hsrc
  change ∀ i, i < 3 → _ at hsrc
  have hzero : (src 0).toNat = 0xE0 + x.toNat / 64 / 64 := by
    rw [hsrc 0 (by decide), ← toNat_shiftRight_six, ← toNat_shiftRight_six]
    refine toNat_firstByte (k := 4) (j := 14) ?_ rfl (by decide)
    rw [toNat_shiftRight_six, toNat_shiftRight_six]
    omega
  have hone : (src 1).toNat = 0x80 + x.toNat / 64 % 64 := by
    rw [hsrc 1 (by decide), ← toNat_shiftRight_six]
    exact toNat_tailByte (x >>> 6)
  have htwo : (src 2).toNat = 0x80 + x.toNat % 64 := by
    rw [hsrc 2 (by decide)]
    exact toNat_tailByte x
  refine ⟨by
    rw [utf8CodepointLen_eq, if_neg (by omega), if_neg (by omega), if_pos (by omega)], ?_⟩
  have hfirst := toNat_firstBits (src 0) 4 0x0f rfl
  have hsecond := toNat_shiftAndMask (src 1)
    (show ((src 0).toUInt32 &&& 0x0f).toNat < 2 ^ 26 by omega)
  rw [utf8ToUtf32Codepoint, ← UInt32.toNat_inj, toNat_shiftAndMask _ (by omega), hsecond, hfirst,
    hzero, hone, htwo]
  omega

theorem decode_four (hx : utf32CodepointUtf8Length x = 4)
    (hsrc : ∀ i, i < (writeCodepoint x).length → src i = (writeCodepoint x).getD i 0) :
    utf8CodepointLen (src 0) = 4 ∧ utf8ToUtf32Codepoint src 4 = x := by
  have hlt : 0x10000 ≤ x.toNat ∧ x.toNat ≤ 0x10FFFF := by
    rw [utf32CodepointUtf8Length_eq] at hx
    split_ifs at hx <;> omega
  have hbytes : writeCodepoint x = [(x >>> 6 >>> 6 >>> 6 ||| 0xF0).toUInt8,
      tailByte (x >>> 6 >>> 6), tailByte (x >>> 6), tailByte x] := by
    rw [writeCodepoint, hx]
    rfl
  rw [hbytes] at hsrc
  change ∀ i, i < 4 → _ at hsrc
  have hzero : (src 0).toNat = 0xF0 + x.toNat / 64 / 64 / 64 := by
    rw [hsrc 0 (by decide), ← toNat_shiftRight_six, ← toNat_shiftRight_six,
      ← toNat_shiftRight_six]
    refine toNat_firstByte (k := 3) (j := 30) ?_ rfl (by decide)
    rw [toNat_shiftRight_six, toNat_shiftRight_six, toNat_shiftRight_six]
    omega
  have hone : (src 1).toNat = 0x80 + x.toNat / 64 / 64 % 64 := by
    rw [hsrc 1 (by decide), ← toNat_shiftRight_six, ← toNat_shiftRight_six]
    exact toNat_tailByte (x >>> 6 >>> 6)
  have htwo : (src 2).toNat = 0x80 + x.toNat / 64 % 64 := by
    rw [hsrc 2 (by decide), ← toNat_shiftRight_six]
    exact toNat_tailByte (x >>> 6)
  have hthree : (src 3).toNat = 0x80 + x.toNat % 64 := by
    rw [hsrc 3 (by decide)]
    exact toNat_tailByte x
  refine ⟨by
    rw [utf8CodepointLen_eq, if_neg (by omega), if_neg (by omega), if_neg (by omega)], ?_⟩
  have hfirst := toNat_firstBits (src 0) 3 0x07 rfl
  have hsecond := toNat_shiftAndMask (src 1)
    (show ((src 0).toUInt32 &&& 0x07).toNat < 2 ^ 26 by omega)
  have hthird := toNat_shiftAndMask (src 2)
    (show (utf8ShiftAndMask ((src 0).toUInt32 &&& 0x07) (src 1)).toNat < 2 ^ 26 by omega)
  rw [utf8ToUtf32Codepoint, ← UInt32.toNat_inj, toNat_shiftAndMask _ (by omega), hthird, hsecond,
    hfirst, hzero, hone, htwo, hthree]
  omega

theorem decode_writeCodepoint (hx : utf32CodepointUtf8Length x ≠ 0)
    (hsrc : ∀ i, i < (writeCodepoint x).length → src i = (writeCodepoint x).getD i 0) :
    utf8CodepointLen (src 0) = (writeCodepoint x).length ∧
      utf8ToUtf32Codepoint src (writeCodepoint x).length = x := by
  have hle : utf32CodepointUtf8Length x ≤ 4 := by
    rw [utf32CodepointUtf8Length_eq]
    split_ifs <;> omega
  rw [length_writeCodepoint]
  obtain hone | htwo | hthree | hfour : utf32CodepointUtf8Length x = 1 ∨
      utf32CodepointUtf8Length x = 2 ∨ utf32CodepointUtf8Length x = 3 ∨
      utf32CodepointUtf8Length x = 4 := by omega
  · rw [hone]
    exact decode_one hone hsrc
  · rw [htwo]
    exact decode_two htwo hsrc
  · rw [hthree]
    exact decode_three hthree hsrc
  · rw [hfour]
    exact decode_four hfour hsrc

end Codepoint

end Unicode

end BinderForLinux
