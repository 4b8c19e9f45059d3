import BinderForLinux.Unicode.Encode

/-!
# Measuring and writing UTF-8

The loop that measures skips a surrogate that has no partner together with what follows it, so that
it takes first halves by twos. It misses the pair behind an even number of them.
-/

namespace BinderForLinux

namespace Unicode

variable {c d : UInt16} {src : List UInt16} {run : ℕ}

/-- Every run of first halves that a second half follows is of odd length, where `run` of them
stand before `src`. -/
def OddRuns : ℕ → List UInt16 → Prop
  | _, [] => True
  | run, c :: src =>
      if IsHigh c then OddRuns (run + 1) src
      else (IsLow c → run ≠ 0 → run % 2 = 1) ∧ OddRuns 0 src

/-- What is measured is what is written before the terminator, and what is allocated is filled. -/
structure Measured (src : List UInt16) : Prop where
  terminated : ∃ bytes, utf16ToUtf8 src = bytes ++ [0] ∧
    (bytes.length : ℤ) = utf16ToUtf8Length src
  filled : ∀ buf, allocFromUTF16 src = some buf → buf.bytes.length = buf.size

/-- How many runs of even length a second half follows. -/
def missed : ℕ → List UInt16 → ℕ
  | _, [] => 0
  | run, c :: src =>
      if IsHigh c then missed (run + 1) src
      else (if IsLow c ∧ run ≠ 0 ∧ run % 2 = 0 then 1 else 0) + missed 0 src

theorem missed_eq_zero_iff : missed run src = 0 ↔ OddRuns run src := by
  induction src generalizing run with
  | nil => simp [missed, OddRuns]
  | cons c src ih =>
      rw [missed, OddRuns]
      split
      · exact ih
      · rw [Nat.add_eq_zero_iff, ih]
        refine and_congr_left fun _ => ?_
        split
        · rename_i heven
          refine iff_of_false (by decide) fun hodd => ?_
          have := hodd heven.1 heven.2.1
          omega
        · rename_i heven
          refine iff_of_true rfl fun hlow hne => ?_
          by_contra hodd
          exact heven ⟨hlow, hne, by omega⟩

def startsLow (src : List UInt16) : Bool := src.head?.any fun c => decide (IsLow c)

theorem startsLow_cons : startsLow (c :: src) = decide (IsLow c) := rfl

theorem writeUtf8_singleton : writeUtf8 [c] = writeCodepoint c.toUInt32 := rfl

theorem writeUtf8_pair (hc : IsHigh c) (hd : IsLow d) :
    writeUtf8 (c :: d :: src) = writeCodepoint (surrogatePair c d) ++ writeUtf8 src := by
  rw [writeUtf8, if_pos ⟨hc, hd⟩]

theorem writeUtf8_alone (h : ¬ (IsHigh c ∧ startsLow src = true)) :
    writeUtf8 (c :: src) = writeCodepoint c.toUInt32 ++ writeUtf8 src := by
  cases src with
  | nil => exact (List.append_nil _).symm
  | cons d src =>
      rw [writeUtf8, if_neg fun hpair => h ⟨hpair.1, decide_eq_true hpair.2⟩]

theorem length_writeUtf8_cons : (writeUtf8 (c :: src)).length =
    utf32CodepointUtf8Length c.toUInt32 + (writeUtf8 src).length +
      if IsHigh c ∧ startsLow src = true then 4 else 0 := by
  by_cases hpair : IsHigh c ∧ startsLow src = true
  · rw [if_pos hpair]
    obtain ⟨hhigh, hstart⟩ := hpair
    cases src with
    | nil => cases hstart
    | cons d src =>
        have hlow : IsLow d := of_decide_eq_true hstart
        rw [writeUtf8_pair hhigh hlow, writeUtf8_alone fun h => hlow.not_isHigh h.1,
          List.length_append, List.length_append, length_writeCodepoint, length_writeCodepoint,
          length_of_pair hhigh hlow, length_of_surrogate (.inl hhigh),
          length_of_surrogate (.inr hlow)]
        omega
  · rw [if_neg hpair, writeUtf8_alone hpair, List.length_append, length_writeCodepoint,
      Nat.add_zero]

/-- Where a run of even length ends. -/
theorem missed_here (heven : run % 2 = 0) :
    (if run ≠ 0 ∧ startsLow (c :: src) = true then 4 else 0) =
      4 * if IsLow c ∧ run ≠ 0 ∧ run % 2 = 0 then 1 else 0 := by
  rw [startsLow_cons]
  by_cases h : IsLow c ∧ run ≠ 0
  · rw [if_pos ⟨h.2, decide_eq_true h.1⟩, if_pos ⟨h.1, h.2, heven⟩]
  · rw [if_neg fun h' => h ⟨of_decide_eq_true h'.2, h'.1⟩, if_neg fun h' => h ⟨h'.1, h'.2.1⟩]

/-- What is written is what is measured, and a pair for each run of even length. -/
theorem length_writeUtf8 (heven : run % 2 = 0) :
    (writeUtf8 src).length + (if run ≠ 0 ∧ startsLow src = true then 4 else 0) =
      measureUtf8 src + 4 * missed run src := by
  induction src using measureUtf8.induct generalizing run with
  | case1 => simp [writeUtf8, measureUtf8, missed, startsLow]
  | case2 c =>
      rw [writeUtf8_singleton, length_writeCodepoint, measureUtf8, missed]
      by_cases hhigh : IsHigh c
      · rw [if_pos hhigh, if_neg fun h => (of_decide_eq_true h.2).not_isHigh hhigh]
        rfl
      · rw [if_neg hhigh, missed_here heven]
        rfl
  | case3 c d src hhigh hlow ih =>
      have hodd : ¬ (IsLow d ∧ run + 1 ≠ 0 ∧ (run + 1) % 2 = 0) := by omega
      have hrest := ih (show 0 % 2 = 0 from rfl)
      rw [if_neg fun h => h.1 rfl] at hrest
      rw [writeUtf8_pair hhigh hlow, measureUtf8, if_pos hhigh, if_pos hlow, missed, if_pos hhigh,
        missed, if_neg hlow.not_isHigh, if_neg hodd,
        if_neg fun h => (of_decide_eq_true h.2).not_isHigh hhigh, List.length_append,
        length_writeCodepoint, length_of_pair hhigh hlow]
      omega
  | case4 c d src hhigh hlow ih =>
      have hstart : ¬ (IsHigh c ∧ startsLow (d :: src) = true) :=
        fun h => hlow (of_decide_eq_true h.2)
      have hfront : ¬ (run ≠ 0 ∧ startsLow (c :: d :: src) = true) :=
        fun h => (of_decide_eq_true h.2).not_isHigh hhigh
      rw [if_neg hfront, length_writeUtf8_cons, if_neg hstart, length_writeUtf8_cons, measureUtf8,
        if_pos hhigh, if_neg hlow, missed, if_pos hhigh, missed,
        length_of_surrogate (.inl hhigh)]
      by_cases hd : IsHigh d
      · have hrest := ih (show (run + 1 + 1) % 2 = 0 by omega)
        have hiff : (IsHigh d ∧ startsLow src = true) ↔ run + 1 + 1 ≠ 0 ∧ startsLow src = true :=
          and_congr_left fun _ => iff_of_true hd (Nat.succ_ne_zero _)
        rw [if_pos hd, if_congr hiff rfl rfl]
        omega
      · have hrest := ih (show 0 % 2 = 0 from rfl)
        rw [if_neg fun h => h.1 rfl] at hrest
        rw [if_neg hd, if_neg fun h => hd h.1, if_neg fun h => hlow h.1]
        omega
  | case5 c d src hhigh ih =>
      have hrest := ih (show 0 % 2 = 0 from rfl)
      rw [if_neg fun h => h.1 rfl] at hrest
      rw [length_writeUtf8_cons, if_neg fun h => hhigh h.1, measureUtf8, if_neg hhigh, missed,
        if_neg hhigh, missed_here heven]
      omega

/-- Exactly where runs of first halves are of odd length. -/
theorem measured_iff (hsrc : src ≠ []) : Measured src ↔ OddRuns 0 src := by
  have hlength : (writeUtf8 src).length + (if 0 ≠ 0 ∧ startsLow src = true then 4 else 0) =
      measureUtf8 src + 4 * missed 0 src := length_writeUtf8 rfl
  rw [if_neg fun h => h.1 rfl, Nat.add_zero] at hlength
  have hwritten : utf16ToUtf8 src = writeUtf8 src ++ [0] := if_neg hsrc
  have hmeasured : utf16ToUtf8Length src = measureUtf8 src := if_neg hsrc
  rw [← missed_eq_zero_iff]
  constructor
  · rintro ⟨⟨bytes, hbytes, hlen⟩, -⟩
    rw [hwritten] at hbytes
    rw [(List.append_left_inj _).mp hbytes] at hlength
    rw [hmeasured] at hlen
    omega
  · intro hzero
    have hlen : (writeUtf8 src).length = measureUtf8 src := by omega
    refine ⟨⟨_, hwritten, by rw [hmeasured, hlen]⟩, fun buf hbuf => ?_⟩
    unfold allocFromUTF16 at hbuf
    rw [if_neg hsrc] at hbuf
    dsimp only at hbuf
    rw [hmeasured, if_neg (by omega)] at hbuf
    cases hbuf
    dsimp only
    rw [hwritten, List.length_append, hlen, Int.toNat_natCast]
    rfl

/-- A pair, and half of one. -/
theorem measured_halves : Measured [0xD83D, 0xDE00, 0xDE00] ↔ OddRuns 0 [0xD83D, 0xDE00, 0xDE00] :=
  measured_iff (by decide)

/-- A pair behind half of one is not measured. -/
theorem pair_notMeasured : ¬ Measured [0xD83D, 0xD83D, 0xDE00] ∧
    utf16ToUtf8Length [0xD83D, 0xD83D, 0xDE00] = 0 ∧
    utf16ToUtf8 [0xD83D, 0xD83D, 0xDE00] = [240, 159, 152, 128, 0] := by
  have hlength : utf16ToUtf8Length [0xD83D, 0xD83D, 0xDE00] = 0 := by decide +kernel
  have hwritten : utf16ToUtf8 [0xD83D, 0xD83D, 0xDE00] = [240, 159, 152, 128, 0] := by
    decide +kernel
  refine ⟨fun h => ?_, hlength, hwritten⟩
  obtain ⟨bytes, hbytes, hlen⟩ := h.terminated
  have hfive := congrArg List.length hbytes
  rw [hwritten, List.length_append] at hfive
  rw [hlength] at hlen
  simp only [List.length_cons, List.length_nil] at hfive
  omega

end Unicode

end BinderForLinux
