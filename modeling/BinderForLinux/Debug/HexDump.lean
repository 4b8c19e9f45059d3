import BinderForLinux.Debug.HexLines
import Mathlib.Data.List.Nodup
import Mathlib.Data.List.Perm.Subperm

/-!
# What a dump shows

Each byte of the buffer is printed once, within the line and from within the buffer, if the
alignment divides what it has to: a group that is not full shows bytes that are not in it.
-/

namespace BinderForLinux

namespace Debug

variable {mem : Bytes} {f : Format} {a b n g offset length r : ℕ} {indent : ℤ} {newLine : Bool}
  {l : Line}

/-! ### Slots -/

theorem slot_div (ha : 0 < a) (j : ℕ) : slot a j / a = j / a := by
  have hlt : a - 1 - j % a < a := by omega
  unfold slot
  rw [Nat.mul_comm, Nat.mul_add_div ha, Nat.div_eq_of_lt hlt, Nat.add_zero]

theorem slot_mod (ha : 0 < a) (j : ℕ) : slot a j % a = a - 1 - j % a := by
  have hlt : a - 1 - j % a < a := by omega
  unfold slot
  rw [Nat.mul_comm, Nat.mul_add_mod, Nat.mod_eq_of_lt hlt]

theorem slot_slot (ha : 0 < a) (j : ℕ) : slot a (slot a j) = j := by
  have hlt := Nat.mod_lt j ha
  have hsub : a - 1 - (a - 1 - j % a) = j % a := by omega
  rw [slot, slot_div ha, slot_mod ha, hsub, Nat.mul_comm]
  exact Nat.div_add_mod j a

theorem slot_lt (ha : 0 < a) (hdvd : a ∣ n) {j : ℕ} (hj : j < n) : slot a j < n := by
  obtain ⟨m, rfl⟩ := hdvd
  rw [Nat.mul_comm] at hj ⊢
  rw [← Nat.div_lt_iff_lt_mul ha] at hj ⊢
  rwa [slot_div ha]

theorem perm_slots (ha : 0 < a) (hdvd : a ∣ n) (start : ℕ) :
    ((List.range n).map fun j => start + slot a j).Perm (List.range' start n) := by
  have hnodup : ((List.range n).map fun j => start + slot a j).Nodup := by
    refine List.Nodup.map (fun i j heq => ?_) List.nodup_range
    have hslot : slot a i = slot a j := Nat.add_left_cancel heq
    rw [← slot_slot ha i, hslot, slot_slot ha]
  have hsub : (List.range n).map (fun j => start + slot a j) ⊆ List.range' start n := by
    intro x hx
    obtain ⟨j, hj, rfl⟩ := List.mem_map.mp hx
    have hlt := slot_lt ha hdvd (List.mem_range.mp hj)
    exact List.mem_range'_1.mpr ⟨Nat.le_add_right _ _, by omega⟩
  exact (hnodup.subperm hsub).perm_of_length_le (by simp)

theorem le_slot (hdvd : ¬ a ∣ n) (ha : 0 < a) : n / a * a < n ∧ n ≤ slot a (n / a * a) := by
  have hmod : n % a ≠ 0 := fun hzero => hdvd (Nat.dvd_of_mod_eq_zero hzero)
  have hlt := Nat.mod_lt n ha
  have hsum := Nat.div_add_mod n a
  rw [Nat.mul_comm] at hsum
  have hslot := slot_add (g := n / a) ha
  rw [Nat.add_zero] at hslot
  rw [hslot]
  omega

theorem groupCount_mul (ha : 0 < a) (m : ℕ) : groupCount a (a * m) = m := by
  unfold groupCount
  rw [show a * m + a - 1 = a * m + (a - 1) by omega, Nat.mul_add_div ha,
    Nat.div_eq_of_lt (by omega), Nat.add_zero]

theorem le_groupCount_mul (ha : 0 < a) (n : ℕ) : n ≤ groupCount a n * a :=
  Nat.not_lt.mp fun hlt => Nat.lt_irrefl _ ((lt_groupCount ha).mpr hlt)

theorem groupCount_mono (h : n ≤ r) : groupCount a n ≤ groupCount a r :=
  Nat.div_le_div_right (by omega)

/-- The groups of a line are full. -/
structure Full (f : Format) (r : ℕ) : Prop where
  pos : 0 < f.alignment
  dvd : f.alignment ∣ r
  line : f.alignment ∣ f.bytesPerLine ∨ r ≤ f.bytesPerLine

theorem Full.count (h : Full f r) :
    min (groupCount f.alignment f.bytesPerLine) (groupCount f.alignment r) * f.alignment =
      min f.bytesPerLine r := by
  obtain ⟨ha, ⟨m, rfl⟩, hline⟩ := h
  rw [groupCount_mul ha]
  rcases hline with ⟨k, hk⟩ | hle
  · rw [hk, groupCount_mul ha, Nat.mul_min_mul_left, Nat.mul_comm]
  · have hmono := groupCount_mono (a := f.alignment) hle
    rw [groupCount_mul ha] at hmono
    rw [Nat.min_eq_right hmono, Nat.min_eq_right hle, Nat.mul_comm]

theorem Full.bytes (h : Full f r) :
    min (groupCount f.alignment f.bytesPerLine * f.alignment) r = min f.bytesPerLine r := by
  have hle := le_groupCount_mul h.pos f.bytesPerLine
  rcases h.line with ⟨k, hk⟩ | hle'
  · rw [hk, groupCount_mul h.pos, Nat.mul_comm]
  · omega

theorem Full.dvd_min (h : Full f r) : f.alignment ∣ min f.bytesPerLine r :=
  ⟨_, (h.count.symm.trans (Nat.mul_comm _ _))⟩

theorem Full.lineDigits (h : Full f r) (start : ℕ) :
    (lineDigits f start r).Perm (List.range' start (min f.bytesPerLine r)) := by
  unfold Debug.lineDigits
  rw [h.bytes]
  exact perm_slots h.pos h.dvd_min start

/-! ### Characters of a line -/

/-- Short groups do not fill lines of this many bytes. -/
structure Short (f : Format) (r : ℕ) : Prop where
  cStyle : f.cStyle = true → f.alignment = 1 → min f.bytesPerLine r ≤ 42
  aligned : f.cStyle = false → f.oneLine = false → ¬ f.alignment ∣ f.bytesPerLine →
    groupCount f.alignment f.bytesPerLine * (2 * f.alignment + 1) + f.bytesPerLine ≤ 241

theorem Short.of_lt (hpos : 0 < f.bytesPerLine) (h : Full f r) (hr : 0 < r)
    (hlt : lineChars f r < bufferSize) : Short f r := by
  have hbytes := h.bytes
  have hcount := h.count
  have hg : 0 < groupCount f.alignment f.bytesPerLine := (lt_groupCount h.pos).mpr (by omega)
  unfold lineChars groupsChars bufferSize at hlt
  dsimp only at hlt
  rw [hbytes] at hlt
  refine ⟨fun hc ha => ?_, fun hc hone hdvd => ?_⟩
  · rw [hc, ha] at hlt
    rw [ha, Nat.mul_one] at hcount
    unfold groupCount at hcount hlt hg
    simp only [reduceCtorEq, if_false] at hlt
    rw [ha] at hg
    rw [if_pos ⟨hg, hr⟩] at hlt
    omega
  · have hle := h.line.resolve_left hdvd
    rw [if_pos hc, if_pos hc, if_pos hone, if_pos hone, if_pos hone] at hlt
    rw [Nat.mul_add, Nat.mul_one, Nat.mul_left_comm]
    omega

theorem groupCount_le (ha : 0 < a) (n : ℕ) : groupCount a n ≤ n := by
  by_contra hlt
  have hmul := (lt_groupCount ha).mp (not_le.mp hlt)
  have := Nat.le_mul_of_pos_right n ha
  omega

theorem lineChars_lt (hpos : 0 < f.bytesPerLine) (hmax : f.bytesPerLine ≤ maxBytesPerLine)
    (h : Full f r) (hs : Short f r) : lineChars f r < bufferSize := by
  have hbytes := h.bytes
  have hcount := h.count
  have hle := groupCount_le h.pos f.bytesPerLine
  have hmax' : f.bytesPerLine ≤ 60 := hmax
  have hg : 0 < groupCount f.alignment f.bytesPerLine := (lt_groupCount h.pos).mpr (by omega)
  unfold lineChars groupsChars bufferSize
  dsimp only
  cases hc : f.cStyle with
  | false =>
      rw [if_pos rfl, if_pos rfl, hbytes]
      cases hone : f.oneLine with
      | false =>
          simp only [if_true]
          rcases h.line with ⟨k, hk⟩ | hline
          · have hfull : groupCount f.alignment f.bytesPerLine * f.alignment = f.bytesPerLine := by
              rw [hk, groupCount_mul h.pos, Nat.mul_comm]
            split_ifs <;> omega
          · by_cases hdvd : f.alignment ∣ f.bytesPerLine
            · obtain ⟨k, hk⟩ := hdvd
              have hfull : groupCount f.alignment f.bytesPerLine * f.alignment =
                  f.bytesPerLine := by
                rw [hk, groupCount_mul h.pos, Nat.mul_comm]
              split_ifs <;> omega
            · have hshort := hs.aligned hc hone hdvd
              rw [Nat.mul_add, Nat.mul_one, Nat.mul_left_comm] at hshort
              split_ifs <;> omega
      | true =>
          simp only [reduceCtorEq, if_false]
          split_ifs <;> omega
  | true =>
      simp only [reduceCtorEq, if_false]
      rw [hbytes]
      unfold groupCount at hcount
      rcases Nat.lt_or_ge 1 f.alignment with hmany | hfew
      · have hhalf := Nat.mul_le_mul_left (min (groupCount f.alignment f.bytesPerLine)
          ((r + f.alignment - 1) / f.alignment)) hmany
        unfold groupCount at *
        split_ifs <;> omega
      · have hone : f.alignment = 1 := Nat.le_antisymm hfew h.pos
        have hshort := hs.cStyle hc hone
        unfold groupCount at *
        rw [hone] at hcount ⊢
        split_ifs <;> omega

/-! ### All lines -/

/-- The line that the print function is called with. -/
def Output.line? : Output → Option Line
  | .line l => some l
  | _ => none

def linesOf (out : List Output) : List Line := out.filterMap Output.line?

/-- The lines for the last bytes of a buffer, of which there are so many, from an offset on. -/
def linesFrom (mem : Bytes) (f : Format) : ℕ → ℕ → ℕ → List Line
  | 0, _, _ => []
  | n + 1, offset, length => printLine mem f offset length ::
      if length ≤ f.bytesPerLine then []
      else linesFrom mem f n (offset + f.bytesPerLine) (length - f.bytesPerLine)

theorem linesOf_append (out out' : List Output) :
    linesOf (out ++ out') = linesOf out ++ linesOf out' := List.filterMap_append

theorem printLines_returns (mem : Bytes) (indent : ℤ) (offset : ℕ) (newLine : Bool)
    (hpos : 0 < f.bytesPerLine) (hlength : 0 < length) (hn : length ≤ n) :
    ∃ out, printLines mem f indent n offset length newLine = some out ∧
      linesOf out = linesFrom mem f n offset length := by
  induction n generalizing offset length newLine with
  | zero => omega
  | succ n ih =>
      have hhead : linesOf ((if newLine = true ∧ indent ≠ 0 then [.indent indent] else []) ++
          [.line (printLine mem f offset length)]) = [printLine mem f offset length] := by
        split <;> rfl
      unfold printLines linesFrom
      dsimp only
      split
      · exact ⟨_, rfl, hhead⟩
      · obtain ⟨out, hout, hlines⟩ := ih (offset + f.bytesPerLine) true
          (show 0 < length - f.bytesPerLine by omega) (by omega)
        rw [hout]
        refine ⟨_, rfl, ?_⟩
        rw [linesOf_append, hhead, hlines]
        rfl

/-- Every byte is read within the buffer and printed once, and each line has room. -/
structure PrintedOnce (offset length : ℕ) (lines : List Line) : Prop where
  reads : ∀ l ∈ lines, ∀ off ∈ l.reads, offset ≤ off ∧ off < offset + length
  digits : (lines.flatMap Line.digits).Perm (List.range' offset length)
  fits : ∀ l ∈ lines, l.text.length < bufferSize

theorem printedOnce_of_full (hpos : 0 < f.bytesPerLine) (hmax : f.bytesPerLine ≤ maxBytesPerLine)
    (hlength : 0 < length) (hn : length ≤ n) (hfull : Full f length)
    (hshort : Short f length) : PrintedOnce offset length (linesFrom mem f n offset length) := by
  induction n generalizing offset length with
  | zero => omega
  | succ n ih =>
      have hline := printLine_consists mem offset hfull.pos length
      have hperm := hfull.lineDigits offset
      have hinside : ∀ off ∈ (printLine mem f offset length).reads,
          offset ≤ off ∧ off < offset + min f.bytesPerLine length := by
        intro off hoff
        rw [hline.reads] at hoff
        rcases List.mem_append.mp hoff with hoff | hoff
        · exact List.mem_range'_1.mp (hperm.mem_iff.mp hoff)
        · split at hoff
          · obtain ⟨j, hj, rfl⟩ := List.mem_map.mp hoff
            have := List.mem_range.mp hj
            omega
          · cases hoff
      have hroom : (printLine mem f offset length).text.length < bufferSize := by
        rw [hline.text]
        exact lineChars_lt hpos hmax hfull hshort
      unfold linesFrom
      split
      · rename_i hle
        rw [Nat.min_eq_right hle] at hperm hinside
        refine ⟨fun l hl => ?_, ?_, fun l hl => ?_⟩
        · rw [List.mem_singleton.mp hl]
          exact hinside
        · rw [List.flatMap_singleton, hline.digits]
          exact hperm
        · rw [List.mem_singleton.mp hl]
          exact hroom
      · rename_i hmore
        rw [Nat.min_eq_left (by omega)] at hperm hinside
        have hdvd := hfull.line.resolve_right hmore
        have hfull' : Full f (length - f.bytesPerLine) :=
          ⟨hfull.pos, Nat.dvd_sub hfull.dvd hdvd, .inl hdvd⟩
        have hshort' : Short f (length - f.bytesPerLine) :=
          ⟨fun hc ha => by have := hshort.cStyle hc ha; omega, fun _ _ hno => absurd hdvd hno⟩
        have hrest : PrintedOnce (offset + f.bytesPerLine) (length - f.bytesPerLine)
            (linesFrom mem f n (offset + f.bytesPerLine) (length - f.bytesPerLine)) :=
          ih (by omega) (by omega) hfull' hshort'
        obtain ⟨hreads, hdigits, hfits⟩ := hrest
        refine ⟨fun l hl => ?_, ?_, fun l hl => ?_⟩
        · rcases List.mem_cons.mp hl with rfl | hl
          · intro off hoff
            have := hinside off hoff
            omega
          · intro off hoff
            have := hreads l hl off hoff
            omega
        · have hsum : length = f.bytesPerLine + (length - f.bytesPerLine) := by omega
          rw [List.flatMap_cons, hline.digits, hsum, ← List.range'_append_1]
          rw [← hsum]
          exact hperm.append hdigits
        · rcases List.mem_cons.mp hl with rfl | hl
          · exact hroom
          · exact hfits l hl

theorem dvd_of_inside (ha : 0 < f.alignment) (hpos : 0 < f.bytesPerLine) (hn : length ≤ n)
    (hline : f.alignment ∣ f.bytesPerLine ∨ length ≤ f.bytesPerLine)
    (hinside : ∀ off ∈ (linesFrom mem f n offset length).flatMap Line.digits,
      off < offset + length) : f.alignment ∣ length := by
  induction n generalizing offset length with
  | zero =>
      obtain rfl : length = 0 := by omega
      exact Nat.dvd_zero _
  | succ n ih =>
      by_contra hdvd
      obtain ⟨hlt, hle⟩ := le_slot hdvd ha
      unfold linesFrom at hinside
      rw [List.flatMap_cons, (printLine_consists mem offset ha length).digits] at hinside
      split at hinside
      · rename_i hone
        have hall := le_groupCount_mul ha f.bytesPerLine
        have hbad := hinside (offset + slot f.alignment (length / f.alignment * f.alignment))
          (List.mem_append_left _ (List.mem_map.mpr ⟨_, List.mem_range.mpr (by omega), rfl⟩))
        omega
      · rename_i hmore
        have hdvd' := hline.resolve_right hmore
        refine hdvd ?_
        have hbehind : ∀ off ∈ (linesFrom mem f n (offset + f.bytesPerLine)
            (length - f.bytesPerLine)).flatMap Line.digits,
            off < offset + f.bytesPerLine + (length - f.bytesPerLine) := fun off hoff => by
          have := hinside off (List.mem_append_right _ hoff)
          omega
        have hrest := ih (by omega) (.inl hdvd') hbehind
        rw [show length = length - f.bytesPerLine + f.bytesPerLine by omega]
        exact Nat.dvd_add hrest hdvd'

theorem length_le_digits (mem : Bytes) (offset : ℕ) (ha : 0 < f.alignment)
    (hpos : 0 < f.bytesPerLine) (hn : length ≤ n) :
    length ≤ ((linesFrom mem f n offset length).flatMap Line.digits).length := by
  induction n generalizing offset length with
  | zero => omega
  | succ n ih =>
      have hall := le_groupCount_mul ha f.bytesPerLine
      unfold linesFrom
      rw [List.flatMap_cons, (printLine_consists mem offset ha length).digits, List.length_append]
      unfold lineDigits
      rw [List.length_map, List.length_range]
      split
      · omega
      · have := ih (offset + f.bytesPerLine) (show length - f.bytesPerLine ≤ n by omega)
        omega

theorem dvd_of_length (ha : 0 < f.alignment) (hpos : 0 < f.bytesPerLine) (hn : length ≤ n)
    (hmore : f.bytesPerLine < length)
    (hcount : ((linesFrom mem f n offset length).flatMap Line.digits).length = length) :
    f.alignment ∣ f.bytesPerLine := by
  by_contra hdvd
  have hall := le_groupCount_mul ha f.bytesPerLine
  have hne : groupCount f.alignment f.bytesPerLine * f.alignment ≠ f.bytesPerLine := fun heq =>
    hdvd ⟨_, (heq.symm.trans (Nat.mul_comm _ _))⟩
  obtain ⟨n, rfl⟩ : ∃ k, n = k + 1 := ⟨n - 1, by omega⟩
  unfold linesFrom at hcount
  rw [List.flatMap_cons, (printLine_consists mem offset ha length).digits, List.length_append,
    if_neg (by omega)] at hcount
  unfold lineDigits at hcount
  rw [List.length_map, List.length_range] at hcount
  have := length_le_digits mem (offset + f.bytesPerLine) ha hpos
    (show length - f.bytesPerLine ≤ n by omega)
  omega

theorem printedOnce_iff (mem : Bytes) (ha : 0 < f.alignment) (hpos : 0 < f.bytesPerLine)
    (hmax : f.bytesPerLine ≤ maxBytesPerLine) (hlength : 0 < length) :
    PrintedOnce 0 length (linesFrom mem f length 0 length) ↔ Full f length ∧ Short f length := by
  refine ⟨fun h => ?_, fun h => printedOnce_of_full hpos hmax hlength le_rfl h.1 h.2⟩
  have hline : f.alignment ∣ f.bytesPerLine ∨ length ≤ f.bytesPerLine := by
    by_contra hno
    rw [not_or] at hno
    have hcount := h.digits.length_eq
    rw [List.length_range'] at hcount
    exact hno.1 (dvd_of_length ha hpos le_rfl (by omega) hcount)
  have hdvd := dvd_of_inside ha hpos le_rfl hline fun off hoff =>
    (List.mem_range'_1.mp (h.digits.mem_iff.mp hoff)).2
  have hfull : Full f length := ⟨ha, hdvd, hline⟩
  refine ⟨hfull, .of_lt hpos hfull hlength ?_⟩
  rw [← (printLine_consists mem 0 ha length).text]
  refine h.fits _ ?_
  obtain ⟨n, hn⟩ : ∃ k, length = k + 1 := ⟨length - 1, by omega⟩
  rw [hn]
  exact List.mem_cons_self

/-! ### Dumps -/

def dumpFormat (length bytesPerLine : ℕ) (singleLineBytesCutoff : ℤ) (alignment : ℕ)
    (cStyle : Bool) : Format where
  bytesPerLine := min bytesPerLine maxBytesPerLine
  alignment := defaultAlignment alignment bytesPerLine
  cStyle := cStyle
  oneLine := decide (int32 length ≤ singleLineBytesCutoff)

theorem defaultAlignment_pos (alignment bytesPerLine : ℕ) :
    0 < defaultAlignment alignment bytesPerLine := by
  unfold defaultAlignment
  split_ifs <;> omega

theorem int32_eq (h : n < 2 ^ 31) : int32 n = n := by
  unfold int32
  exact Int.bmod_eq_of_le (by omega) (by omega)

theorem printHexData_returns (mem : Bytes) (indent : ℤ) (hpos : 0 < length)
    (hmax : length < 2 ^ 31) {bytesPerLine : ℕ} (hbytes : 0 < bytesPerLine)
    (singleLineBytesCutoff : ℤ) (alignment : ℕ)
    (cStyle : Bool) :
    ∃ out, printHexData indent (some mem) length bytesPerLine singleLineBytesCutoff alignment
        cStyle = some out ∧
      linesOf out = linesFrom mem
        (dumpFormat length bytesPerLine singleLineBytesCutoff alignment cStyle)
        length 0 length := by
  have hf : 0 < (dumpFormat length bytesPerLine singleLineBytesCutoff alignment
      cStyle).bytesPerLine := lt_min hbytes (by decide)
  have hlines (indent : ℤ) (newLine : Bool) :=
    printLines_returns mem indent 0 newLine hf hpos le_rfl
  have hneg : ¬ int32 length < 0 := by
    rw [int32_eq hmax]
    omega
  unfold printHexData
  dsimp only
  rw [if_neg (by omega), if_neg hneg]
  unfold dumpFormat at hlines ⊢
  split
  · obtain ⟨out, hout, heq⟩ := hlines (indent + 1) true
    rw [hout]
    refine ⟨_, rfl, ?_⟩
    rw [linesOf_append, linesOf_append, linesOf_append, heq]
    have htail : linesOf (if 0 < indent + 1 then [.indent (indent + 1 - 1)] else []) = [] := by
      split <;> rfl
    rw [htail]
    exact (List.append_nil _).trans (List.append_nil _)
  · split
    · obtain ⟨out, hout, heq⟩ := hlines indent true
      rw [hout]
      exact ⟨_, rfl, heq⟩
    · obtain ⟨out, hout, heq⟩ := hlines indent false
      rw [hout]
      exact ⟨_, rfl, heq⟩

/-- A dump reads within the buffer, shows each byte once and fits into its lines if and only if its
groups are full and not too short for the style. -/
theorem printHexData_once_iff (mem : Bytes) (indent : ℤ) (hpos : 0 < length)
    (hmax : length < 2 ^ 31) {bytesPerLine : ℕ} (hbytes : 0 < bytesPerLine)
    (singleLineBytesCutoff : ℤ) (alignment : ℕ) (cStyle : Bool) :
    (∃ out, printHexData indent (some mem) length bytesPerLine singleLineBytesCutoff alignment
        cStyle = some out ∧ PrintedOnce 0 length (linesOf out)) ↔
      Full (dumpFormat length bytesPerLine singleLineBytesCutoff alignment cStyle) length ∧
        Short (dumpFormat length bytesPerLine singleLineBytesCutoff alignment cStyle) length := by
  obtain ⟨out, hout, hlines⟩ := printHexData_returns mem indent hpos hmax hbytes
    singleLineBytesCutoff alignment cStyle
  have hiff := printedOnce_iff mem
    (f := dumpFormat length bytesPerLine singleLineBytesCutoff alignment cStyle)
    (defaultAlignment_pos alignment bytesPerLine) (lt_min hbytes (by decide)) (min_le_right _ _)
    hpos
  rw [← hiff, ← hlines]
  constructor
  · rintro ⟨out', hout', honce⟩
    cases hout.symm.trans hout'
    exact honce
  · exact fun honce => ⟨out, hout, honce⟩

/-- Eight bytes in groups of four. -/
theorem printHexData_once_eight : ∃ out,
    printHexData 0 (some UInt8.ofNat) 8 16 16 4 false = some out ∧ PrintedOnce 0 8 (linesOf out) :=
  (printHexData_once_iff UInt8.ofNat 0 (by decide) (by decide) (by decide) 16 4 false).mpr
    ⟨⟨by decide, by decide, by decide⟩, by decide, by decide⟩

/-- Of three bytes, the fourth is shown and the first is not. -/
theorem printHexData_outside : ∃ out,
    printHexData 0 (some fun _ => 0) 3 16 16 0 false = some out ∧
      (linesOf out).map Line.digits = [[3, 2, 1]] ∧ ¬ PrintedOnce 0 3 (linesOf out) := by
  refine ⟨_, rfl, rfl, fun h => ?_⟩
  have hlt := (h.reads _ (List.mem_singleton_self _) 3 (by decide)).2
  exact absurd hlt (by decide)

end Debug

end BinderForLinux
