import BinderForLinux.Debug.HexData

/-!
# Lines of a dump

What each of the loops adds to a line: how many characters, and which bytes. The bytes of a line
are counted from its start; the one that is printed in the slot `j` is `slot j`.
-/

namespace BinderForLinux

namespace Debug

variable {mem : Bytes} {f : Format} {start word r k k' c c' n m g length : ℕ} {s s' s'' : Line × ℤ}
  {offs offs' : List ℕ}

/-- A part of the loops prints the digits of some bytes, with so many characters in all, and takes
so much from what remains. -/
structure Adds (s s' : Line × ℤ) (offs : List ℕ) (c k : ℕ) : Prop where
  text : s'.1.text.length = s.1.text.length + c
  reads : s'.1.reads = s.1.reads ++ offs
  digits : s'.1.digits = s.1.digits ++ offs
  remain : s'.2.toNat = s.2.toNat - k

theorem Adds.refl : Adds s s [] 0 0 where
  text := rfl
  reads := (List.append_nil _).symm
  digits := (List.append_nil _).symm
  remain := rfl

theorem Adds.trans (h : Adds s s' offs c k) (h' : Adds s' s'' offs' c' k') :
    Adds s s'' (offs ++ offs') (c + c') (k + k') where
  text := by rw [h'.text, h.text, Nat.add_assoc]
  reads := by rw [h'.reads, h.reads, List.append_assoc]
  digits := by rw [h'.digits, h.digits, List.append_assoc]
  remain := by rw [h'.remain, h.remain, Nat.sub_sub]

theorem Adds.eq (h : Adds s s' offs c k) (hoffs : offs = offs') (hc : c = c') (hk : k = k') :
    Adds s s' offs' c' k' := by
  subst hoffs hc hk
  exact h

theorem adds_put (cs : List Char) {l : Line} {x : ℤ} {p : Prop} [Decidable p] :
    Adds (l, x) (if p then l.put cs else l, x) [] (if p then cs.length else 0) 0 := by
  split
  · exact ⟨List.length_append, (List.append_nil _).symm, (List.append_nil _).symm, rfl⟩
  · exact .refl

theorem adds_remain {l : Line} {x : ℤ} : Adds (l, x) (l, x - 1) [] 0 1 :=
  ⟨rfl, (List.append_nil _).symm, (List.append_nil _).symm, by dsimp only; omega⟩

theorem adds_putDigits {l : Line} {x : ℤ} {off : ℕ} :
    Adds (l, x) (l.putDigits mem off, x - 1) [off] 2 1 :=
  ⟨List.length_append, rfl, rfl, by dsimp only; omega⟩

/-! ### Groups -/

/-- The characters of the byte at an index of a group, of which so many bytes are left. -/
def byteChars (f : Format) (word r index : ℕ) : ℕ :=
  if f.cStyle = false then
    (if index = 0 ∧ 0 < word then 1 else 0) + if 0 < r ∨ f.oneLine = false then 2 else 0
  else if 0 < r then
    (if index = 0 ∧ 0 < word then 2 else 0) + (if index = 0 then 2 else 0) + 2
  else 0

theorem printByte_adds (mem : Bytes) (f : Format) (start word index : ℕ) (s : Line × ℤ) :
    Adds s (printByte mem f start word s index)
      (if 0 < s.2.toNat then [start + (word + (f.alignment - 1)) - index] else [])
      (byteChars f word s.2.toNat index) 1 := by
  have hremain : 0 < s.2.toNat ↔ 0 < s.2 := by omega
  unfold printByte byteChars
  simp only [hremain]
  split
  · by_cases hpos : 0 < s.2
    · simp only [if_pos hpos, if_pos (Or.inl hpos : 0 < s.2 ∨ f.oneLine = false)]
      exact (adds_put _ (l := s.1)).trans adds_putDigits
    · simp only [hpos, false_or, if_false]
      split
      · have h := ((adds_put [' '] (l := s.1) (x := s.2) (p := index = 0 ∧ 0 < word)).trans
          (adds_put [' ', ' '] (p := True))).trans adds_remain
        simpa using h
      · exact (adds_put _ (l := s.1)).trans adds_remain
  · split
    · exact ((adds_put _ (l := s.1)).trans (adds_put _)).trans adds_putDigits
    · rename_i hdone
      exact ⟨rfl, (List.append_nil _).symm, (List.append_nil _).symm, by omega⟩

def groupChars (f : Format) (word r m : ℕ) : ℕ :=
  if f.cStyle = false then
    (if 0 < m ∧ 0 < word then 1 else 0) + 2 * if f.oneLine = false then m else min m r
  else (if 0 < m ∧ 0 < r then if 0 < word then 4 else 2 else 0) + 2 * min m r

theorem groupChars_succ : groupChars f word r (m + 1) =
    groupChars f word r m + byteChars f word (r - m) m := by
  unfold groupChars byteChars
  cases f.cStyle <;> cases f.oneLine <;> grind

theorem printBytes_adds (mem : Bytes) (f : Format) (start word m : ℕ) (s : Line × ℤ) :
    Adds s ((List.range m).foldl (printByte mem f start word) s)
      ((List.range (min m s.2.toNat)).map fun i => start + (word + (f.alignment - 1)) - i)
      (groupChars f word s.2.toNat m) m := by
  induction m with
  | zero => exact Adds.refl.eq (by simp) (by simp [groupChars]) rfl
  | succ m ih =>
      rw [List.range_succ, List.foldl_append]
      refine (ih.trans (printByte_adds ..)).eq ?_ ?_ rfl
      · rw [ih.remain]
        split
        · rw [Nat.min_eq_left (by omega), Nat.min_eq_left (by omega), List.range_succ,
            List.map_append, List.map_singleton]
        · rw [Nat.min_eq_right (by omega), Nat.min_eq_right (by omega), List.append_nil]
      · rw [ih.remain, groupChars_succ]

/-! ### Lines -/

def slot (a j : ℕ) : ℕ := j / a * a + (a - 1 - j % a)

def groupsChars (f : Format) (r g : ℕ) : ℕ :=
  if f.cStyle = false then
    (g - 1) + 2 * if f.oneLine = false then g * f.alignment else min (g * f.alignment) r
  else 4 * min g ((r + f.alignment - 1) / f.alignment) + 2 * min (g * f.alignment) r -
    if 0 < g ∧ 0 < r then 2 else 0

/-- How many groups of `a` bytes there are, the last of which may not be full. -/
def groupCount (a n : ℕ) : ℕ := (n + a - 1) / a

theorem lt_groupCount {a : ℕ} (ha : 0 < a) : g < groupCount a n ↔ g * a < n := by
  unfold groupCount
  rw [Nat.lt_iff_add_one_le, Nat.le_div_iff_mul_le ha, Nat.succ_mul]
  omega

theorem groupsChars_succ (ha : 0 < f.alignment) : groupsChars f r (g + 1) =
    groupsChars f r g + groupChars f (g * f.alignment) (r - g * f.alignment) f.alignment := by
  have hcount := lt_groupCount (g := g) (n := r) ha
  have hword : 0 < g * f.alignment ↔ 0 < g := by
    rw [Nat.mul_pos_iff_of_pos_right ha]
  have hsucc : (g + 1) * f.alignment = g * f.alignment + f.alignment := Nat.succ_mul ..
  unfold groupsChars groupChars
  simp only [hsucc]
  unfold groupCount at hcount
  generalize (r + f.alignment - 1) / f.alignment = count at hcount ⊢
  generalize g * f.alignment = word at hcount hword ⊢
  cases f.cStyle <;> cases f.oneLine <;> simp <;> split_ifs <;> omega

def groups (mem : Bytes) (f : Format) (start : ℕ) (s : Line × ℤ) : ℕ → Line × ℤ
  | 0 => s
  | g + 1 => printGroup mem f start (g * f.alignment) (groups mem f start s g)

theorem printGroups_eq (mem : Bytes) (start : ℕ) (s : Line × ℤ) (ha : 0 < f.alignment)
    (hn : groupCount f.alignment f.bytesPerLine ≤ g + n)
    (hg : g ≤ groupCount f.alignment f.bytesPerLine) :
    printGroups mem f start n (g * f.alignment) (groups mem f start s g) =
      groups mem f start s (groupCount f.alignment f.bytesPerLine) := by
  induction n generalizing g with
  | zero =>
      obtain rfl : g = groupCount f.alignment f.bytesPerLine := by omega
      rfl
  | succ n ih =>
      have hcount := lt_groupCount (g := g) (n := f.bytesPerLine) ha
      unfold printGroups
      split
      · rename_i hlt
        have h := ih (g := g + 1) (by omega) (hcount.mpr hlt)
        rwa [Nat.succ_mul] at h
      · rename_i hdone
        have heq : g = groupCount f.alignment f.bytesPerLine := by
          have := mt hcount.mp hdone
          omega
        rw [← heq]

theorem slot_add {a i : ℕ} (hi : i < a) : slot a (g * a + i) = g * a + (a - 1 - i) := by
  unfold slot
  rw [Nat.mul_comm g a, Nat.mul_add_div (by omega), Nat.mul_add_mod, Nat.div_eq_of_lt hi,
    Nat.mod_eq_of_lt hi, Nat.add_zero, Nat.mul_comm a g]

theorem groups_adds (mem : Bytes) (start : ℕ) (s : Line × ℤ) (ha : 0 < f.alignment) (g : ℕ) :
    Adds s (groups mem f start s g)
      ((List.range (min (g * f.alignment) s.2.toNat)).map fun j => start + slot f.alignment j)
      (groupsChars f s.2.toNat g) (g * f.alignment) := by
  induction g with
  | zero => exact Adds.refl.eq (by simp) (by simp [groupsChars]) (Nat.zero_mul _).symm
  | succ g ih =>
      refine (ih.trans (printBytes_adds ..)).eq ?_ ?_ (Nat.succ_mul ..).symm
      · have hsum : min ((g + 1) * f.alignment) s.2.toNat = min (g * f.alignment) s.2.toNat +
            min f.alignment (s.2.toNat - g * f.alignment) := by
          rw [Nat.succ_mul]
          omega
        rw [ih.remain, hsum, List.range_add, List.map_append, List.map_map]
        refine congrArg _ (List.map_congr_left fun i hi => ?_)
        have hlt := List.mem_range.mp hi
        rw [Function.comp_apply, Nat.min_eq_left (by omega), slot_add (by omega)]
        omega
      · rw [ih.remain, groupsChars_succ ha]

/-- What the characters that the bytes of a line are shown as add to it. -/
structure Shows (f : Format) (start m : ℕ) (s s' : Line × ℤ) : Prop where
  text : s'.1.text.length =
    s.1.text.length + if f.oneLine = false then m else min m s.2.toNat
  reads : s'.1.reads = s.1.reads ++ (List.range (min m s.2.toNat)).map (start + ·)
  digits : s'.1.digits = s.1.digits
  remain : s'.2.toNat = s.2.toNat - m

theorem printChars_shows (mem : Bytes) (f : Format) (start m : ℕ) (s : Line × ℤ) :
    Shows f start m s ((List.range m).foldl (printChar mem f start) s) := by
  induction m with
  | zero => exact ⟨by simp, by simp, rfl, rfl⟩
  | succ m ih =>
      obtain ⟨htext, hreads, hdigits, hremain⟩ := ih
      rw [List.range_succ, List.foldl_append]
      generalize (List.range m).foldl (printChar mem f start) s = t at *
      dsimp only [List.foldl_cons, List.foldl_nil]
      unfold printChar
      by_cases hpos : 0 < t.2
      · have hall : min (m + 1) s.2.toNat = min m s.2.toNat + 1 := by omega
        have hm : min m s.2.toNat = m := by omega
        rw [if_pos hpos]
        refine ⟨?_, ?_, hdigits, by dsimp only; omega⟩
        · change (t.1.text ++ [_]).length = _
          rw [List.length_append, htext, hall, List.length_singleton]
          split <;> omega
        · change t.1.reads ++ [start + m] = _
          rw [hreads, hall, List.range_succ, List.map_append, List.append_assoc, hm,
            List.map_singleton]
      · have hall : min (m + 1) s.2.toNat = min m s.2.toNat := by omega
        rw [if_neg hpos]
        split
        · refine ⟨?_, by rw [hall]; exact hreads, hdigits, by dsimp only; omega⟩
          change (t.1.text ++ [' ']).length = _
          rw [List.length_append, htext, List.length_singleton]
          rename_i hmore
          rw [if_pos hmore, if_pos hmore]
          rfl
        · refine ⟨?_, by rw [hall]; exact hreads, hdigits, by dsimp only; omega⟩
          rename_i hone
          rw [htext, if_neg hone, if_neg hone, hall]

theorem newLine_spec (f : Format) (start : ℕ) :
    (newLine f start).text.length = (if f.oneLine = false ∧ f.cStyle = false then 12 else 0) ∧
      (newLine f start).reads = [] ∧ (newLine f start).digits = [] := by
  unfold newLine
  split
  · exact ⟨by simp [offsetText], rfl, rfl⟩
  · exact ⟨rfl, rfl, rfl⟩

/-- The characters of a line for the last bytes, of which there are so many. -/
def lineChars (f : Format) (r : ℕ) : ℕ :=
  let g := groupCount f.alignment f.bytesPerLine
  if f.cStyle = false then
    (if f.oneLine = false then 12 else 0) + groupsChars f r g + 3 +
      (if f.oneLine = false then f.bytesPerLine else min f.bytesPerLine r) +
      if f.bytesPerLine < r then 1 else 0
  else groupsChars f r g + (if g * f.alignment < r then 1 else 0) + 1

def lineDigits (f : Format) (start r : ℕ) : List ℕ :=
  (List.range (min (groupCount f.alignment f.bytesPerLine * f.alignment) r)).map fun j =>
    start + slot f.alignment j

/-- What a line consists of. -/
structure Consists (f : Format) (start r : ℕ) (l : Line) : Prop where
  text : l.text.length = lineChars f r
  reads : l.reads = lineDigits f start r ++ if f.cStyle = false then
    (List.range (min f.bytesPerLine r)).map (start + ·) else []
  digits : l.digits = lineDigits f start r

theorem printLine_consists (mem : Bytes) (start : ℕ) (ha : 0 < f.alignment) (r : ℕ) :
    Consists f start r (printLine mem f start r) := by
  have hle : groupCount f.alignment f.bytesPerLine ≤ f.bytesPerLine := by
    by_contra hmore
    have := (lt_groupCount ha).mp (not_le.mp hmore)
    have := Nat.le_mul_of_pos_right f.bytesPerLine ha
    omega
  have hgroups (s : Line × ℤ) : printGroups mem f start f.bytesPerLine 0 s =
      groups mem f start s (groupCount f.alignment f.bytesPerLine) := by
    have h := printGroups_eq mem start s (g := 0) (n := f.bytesPerLine) ha (by omega)
      (Nat.zero_le _)
    rwa [Nat.zero_mul] at h
  obtain ⟨htext, hreads, hdigits⟩ := newLine_spec f start
  obtain ⟨htext₁, hreads₁, hdigits₁, hremain₁⟩ := groups_adds mem start (newLine f start, (r : ℤ))
    ha (groupCount f.alignment f.bytesPerLine)
  rw [Int.toNat_natCast] at htext₁ hreads₁ hdigits₁ hremain₁
  rw [hreads, List.nil_append] at hreads₁
  rw [hdigits, List.nil_append] at hdigits₁
  rw [htext] at htext₁
  unfold printLine
  dsimp only
  rw [hgroups]
  generalize groups mem f start (newLine f start, (r : ℤ))
    (groupCount f.alignment f.bytesPerLine) = s at *
  cases hc : f.cStyle with
  | false =>
      obtain ⟨htext₂, hreads₂, hdigits₂, -⟩ := printChars_shows mem f start f.bytesPerLine
        (s.1.put [' ', '\''], (r : ℤ))
      generalize (List.range f.bytesPerLine).foldl (printChar mem f start)
        (s.1.put [' ', '\''], (r : ℤ)) = u at *
      rw [Int.toNat_natCast] at htext₂ hreads₂
      change u.1.text.length = (s.1.text ++ [' ', '\'']).length + _ at htext₂
      change u.1.reads = s.1.reads ++ _ at hreads₂
      change u.1.digits = s.1.digits at hdigits₂
      have hchars : lineChars f r = u.1.text.length + 1 + if f.bytesPerLine < r then 1 else 0 := by
        have heq : lineChars f r = (if f.oneLine = false then 12 else 0) +
            groupsChars f r (groupCount f.alignment f.bytesPerLine) + 3 +
            (if f.oneLine = false then f.bytesPerLine else min f.bytesPerLine r) +
            if f.bytesPerLine < r then 1 else 0 := if_pos hc
        rw [heq, htext₂, List.length_append, htext₁, hc]
        simp only [and_true, List.length_cons, List.length_nil]
        omega
      rw [if_pos rfl]
      refine ⟨?_, ?_, ?_⟩
      · rw [hchars]
        split <;> simp [Line.put]
      · rw [hreads₁] at hreads₂
        rw [if_pos hc]
        split <;> exact hreads₂
      · rw [hdigits₁] at hdigits₂
        split <;> exact hdigits₂
  | true =>
      have hchars : lineChars f r = s.1.text.length + (if 0 < s.2 then 1 else 0) + 1 := by
        have heq : lineChars f r = groupsChars f r (groupCount f.alignment f.bytesPerLine) +
            (if groupCount f.alignment f.bytesPerLine * f.alignment < r then 1 else 0) + 1 :=
          if_neg (by rw [hc]; exact Bool.noConfusion)
        have hmore : 0 < s.2 ↔ groupCount f.alignment f.bytesPerLine * f.alignment < r := by omega
        rw [heq, htext₁, hc]
        simp only [hmore, and_false, if_false, reduceCtorEq, Nat.zero_add]
      rw [if_neg Bool.noConfusion]
      refine ⟨?_, ?_, ?_⟩
      · rw [hchars]
        split <;> simp [Line.put]
      · have hnone : ¬ f.cStyle = false := by rw [hc]; exact Bool.noConfusion
        simp only [if_neg hnone, List.append_nil]
        split <;> exact hreads₁
      · split <;> exact hdigits₁

end Debug

end BinderForLinux
