import BinderForLinux.TextOutput.Lines
import Mathlib.Data.List.Basic

/-!
# What printing adds

A round of the loop adds a line with its indentation, so that the loop adds the indented text. The
fast path does so too where a complete line follows the first one, and it then writes what the
buffer would have written.
-/

namespace BinderForLinux

namespace TextOutput

variable {b b' : BufferState} {out out' : Written} {t : Text} {txt first rest : List UInt8}
  {behind : UInt8}

/-- What was written and what is buffered is the text. -/
structure Holds (b : BufferState) (out : Written) (t : Text) : Prop where
  text : out.lines.flatten ++ b.buffer = t.text
  front : b.atFront = t.front
  indent : b.indent = t.indent
  nonneg : 0 ≤ b.indent ∧ 0 ≤ b.bundle
  /-- Only whole lines were written. -/
  complete : ∀ line ∈ out.lines, line.getLast? = some newline
  inside : out.outside = 0
  /-- Outside of bundles a complete line is not kept. -/
  flushed : b.bundle = 0 → b.atFront = true → b.buffer = []
  room : b.buffer.length ≤ b.bufferSize
  size : b.bufferSize < 2 ^ 63

/-- What printing keeps of a buffer. -/
structure Kept (b b' : BufferState) : Prop where
  seq : b'.seq = b.seq
  owner : b'.owner = b.owner
  indent : b'.indent = b.indent
  bundle : b'.bundle = b.bundle
  line : b.bundle = 0 → newline ∉ b.buffer → newline ∉ b'.buffer

theorem Kept.refl : Kept b b := ⟨rfl, rfl, rfl, rfl, fun _ h => h⟩

theorem Kept.trans {b'' : BufferState} (h : Kept b b') (h' : Kept b' b'') : Kept b b'' :=
  ⟨h'.seq.trans h.seq, h'.owner.trans h.owner, h'.indent.trans h.indent,
    h'.bundle.trans h.bundle, fun hb hn => h'.line (h.bundle.trans hb) (h.line hb hn)⟩

def Text.add (t : Text) (x : List UInt8) : Text := { t with text := t.text ++ x }

theorem Text.add_front (hne : first ≠ []) :
    (t.add first).front = decide (first.getLast? = some newline) := by
  unfold Text.front Text.add
  rw [List.getLast?_append, List.getLast?_eq_some_getLast hne, Option.some_or, Option.all_some]
  simp

theorem FirstLine.print (h : FirstLine txt first rest) : t.print txt =
    (t.add ((if t.front = true then indentation t.indent else []) ++ first)).print rest := by
  have hne : (if t.front = true then indentation t.indent else []) ++ first ≠ [] :=
    fun heq => h.ne (List.append_eq_nil_iff.mp heq).2
  have hlast : ((if t.front = true then indentation t.indent else []) ++ first).getLast? =
      first.getLast? := by
    rw [List.getLast?_append, List.getLast?_eq_some_getLast h.ne, Option.some_or]
  have hfront := Text.add_front (t := t) hne
  rw [hlast] at hfront
  unfold Text.print
  rw [hfront, h.indented]
  simp [Text.add]

theorem Text.print_nil : t.print [] = t := by simp [Text.print, indented]

/-! ### Appending -/

theorem append_spec (hroom : b.buffer.length ≤ b.bufferSize) (hsize : b.bufferSize < 2 ^ 63)
    (htxt : txt.length < 2 ^ 63) : b.append txt = .error .noMemory ∨
      ∃ size, b.append txt = .ok { b with buffer := b.buffer ++ txt, bufferSize := size } ∧
        b.buffer.length + txt.length ≤ size ∧ size < 2 ^ 63 := by
  have hneeded : (txt.length + b.buffer.length) % sizeT = txt.length + b.buffer.length :=
    Nat.mod_eq_of_lt (by unfold sizeT; omega)
  unfold BufferState.append BufferState.copy
  rw [hneeded]
  dsimp only
  split
  · split
    · exact .inl rfl
    · rename_i hle
      rw [if_pos (Nat.not_lt.mp hle)]
      refine .inr ⟨_, rfl, by omega, ?_⟩
      unfold sizeT
      omega
  · rename_i hle
    rw [if_pos (Nat.not_lt.mp hle)]
    exact .inr ⟨_, rfl, by omega, hsize⟩

theorem stringForIndent_eq {level : ℤ} (hpos : 0 < level) (hlt : level < 2 ^ 30) :
    stringForIndent level = some (indentation level) := by
  have hint : int32 (level * 2) = level * 2 := Int.bmod_eq_of_le_mul_two (by omega) (by omega)
  have hlength : indentStr.length = 152 := List.length_replicate
  unfold stringForIndent
  rw [hint, hlength]
  dsimp only
  split
  · rename_i hneg
    rw [if_pos (by decide)]
    unfold indentation indentStr
    rw [Int.toNat_zero, List.drop_zero, Nat.min_eq_left (by omega)]
  · rename_i hnonneg
    rw [if_pos (by push_cast; omega)]
    unfold indentation indentStr
    rw [List.drop_replicate]
    congr 2
    omega

theorem length_indentation (level : ℤ) : (indentation level).length ≤ 152 := by
  unfold indentation
  rw [List.length_replicate]
  exact Nat.min_le_left _ _

theorem newline_notMem_indentation (level : ℤ) : newline ∉ indentation level := by
  intro hmem
  have := List.eq_of_mem_replicate hmem
  revert this
  decide

def BufferState.holding (b : BufferState) (s : List UInt8) (size : ℕ) : BufferState :=
  { b with buffer := b.buffer ++ s, bufferSize := size }

theorem addIndent_spec (h : Holds b out t) (hlevel : b.atFront = true → b.indent < 2 ^ 30) :
    addIndent b = .error .noMemory ∨ ∃ size,
      addIndent b = .ok (b.holding (if t.front = true then indentation t.indent else []) size) ∧
        (b.holding (if t.front = true then indentation t.indent else []) size).buffer.length ≤
          size ∧
        size < 2 ^ 63 := by
  have hnone (hx : (if t.front = true then indentation t.indent else []) = [])
      (heq : addIndent b = .ok b) : ∃ size,
      addIndent b = .ok (b.holding (if t.front = true then indentation t.indent else []) size) ∧
        (b.holding (if t.front = true then indentation t.indent else []) size).buffer.length ≤
          size ∧
        size < 2 ^ 63 := by
    refine ⟨b.bufferSize, ?_, ?_, h.size⟩
    · rw [hx, heq, BufferState.holding, List.append_nil]
    · rw [hx, BufferState.holding, List.append_nil]
      exact h.room
  unfold addIndent at hnone ⊢
  split
  · rename_i hfront
    have hlength := length_indentation b.indent
    rw [stringForIndent_eq hfront.2 (hlevel hfront.1)]
    dsimp only
    rw [← h.front, if_pos hfront.1, ← h.indent]
    have hshort : (indentation b.indent).length < 2 ^ 63 := by omega
    rcases append_spec h.room h.size hshort with
      hfail | ⟨size, heq, hroom, hsize⟩
    · exact .inl hfail
    · refine .inr ⟨size, heq, ?_, hsize⟩
      rw [BufferState.holding, List.length_append]
      exact hroom
  · rename_i hfront
    refine .inr ?_
    rw [if_neg hfront] at hnone
    refine hnone ?_ rfl
    rw [← h.front, ← h.indent]
    split
    · rename_i hf
      have hzero : b.indent = 0 := by
        have := h.nonneg.1
        have : ¬ 0 < b.indent := fun hpos => hfront ⟨hf, hpos⟩
        omega
      rw [hzero]
      rfl
    · rfl

theorem addLine_spec {s : List UInt8} {size : ℕ} (h : Holds b out t) (hs : newline ∉ s)
    (hroom : (b.holding s size).buffer.length ≤ size) (hsize : size < 2 ^ 63)
    (hfirst : FirstLine txt first rest) (hlen : first.length < 2 ^ 63) :
    addLine (b.holding s size) first out = .error .noMemory ∨
      ∃ b' out', addLine (b.holding s size) first out = .ok (b', out') ∧
        Holds b' out' (t.add (s ++ first)) ∧ Kept b b' ∧
        b'.atFront = decide (first.getLast? = some newline) := by
  have hlast (x : List UInt8) : (x ++ first).getLast? = first.getLast? := by
    rw [List.getLast?_append, List.getLast?_eq_some_getLast hfirst.ne, Option.some_or]
  have hne : s ++ first ≠ [] := fun heq => hfirst.ne (List.append_eq_nil_iff.mp heq).2
  have hfront := Text.add_front (t := t) hne
  rw [hlast] at hfront
  have htext : out.lines.flatten ++ (b.buffer ++ s ++ first) = (t.add (s ++ first)).text := by
    rw [Text.add, ← h.text]
    simp
  unfold addLine
  rcases append_spec (b := b.holding s size) hroom hsize hlen with hfail |
    ⟨size', heq, hroom', hsize'⟩
  · rw [hfail]
    exact .inl rfl
  · rw [heq]
    refine .inr ?_
    dsimp only [BufferState.holding] at hroom' ⊢
    split
    · rename_i hflush
      have hnl : first.getLast? = some newline := of_decide_eq_true hflush.1
      refine ⟨_, _, rfl, ⟨?_, ?_, h.indent, h.nonneg, ?_, h.inside, fun _ _ => rfl,
        Nat.zero_le _, ?_⟩, ⟨rfl, rfl, rfl, rfl, fun _ _ => List.not_mem_nil⟩, ?_⟩
      · dsimp only [BufferState.restart, Written.write]
        rw [List.flatten_append, List.flatten_singleton, List.append_nil]
        exact htext
      · rw [hfront, hnl, decide_eq_true rfl]
        rfl
      · intro line hline
        rcases List.mem_append.mp hline with hline | hline
        · exact h.complete line hline
        · rw [List.mem_singleton.mp hline, hlast, hnl]
      · exact Nat.lt_of_le_of_lt (Nat.min_le_right _ _) (by decide)
      · rw [hnl, decide_eq_true rfl]
        rfl
    · rename_i hflush
      refine ⟨_, _, rfl, ⟨htext, hfront.symm, h.indent, h.nonneg, h.complete, h.inside,
        fun hb hf => absurd ⟨hf, hb⟩ hflush, ?_, hsize'⟩, ⟨rfl, rfl, rfl, rfl, ?_⟩, rfl⟩
      · dsimp only
        rwa [List.length_append]
      · intro hb hmem
        have hnl : first.getLast? ≠ some newline := fun hnl =>
          hflush ⟨decide_eq_true hnl, hb⟩
        obtain ⟨hfree, -⟩ := hfirst.last.resolve_left hnl
        simp only [List.mem_append, not_or]
        exact ⟨⟨hmem, hs⟩, hfree⟩

/-! ### The loop -/

theorem slurp_of_notMem {pos lastLine : ℕ} (h : newline ∉ txt) :
    slurp txt pos lastLine = lastLine := by
  induction txt generalizing pos with
  | nil => rfl
  | cons c txt ih =>
      obtain ⟨hc, htxt⟩ : newline ≠ c ∧ newline ∉ txt := by rwa [List.mem_cons, not_or] at h
      rw [slurp, if_neg fun heq => hc heq.symm]
      exact ih htxt

theorem slurp_of_mem (pos lastLine : ℕ) (h : newline ∈ txt) : ∃ pre post,
    txt = pre ++ newline :: post ∧ newline ∉ post ∧
      slurp txt pos lastLine = pos + pre.length + 1 := by
  induction txt generalizing pos lastLine with
  | nil => cases h
  | cons c txt ih =>
      by_cases htxt : newline ∈ txt
      · obtain ⟨pre, post, rfl, hpost, heq⟩ := ih (pos + 1) _ htxt
        refine ⟨c :: pre, post, rfl, hpost, ?_⟩
        rw [slurp, heq, List.length_cons]
        omega
      · obtain rfl : newline = c := by
          rcases List.mem_cons.mp h with heq | hmem
          · exact heq
          · exact absurd hmem htxt
        refine ⟨[], txt, rfl, htxt, ?_⟩
        rw [slurp, slurp_of_notMem htxt, if_pos rfl]
        rfl

/-- If the text has a complete line, it has another one behind the first. -/
def Whole (txt : List UInt8) : Prop :=
  newline ∈ txt → newline ∈ txt.drop (firstLine txt).length

/-- The indentation is not too deep where a line starts. -/
def Shallow (b : BufferState) (txt : List UInt8) : Prop :=
  b.indent < 2 ^ 30 ∨ txt = [] ∨ b.atFront = false ∧ txt.drop (firstLine txt).length = []

/-- The fast path finds another complete line. -/
structure Prints (b : BufferState) (txt : List UInt8) : Prop where
  shallow : Shallow b txt
  whole : 0 < b.indent ∨ b.bundle ≠ 0 ∨
    Whole (if b.atFront = true then txt else txt.drop (firstLine txt).length)

theorem whole_of_notMem (h : newline ∉ txt) : Whole txt := fun hmem => absurd hmem h

theorem direct_spec (behind : UInt8) (h : Holds b out t) (hfirst : FirstLine txt first rest)
    (hdirect : Direct b first) (hmem : newline ∈ rest) : ∃ line post,
    first ++ (rest ++ [behind]).take (slurp rest 0 1) = line ∧ rest.drop (slurp rest 0 1) = post ∧
      slurp rest 0 1 - rest.length = 0 ∧ newline ∉ post ∧ post.length ≤ rest.length ∧
      t.print txt = (t.add line).print post ∧ Holds b (out.write line) (t.add line) := by
  obtain ⟨hfront, hlevel, -, hbundle⟩ := hdirect
  obtain ⟨pre, post, rfl, hpost, heq⟩ := slurp_of_mem 0 1 hmem
  have hindent : t.indent = 0 := by
    have := h.nonneg.1
    rw [← h.indent]
    omega
  have hspaces : indentation 0 = [] := rfl
  have hlength : slurp (pre ++ newline :: post) 0 1 = (pre ++ [newline]).length := by
    rw [heq, List.length_append, List.length_singleton, Nat.zero_add]
  have hsplit : pre ++ newline :: post = (pre ++ [newline]) ++ post := by simp
  have hlast (x : List UInt8) : (x ++ (pre ++ [newline])).getLast? = some newline := by
    rw [← List.append_assoc, List.getLast?_concat]
  have hbuffer : b.buffer = [] := h.flushed hbundle hfront
  refine ⟨first ++ (pre ++ [newline]), post, ?_, ?_, ?_, hpost, ?_, ?_, ?_⟩
  · rw [hlength, hsplit, List.append_assoc, List.take_left]
  · rw [hlength, hsplit, List.drop_left]
  · rw [hlength, hsplit]
    exact Nat.sub_eq_zero_of_le (List.sublist_append_left _ post).length_le
  · rw [hsplit, List.length_append]
    omega
  · unfold Text.print Text.add
    dsimp only
    rw [hindent, hspaces, indented_nil, indented_nil, hfirst.eq, hsplit]
    simp
  · have hne : first ++ (pre ++ [newline]) ≠ [] := by simp
    have hfront' := Text.add_front (t := t) hne
    rw [hlast, decide_eq_true rfl] at hfront'
    refine ⟨?_, hfront.trans hfront'.symm, h.indent, h.nonneg, fun line hline => ?_, h.inside,
      h.flushed, h.room, h.size⟩
    · have htext := h.text
      rw [hbuffer, List.append_nil] at htext ⊢
      rw [Written.write, List.flatten_append, List.flatten_singleton, htext, Text.add]
    · rcases List.mem_append.mp hline with hline | hline
      · exact h.complete line hline
      · rw [List.mem_singleton.mp hline, hlast]

theorem Shallow.level (h : Shallow b txt) (hne : txt ≠ []) (hfront : b.atFront = true) :
    b.indent < 2 ^ 30 := by
  rcases h with hlevel | htxt | ⟨hback, -⟩
  · exact hlevel
  · exact absurd htxt hne
  · rw [hfront] at hback
    cases hback

theorem Shallow.of_rest (h : Shallow b txt) (hkept : Kept b b') (hne : txt ≠ []) :
    Shallow b' (txt.drop (firstLine txt).length) := by
  rcases h with hlevel | htxt | ⟨-, hdrop⟩
  · exact .inl (hkept.indent ▸ hlevel)
  · exact absurd htxt hne
  · exact .inr (.inl hdrop)

theorem Prints.of_rest (h : Prints b txt) (hkept : Kept b b') (hne : txt ≠ [])
    (hdirect : ¬ Direct b (firstLine txt))
    (hfront : b'.atFront = decide ((firstLine txt).getLast? = some newline)) :
    Prints b' (txt.drop (firstLine txt).length) := by
  have hfirst := firstLine_spec hne
  have hnil : Whole ([] : List UInt8) := whole_of_notMem List.not_mem_nil
  refine ⟨h.shallow.of_rest hkept hne, ?_⟩
  rw [hkept.indent, hkept.bundle]
  by_cases hlevel : 0 < b.indent
  · exact .inl hlevel
  · by_cases hbundle : b.bundle = 0
    · refine .inr (.inr ?_)
      have hwhole := (h.whole.resolve_left hlevel).resolve_left (not_not.mpr hbundle)
      by_cases hnl : (firstLine txt).getLast? = some newline
      · rw [hfront, decide_eq_true hnl, if_pos rfl]
        by_cases hf : b.atFront = true
        · exact absurd ⟨hf, hlevel, hnl, hbundle⟩ hdirect
        · rwa [if_neg hf] at hwhole
      · rw [(hfirst.last.resolve_left hnl).2]
        split <;> exact hnil
    · exact .inr (.inl hbundle)

/-- What printing a text comes to: it may run out of memory. -/
def Adds (b : BufferState) (t : Text) (r : Except Fault (BufferState × Written)) : Prop :=
  r = .error .noMemory ∨ ∃ b' out', r = .ok (b', out') ∧ Holds b' out' t ∧ Kept b b'

theorem round_spec (h : Holds b out t) (hne : txt ≠ []) (hshallow : Shallow b txt)
    (hlen : txt.length < 2 ^ 63) :
    (addIndent b = .error .noMemory ∨ ∃ b₁, addIndent b = .ok b₁ ∧
      (addLine b₁ (firstLine txt) out = .error .noMemory ∨ ∃ b' out' t',
        addLine b₁ (firstLine txt) out = .ok (b', out') ∧ Holds b' out' t' ∧
          t.print txt = t'.print (txt.drop (firstLine txt).length) ∧ Kept b b' ∧
          b'.atFront = decide ((firstLine txt).getLast? = some newline))) := by
  have hfirst := firstLine_spec hne
  rcases addIndent_spec h (hshallow.level hne) with hfail | ⟨size, heq, hroom, hsize⟩
  · exact .inl hfail
  · refine .inr ⟨_, heq, ?_⟩
    have hs : newline ∉ (if t.front = true then indentation t.indent else []) := by
      split
      · exact newline_notMem_indentation _
      · exact List.not_mem_nil
    have hlen' : (firstLine txt).length < 2 ^ 63 := by
      have := congrArg List.length hfirst.eq
      rw [List.length_append] at this
      omega
    rcases addLine_spec h hs hroom hsize hfirst hlen' with
      hfail | ⟨b', out', heq', hholds, hkept, hfront⟩
    · exact .inl hfail
    · exact .inr ⟨b', out', _, heq', hholds, hfirst.print, hkept, hfront⟩

theorem printLoop_spec {fast : Bool} {fuel : ℕ} (h : Holds b out t) (hshallow : Shallow b txt)
    (hprints : fast = true → Prints b txt) (hlen : txt.length < 2 ^ 63)
    (hfuel : txt.length ≤ fuel) :
    Adds b (t.print txt) (printLoop fast behind fuel txt b out) := by
  induction fuel generalizing b out t txt with
  | zero =>
      obtain rfl := List.eq_nil_of_length_eq_zero (Nat.le_zero.mp hfuel)
      rw [Text.print_nil]
      exact .inr ⟨b, out, rfl, h, .refl⟩
  | succ fuel ih =>
      unfold printLoop
      split
      · rename_i hnil
        rw [hnil, Text.print_nil]
        exact .inr ⟨b, out, rfl, h, .refl⟩
      · rename_i hne
        have hfirst := firstLine_spec hne
        have hsum := congrArg List.length hfirst.eq
        rw [List.length_append] at hsum
        have hpos := List.length_pos_iff.mpr hfirst.ne
        dsimp only
        split
        · rename_i hdirect
          obtain ⟨hfast, hdirect⟩ := hdirect
          obtain ⟨hfront, hlevel, hnl, hbundle⟩ := hdirect
          have hwhole := ((hprints hfast).whole.resolve_left hlevel).resolve_left
            (not_not.mpr hbundle)
          rw [if_pos hfront] at hwhole
          have hmem := hwhole (hfirst.eq ▸ List.mem_append_left _ (List.mem_of_getLast? hnl))
          obtain ⟨line, post, hline, hpost, hinside, hfree, hle, hprint, hholds⟩ :=
            direct_spec behind h hfirst ⟨hfront, hlevel, hnl, hbundle⟩ hmem
          rw [hline, hpost, hinside, hprint]
          have hshallow' : Shallow b post := .inl (by omega)
          refine ih hholds hshallow' (fun _ => ⟨hshallow', .inr (.inr ?_)⟩) (by omega) (by omega)
          rw [if_pos hfront]
          exact whole_of_notMem hfree
        · rename_i hdirect
          rcases round_spec h hne hshallow hlen with hfail | ⟨b₁, heq, hfail | ⟨b', out', t', heq',
            hholds, hprint, hkept, hfront⟩⟩
          · rw [hfail]
            exact .inl rfl
          · rw [heq]
            dsimp only
            rw [hfail]
            exact .inl rfl
          · rw [heq]
            dsimp only
            rw [heq', hprint]
            dsimp only
            have hprints' (hfast : fast = true) :
                Prints b' (txt.drop (firstLine txt).length) :=
              (hprints hfast).of_rest hkept hne (fun hd => hdirect ⟨hfast, hd⟩) hfront
            rcases ih hholds (hshallow.of_rest hkept hne) hprints' (by omega) (by omega) with
              hfail | ⟨b'', out'', heq'', hholds'', hkept''⟩
            · exact .inl hfail
            · exact .inr ⟨b'', out'', heq'', hholds'', hkept.trans hkept''⟩

/-! ### The fast path -/

theorem getLast?_flatten {lines : List (List UInt8)}
    (h : ∀ line ∈ lines, line.getLast? = some newline) :
    lines.flatten = [] ∨ lines.flatten.getLast? = some newline := by
  rcases List.eq_nil_or_concat' lines with rfl | ⟨init, line, rfl⟩
  · exact .inl rfl
  · have hlast := h line (by simp)
    refine .inr ?_
    rw [List.flatten_append, List.flatten_singleton, List.getLast?_append, hlast, Option.some_or]

theorem eq_nil_of_append {lines : List (List UInt8)} {x y z : List UInt8}
    (h : ∀ line ∈ lines, line.getLast? = some newline) (heq : lines.flatten = x ++ y)
    (hfree : newline ∉ y ++ z) : y = [] := by
  rcases List.eq_nil_or_concat' y with rfl | ⟨init, c, rfl⟩
  · rfl
  · rcases getLast?_flatten h with hnil | hlast
    · rw [hnil] at heq
      simp at heq
    · rw [heq, ← List.append_assoc, List.getLast?_concat] at hlast
      cases hlast
      exact absurd (by simp) hfree

theorem Holds.unique (h : Holds b out t) (h' : Holds b' out' t) (hb : newline ∉ b.buffer)
    (hb' : newline ∉ b'.buffer) :
    out.lines.flatten = out'.lines.flatten ∧ b.buffer = b'.buffer := by
  rcases List.append_eq_append_iff.mp (h.text.trans h'.text.symm) with
    ⟨y, heq, hbuffer⟩ | ⟨y, heq, hbuffer⟩
  · rw [hbuffer] at hb
    obtain rfl := eq_nil_of_append h'.complete heq hb
    rw [List.append_nil] at heq
    exact ⟨heq.symm, hbuffer⟩
  · rw [hbuffer] at hb'
    obtain rfl := eq_nil_of_append h.complete heq hb'
    rw [List.append_nil] at heq
    exact ⟨heq, hbuffer.symm⟩

theorem printLoop_fast {fuel : ℕ} {b₁ b₂ : BufferState} {out₁ out₂ : Written}
    (h : Holds b out t) (hprints : Prints b txt) (hlen : txt.length < 2 ^ 63)
    (hfuel : txt.length ≤ fuel) (hfast : printLoop true behind fuel txt b out = .ok (b₁, out₁))
    (hslow : printLoop false behind fuel txt b out = .ok (b₂, out₂)) :
    out₁.lines.flatten = out₂.lines.flatten ∧ b₁.buffer = b₂.buffer := by
  induction fuel generalizing b out t txt with
  | zero =>
      cases hfast
      cases hslow
      exact ⟨rfl, rfl⟩
  | succ fuel ih =>
      by_cases hne : txt = []
      · rw [printLoop, if_pos hne] at hfast hslow
        cases hfast
        cases hslow
        exact ⟨rfl, rfl⟩
      · by_cases hdirect : Direct b (firstLine txt)
        · -- Nothing is buffered here, and nothing complete will be.
          have hbundle := hdirect.2.2.2
          have hbuffer : newline ∉ b.buffer := by
            rw [h.flushed hbundle hdirect.1]
            exact List.not_mem_nil
          have hspec : Adds b (t.print txt) (printLoop true behind (fuel + 1) txt b out) :=
            printLoop_spec h hprints.shallow (fun _ => hprints) hlen hfuel
          have hspec' : Adds b (t.print txt) (printLoop false behind (fuel + 1) txt b out) :=
            printLoop_spec h hprints.shallow (fun h => by cases h) hlen hfuel
          rw [hfast] at hspec
          rw [hslow] at hspec'
          obtain ⟨_, _, heq, hholds, hkept⟩ := hspec.resolve_left fun h => by cases h
          obtain ⟨_, _, heq', hholds', hkept'⟩ := hspec'.resolve_left fun h => by cases h
          cases heq
          cases heq'
          exact hholds.unique hholds' (hkept.line hbundle hbuffer) (hkept'.line hbundle hbuffer)
        · have hfirst := firstLine_spec hne
          have hsum := congrArg List.length hfirst.eq
          rw [List.length_append] at hsum
          have hpos := List.length_pos_iff.mpr hfirst.ne
          rw [printLoop, if_neg hne] at hfast hslow
          dsimp only at hfast hslow
          rw [if_neg fun hd => hdirect hd.2] at hfast
          rw [if_neg fun hd => hdirect hd.2] at hslow
          rcases round_spec h hne hprints.shallow hlen with hfail |
            ⟨b', heq, hfail | ⟨b'', out', t',
            heq', hholds, -, hkept, hfront⟩⟩
          · rw [hfail] at hfast
            cases hfast
          · rw [heq] at hfast
            dsimp only at hfast
            rw [hfail] at hfast
            cases hfast
          · rw [heq] at hfast hslow
            dsimp only at hfast hslow
            rw [heq'] at hfast hslow
            exact ih hholds (hprints.of_rest hkept hne hdirect hfront) (by omega) (by omega) hfast
              hslow

/-! ### Levels -/

theorem Holds.new {seq : ℤ} {owner : ℕ} : Holds (.new seq owner) ⟨[], 0⟩ ⟨[], 0⟩ where
  text := rfl
  front := rfl
  indent := rfl
  nonneg := ⟨Int.le_refl 0, Int.le_refl 0⟩
  complete := fun _ hline => absurd hline List.not_mem_nil
  inside := rfl
  flushed := fun _ _ => rfl
  room := Nat.le_refl 0
  size := Nat.two_pow_pos 63

theorem Holds.moveIndent {delta : ℤ} (h : Holds b out t) (hint : -2 ^ 31 ≤ delta)
    (hlt : b.indent + delta < 2 ^ 31) :
    Holds (TextOutput.moveIndent delta b) out (t.moveIndent delta) := by
  obtain ⟨hindent, hbundle⟩ := h.nonneg
  have hkept : int32 (b.indent + delta) = b.indent + delta :=
    Int.bmod_eq_of_le_mul_two (by omega) (by omega)
  have hmax : (if b.indent + delta < 0 then 0 else b.indent + delta) =
      max 0 (b.indent + delta) := by omega
  refine ⟨h.text, h.front, ?_, ⟨?_, hbundle⟩, h.complete, h.inside, h.flushed, h.room, h.size⟩
  · rw [TextOutput.moveIndent, Text.moveIndent, hkept, ← h.indent]
    exact hmax
  · rw [TextOutput.moveIndent, hkept]
    dsimp only
    omega

theorem Holds.pushBundle (h : Holds b out t) (hlt : b.bundle + 1 < 2 ^ 31) :
    Holds (TextOutput.pushBundle b) out t := by
  obtain ⟨hindent, hbundle⟩ := h.nonneg
  have hkept : int32 (b.bundle + 1) = b.bundle + 1 :=
    Int.bmod_eq_of_le_mul_two (by omega) (by omega)
  refine ⟨h.text, h.front, h.indent, ⟨hindent, ?_⟩, h.complete, h.inside, fun hzero => ?_, h.room,
    h.size⟩
  · rw [TextOutput.pushBundle, hkept]
    dsimp only
    omega
  · rw [TextOutput.pushBundle, hkept] at hzero
    dsimp only at hzero
    omega

theorem Holds.popBundle (h : Holds b out t) :
    Holds (TextOutput.popBundle b out).1 (TextOutput.popBundle b out).2 t := by
  have hbundle : 0 ≤ if int32 (b.bundle - 1) < 0 then 0 else int32 (b.bundle - 1) := by
    split <;> omega
  unfold TextOutput.popBundle
  dsimp only
  generalize (if int32 (b.bundle - 1) < 0 then 0 else int32 (b.bundle - 1)) = bundle at hbundle ⊢
  split
  · rename_i hflush
    obtain ⟨-, hne, hfront⟩ := hflush
    have htext := h.text
    have hlast : b.buffer.getLast? = some newline := by
      have ht := h.front.symm.trans hfront
      rw [Text.front, ← htext, List.getLast?_append, List.getLast?_eq_some_getLast hne,
        Option.some_or, Option.all_some] at ht
      rw [List.getLast?_eq_some_getLast hne, of_decide_eq_true ht]
    refine ⟨?_, hfront.symm.trans h.front, h.indent, ⟨h.nonneg.1, hbundle⟩, fun line hline => ?_,
      h.inside, fun _ _ => rfl, Nat.zero_le _, ?_⟩
    · dsimp only [BufferState.restart, Written.write]
      rw [List.flatten_append, List.flatten_singleton, List.append_nil]
      exact htext
    · rcases List.mem_append.mp hline with hline | hline
      · exact h.complete line hline
      · rw [List.mem_singleton.mp hline, hlast]
    · exact Nat.lt_of_le_of_lt (Nat.min_le_right _ _) (by decide)
  · rename_i hflush
    refine ⟨h.text, h.front, h.indent, ⟨h.nonneg.1, hbundle⟩, h.complete, h.inside,
      fun hzero hfront => ?_, h.room, h.size⟩
    by_contra hne
    exact hflush ⟨hzero, hne, hfront⟩

end TextOutput

end BinderForLinux
