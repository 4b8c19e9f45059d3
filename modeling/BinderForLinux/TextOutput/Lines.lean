import BinderForLinux.TextOutput.Buffer
import Mathlib.Data.List.TakeWhile

/-!
# Indented lines

What a text output is for: the texts one after the other, with the indentation at the starts of
lines. The rounds of the loop of `print` cut a text into lines; the indented text is put together
from what each round adds.
-/

namespace BinderForLinux

namespace TextOutput

/-- Two blanks for each level, as many as there are. -/
def indentation (level : ℤ) : List UInt8 := List.replicate (min 152 (2 * level.toNat)) 32

/-- The text with `spaces` where a line starts. An empty line gets them if it is at the start of
the text. -/
def indented (spaces : List UInt8) : Bool → Bool → List UInt8 → List UInt8
  | _, _, [] => []
  | front, start, c :: txt =>
      (if front = true ∧ (start = true ∨ c ≠ newline) then spaces else []) ++
        c :: indented spaces (c = newline) false txt

/-- What was printed, with its indentation, and the level of what comes next. -/
structure Text where
  text : List UInt8
  indent : ℤ

namespace Text

def front (t : Text) : Bool := t.text.getLast?.all fun c => c = newline

def print (t : Text) (txt : List UInt8) : Text :=
  { t with text := t.text ++ indented (indentation t.indent) t.front true txt }

def moveIndent (t : Text) (delta : ℤ) : Text := { t with indent := max 0 (t.indent + delta) }

end Text

/-! ### Lines of a text -/

variable {spaces txt rest x : List UInt8} {front start : Bool} {c : UInt8}

theorem indented_nil : indented [] front start txt = txt := by
  induction txt generalizing front start with
  | nil => rfl
  | cons c txt ih => simp [indented, ih]

theorem indented_within (hx : ∀ c ∈ x, c ≠ newline) (hne : x ≠ []) :
    indented spaces front start (x ++ rest) =
      (if front = true then spaces else []) ++ x ++ indented spaces false false rest := by
  have hfalse (y : List UInt8) (hy : ∀ c ∈ y, c ≠ newline) :
      indented spaces false false (y ++ rest) = y ++ indented spaces false false rest := by
    induction y with
    | nil => rfl
    | cons c y ih =>
        have hc : c ≠ newline := hy c List.mem_cons_self
        simp [indented, hc, ih fun d hd => hy d (List.mem_cons_of_mem c hd)]
  cases x with
  | nil => exact absurd rfl hne
  | cons c x =>
      have hc : c ≠ newline := hx c List.mem_cons_self
      have htail := hfalse x fun d hd => hx d (List.mem_cons_of_mem c hd)
      rw [List.cons_append, indented, decide_eq_false hc, htail]
      simp [hc]

theorem indented_newlines (hx : ∀ c ∈ x, c = newline) (hne : x ≠ []) :
    indented spaces front false (x ++ rest) = x ++ indented spaces true false rest := by
  induction x generalizing front with
  | nil => exact absurd rfl hne
  | cons c x ih =>
      obtain rfl : c = newline := hx c List.mem_cons_self
      rw [List.cons_append, indented]
      cases x with
      | nil => simp
      | cons d x =>
          rw [ih (fun e he => hx e (List.mem_cons_of_mem newline he)) (List.cons_ne_nil d x)]
          simp

theorem indented_start (hhead : txt.head? ≠ some newline) :
    indented spaces front true txt = indented spaces front false txt := by
  cases txt with
  | nil => rfl
  | cons c txt =>
      have hc : c ≠ newline := fun heq => hhead (heq ▸ rfl)
      simp [indented, hc]

/-- What a round of the loop takes from the text. -/
structure FirstLine (txt first rest : List UInt8) : Prop where
  eq : txt = first ++ rest
  ne : first ≠ []
  /-- The line goes as far as it can. -/
  head : rest.head? ≠ some newline
  /-- Where it has no end there is nothing behind it. -/
  last : first.getLast? = some newline ∨ newline ∉ first ∧ rest = []
  indented : ∀ spaces front, indented spaces front true txt =
    (if front = true then spaces else []) ++ first ++
      TextOutput.indented spaces (first.getLast? = some newline) true rest

theorem indented_newline : indented spaces front true (newline :: x) =
    (if front = true then spaces else []) ++ newline :: indented spaces true false x := by
  simp [indented]

theorem firstLine_spec (hne : txt ≠ []) :
    FirstLine txt (firstLine txt) (txt.drop (firstLine txt).length) := by
  obtain ⟨body, rest, hbody, hrest⟩ : ∃ body rest,
      txt.takeWhile (fun c => c ≠ newline) = body ∧ txt.dropWhile (fun c => c ≠ newline) = rest :=
    ⟨_, _, rfl, rfl⟩
  obtain ⟨empty, tail, hempty, htail⟩ : ∃ empty tail,
      rest.takeWhile (fun c => c = newline) = empty ∧
        rest.dropWhile (fun c => c = newline) = tail := ⟨_, _, rfl, rfl⟩
  have hsplit : body ++ rest = txt := hbody ▸ hrest ▸ List.takeWhile_append_dropWhile
  have hsplit' : empty ++ tail = rest := hempty ▸ htail ▸ List.takeWhile_append_dropWhile
  have hwithin : ∀ c ∈ body, c ≠ newline := by
    intro c hc
    rw [← hbody] at hc
    have hdec := List.mem_takeWhile_imp hc
    exact of_decide_eq_true hdec
  have hempties : ∀ c ∈ empty, c = newline := by
    intro c hc
    rw [← hempty] at hc
    have hdec := List.mem_takeWhile_imp hc
    exact of_decide_eq_true hdec
  have hhead : tail.head? ≠ some newline := by
    have := List.head?_dropWhile_not (fun c => decide (c = newline)) rest
    rw [htail] at this
    intro heq
    rw [heq] at this
    simp at this
  have hnone : empty = [] → tail = [] := by
    intro heq
    have hhead' := List.head?_dropWhile_not (fun c => decide (c ≠ newline)) txt
    rw [hrest, ← hsplit', heq, List.nil_append] at hhead'
    cases tail with
    | nil => rfl
    | cons c tail =>
        refine absurd ?_ hhead
        simpa using hhead'
  have hfirst : firstLine txt = body ++ empty := by
    rw [firstLine, hbody, hrest, hempty]
  have hdrop : txt.drop (firstLine txt).length = tail := by
    rw [hfirst, ← hsplit, ← hsplit', ← List.append_assoc, List.drop_left]
  have hall : txt = body ++ (empty ++ tail) := by rw [hsplit', hsplit]
  rw [hdrop, hfirst]
  have hlast (he : empty ≠ []) : (body ++ empty).getLast? = some newline := by
    rw [List.getLast?_append, List.getLast?_eq_some_getLast he, Option.some_or]
    exact congrArg some (hempties _ (List.getLast_mem he))
  refine ⟨by rw [List.append_assoc, ← hall], fun heq => hne ?_, hhead, ?_, fun spaces front => ?_⟩
  · obtain ⟨rfl, rfl⟩ := List.append_eq_nil_iff.mp heq
    rw [hall, hnone rfl]
    rfl
  · rcases eq_or_ne empty [] with he | he
    · refine .inr ⟨?_, hnone he⟩
      rw [he, List.append_nil]
      exact fun hmem => hwithin newline hmem rfl
    · exact .inl (hlast he)
  · rcases eq_or_ne empty [] with rfl | he
    · obtain rfl := hnone rfl
      have hb : body ≠ [] := fun heq => hne (by rw [hall, heq]; rfl)
      rw [hall]
      rw [indented_within hwithin hb]
      simp [indented]
    · rw [hlast he, decide_eq_true rfl, indented_start hhead, hall]
      rcases eq_or_ne body [] with rfl | hb
      · cases empty with
        | nil => exact absurd rfl he
        | cons c empty =>
            obtain rfl : c = newline := hempties c List.mem_cons_self
            rw [List.nil_append, List.cons_append, indented_newline]
            rcases eq_or_ne empty [] with rfl | he'
            · simp
            · rw [indented_newlines (fun d hd => hempties d (List.mem_cons_of_mem _ hd)) he']
              simp
      · rw [indented_within hwithin hb, indented_newlines hempties he]
        simp

end TextOutput

end BinderForLinux
