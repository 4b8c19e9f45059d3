import BinderForLinux.Ashmem.Lru
import Mathlib.Data.List.Pairwise
import Mathlib.Data.Nat.Basic

/-!
# The ranges of an area

The unpinned ranges of an area as a list of entries, the last pages first. Pinning cuts pages out
of every entry that meets them; unpinning replaces the entries that meet the new range, or one of
those it was merged with, by one that has all their pages. The entries of the other areas stay.
-/

namespace BinderForLinux

namespace Ashmem

variable {s s' s'' : State} {N a b r q first last : ℕ} {zalloc : Bool}

/-- The pages of an area that can be pinned and unpinned: offsets are 32-bit numbers. -/
def maxPages : ℕ := 2 ^ 20

def entries (s : State) (a : ℕ) : List (ℕ × Range) :=
  (s.area a).unpinnedList.map fun r => (r, s.range r)

def Range.Proper (x : Range) (N : ℕ) : Prop := x.pgstart ≤ x.pgend ∧ x.pgend < N

/-- Disjoint ranges of pages below `N`, the last pages first. -/
structure Ordered (N : ℕ) (l : List (ℕ × Range)) : Prop where
  descending : l.Pairwise fun x y => y.2.pgend < x.2.pgstart
  proper : ∀ x ∈ l, x.2.Proper N

theorem Range.meets_iff {x : Range} (hx : x.Proper N) (hle : first ≤ last) :
    x.Meets first last ↔ first ≤ x.pgend ∧ x.pgstart ≤ last := by
  unfold Range.Proper at hx
  unfold Range.Meets Range.HasPage Range.SubsumedBy
  omega

theorem Range.rangeSize_eq {x : Range} (hx : x.Proper maxPages) :
    x.rangeSize = x.pgend - x.pgstart + 1 := by
  obtain ⟨hle, hlt⟩ := hx
  unfold maxPages at hlt
  unfold Range.rangeSize
  rw [wsub_of_le hle (by omega), wadd_def]
  omega

/-! ### Changes within an area -/

/-- Only ranges of the area `a` change, and new ones are made for it. -/
structure Within (a : ℕ) (s s' : State) : Prop where
  opened : s'.opened = s.opened
  nextArea : s'.nextArea = s.nextArea
  others : ∀ b, b ≠ a → s'.area b = s.area b
  fields : s'.area a = { s.area a with unpinnedList := (s'.area a).unpinnedList }
  nextRange : s.nextRange ≤ s'.nextRange
  listed : ∀ q ∈ (s'.area a).unpinnedList, q ∈ (s.area a).unpinnedList ∨ s.nextRange ≤ q
  range : ∀ q, q ∉ (s.area a).unpinnedList → q < s.nextRange → s'.range q = s.range q

namespace Within

theorem refl (a : ℕ) (s : State) : Within a s s :=
  ⟨rfl, rfl, fun _ _ => rfl, rfl, le_rfl, fun _ hq => .inl hq, fun _ _ _ => rfl⟩

theorem trans (h : Within a s s') (h' : Within a s' s'') : Within a s s'' where
  opened := h'.opened.trans h.opened
  nextArea := h'.nextArea.trans h.nextArea
  others b hb := (h'.others b hb).trans (h.others b hb)
  fields := by
    rw [h'.fields, h.fields]
  nextRange := h.nextRange.trans h'.nextRange
  listed q hq := by
    rcases h'.listed q hq with hq | hq
    · exact h.listed q hq
    · exact .inr (h.nextRange.trans hq)
  range q hq hlt := by
    have hq' : q ∉ (s'.area a).unpinnedList := by
      intro hmem
      rcases h.listed q hmem with hmem | hle
      · exact hq hmem
      · omega
    rw [h'.range q hq' (lt_of_lt_of_le hlt h.nextRange), h.range q hq hlt]

theorem rangeDel (hr : (s.range r).asma = a) : Within a s (rangeDel s r) := by
  have harea : (Ashmem.rangeDel s r).area = Function.update s.area a
      { s.area a with unpinnedList := (s.area a).unpinnedList.erase r } := by
    rw [rangeDel_area, hr]
  refine ⟨rangeDel_opened, rangeDel_nextArea, fun b hb => ?_, ?_, rangeDel_nextRange.symm.le,
    fun q hq => ?_, fun q _ _ => by rw [rangeDel_range]⟩
  · rw [harea, Function.update_of_ne hb]
  · rw [harea, Function.update_self]
  · rw [harea, Function.update_self] at hq
    exact .inl (List.mem_of_mem_erase hq)

theorem rangeShrink {m n : ℕ} (hr : r ∈ (s.area a).unpinnedList) :
    Within a s (rangeShrink s r m n) := by
  refine ⟨rangeShrink_opened, rangeShrink_nextArea, fun b _ => by rw [rangeShrink_area], ?_,
    rangeShrink_nextRange.symm.le, fun q hq => ?_, fun q hq _ => ?_⟩
  · rw [rangeShrink_area]
  · rw [rangeShrink_area] at hq
    exact .inl hq
  · have hne : q ≠ r := fun heq => hq (heq ▸ hr)
    rw [rangeShrink_range, Function.update_of_ne hne]

theorem rangeAlloc {prev : Option ℕ} {x : Range} (hs : Allocated s a prev x s') :
    Within a s s' := by
  refine ⟨hs.opened, hs.nextArea, fun b hb => ?_, ?_, ?_, fun q hq => ?_, fun q _ hlt => ?_⟩
  · rw [hs.area, Function.update_of_ne hb]
  · rw [hs.area, Function.update_self]
  · rw [hs.nextRange]
    exact Nat.le_succ _
  · rw [hs.area, Function.update_self] at hq
    rcases mem_listAddTail.mp hq with rfl | hq
    · exact .inr le_rfl
    · exact .inl hq
  · have hne : q ≠ s.nextRange := hlt.ne
    rw [hs.range, Function.update_of_ne hne]

theorem entries_eq (h : Within a s s') (hb : Booked s) (ha : a ∈ s.opened) (hopen : b ∈ s.opened)
    (hne : b ≠ a) : entries s' b = entries s b := by
  unfold entries
  rw [h.others b hne]
  refine List.map_congr_left fun q hq => ?_
  have hnot : q ∉ (s.area a).unpinnedList := hb.not_mem_of_ne hopen hq ha hne.symm
  rw [h.range q hnot (hb.asma b hopen q hq).2]

end Within

/-! ### Pinning -/

/-- What is left of an entry when the pages from `first` to `last` are pinned. Where pages are
left on both sides, those behind go to the new range `n`, if there is memory for it. -/
def pieces (n first last : ℕ) (zalloc : Bool) (e : ℕ × Range) : List (ℕ × Range) :=
  if e.2.Meets first last then
    (if last < e.2.pgend then
      if first ≤ e.2.pgstart then [(e.1, { e.2 with pgstart := last + 1 })]
      else if zalloc then [(n, { e.2 with pgstart := last + 1 })] else []
    else []) ++
      if e.2.pgstart < first then [(e.1, { e.2 with pgend := first - 1 })] else []
  else [e]

def entriesOf (s : State) (l : List ℕ) : List (ℕ × Range) := l.map fun r => (r, s.range r)

theorem entriesOf_congr {l : List ℕ} (h : ∀ q ∈ l, s'.range q = s.range q) :
    entriesOf s' l = entriesOf s l :=
  List.map_congr_left fun q hq => by rw [h q hq]

theorem entries_append {l l' : List ℕ} (h : (s.area a).unpinnedList = l ++ l') :
    entries s a = entriesOf s l ++ entriesOf s l' := by
  unfold entries
  rw [h, List.map_append]
  rfl

def anyPurged (first last : ℕ) (l : List (ℕ × Range)) : Bool :=
  l.any fun e => decide (e.2.Meets first last) && e.2.purged

structure Pinned (a first last n : ℕ) (zalloc : Bool) (pre rest : List ℕ) (s : State) (ret : Bool)
    (out : State × Bool) : Prop where
  booked : Booked out.1
  within : Within a s out.1
  entries_eq : entries out.1 a =
    entriesOf s pre ++ (entriesOf s rest).flatMap (pieces n first last zalloc)
  ret_eq : out.2 = (ret || anyPurged first last (entriesOf s rest))

theorem pieces_of_not_meets {n : ℕ} {e : ℕ × Range} (h : ¬ e.2.Meets first last) :
    pieces n first last zalloc e = [e] := if_neg h

theorem flatMap_pieces_of_before {n : ℕ} {l : List (ℕ × Range)}
    (h : ∀ e ∈ l, ¬ e.2.Meets first last) : l.flatMap (pieces n first last zalloc) = l := by
  induction l with
  | nil => rfl
  | cons e l ih =>
      rw [List.flatMap_cons, pieces_of_not_meets (h e List.mem_cons_self),
        ih fun x hx => h x (List.mem_cons_of_mem e hx)]
      rfl

theorem anyPurged_of_before {l : List (ℕ × Range)} (h : ∀ e ∈ l, ¬ e.2.Meets first last) :
    anyPurged first last l = false := by
  refine List.any_eq_false.mpr fun e he => ?_
  simp [h e he]

theorem anyPurged_cons {e : ℕ × Range} {l : List (ℕ × Range)} :
    anyPurged first last (e :: l) =
      ((decide (e.2.Meets first last) && e.2.purged) || anyPurged first last l) := rfl

theorem split_notMem {pre rest : List ℕ} (hb : Booked s) (ha : a ∈ s.opened)
    (hlist : (s.area a).unpinnedList = pre ++ r :: rest) : r ∉ pre ∧ r ∉ rest := by
  have hnodup := hb.nodup a ha
  rw [hlist] at hnodup
  obtain ⟨-, hcons, hdisj⟩ := List.nodup_append.mp hnodup
  exact ⟨fun hr => hdisj r hr r List.mem_cons_self rfl, (List.nodup_cons.mp hcons).1⟩

theorem entriesOf_cons {l : List ℕ} : entriesOf s (r :: l) = (r, s.range r) :: entriesOf s l := rfl

theorem entriesOf_rangeDel {l : List ℕ} : entriesOf (rangeDel s r) l = entriesOf s l :=
  entriesOf_congr fun q _ => by rw [rangeDel_range]

theorem entriesOf_rangeShrink {l : List ℕ} {m n : ℕ} (hr : r ∉ l) :
    entriesOf (rangeShrink s r m n) l = entriesOf s l := by
  refine entriesOf_congr fun q hq => ?_
  have hne : q ≠ r := fun heq => hr (heq ▸ hq)
  rw [rangeShrink_range, Function.update_of_ne hne]

theorem listAddTail_split {pre rest : List ℕ} {n : ℕ} (hr : r ∉ pre) :
    listAddTail n (some r) (pre ++ r :: rest) = pre ++ n :: r :: rest := by
  induction pre with
  | nil => simp [listAddTail]
  | cons x pre ih =>
      have hne : ¬ some r = some x := fun heq => hr (by simp [Option.some.inj heq])
      rw [List.cons_append, listAddTail, if_neg hne,
        ih fun h => hr (List.mem_cons_of_mem x h), List.cons_append]

section Pin

variable {pre rest : List ℕ} {ret : Bool} {n : ℕ}

theorem Pinned.of_rangeDel {out : State × Bool} (hb : Booked s) (ha : a ∈ s.opened)
    (hlist : (s.area a).unpinnedList = pre ++ r :: rest)
    (hmeets : (s.range r).Meets first last) (hsub : (s.range r).SubsumedBy first last)
    (h : Pinned a first last n zalloc pre rest (rangeDel s r) (ret || (s.range r).purged) out) :
    Pinned a first last n zalloc pre (r :: rest) s ret out := by
  have hmem : r ∈ (s.area a).unpinnedList := by rw [hlist]; simp
  refine ⟨h.booked, (Within.rangeDel (hb.asma a ha r hmem).1).trans h.within, ?_, ?_⟩
  · have hpieces : pieces n first last zalloc (r, s.range r) = [] := by
      unfold Range.SubsumedBy at hsub
      rw [pieces, if_pos hmeets, if_neg (show ¬ last < (s.range r).pgend by omega),
        if_neg (show ¬ (s.range r).pgstart < first by omega)]
      rfl
    rw [h.entries_eq, entriesOf_cons, List.flatMap_cons, hpieces, List.nil_append,
      entriesOf_rangeDel, entriesOf_rangeDel]
  · rw [h.ret_eq, entriesOf_cons, anyPurged_cons, decide_eq_true hmeets, Bool.true_and,
      Bool.or_assoc, entriesOf_rangeDel]

theorem Pinned.of_rangeShrink {out : State × Bool} {m k : ℕ} (hb : Booked s) (ha : a ∈ s.opened)
    (hlist : (s.area a).unpinnedList = pre ++ r :: rest)
    (hmeets : (s.range r).Meets first last)
    (hpieces : pieces n first last zalloc (r, s.range r) =
      [(r, { s.range r with pgstart := m, pgend := k })])
    (h : Pinned a first last n zalloc (pre ++ [r]) rest (rangeShrink s r m k)
      (ret || (s.range r).purged) out) :
    Pinned a first last n zalloc pre (r :: rest) s ret out := by
  have hmem : r ∈ (s.area a).unpinnedList := by rw [hlist]; simp
  obtain ⟨hpre, hrest⟩ := split_notMem hb ha hlist
  refine ⟨h.booked, (Within.rangeShrink hmem).trans h.within, ?_, ?_⟩
  · have happend : entriesOf (rangeShrink s r m k) (pre ++ [r]) =
        entriesOf s pre ++ [(r, { s.range r with pgstart := m, pgend := k })] := by
      unfold entriesOf
      rw [List.map_append, List.map_singleton, rangeShrink_range, Function.update_self,
        ← rangeShrink_range]
      exact congrArg (· ++ _) (entriesOf_rangeShrink hpre)
    rw [h.entries_eq, happend, entriesOf_cons, List.flatMap_cons, hpieces,
      entriesOf_rangeShrink hrest, List.append_assoc]
  · rw [h.ret_eq, entriesOf_cons, anyPurged_cons, decide_eq_true hmeets, Bool.true_and,
      Bool.or_assoc, entriesOf_rangeShrink hrest]

theorem Pinned.of_split (hb : Booked s) (ha : a ∈ s.opened)
    (hlist : (s.area a).unpinnedList = pre ++ r :: rest)
    (hbehind : ∀ e ∈ entriesOf s rest, ¬ e.2.Meets first last)
    (hstart : (s.range r).pgstart < first) (hend : last < (s.range r).pgend) (hle : first ≤ last)
    (hs : Allocated s a (some r) { s.range r with pgstart := last + 1 } s') :
    Pinned a first last s.nextRange true pre (r :: rest) s ret
      (rangeShrink s' r (s'.range r).pgstart (first - 1), ret || (s.range r).purged) := by
  have hmem : r ∈ (s.area a).unpinnedList := by rw [hlist]; simp
  have hasma : ({ s.range r with pgstart := last + 1 } : Range).asma = a := (hb.asma a ha r hmem).1
  obtain ⟨hpre, hrest⟩ := split_notMem hb ha hlist
  have hlist' : (s'.area a).unpinnedList = pre ++ s.nextRange :: r :: rest := by
    rw [hs.area, Function.update_self, hlist, listAddTail_split hpre]
  have hmem' : r ∈ (s'.area a).unpinnedList := by rw [hlist']; simp
  have ha' : a ∈ s'.opened := by rw [hs.opened]; exact ha
  have hold (q : ℕ) (hq : q ∈ (s.area a).unpinnedList) : s'.range q = s.range q := by
    have hne : q ≠ s.nextRange := fun heq => hb.fresh_not_mem ha (heq ▸ hq)
    rw [hs.range, Function.update_of_ne hne]
  have hmeets : (s.range r).Meets first last := by
    unfold Range.Meets Range.HasPage
    omega
  refine ⟨(hb.rangeAlloc ha hasma hs).rangeShrink ha' hmem',
    (Within.rangeAlloc hs).trans (Within.rangeShrink hmem'), ?_, ?_⟩
  · have hfresh : s.nextRange ≠ r := fun heq => hb.fresh_not_mem ha (heq ▸ hmem)
    have hpieces : pieces s.nextRange first last true (r, s.range r) =
        [(s.nextRange, { s.range r with pgstart := last + 1 }),
          (r, { s.range r with pgend := first - 1 })] := by
      rw [pieces, if_pos hmeets, if_pos hend, if_neg (show ¬ first ≤ (s.range r).pgstart by omega),
        if_pos rfl, if_pos hstart]
      rfl
    have hlist'' : ((rangeShrink s' r (s'.range r).pgstart (first - 1)).area a).unpinnedList =
        pre ++ s.nextRange :: r :: rest := by rw [rangeShrink_area, hlist']
    rw [entries_append hlist'', entriesOf_cons, entriesOf_cons, entriesOf_rangeShrink hpre,
      entriesOf_rangeShrink hrest, rangeShrink_range, Function.update_self,
      Function.update_of_ne hfresh, entriesOf_cons, List.flatMap_cons, hpieces,
      flatMap_pieces_of_before hbehind, hold r hmem,
      entriesOf_congr fun q hq => hold q (by rw [hlist]; simp [hq]),
      entriesOf_congr fun q hq => hold q (by rw [hlist]; simp [hq]), hs.range,
      Function.update_self]
    rfl
  · rw [entriesOf_cons, anyPurged_cons, decide_eq_true hmeets, Bool.true_and,
      anyPurged_of_before hbehind, Bool.or_false]

theorem Pinned.of_lost (hb : Booked s) (ha : a ∈ s.opened)
    (hlist : (s.area a).unpinnedList = pre ++ r :: rest)
    (hbehind : ∀ e ∈ entriesOf s rest, ¬ e.2.Meets first last)
    (hstart : (s.range r).pgstart < first) (hend : last < (s.range r).pgend) (hle : first ≤ last) :
    Pinned a first last n false pre (r :: rest) s ret
      (rangeShrink s r (s.range r).pgstart (first - 1), ret || (s.range r).purged) := by
  have hmem : r ∈ (s.area a).unpinnedList := by rw [hlist]; simp
  have hmeets : (s.range r).Meets first last := by
    unfold Range.Meets Range.HasPage
    omega
  have hpieces : pieces n first last false (r, s.range r) =
      [(r, { s.range r with pgstart := (s.range r).pgstart, pgend := first - 1 })] := by
    rw [pieces, if_pos hmeets, if_pos hend, if_neg (show ¬ first ≤ (s.range r).pgstart by omega),
      if_neg Bool.false_ne_true, if_pos hstart]
    rfl
  refine .of_rangeShrink hb ha hlist hmeets hpieces ⟨hb.rangeShrink ha hmem, .refl _ _, ?_, ?_⟩
  all_goals
    have hrest := (split_notMem hb ha hlist).2
    rw [← entriesOf_rangeShrink (m := (s.range r).pgstart) (n := first - 1) hrest] at hbehind
  · have hlist' : ((rangeShrink s r (s.range r).pgstart (first - 1)).area a).unpinnedList =
        (pre ++ [r]) ++ rest := by
      rw [rangeShrink_area, hlist, List.append_assoc]
      rfl
    rw [entries_append hlist', flatMap_pieces_of_before hbehind]
  · rw [anyPurged_of_before hbehind, Bool.or_false]

theorem not_meets_of_before {x : Range} (hx : x.Proper N) (hle : first ≤ last)
    (h : x.pgend < first) : ¬ x.Meets first last := by
  rw [Range.meets_iff hx hle]
  omega

theorem pinLoop_pinned (hN : N ≤ wordSize) (hle : first ≤ last) (hlast : last < N)
    (hb : Booked s) (ha : a ∈ s.opened) (hn : s.nextRange = n)
    (hlist : (s.area a).unpinnedList = pre ++ rest)
    (hord : Ordered N (entriesOf s rest)) :
    Pinned a first last n zalloc pre rest s ret (pinLoop a first last zalloc rest s ret) := by
  induction rest generalizing s pre ret with
  | nil =>
      refine ⟨hb, .refl a s, ?_, ?_⟩
      · rw [pinLoop, entries_append hlist]
        rfl
      · rw [pinLoop]
        simp [anyPurged, entriesOf]
  | cons r rest ih =>
      have hmem : r ∈ (s.area a).unpinnedList := by rw [hlist]; simp
      obtain ⟨hpre, hrest⟩ := split_notMem hb ha hlist
      have hx : (s.range r).Proper N := hord.proper (r, s.range r) List.mem_cons_self
      have hdesc := List.pairwise_cons.mp hord.descending
      have hord' : Ordered N (entriesOf s rest) :=
        ⟨hdesc.2, fun e he => hord.proper e (List.mem_cons_of_mem _ he)⟩
      have hnext (hlt : last < (s.range r).pgend) : wadd last 1 = last + 1 := by
        have := hx.2
        unfold wordSize at hN
        rw [wadd_def]
        omega
      have hprev (hlt : (s.range r).pgstart < first) : wsub first 1 = first - 1 := by
        unfold wordSize at hN
        exact wsub_of_le (by omega) (by omega)
      rw [pinLoop]
      dsimp only
      split
      · rename_i hbefore
        -- all that follow are before the page too
        have hnone : ∀ e ∈ entriesOf s (r :: rest), ¬ e.2.Meets first last := by
          intro e he
          refine not_meets_of_before (hord.proper e he) hle ?_
          rcases List.mem_cons.mp he with rfl | he
          · exact hbefore
          · have hlt := hdesc.1 e he
            unfold Range.Before at hbefore
            have := hx.1
            dsimp only at hlt
            omega
        refine ⟨hb, .refl a s, ?_, ?_⟩
        · rw [entries_append hlist, flatMap_pieces_of_before hnone]
        · rw [anyPurged_of_before hnone, Bool.or_false]
      · rename_i hbefore
        split
        · rename_i hmeets
          have hover := (Range.meets_iff hx hle).mp hmeets
          split
          · rename_i hsub
            refine .of_rangeDel hb ha hlist hmeets hsub ?_
            have hlist' : ((rangeDel s r).area a).unpinnedList = pre ++ rest := by
              rw [rangeDel_area, (hb.asma a ha r hmem).1, Function.update_self, hlist]
              change (pre ++ r :: rest).erase r = pre ++ rest
              rw [List.erase_append_right _ hpre, List.erase_cons_head]
            refine ih (hb.rangeDel ha hmem) (by rwa [rangeDel_opened])
              (by rwa [rangeDel_nextRange]) hlist' ?_
            rwa [entriesOf_rangeDel]
          · rename_i hsub
            have hshrunk (m k : ℕ) (hpieces : pieces n first last zalloc (r, s.range r) =
                [(r, { s.range r with pgstart := m, pgend := k })]) :
                Pinned a first last n zalloc pre (r :: rest) s ret
                  (pinLoop a first last zalloc rest (rangeShrink s r m k)
                    (ret || (s.range r).purged)) := by
              refine .of_rangeShrink hb ha hlist hmeets hpieces ?_
              refine ih (hb.rangeShrink ha hmem) (by rwa [rangeShrink_opened])
                (by rwa [rangeShrink_nextRange]) ?_ ?_
              · rw [rangeShrink_area, hlist, List.append_assoc]
                rfl
              · rwa [entriesOf_rangeShrink hrest]
            unfold Range.SubsumedBy at hsub
            split
            · rename_i hstart
              rw [hnext (by omega)]
              refine hshrunk _ _ ?_
              rw [pieces, if_pos hmeets, if_pos (show last < (s.range r).pgend by omega),
                if_pos hstart, if_neg (show ¬ (s.range r).pgstart < first by omega)]
              rfl
            · rename_i hstart
              rw [hprev (by omega)]
              split
              · rename_i hend
                refine hshrunk _ _ ?_
                rw [pieces, if_pos hmeets, if_neg (show ¬ last < (s.range r).pgend by omega),
                  if_pos (show (s.range r).pgstart < first by omega)]
                rfl
              · rename_i hend
                have hbehind : ∀ e ∈ entriesOf s rest, ¬ e.2.Meets first last := by
                  intro e he
                  refine not_meets_of_before (hord'.proper e he) hle ?_
                  have hlt := hdesc.1 e he
                  dsimp only at hlt
                  omega
                rw [hnext (by omega)]
                cases halloc : rangeAlloc s a (some r) (s.range r).purged (last + 1)
                    (s.range r).pgend zalloc with
                | none =>
                    obtain rfl := rangeAlloc_eq_none.mp halloc
                    exact .of_lost hb ha hlist hbehind (by omega) (by omega) hle
                | some s' =>
                    obtain ⟨rfl, hs⟩ := rangeAlloc_eq_some halloc
                    have hrange : (⟨a, last + 1, (s.range r).pgend, (s.range r).purged⟩ : Range) =
                        { s.range r with pgstart := last + 1 } := by
                      rw [← (hb.asma a ha r hmem).1]
                    rw [hrange] at hs
                    subst hn
                    exact .of_split hb ha hlist hbehind (by omega) (by omega) hle hs
        · rename_i hmeets
          have hlist' : (s.area a).unpinnedList = (pre ++ [r]) ++ rest := by
            rw [hlist, List.append_assoc]
            rfl
          obtain ⟨hb', hw', hentries, hret⟩ := ih hb ha hn hlist' hord'
          refine ⟨hb', hw', ?_, ?_⟩
          · rw [hentries, entriesOf_cons, List.flatMap_cons, pieces_of_not_meets hmeets]
            simp [entriesOf]
          · rw [hret, entriesOf_cons, anyPurged_cons, decide_eq_false hmeets, Bool.false_and,
              Bool.false_or]

end Pin

section Pieces

variable {n : ℕ} {e x : ℕ × Range} {l : List (ℕ × Range)}

/-- A piece has pages of its entry, none of those that were pinned, and its status. -/
structure Piece (N first last : ℕ) (e x : ℕ × Range) : Prop where
  proper : x.2.Proper N
  start_le : e.2.pgstart ≤ x.2.pgstart
  le_end : x.2.pgend ≤ e.2.pgend
  purged : x.2.purged = e.2.purged
  pinned : x.2.pgend < first ∨ last < x.2.pgstart

theorem mem_pieces (hx : x ∈ pieces n first last zalloc e) :
    (e.2.Meets first last ∧ last < e.2.pgend ∧ x.2 = { e.2 with pgstart := last + 1 } ∧
      (x.1 = e.1 ∨ x.1 = n)) ∨
    (e.2.Meets first last ∧ e.2.pgstart < first ∧ x = (e.1, { e.2 with pgend := first - 1 })) ∨
    (¬ e.2.Meets first last ∧ x = e) := by
  unfold pieces at hx
  split at hx
  · rename_i hmeets
    rcases List.mem_append.mp hx with hx | hx
    · split at hx
      · rename_i hend
        split at hx
        · obtain rfl := List.mem_singleton.mp hx
          exact .inl ⟨hmeets, hend, rfl, .inl rfl⟩
        · split at hx
          · obtain rfl := List.mem_singleton.mp hx
            exact .inl ⟨hmeets, hend, rfl, .inr rfl⟩
          · cases hx
      · cases hx
    · split at hx
      · rename_i hstart
        exact .inr (.inl ⟨hmeets, hstart, List.mem_singleton.mp hx⟩)
      · cases hx
  · rename_i hmeets
    exact .inr (.inr ⟨hmeets, List.mem_singleton.mp hx⟩)

/-- A page of the entry that is not pinned is in a piece, unless it is behind the pinned pages
and there is no memory for the range it would be in. -/
theorem exists_piece {p : ℕ} (hp : e.2.HasPage p) (hout : ¬ (first ≤ p ∧ p ≤ last))
    (hkept : zalloc = true ∨ ¬ (e.2.pgstart < first ∧ last < p)) :
    ∃ x ∈ pieces n first last zalloc e, x.2.HasPage p := by
  unfold Range.HasPage at hp
  unfold pieces
  split
  · by_cases hlow : p < first
    · refine ⟨(e.1, { e.2 with pgend := first - 1 }), ?_, ?_⟩
      · rw [if_pos (show e.2.pgstart < first by omega)]
        simp
      · unfold Range.HasPage
        dsimp only
        omega
    · have hend : last < e.2.pgend := by omega
      rw [if_pos hend]
      split
      · refine ⟨(e.1, { e.2 with pgstart := last + 1 }), by simp, ?_⟩
        unfold Range.HasPage
        dsimp only
        omega
      · obtain rfl : zalloc = true := hkept.resolve_right fun h => h (by omega)
        refine ⟨(n, { e.2 with pgstart := last + 1 }), by simp, ?_⟩
        unfold Range.HasPage
        dsimp only
        omega
  · exact ⟨e, List.mem_singleton_self e, hp⟩

theorem piece_of_mem (hle : first ≤ last) (he : e.2.Proper N)
    (hx : x ∈ pieces n first last zalloc e) : Piece N first last e x := by
  obtain ⟨hmeets, hend, hx, -⟩ | ⟨hmeets, hstart, rfl⟩ | ⟨hmeets, rfl⟩ := mem_pieces hx
  · rw [Range.meets_iff he hle] at hmeets
    refine ⟨⟨?_, ?_⟩, ?_, ?_, ?_, .inr ?_⟩
    all_goals
      rw [hx]
      try exact he.2
    all_goals
      dsimp only
      try omega
  · rw [Range.meets_iff he hle] at hmeets
    have hlt := he.2
    exact ⟨⟨by dsimp only; omega, by dsimp only; omega⟩, le_rfl, by dsimp only; omega, rfl,
      .inl (by dsimp only; omega)⟩
  · rw [Range.meets_iff he hle] at hmeets
    exact ⟨he, le_rfl, le_rfl, rfl, by omega⟩

theorem pairwise_pieces (hle : first ≤ last) :
    (pieces n first last zalloc e).Pairwise fun x y => y.2.pgend < x.2.pgstart := by
  unfold pieces
  split
  · refine List.pairwise_append.mpr ⟨?_, ?_, fun x hx y hy => ?_⟩
    · repeat' split
      all_goals simp
    · split <;> simp
    · split at hy
      · obtain rfl := List.mem_singleton.mp hy
        have hstart : last < x.2.pgstart := by
          split at hx
          · split at hx
            · obtain rfl := List.mem_singleton.mp hx
              exact Nat.lt_succ_self last
            · split at hx
              · obtain rfl := List.mem_singleton.mp hx
                exact Nat.lt_succ_self last
              · cases hx
          · cases hx
        dsimp only
        omega
      · cases hy
  · exact List.pairwise_singleton _ _

theorem Ordered.flatMap_pieces (h : Ordered N l) (hle : first ≤ last) :
    Ordered N (l.flatMap (pieces n first last zalloc)) := by
  refine ⟨List.pairwise_flatMap.mpr ⟨fun _ _ => pairwise_pieces hle, ?_⟩, ?_⟩
  · refine h.descending.imp_of_mem fun {e f} he hf hlt x hx y hy => ?_
    have hx' := piece_of_mem hle (h.proper e he) hx
    have hy' := piece_of_mem hle (h.proper f hf) hy
    exact lt_of_le_of_lt hy'.le_end (lt_of_lt_of_le hlt hx'.start_le)
  · intro x hx
    obtain ⟨e, he, hx⟩ := List.mem_flatMap.mp hx
    exact (piece_of_mem hle (h.proper e he) hx).proper

theorem Ordered.disjoint (h : Ordered N l) (he : e ∈ l) (hx : x ∈ l) (hne : e ≠ x) :
    e.2.pgend < x.2.pgstart ∨ x.2.pgend < e.2.pgstart := by
  have hpairs : l.Pairwise fun x y => x.2.pgend < y.2.pgstart ∨ y.2.pgend < x.2.pgstart :=
    h.descending.imp fun hlt => .inr hlt
  have : Std.Symm fun x y : ℕ × Range => x.2.pgend < y.2.pgstart ∨ y.2.pgend < x.2.pgstart :=
    ⟨fun _ _ hor => hor.symm⟩
  exact hpairs.forall he hx hne

theorem Ordered.sublist {l' : List (ℕ × Range)} (h : Ordered N l) (hsub : l'.Sublist l) :
    Ordered N l' :=
  ⟨h.descending.sublist hsub, fun x hx => h.proper x (hsub.subset hx)⟩

end Pieces

/-- Pinning cuts pages out of every range that meets them, and says whether one was purged. -/
theorem ashmemPin_spec (hN : N ≤ wordSize) (hle : first ≤ last) (hlast : last < N) (hb : Booked s)
    (ha : a ∈ s.opened) (hord : Ordered N (entries s a)) :
    Booked (ashmemPin s a first last zalloc).1 ∧
      Within a s (ashmemPin s a first last zalloc).1 ∧
      entries (ashmemPin s a first last zalloc).1 a =
        (entries s a).flatMap (pieces s.nextRange first last zalloc) ∧
      (ashmemPin s a first last zalloc).2 = anyPurged first last (entries s a) := by
  have hpinned : Pinned a first last s.nextRange zalloc [] (s.area a).unpinnedList s false
      (ashmemPin s a first last zalloc) :=
    pinLoop_pinned hN hle hlast hb ha rfl (List.nil_append _).symm hord
  exact ⟨hpinned.booked, hpinned.within, hpinned.entries_eq,
    hpinned.ret_eq.trans (Bool.false_or _)⟩

/-! ### Unpinning -/

section Unpin

variable {first₀ last₀ n : ℕ} {purged : Bool} {l : List (ℕ × Range)}

theorem unpinScan_cases {ids : List ℕ} (hle : first ≤ last) (hord : Ordered N (entriesOf s ids)) :
    (∃ pre rest, ids = pre ++ rest ∧ unpinScan s.range first last ids = .place rest.head? ∧
      (∀ e ∈ entriesOf s pre, last < e.2.pgstart) ∧ ∀ e ∈ entriesOf s rest, e.2.pgend < first) ∨
    (∃ r ∈ ids, unpinScan s.range first last ids = .covered ∧
      (s.range r).Subsumes first last) ∨
    ∃ r ∈ ids, unpinScan s.range first last ids = .merge r ∧ (s.range r).Meets first last ∧
      ¬ (s.range r).Subsumes first last := by
  induction ids with
  | nil => exact .inl ⟨[], [], rfl, rfl, by simp [entriesOf], by simp [entriesOf]⟩
  | cons r ids ih =>
      have hx : (s.range r).Proper N := hord.proper (r, s.range r) List.mem_cons_self
      have hdesc := List.pairwise_cons.mp hord.descending
      have hord' : Ordered N (entriesOf s ids) := hord.sublist (List.sublist_cons_self _ _)
      unfold unpinScan
      split
      · rename_i hbefore
        refine .inl ⟨[], r :: ids, rfl, rfl, by simp [entriesOf], fun e he => ?_⟩
        rcases List.mem_cons.mp he with rfl | he
        · exact hbefore
        · have hlt := hdesc.1 e he
          exact lt_trans (lt_of_lt_of_le hlt hx.1) hbefore
      · rename_i hbefore
        split
        · exact .inr (.inl ⟨r, List.mem_cons_self, rfl, ‹_›⟩)
        · rename_i hsubsumes
          split
          · exact .inr (.inr ⟨r, List.mem_cons_self, rfl, ‹_›, hsubsumes⟩)
          · rename_i hmeets
            rw [Range.meets_iff hx hle] at hmeets
            obtain ⟨pre, rest, rfl, hscan, habove, hbelow⟩ | ⟨q, hq, hscan, hsub⟩ |
              ⟨q, hq, hscan, hmeets⟩ := ih hord'
            · refine .inl ⟨r :: pre, rest, rfl, hscan, fun e he => ?_, hbelow⟩
              rcases List.mem_cons.mp he with rfl | he
              · unfold Range.Before at hbefore
                dsimp only
                omega
              · exact habove e he
            · exact .inr (.inl ⟨q, List.mem_cons_of_mem r hq, hscan, hsub⟩)
            · exact .inr (.inr ⟨q, List.mem_cons_of_mem r hq, hscan, hmeets⟩)

theorem listAddTail_head {pre rest : List ℕ} (hnodup : (pre ++ rest).Nodup) :
    listAddTail n rest.head? (pre ++ rest) = pre ++ n :: rest := by
  cases rest with
  | nil =>
      induction pre with
      | nil => rfl
      | cons x pre ih =>
          simp only [List.cons_append, listAddTail, List.head?_nil, reduceCtorEq, if_false]
          rw [List.head?_nil] at ih
          rw [ih (List.nodup_cons.mp hnodup).2]
  | cons r rest =>
      refine listAddTail_split fun hr => ?_
      exact (List.nodup_append.mp hnodup).2.2 r hr r List.mem_cons_self rfl

/-- The entry `x` was put into the list `l` in the place of all it was merged with. -/
structure Replaced (N first last : ℕ) (purged : Bool) (l : List (ℕ × Range)) (x : ℕ × Range)
    (l' : List (ℕ × Range)) : Prop where
  ordered : Ordered N l'
  mem : ∀ e, e ∈ l' ↔ e = x ∨ e ∈ l ∧ ¬ (x.2.pgstart ≤ e.2.pgstart ∧ e.2.pgend ≤ x.2.pgend)
  start_le : x.2.pgstart ≤ first
  le_end : last ≤ x.2.pgend
  pages : ∀ p, x.2.HasPage p → first ≤ p ∧ p ≤ last ∨ ∃ e ∈ l, e.2.HasPage p
  purged : x.2.purged = true ↔ purged = true ∨ ∃ e ∈ l,
    (x.2.pgstart ≤ e.2.pgstart ∧ e.2.pgend ≤ x.2.pgend) ∧ e.2.purged = true

/-- How `ashmem_unpin` ends. -/
inductive Unpinned (N a first last : ℕ) (zalloc purged : Bool) (s : State) :
    State × Except Errno Unit → Prop
  | covered {e : ℕ × Range} (he : e ∈ entries s a) (hsub : e.2.Subsumes first last) :
      Unpinned N a first last zalloc purged s (s, .ok ())
  | failed {s' : State} (hzalloc : zalloc = false) (hb : Booked s') (hw : Within a s s')
      (hsub : (entries s' a).Sublist (entries s a))
      (hclear : ∀ e ∈ entries s' a, ¬ e.2.Meets first last) :
      Unpinned N a first last zalloc purged s (s', .error .enomem)
  | placed {s' : State} {x : Range} (hzalloc : zalloc = true) (hb : Booked s') (hw : Within a s s')
      (hnext : s'.nextRange = s.nextRange + 1)
      (h : Replaced N first last purged (entries s a) (s.nextRange, x) (entries s' a)) :
      Unpinned N a first last zalloc purged s (s', .ok ())

theorem mem_entries {e : ℕ × Range} :
    e ∈ entries s a ↔ e.1 ∈ (s.area a).unpinnedList ∧ e.2 = s.range e.1 := by
  obtain ⟨r, x⟩ := e
  simp only [entries, List.mem_map, Prod.mk.injEq]
  constructor
  · rintro ⟨q, hq, rfl, rfl⟩
    exact ⟨hq, rfl⟩
  · rintro ⟨hr, rfl⟩
    exact ⟨r, hr, rfl, rfl⟩

theorem entries_rangeDel (hr : (s.range r).asma = a) :
    entries (rangeDel s r) a = entriesOf s ((s.area a).unpinnedList.erase r) := by
  rw [entries, rangeDel_area, hr, Function.update_self, rangeDel_range]
  rfl

theorem mem_entries_rangeDel (hb : Booked s) (ha : a ∈ s.opened) (hr : (s.range r).asma = a)
    {e : ℕ × Range} : e ∈ entries (rangeDel s r) a ↔ e ∈ entries s a ∧ e.1 ≠ r := by
  rw [mem_entries, mem_entries, rangeDel_area, hr, Function.update_self, rangeDel_range,
    (hb.nodup a ha).mem_erase_iff]
  tauto

theorem entries_rangeDel_sublist (hr : (s.range r).asma = a) :
    (entries (rangeDel s r) a).Sublist (entries s a) := by
  rw [entries_rangeDel hr]
  exact List.erase_sublist.map _

theorem Unpinned.place {pre rest : List ℕ} (hle : first ≤ last) (hlast : last < N)
    (hb : Booked s) (ha : a ∈ s.opened) (hord : Ordered N (entries s a))
    (hlist : (s.area a).unpinnedList = pre ++ rest)
    (habove : ∀ e ∈ entriesOf s pre, last < e.2.pgstart)
    (hbelow : ∀ e ∈ entriesOf s rest, e.2.pgend < first)
    (hzalloc : zalloc = true) (hs : Allocated s a rest.head? ⟨a, first, last, purged⟩ s') :
    Unpinned N a first last zalloc purged s (s', .ok ()) := by
  have hold : ∀ q ∈ pre ++ rest, s'.range q = s.range q := by
    intro q hq
    have hne : q ≠ s.nextRange := fun heq => hb.fresh_not_mem ha (by rw [hlist]; exact heq ▸ hq)
    rw [hs.range, Function.update_of_ne hne]
  have hlist' : (s'.area a).unpinnedList = pre ++ s.nextRange :: rest := by
    rw [hs.area, Function.update_self, hlist]
    exact listAddTail_head (hlist ▸ hb.nodup a ha)
  have hentries : entries s' a =
      entriesOf s pre ++ (s.nextRange, ⟨a, first, last, purged⟩) :: entriesOf s rest := by
    rw [entries_append hlist', entriesOf_cons,
      entriesOf_congr fun q hq => hold q (List.mem_append_left _ hq),
      entriesOf_congr fun q hq => hold q (List.mem_append_right _ hq), hs.range,
      Function.update_self]
  have hapart : ∀ e ∈ entries s a, ¬ (first ≤ e.2.pgstart ∧ e.2.pgend ≤ last) := by
    intro e he
    have hproper := hord.proper e he
    rw [entries_append hlist] at he
    unfold Range.Proper at hproper
    rcases List.mem_append.mp he with he | he
    · have := habove e he
      omega
    · have := hbelow e he
      omega
  rw [entries_append hlist] at hord
  obtain ⟨hpre, hrest, hcross⟩ := List.pairwise_append.mp hord.descending
  refine .placed (x := ⟨a, first, last, purged⟩) hzalloc (hb.rangeAlloc ha rfl hs)
    (Within.rangeAlloc hs)
    hs.nextRange ⟨⟨?_, ?_⟩, fun e => ?_, le_rfl, le_rfl, fun p hp => .inl hp, ?_⟩
  · rw [hentries]
    refine List.pairwise_append.mpr ⟨hpre, List.pairwise_cons.mpr ⟨hbelow, hrest⟩, ?_⟩
    intro e he f hf
    rcases List.mem_cons.mp hf with rfl | hf
    · exact habove e he
    · exact hcross e he f hf
  · rw [hentries]
    intro e he
    rcases List.mem_append.mp he with he | he
    · exact hord.proper e (List.mem_append_left _ he)
    · rcases List.mem_cons.mp he with rfl | he
      · exact ⟨hle, hlast⟩
      · exact hord.proper e (List.mem_append_right _ he)
  · rw [hentries, List.mem_append, List.mem_cons]
    have hiff : e ∈ entries s a ↔ e ∈ entriesOf s pre ∨ e ∈ entriesOf s rest := by
      rw [entries_append hlist, List.mem_append]
    constructor
    · rintro (he | rfl | he)
      · exact .inr ⟨hiff.mpr (.inl he), hapart e (hiff.mpr (.inl he))⟩
      · exact .inl rfl
      · exact .inr ⟨hiff.mpr (.inr he), hapart e (hiff.mpr (.inr he))⟩
    · rintro (rfl | ⟨he, -⟩)
      · exact .inr (.inl rfl)
      · rcases hiff.mp he with he | he
        · exact .inl he
        · exact .inr (.inr he)
  · exact ⟨.inl, fun hor => hor.elim id fun ⟨e, he, hin, _⟩ => absurd hin (hapart e he)⟩

/-- A range that is met is taken out, and its pages are unpinned with the others. -/
theorem Unpinned.merge {out : State × Except Errno Unit} (hle : first ≤ last) (hb : Booked s)
    (ha : a ∈ s.opened) (hmeets : (s.range r).Meets first last)
    (hord : Ordered N (entries s a)) (hr : r ∈ (s.area a).unpinnedList)
    (h : Unpinned N a (min (s.range r).pgstart first) (max (s.range r).pgend last) zalloc
      (purged || (s.range r).purged) (rangeDel s r) out) :
    Unpinned N a first last zalloc purged s out := by
  have hasma : (s.range r).asma = a := (hb.asma a ha r hr).1
  have hmem : (r, s.range r) ∈ entries s a := mem_entries.mpr ⟨hr, rfl⟩
  have hproper := hord.proper _ hmem
  cases h with
  | @covered e he hsub =>
      -- it would have the pages of the range that was taken out
      obtain ⟨he, hne⟩ := (mem_entries_rangeDel hb ha hasma).mp he
      have hdisj := hord.disjoint he hmem fun heq => hne (congrArg Prod.fst heq)
      unfold Range.Subsumes at hsub
      unfold Range.Proper at hproper
      dsimp only at hdisj hproper
      omega
  | @failed s' hzalloc hb' hw hsub hclear =>
      have hsub' := hsub.trans (entries_rangeDel_sublist hasma)
      refine .failed hzalloc hb' ((Within.rangeDel hasma).trans hw) hsub' fun e he hin => ?_
      have hwide := hclear e he
      rw [Range.meets_iff (hord.proper e (hsub'.subset he)) (by omega)] at hwide
      rw [Range.meets_iff (hord.proper e (hsub'.subset he)) hle] at hin
      omega
  | @placed s' x hzalloc hb' hw hnext h =>
      have hstart : x.pgstart ≤ min (s.range r).pgstart first := h.start_le
      have hend : max (s.range r).pgend last ≤ x.pgend := h.le_end
      rw [rangeDel_nextRange] at hnext h
      refine .placed (x := x) hzalloc hb' ((Within.rangeDel hasma).trans hw) hnext
        ⟨h.ordered, fun e => ?_, by dsimp only; omega, by dsimp only; omega, fun p hp => ?_, ?_⟩
      · rw [h.mem, mem_entries_rangeDel hb ha hasma]
        refine or_congr_right ⟨fun he => ⟨he.1.1, he.2⟩,
          fun he => ⟨⟨he.1, fun heq => he.2 ?_⟩, he.2⟩⟩
        rw [(mem_entries.mp he.1).2, heq]
        dsimp only
        omega
      · rcases h.pages p hp with hin | ⟨e, he, hpage⟩
        · by_cases hpage : (s.range r).HasPage p
          · exact .inr ⟨_, hmem, hpage⟩
          · rw [Range.meets_iff hproper hle] at hmeets
            unfold Range.HasPage at hpage
            dsimp only at hmeets
            exact .inl (by omega)
        · exact .inr ⟨e, ((mem_entries_rangeDel hb ha hasma).mp he).1, hpage⟩
      · rw [h.purged, Bool.or_eq_true]
        constructor
        · rintro ((hp | hp) | ⟨e, he, hin, hp⟩)
          · exact .inl hp
          · exact .inr ⟨_, hmem, ⟨by dsimp only; omega, by dsimp only; omega⟩, hp⟩
          · exact .inr ⟨e, ((mem_entries_rangeDel hb ha hasma).mp he).1, hin, hp⟩
        · rintro (hp | ⟨e, he, hin, hp⟩)
          · exact .inl (.inl hp)
          · by_cases heq : e.1 = r
            · rw [(mem_entries.mp he).2, heq] at hp
              exact .inl (.inr hp)
            · exact .inr ⟨e, (mem_entries_rangeDel hb ha hasma).mpr ⟨he, heq⟩, hin, hp⟩

theorem unpinLoop_place {fuel : ℕ} {pre rest : List ℕ} (hle : first ≤ last)
    (hlast : last < N) (hb : Booked s) (ha : a ∈ s.opened) (hord : Ordered N (entries s a))
    (hlist : (s.area a).unpinnedList = pre ++ rest)
    (hscan : unpinScan s.range first last (s.area a).unpinnedList = .place rest.head?)
    (habove : ∀ e ∈ entriesOf s pre, last < e.2.pgstart)
    (hbelow : ∀ e ∈ entriesOf s rest, e.2.pgend < first) :
    ∃ out, unpinLoop a zalloc fuel s first last purged = some out ∧
      Unpinned N a first last zalloc purged s out := by
  have hclear : ∀ e ∈ entries s a, ¬ e.2.Meets first last := by
    intro e he
    rw [Range.meets_iff (hord.proper e he) hle]
    rw [entries_append hlist] at he
    rcases List.mem_append.mp he with he | he
    · have := habove e he
      omega
    · have := hbelow e he
      omega
  unfold unpinLoop
  rw [hscan]
  cases halloc : rangeAlloc s a rest.head? purged first last zalloc with
  | none =>
      exact ⟨(s, .error .enomem), by simp only [halloc],
        .failed (rangeAlloc_eq_none.mp halloc) hb (.refl a s) (List.Sublist.refl _) hclear⟩
  | some s' =>
      exact ⟨(s', .ok ()), by simp only [halloc],
        .place hle hlast hb ha hord hlist habove hbelow (rangeAlloc_eq_some halloc).1
          (rangeAlloc_eq_some halloc).2⟩

theorem unpinLoop_unpinned {fuel : ℕ} (hle : first ≤ last) (hlast : last < N)
    (hb : Booked s) (ha : a ∈ s.opened) (hord : Ordered N (entries s a))
    (hfuel : (s.area a).unpinnedList.length ≤ fuel) :
    ∃ out, unpinLoop a zalloc fuel s first last purged = some out ∧
      Unpinned N a first last zalloc purged s out := by
  induction fuel generalizing s first last purged with
  | zero =>
      have hnil : (s.area a).unpinnedList = [] := List.eq_nil_of_length_eq_zero (by omega)
      obtain ⟨pre, rest, hlist, hscan, habove, hbelow⟩ | ⟨r, hr, -⟩ | ⟨r, hr, -⟩ :=
        unpinScan_cases hle hord
      · exact unpinLoop_place hle hlast hb ha hord hlist hscan habove hbelow
      all_goals
        rw [hnil] at hr
        cases hr
  | succ fuel ih =>
      obtain ⟨pre, rest, hlist, hscan, habove, hbelow⟩ | ⟨r, hr, hscan, hsub⟩ |
        ⟨r, hr, hscan, hmeets, -⟩ := unpinScan_cases hle hord
      · exact unpinLoop_place hle hlast hb ha hord hlist hscan habove hbelow
      · unfold unpinLoop
        rw [hscan]
        exact ⟨_, rfl, .covered (e := (r, s.range r)) (mem_entries.mpr ⟨hr, rfl⟩) hsub⟩
      · unfold unpinLoop
        rw [hscan]
        have hasma := (hb.asma a ha r hr).1
        have hproper := hord.proper (r, s.range r) (mem_entries.mpr ⟨hr, rfl⟩)
        have hlength : ((rangeDel s r).area a).unpinnedList.length ≤ fuel := by
          rw [rangeDel_area, hasma, Function.update_self, List.length_erase_of_mem hr]
          omega
        unfold Range.Proper at hproper
        dsimp only at hproper
        obtain ⟨out, hout, hunpinned⟩ := ih (s := rangeDel s r)
          (show min (s.range r).pgstart first ≤ max (s.range r).pgend last by omega)
          (by omega) (hb.rangeDel ha hr) (by rwa [rangeDel_opened])
          (hord.sublist (entries_rangeDel_sublist hasma)) hlength
        exact ⟨out, hout, hunpinned.merge hle hb ha hmeets hord hr⟩

theorem ashmemUnpin_spec (hle : first ≤ last) (hlast : last < N) (hb : Booked s)
    (ha : a ∈ s.opened) (hord : Ordered N (entries s a)) :
    ∃ out, ashmemUnpin s a first last zalloc = some out ∧
      Unpinned N a first last zalloc false s out :=
  unpinLoop_unpinned hle hlast hb ha hord le_rfl

end Unpin

end Ashmem

end BinderForLinux
