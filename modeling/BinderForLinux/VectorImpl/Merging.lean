import BinderForLinux.VectorImpl.SortedItems

/-!
# Merging

Items are merged one by one, unless the items of one vector come before those of the other one.
Which way is taken is found out from the first and last items only.
-/

namespace BinderForLinux

namespace VectorImpl

open Library Block

variable {α : Type} {t : Traits} {junk : ℕ → ℕ → α} {w : World α} {h h' : Heap α} {v v' : Vec}
  {o o' : Option Vec} {b i j n pos : ℕ} {l l' : List α}

/-! ### Vectors that are changed several times -/

theorem put_put : (w.put i h o).put i h' o' = w.put i h' o' := by
  unfold World.put
  dsimp only
  rw [Function.update_idem]

theorem Lists.set_set {L : Lists α} {x y : Option (List α)} : (L.set i x).set i y = L.set i y := by
  unfold Lists.set
  dsimp only
  rw [Function.update_idem]

theorem put_same (hv : w.vec i = some v) : w.put i w.heap (some v) = w := by
  unfold World.put
  rw [← hv, Function.update_eq_self]

theorem grow_count {r : Heap α × Vec} (hgrow : grow t junk h v pos n = .ok r) :
    r.2.count = v.count + n := by
  have hre {cap : ℕ} (heq : grow.reallocate t junk h v pos n cap (v.count + n) = .ok r) :
      r.2.count = v.count + n := by
    obtain ⟨h₁, -, heq⟩ := except_bind_eq_ok.mp heq
    obtain ⟨h₂, -, heq⟩ := except_bind_eq_ok.mp heq
    obtain ⟨h₃, -, heq⟩ := except_bind_eq_ok.mp heq
    cases heq
    rfl
  unfold grow at hgrow
  dsimp only at hgrow
  split at hgrow
  · split at hgrow
    · split at hgrow
      · obtain ⟨r', -, rfl⟩ := except_map_eq_ok.mp hgrow
        rfl
      · exact hre hgrow
    · exact hre hgrow
  · obtain ⟨r', -, hgrow⟩ := except_bind_eq_ok.mp hgrow
    split at hgrow
    · obtain ⟨h₁, -, heq⟩ := except_bind_eq_ok.mp hgrow
      cases heq
      rfl
    · cases hgrow
      rfl

theorem insertArrayAt_count {src : Option ℕ} {r : Heap α × Vec × Status} (hpos : pos ≤ v.count)
    (hinsert : insertArrayAt t junk h v src pos n = .ok r) : r.2.1.count = v.count + n := by
  unfold insertArrayAt at hinsert
  rw [if_neg (Nat.not_lt.mpr hpos)] at hinsert
  obtain ⟨r', hgrow, hinsert⟩ := except_bind_eq_ok.mp hinsert
  rw [← grow_count hgrow]
  split at hinsert
  · obtain ⟨h₁, -, heq⟩ := except_bind_eq_ok.mp hinsert
    cases heq
    rfl
  · cases hinsert
    rfl

theorem length_items : items h v = [] ∨ (items h v).length = v.count := by
  unfold items
  cases v.storage with
  | none => exact .inl rfl
  | some b => exact .inr (by simp)

namespace Sorted

variable {κ : Type} [LinearOrder κ] {dflt : α} {key : α → κ} {u : Vec} {array : Option ℕ} {k : ℕ}
  {pre xs : List α} {x first last front back : α}

/-! ### One by one -/

/-- What merging makes of the vectors. -/
structure Merged (t : Traits) (w : World α) (i : ℕ) (l : List α) (r : Heap α × Vec × Status) :
    Prop where
  inv : Inv t (w.put i r.1 (some r.2.1))
  lists : (w.put i r.1 (some r.2.1)).lists = w.lists.set i (some l)
  ok : ∃ n, r.2.2 = .ok n

theorem Merged.of_same (h : Inv t w) (hv : w.vec i = some v) (hl : view w i = some l) :
    Merged t w i l (w.heap, v, .ok 0) := by
  refine ⟨?_, ?_, 0, rfl⟩
  · rwa [put_same hv]
  · rw [put_same hv, lists_set_self hl]

theorem Merged.of_put {r : Heap α × Vec × Status} (hlists : (w.put i h (some v)).lists =
    w.lists.set i (some l)) (hr : Merged t (w.put i h (some v)) i l' r) : Merged t w i l' r := by
  obtain ⟨hinv, hafter, hok⟩ := hr
  rw [put_put] at hinv hafter
  refine ⟨hinv, ?_, hok⟩
  rw [hafter, hlists, Lists.set_set]

theorem mergeLoop_spec (hinv : Inv t w) (hv : w.vec i = some v) (hu : w.vec j = some u)
    (hne : j ≠ i) (hl : view w i = some l) (hsorted : Ascending key l)
    (hxs : view w j = some (pre ++ xs)) :
    ∃ r, mergeLoop t dflt junk key u.storage w.heap v pre.length xs.length = .ok r ∧
      Merged t w i (putItems key l xs) r := by
  induction xs generalizing pre w v l with
  | nil => exact ⟨_, rfl, .of_same hinv hv hl⟩
  | cons x xs ih =>
      have hread := readItem_of_source (i := pre.length) (hinv.holds_of_view hu hxs).readable
        (by simp)
      rw [List.getElem_append_right (Nat.le_refl _)] at hread
      simp only [Nat.sub_self, List.getElem_cons_zero] at hread
      obtain ⟨r, n, hadd, hbecomes, hstatus⟩ :=
        add_spec junk dflt (hinv.holds_of_view hv hl) hsorted x
      obtain ⟨hinv', hlists⟩ := hinv.change hv hbecomes
      obtain ⟨-, hself, hrest⟩ := hinv.becomes hv hbecomes
      have hxs' : view (w.put i r.1 (some r.2.1)) j = some ((pre ++ [x]) ++ xs) := by
        rw [hrest j hne, hxs, List.append_assoc, List.singleton_append]
      obtain ⟨r', hloop, hmerged⟩ :=
        ih hinv' put_self ((put_of_ne hne).trans hu) hself (hsorted.putItem x) hxs'
      refine ⟨r', ?_, hmerged.of_put hlists⟩
      rw [List.length_append, List.length_singleton] at hloop
      rw [List.length_cons, mergeLoop, except_bind_ok hread, except_bind_ok hadd, hstatus]
      exact hloop

/-! ### A vector and itself -/

theorem replaceAt_alone {prototype : Option α} {index : ℕ} {r : Heap α × Vec × Status}
    (hb : v.storage = some b) (hone : (h.buf b).refs = 1)
    (hreplace : replaceAt t dflt junk h v prototype index = .ok r) : r.2.1 = v := by
  unfold replaceAt at hreplace
  split at hreplace
  · cases hreplace
    rfl
  · split at hreplace
    · obtain ⟨r', hedit, hreplace⟩ := except_bind_eq_ok.mp hreplace
      obtain ⟨h', -, heq⟩ := except_bind_eq_ok.mp hreplace
      cases heq
      unfold editArrayImpl at hedit
      rw [hb] at hedit
      dsimp only at hedit
      rw [if_pos hone] at hedit
      cases hedit
      rfl
    · cases hreplace
      rfl

theorem source_of_becomes (hbecomes : Becomes t v h h' v' l) (hsrc : Source h (some b) 0 l)
    (hlt : b < h.next)
    (hone : v.storage = some b → (h.buf b).refs = 1 → v'.storage = some b) :
    Source h' (some b) 0 l ∧ b < h'.next := by
  obtain ⟨-, ⟨-, rfl, -, -⟩ | ⟨new, hb', hmoved, hfilled⟩⟩ := hbecomes
  · exact ⟨hsrc, hlt⟩
  · rcases hmoved.others with ⟨-, -, hnext, hrest⟩ | ⟨hnew, hnext, hrest⟩
    · refine ⟨?_, hnext ▸ hlt⟩
      by_cases heq : b = new
      · rw [heq]
        exact ⟨hmoved.allocated, hfilled.items⟩
      · unfold Source
        dsimp only
        rw [hrest b heq]
        exact hsrc
    · have hne : b ≠ new := by omega
      refine ⟨?_, by omega⟩
      have hafter := hrest b hne
      split at hafter
      · rename_i hb
        have hmore : (h.buf b).refs ≠ 1 := fun heq =>
          hne (Option.some.inj ((hone hb heq).symm.trans hb'))
        rw [Released, if_neg hmore] at hafter
        unfold Source
        dsimp only
        rw [hafter]
        exact hsrc
      · unfold Source
        dsimp only
        rw [hafter]
        exact hsrc

variable (junk dflt) in
theorem add_self (hv : VecHolds t h v l) (hsorted : Ascending key l) (hx : x ∈ l)
    (hsrc : Source h (some b) 0 l) (hlt : b < h.next) :
    ∃ r n, add t dflt junk key h v x = .ok r ∧ Becomes t v h r.1 r.2.1 l ∧ r.2.2 = .ok n ∧
      Source r.1 (some b) 0 l ∧ b < r.1.next := by
  obtain ⟨r, n, hadd, hbecomes, hstatus⟩ := add_spec junk dflt hv hsorted x
  rw [putItem_of_mem hsorted hx] at hbecomes
  refine ⟨r, n, hadd, hbecomes, hstatus, source_of_becomes hbecomes hsrc hlt fun hb hone => ?_⟩
  obtain ⟨r', hsearch, hs⟩ := indexOrderOf_spec hv hsorted x
  unfold add at hadd
  rw [except_bind_ok hsearch] at hadd
  rcases hs with ⟨l₁, l₂, rfl, -, h₁, h₂⟩ | ⟨l₁, y, l₂, -, rfl, -⟩
  · rcases List.mem_append.mp hx with hx | hx
    · exact absurd (h₁ x hx) (lt_irrefl _)
    · exact absurd (h₂ x hx) (lt_irrefl _)
  · rw [replaceAt_alone hb hone hadd]
    exact hb

theorem mergeLoop_self (hinv : Inv t w) (hv : w.vec i = some v) (hl : view w i = some l)
    (hsorted : Ascending key l) (hsrc : Source w.heap (some b) 0 l) (hlt : b < w.heap.next)
    (hk : k + n = l.length) :
    ∃ r, mergeLoop t dflt junk key (some b) w.heap v k n = .ok r ∧ Merged t w i l r := by
  induction n generalizing k w v with
  | zero => exact ⟨_, rfl, .of_same hinv hv hl⟩
  | succ n ih =>
      have hk' : k < l.length := by omega
      obtain ⟨r, m, hadd, hbecomes, hstatus, hsrc', hlt'⟩ := add_self junk dflt
        (hinv.holds_of_view hv hl) hsorted (List.getElem_mem hk') hsrc hlt
      obtain ⟨hinv', hlists⟩ := hinv.change hv hbecomes
      obtain ⟨-, hself, -⟩ := hinv.becomes hv hbecomes
      obtain ⟨r', hloop, hmerged⟩ := ih (k := k + 1) hinv' put_self hself hsrc' hlt' (by omega)
      refine ⟨r', ?_, hmerged.of_put hlists⟩
      rw [mergeLoop, except_bind_ok (readItem_of_source hsrc hk'), except_bind_ok hadd, hstatus]
      exact hloop

variable (junk dflt) in
theorem merge_spec (hinv : Inv t w) (hv : w.vec i = some v) (hu : w.vec j = some u)
    (hl : view w i = some l) (hsorted : Ascending key l) (hxs : view w j = some xs) :
    ∃ r, merge t dflt junk key w.heap v u = .ok r ∧ Merged t w i (putItems key l xs) r := by
  unfold merge
  rw [(hinv.holds_of_view hu hxs).1]
  by_cases hne : j = i
  · subst hne
    cases hv.symm.trans hu
    cases hl.symm.trans hxs
    have hholds := hinv.holds_of_view hv hl
    rw [putItems_of_mem hsorted fun x hx => hx]
    cases hb : v.storage with
    | none =>
        rw [hholds.eq_nil hb] at hl ⊢
        exact ⟨_, rfl, .of_same hinv hv hl⟩
    | some b =>
        have hsrc := hholds.readable
        rw [hb] at hsrc
        exact mergeLoop_self hinv hv hl hsorted hsrc (hholds.hasItems hb).2 (Nat.zero_add _)
  · exact mergeLoop_spec hinv hv hu hne hl hsorted (show view w j = some ([] ++ xs) from hxs)

/-! ### Together -/

/-- No vector ends with the key with which the other one begins. A vector without items must still
have a buffer whose first item is read; then it may not be below the last one of the other. -/
def EndsApart (key : α → κ) (h : Heap α) (v : Vec) (l xs : List α) : Prop :=
  ∀ first ∈ xs.head?, ∀ last ∈ xs.getLast?,
    (∀ front ∈ l.head?, key last ≠ key front) ∧ (∀ back ∈ l.getLast?, key first ≠ key back) ∧
      (l = [] → ∃ y, readItem h v.storage 0 = .ok y ∧ key last ≤ key y)

theorem exists_ends (hxs : xs ≠ []) : ∃ first ∈ xs.head?, ∃ last ∈ xs.getLast?, first ∈ xs ∧
    last ∈ xs :=
  ⟨xs.head hxs, List.head?_eq_some_head hxs, xs.getLast hxs, List.getLast?_eq_some_getLast hxs,
    List.head_mem hxs, List.getLast_mem hxs⟩

theorem insertVector_merged (junk : ℕ → ℕ → α) {l₁ l₂ : List α} (hinv : Inv t w)
    (hv : w.vec i = some v) (hu : w.vec j = some u) (hne : j ≠ i) (hl : view w i = some (l₁ ++ l₂))
    (hxs : view w j = some xs) (hsorted : Ascending key xs) (hpos : 0 < xs.length)
    (h₁ : ∀ y ∈ l₁, ∀ x ∈ xs, key y < key x) (h₂ : ∀ x ∈ xs, ∀ y ∈ l₂, key x < key y) :
    ∃ r, insertArrayAt t junk w.heap v u.storage l₁.length u.count = .ok r ∧
      Merged t w i (putItems key (l₁ ++ l₂) xs) r := by
  obtain ⟨r, hinsert, hbecomes, hstatus⟩ := insertArrayAt_spec junk (hinv.holds_of_view hv hl)
    (hinv.holds_of_view hu hxs) (fun b hb hb' => hinv.shared hne hv hu hb hb') (.inl hpos)
  obtain ⟨hinv', hlists⟩ := hinv.change hv hbecomes
  rw [putItems_between hsorted h₁ h₂]
  exact ⟨r, hinsert, hinv', hlists, _, hstatus hpos⟩

theorem readItem_front (hinv : Inv t w) (hv : w.vec i = some v) (hl : view w i = some l)
    (hsorted : Ascending key l) (hxs : view w j = some xs) (hsorted' : Ascending key xs)
    (hlast : last ∈ xs.getLast?) (hfront : ∀ front ∈ l.head?, key last ≠ key front)
    (hnone : l = [] → ∃ y, readItem w.heap v.storage 0 = .ok y ∧ key last ≤ key y) :
    ∃ y, readItem w.heap v.storage 0 = .ok y ∧
      (key last ≤ key y → j ≠ i ∧ ∀ x ∈ xs, ∀ z ∈ l, key x < key z) ∧
      (¬ key last ≤ key y → l ≠ []) := by
  rcases eq_or_ne l [] with rfl | hmore
  · obtain ⟨y, hread, hle⟩ := hnone rfl
    refine ⟨y, hread, fun _ => ⟨fun heq => ?_, fun _ _ _ hz => (by cases hz)⟩,
      fun hgt => absurd hle hgt⟩
    subst heq
    cases hxs.symm.trans hl
    cases hlast
  · obtain ⟨front, hfrontmem, -, -, hmem, -⟩ := exists_ends hmore
    refine ⟨front, readItem_head (hinv.holds_of_view hv hl) hfrontmem, fun hle => ?_,
      fun _ => hmore⟩
    have hlt := lt_of_le_of_ne hle (hfront front hfrontmem)
    refine ⟨fun heq => ?_, fun x hx z hz => ?_⟩
    · subst heq
      cases hl.symm.trans hxs
      exact (hsorted'.le_getLast hlast hmem).not_gt hlt
    · exact (hsorted'.le_getLast hlast hx).trans_lt (hlt.trans_le (hsorted.head_le hfrontmem hz))

variable (junk dflt) in
/-- Merging sorted vectors whose ends are apart comes to adding the items. -/
theorem mergeSorted_spec (hinv : Inv t w) (hv : w.vec i = some v) (hu : w.vec j = some u)
    (hl : view w i = some l) (hsorted : Ascending key l) (hxs : view w j = some xs)
    (hsorted' : Ascending key xs) (hends : EndsApart key w.heap v l xs) :
    ∃ r, mergeSorted t dflt junk key w.heap v u = .ok r ∧
      Merged t w i (putItems key l xs) r := by
  have hholds := hinv.holds_of_view hv hl
  have hitems := hinv.holds_of_view hu hxs
  unfold mergeSorted
  rcases eq_or_ne xs [] with rfl | hnonempty
  · rw [if_pos (by rw [hitems.1, List.length_nil])]
    exact ⟨_, rfl, .of_same hinv hv hl⟩
  · have hpos : 0 < xs.length := List.length_pos_iff.mpr hnonempty
    have hcount : u.count ≠ 0 := by
      rw [hitems.1]
      omega
    obtain ⟨first, hfirst, last, hlast, hfirstmem, hlastmem⟩ := exists_ends hnonempty
    obtain ⟨hfront, hback, hnone⟩ := hends first hfirst last hlast
    rw [if_neg hcount, except_bind_ok (readLast_getLast hitems hlast)]
    obtain ⟨y, hread, hlow, hhigh⟩ :=
      readItem_front hinv hv hl hsorted hxs hsorted' hlast hfront hnone
    rw [except_bind_ok hread]
    by_cases hle : key last ≤ key y
    · obtain ⟨hne, hlt⟩ := hlow hle
      rw [if_pos fun hgt => hle.not_gt (doCompare_gt.mp hgt)]
      exact insertVector_merged junk hinv hv hu hne (show view w i = some ([] ++ l) from hl) hxs
        hsorted' hpos (fun _ hy => (by cases hy)) hlt
    · have hgt : doCompare key last y = .gt := doCompare_gt.mpr (not_le.mp hle)
      obtain ⟨-, -, back, hbackmem, hfrontmem, hmem⟩ := exists_ends (hhigh hle)
      rw [if_neg (not_not.mpr hgt), except_bind_ok (readItem_head hitems hfirst),
        except_bind_ok (readLast_getLast hholds hbackmem)]
      by_cases hge : key back ≤ key first
      · have hlt := lt_of_le_of_ne hge (hback back hbackmem).symm
        rw [if_pos fun heq => hge.not_gt (doCompare_lt.mp heq), hholds.1]
        have hl' : view w i = some (l ++ []) := by rwa [List.append_nil]
        have hne : j ≠ i := fun heq => by
          subst heq
          cases hl.symm.trans hxs
          exact (hsorted'.head_le hfirst hmem).not_gt hlt
        obtain ⟨r, hinsert, hmerged⟩ := insertVector_merged junk hinv hv hu hne hl' hxs hsorted'
          hpos (fun z hz x hx => (hsorted.le_getLast hbackmem hz).trans_lt
            (hlt.trans_le (hsorted'.head_le hfirst hx))) fun _ _ _ hy => (by cases hy)
        rw [List.append_nil] at hmerged
        exact ⟨r, hinsert, hmerged⟩
      · rw [if_neg (not_not.mpr (doCompare_lt.mpr (not_le.mp hge)))]
        exact merge_spec junk dflt hinv hv hu hl hsorted hxs

theorem inserted_ne {src : Option ℕ} {r : Heap α × Vec × Status} (hv : VecHolds t h v l)
    (hsorted : Ascending key l) (hpos : pos ≤ v.count)
    (hinsert : insertArrayAt t junk h v src pos xs.length = .ok r) (hx : x ∈ xs)
    (hfront : front ∈ l)
    (hkey : key front = key x) : items r.1 r.2.1 ≠ putItems key l xs := by
  intro heq
  have hlt := length_putItems_lt hsorted hx hfront hkey
  have hcount := insertArrayAt_count hpos hinsert
  obtain ⟨z, hz, -⟩ := exists_key_putItems key hfront xs
  rw [hv.1] at hcount
  rcases length_items (h := r.1) (v := r.2.1) with hnil | hlen
  · rw [← heq, hnil] at hz
    cases hz
  · rw [heq] at hlen
    omega

/-- Where an end meets the key of an end, merging does not come to adding the items. -/
theorem not_mergeSorted (hv : VecHolds t h v l) (hsorted : Ascending key l)
    (hu : VecHolds t h u xs) (hsorted' : Ascending key xs) (hends : ¬ EndsApart key h v l xs)
    {r : Heap α × Vec × Status} (hmerge : mergeSorted t dflt junk key h v u = .ok r) :
    items r.1 r.2.1 ≠ putItems key l xs := by
  unfold EndsApart at hends
  push Not at hends
  obtain ⟨first, hfirst, last, hlast, hmeet⟩ := hends
  have hcount : u.count ≠ 0 := by
    rw [hu.1]
    rintro hzero
    obtain rfl := List.length_eq_zero_iff.mp hzero
    cases hfirst
  unfold mergeSorted at hmerge
  rw [if_neg hcount, except_bind_ok (readLast_getLast hu hlast)] at hmerge
  obtain ⟨y, hread, hmerge⟩ := except_bind_eq_ok.mp hmerge
  rcases eq_or_ne l [] with rfl | hmore
  · obtain ⟨-, hlow⟩ := hmeet (fun _ hy => by cases hy) fun _ hy => by cases hy
    rw [if_neg (not_not.mpr (doCompare_gt.mpr (hlow y hread)))] at hmerge
    obtain ⟨_, -, hmerge⟩ := except_bind_eq_ok.mp hmerge
    obtain ⟨_, hback, -⟩ := except_bind_eq_ok.mp hmerge
    unfold readLast at hback
    rw [if_pos (by rw [hv.1, List.length_nil])] at hback
    cases hback
  · obtain ⟨front, hfront, back, hback, hfrontmem, hbackmem⟩ := exists_ends hmore
    rw [readItem_head hv hfront, Except.ok.injEq] at hread
    subst hread
    have hone (hne : key last ≠ key front) : key first = key back := by
      by_contra hne'
      refine hmore (hmeet (fun z hz => ?_) fun z hz => ?_).1
      · cases hfront.symm.trans hz
        exact hne
      · cases hback.symm.trans hz
        exact hne'
    by_cases hle : key last ≤ key front
    · rw [if_pos fun hgt => hle.not_gt (doCompare_gt.mp hgt), hu.1] at hmerge
      have heq : key last = key front := by
        by_contra hne
        have hlt := lt_of_le_of_ne hle hne
        have hback' := hsorted.head_le hfront hbackmem
        have hfirst' := hsorted'.head_le hfirst (List.mem_of_getLast? hlast)
        rw [hone hne] at hfirst'
        exact (hfirst'.trans_lt hlt).not_ge hback'
      exact inserted_ne hv hsorted (Nat.zero_le _) hmerge (List.mem_of_getLast? hlast) hfrontmem
        heq.symm
    · rw [if_neg (not_not.mpr (doCompare_gt.mpr (not_le.mp hle))),
        except_bind_ok (readItem_head hu hfirst), except_bind_ok (readLast_getLast hv hback)]
        at hmerge
      have heq := hone fun heq => hle heq.le
      rw [if_pos fun hlt => (doCompare_lt.mp hlt).ne heq, hu.1] at hmerge
      exact inserted_ne hv hsorted (Nat.le_refl _) hmerge (List.mem_of_mem_head? hfirst) hbackmem
        heq.symm

end Sorted

end VectorImpl

end BinderForLinux
