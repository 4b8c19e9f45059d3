import BinderForLinux.VectorImpl.Buffers

/-!
# What the operations make of a vector

`Becomes` says which items a vector has after an operation on it. The operations that put items
between others, or take them from there, move what is behind them, and cannot do so if there is
nothing to put or take and an item has to be destroyed where it was.
-/

namespace BinderForLinux

namespace VectorImpl

open Library Block

variable {α : Type} {t : Traits} {dflt : α} (junk : ℕ → ℕ → α) {h h' h'' : Heap α} {v v' : Vec}
  {m m' : Block α} {b new n : ℕ} {l l₁ l₂ xs : List α} {x y : α}

/-- The vector has the items of `l` after the operation. -/
def Becomes (t : Traits) (v : Vec) (h h' : Heap α) (v' : Vec) (l : List α) : Prop :=
  v'.count = l.length ∧
    ((v.storage = none ∧ h' = h ∧ v'.storage = none ∧ l = []) ∨
      ∃ new, v'.storage = some new ∧ Moved v h h' new ∧ Filled t (h'.buf new).block l)

theorem Becomes.of_storage (hv : VecHolds t h v []) (hb : v.storage = none) :
    Becomes t v h h v [] := ⟨hv.1, .inl ⟨hb, rfl, hb, rfl⟩⟩

/-- Items of another vector stay while this one gets its buffer for itself. -/
theorem Moved.keeps (hmoved : Moved v h h' new) (hx : HasItems t (h.buf b) l ∧ b < h.next)
    (hshare : v.storage = some b → 1 < (h.buf b).refs) :
    (HasItems t (h'.buf b) l ∧ b < h'.next) ∧ b ≠ new := by
  rcases hmoved.others with ⟨hold, hone, hnext, hrest⟩ | ⟨hnew, hnext, hrest⟩
  · have hne : b ≠ new := by
      rintro rfl
      have := hshare hold
      omega
    rw [hrest b hne, hnext]
    exact ⟨hx, hne⟩
  · have hne : b ≠ new := by
      have := hx.2
      omega
    refine ⟨⟨?_, by rw [hnext]; exact Nat.lt_succ_of_lt hx.2⟩, hne⟩
    have hafter := hrest b hne
    split at hafter
    · rename_i hb
      have hmore := hshare hb
      rw [Released, if_neg (by omega)] at hafter
      rw [hafter]
      exact ⟨hx.1.allocated, by dsimp only; omega, hx.1.filled⟩
    · rw [hafter]
      exact hx.1

/-! ### Taking items out -/

theorem shrink_spec (hv : VecHolds t h v (l₁ ++ xs ++ l₂))
    (hok : 0 < xs.length ∨ l₂ = [] ∨ Stays t ∨ (l₁.length + l₂.length) * 3 < capacity h v) :
    ∃ h' v', shrink t junk h v l₁.length xs.length = .ok (h', v') ∧
      Becomes t v h h' v' (l₁ ++ l₂) := by
  have hcount : v.count = l₁.length + xs.length + l₂.length := by
    rw [hv.1, List.length_append, List.length_append]
  have hsize : v.count - xs.length = l₁.length + l₂.length := by omega
  have hlen : l₁.length + l₂.length = (l₁ ++ l₂).length := List.length_append.symm
  unfold shrink
  cases hb : v.storage with
  | none =>
      have hnil := hv.eq_nil hb
      simp only [List.append_eq_nil_iff] at hnil
      obtain ⟨⟨rfl, rfl⟩, rfl⟩ := hnil
      exact ⟨h, v, rfl, .of_storage hv hb⟩
  | some b =>
      dsimp only
      rw [hsize]
      obtain ⟨hcapacity, -⟩ := hv.capacity hb
      split
      · have hroom : l₁.length + 0 + l₂.length ≤
            max minVectorCapacity ((l₁.length + l₂.length) * 2) :=
          Nat.le_trans (by omega) (Nat.le_max_right _ _)
        split
        · rename_i hplain
          have hnil : l₂ = [] := eq_nil_of_length (by omega)
          subst hnil
          rw [List.append_nil] at hv
          obtain ⟨h', new, hresize, hmoved, hfilled, -⟩ := editResize_spec junk hv hb
            hplain.2.2 (Nat.le_trans (by simp) hroom)
          refine ⟨h', ⟨some new, l₁.length + 0⟩, ?_, ?_, .inr ⟨new, rfl, hmoved, ?_⟩⟩
          · rw [List.length_nil] at hresize ⊢
            rw [hresize]
            rfl
          · rw [List.append_nil]
            rfl
          · rwa [List.append_nil]
        · have hsrc₁ : Source h v.storage 0 l₁ :=
            VecHolds.source_front (show VecHolds t h v (l₁ ++ (xs ++ l₂)) by
              rwa [← List.append_assoc])
          have hsrc₂ : Source h v.storage (l₁.length + xs.length) l₂ := by
            rw [← List.length_append]
            exact hv.source_back
          obtain ⟨h₁, h₂, h₃, hcopy₁, hcopy₂, hrelease, hmoved, hgapped, -⟩ :=
            reallocate_spec junk (c := l₁.length ≠ 0) (d := l₁.length ≠ l₁.length + l₂.length)
              (n := 0) hv hsrc₁ hsrc₂ eq_nil_of_length
              (fun hsame => eq_nil_of_length (by omega)) hroom
          rw [Nat.add_zero] at hcopy₂
          refine ⟨h₃, ⟨some h.next, l₁.length + l₂.length⟩, ?_, hlen,
            .inr ⟨h.next, rfl, hmoved, hgapped.filled⟩⟩
          have hback : l₁.length + l₂.length - l₁.length = l₂.length := by omega
          rw [← hb, hback, except_bind_ok hcopy₁, except_bind_ok hcopy₂, except_bind_ok hrelease]
      · rename_i hmany
        obtain ⟨h', new, hedit, hmoved, hfilled, -⟩ := editArrayImpl_spec junk hv hb
        obtain ⟨m, hdestroy, -, hgapped⟩ := hfilled.cut
        obtain ⟨h₁, hcut, hmoved₁, hblock₁⟩ := hmoved.edit
          (f := fun m => doDestroy t m l₁.length xs.length) v.count hdestroy
        rw [except_bind_ok hedit]
        dsimp only
        rw [except_bind_ok hcut]
        by_cases hlast : l₂ = []
        · subst hlast
          rw [if_neg (by simp)]
          refine ⟨h₁, _, rfl, hlen, .inr ⟨new, rfl, hmoved₁, ?_⟩⟩
          rw [hblock₁, List.append_nil]
          exact hgapped.filledLast
        · have hpos : 0 < l₂.length := List.length_pos_iff.mpr hlast
          have hok' : 0 < xs.length ∨ Stays t := by tauto
          have hback : l₁.length + l₂.length - l₁.length = l₂.length := by omega
          obtain ⟨m', hmove, hfilled'⟩ := hgapped.close hpos hok'
          rw [← hblock₁] at hmove
          obtain ⟨h₂, hclose, hmoved₂, hblock₂⟩ :=
            hmoved₁.edit (f := fun m =>
              doMoveBackward t m l₁.length (l₁.length + xs.length) l₂.length) v.count hmove
          rw [if_pos (by omega), hback, except_bind_ok hclose]
          exact ⟨h₂, _, rfl, hlen, .inr ⟨new, rfl, hmoved₂, by rwa [hblock₂]⟩⟩

/-! ### Nothing to put or take -/

theorem grow_self (hv : VecHolds t h v (l₁ ++ l₂)) (hpos : 0 < l₂.length) (hstays : ¬ Stays t) :
    grow t junk h v l₁.length 0 = .error .overwritten := by
  have hcount := hv.count_eq
  cases hb : v.storage with
  | none =>
      have hnil := hv.eq_nil hb
      simp only [List.append_eq_nil_iff] at hnil
      rw [hnil.2] at hpos
      cases hpos
  | some b =>
      obtain ⟨hcapacity, hle⟩ := hv.capacity hb
      rw [List.length_append] at hle
      obtain ⟨h', new, hedit, hmoved, hfilled, -⟩ := editArrayImpl_spec junk hv hb
      have hback : v.count - l₁.length = l₂.length := by omega
      have hmove := doMoveForward_self hfilled.split.2.1 hpos hstays
      unfold grow
      dsimp only
      rw [if_neg (by omega), except_bind_ok hedit]
      dsimp only
      rw [if_pos (by omega), hback, edit]
      dsimp only
      rw [except_bind_ok (block_eq hmoved.allocated), Nat.add_zero, hmove]
      rfl

theorem shrink_self (hv : VecHolds t h v (l₁ ++ l₂)) (hpos : 0 < l₂.length) (hstays : ¬ Stays t)
    (hmany : ¬ (l₁.length + l₂.length) * 3 < capacity h v) :
    shrink t junk h v l₁.length 0 = .error .overwritten := by
  have hcount := hv.count_eq
  cases hb : v.storage with
  | none =>
      have hnil := hv.eq_nil hb
      simp only [List.append_eq_nil_iff] at hnil
      rw [hnil.2] at hpos
      cases hpos
  | some b =>
      obtain ⟨h', new, hedit, hmoved, hfilled, -⟩ := editArrayImpl_spec junk hv hb
      have hsplit : Filled t (h'.buf new).block (l₁ ++ [] ++ l₂) := by rwa [List.append_nil]
      obtain ⟨m, hdestroy, -, hgapped⟩ := hsplit.cut
      obtain ⟨h₁, hcut, hmoved₁, hblock₁⟩ := hmoved.edit
        (f := fun m => doDestroy t m l₁.length 0) v.count hdestroy
      have hback : v.count - 0 - l₁.length = l₂.length := by omega
      have hmove := doMoveBackward_self hgapped.filled.split.2.1 hpos hstays
      rw [← hcount] at hmany
      unfold shrink
      rw [hb]
      dsimp only
      rw [Nat.sub_zero, if_neg hmany, except_bind_ok hedit]
      dsimp only
      rw [except_bind_ok hcut, if_pos (by omega), edit]
      dsimp only
      rw [except_bind_ok (block_eq hmoved₁.allocated), Nat.add_zero, hblock₁]
      rw [Nat.sub_zero] at hback
      rw [hback, hmove]
      rfl

/-! ### The operations -/

theorem Becomes.fill (hcount : v'.count = l₁.length + n + l₂.length) (hb : v'.storage = some new)
    (hmoved : Moved v h h' new) (hgapped : Gapped t (h'.buf new).block l₁ n l₂)
    (hxs : Holds m l₁.length xs) (hlen : xs.length = n)
    (hsame : SameBut (h'.buf new).block m l₁.length n) :
    Becomes t v h (h'.setBlock new m) v' (l₁ ++ xs ++ l₂) := by
  refine ⟨?_, .inr ⟨new, hb, hmoved.setBlock, ?_⟩⟩
  · rw [hcount, List.length_append, List.length_append, hlen]
  · rw [setBlock_self]
    exact hgapped.fill hxs hlen hsame

theorem Gapped.noLocation (hgapped : Gapped t m l₁ n l₂) (hcap : m.cap ≤ l₁.length) :
    n = 0 ∧ l₂ = [] := by
  have hle := hgapped.le
  exact ⟨by omega, List.length_eq_zero_iff.mp (by omega)⟩

theorem hasLocation_eq (hb : v.storage = some b) (k : ℕ) :
    hasLocation h v k = decide (k < (h.buf b).block.cap) := by
  unfold hasLocation VectorImpl.capacity
  rw [hb]

theorem hasLocation_none (hb : v.storage = none) (k : ℕ) : hasLocation h v k = false := by
  unfold hasLocation VectorImpl.capacity
  rw [hb]
  exact decide_eq_false (Nat.not_lt_zero k)

/-- Place is made and a gap left for what is put there, unless there is nothing to put. -/
theorem grow_cases (hv : VecHolds t h v (l₁ ++ l₂)) (hok : 0 < n ∨ l₂ = [] ∨ Stays t) :
    ∃ h' v', grow t junk h v l₁.length n = .ok (h', v') ∧
      ((hasLocation h' v' l₁.length = false ∧ n = 0 ∧ Becomes t v h h' v' (l₁ ++ l₂)) ∨
        ∃ new, v'.storage = some new ∧ hasLocation h' v' l₁.length = true ∧
          Moved v h h' new ∧ Raw t.trivialDtor (h'.buf new).block l₁.length n ∧
          ∀ (m : Block α) (xs : List α), xs.length = n → Holds m l₁.length xs →
            SameBut (h'.buf new).block m l₁.length n →
            Becomes t v h (h'.setBlock new m) v' (l₁ ++ xs ++ l₂)) := by
  obtain ⟨h', v', hgrow, hcount, hcases⟩ := grow_spec junk hv hok
  refine ⟨h', v', hgrow, ?_⟩
  rcases hcases with ⟨hb, rfl, rfl, hb'⟩ | ⟨new, hb', hmoved, hgapped⟩
  · have hnil := hv.eq_nil hb
    refine .inl ⟨hasLocation_none hb' _, rfl, ?_, .inl ⟨hb, rfl, hb', hnil⟩⟩
    rw [hcount, List.length_append, Nat.add_zero]
  · by_cases hloc : l₁.length < (h'.buf new).block.cap
    · refine .inr ⟨new, hb', ?_, hmoved, hgapped.gap, fun m xs hlen hxs hsame =>
        .fill hcount hb' hmoved hgapped hxs hlen hsame⟩
      rw [hasLocation_eq hb']
      exact decide_eq_true hloc
    · obtain ⟨rfl, rfl⟩ := hgapped.noLocation (Nat.not_lt.mp hloc)
      refine .inl ⟨?_, rfl, ?_, .inr ⟨new, hb', hmoved, hgapped.filled⟩⟩
      · rw [hasLocation_eq hb']
        exact decide_eq_false hloc
      · rw [hcount, List.length_append, Nat.add_zero]

theorem edit_eq {f : Block α → Except Fault (Block α)} (hb : v.storage = some b)
    (halloc : (h.buf b).allocated = true) (hf : f (h.buf b).block = .ok m) :
    edit h v f = .ok (h.setBlock b m) := by
  unfold edit
  rw [hb]
  dsimp only
  rw [except_bind_ok (block_eq halloc), except_bind_ok hf]

theorem insertAt_spec (dflt : α) (item : Option α) (hv : VecHolds t h v (l₁ ++ l₂))
    (hok : 0 < n ∨ l₂ = [] ∨ Stays t) :
    ∃ r xs, insertAt t dflt junk h v item l₁.length n = .ok r ∧
      Becomes t v h r.1 r.2.1 (l₁ ++ xs ++ l₂) ∧ xs.length = n ∧
      (∀ x, item = some x → xs = List.replicate n x) ∧
      (item = none → t.trivialCtor = false → xs = List.replicate n dflt) ∧
      (0 < n → r.2.2 = .ok l₁.length) := by
  have hindex : ¬ v.count < l₁.length := by
    have := hv.count_eq
    omega
  obtain ⟨h', v', hgrow, hcases⟩ := grow_cases junk hv hok
  unfold insertAt
  rw [if_neg hindex, except_bind_ok hgrow]
  dsimp only
  rcases hcases with ⟨hloc, rfl, hbecomes⟩ | ⟨new, hb, hloc, hmoved, hraw, hfill⟩
  · rw [if_neg (by rw [hloc]; exact Bool.false_ne_true)]
    exact ⟨_, [], rfl, by rwa [List.append_nil], rfl, fun _ _ => rfl, fun _ _ => rfl,
      fun hpos => absurd hpos (Nat.lt_irrefl 0)⟩
  · rw [if_pos hloc]
    cases item with
    | some x =>
        obtain ⟨m, hloop, hholds, hsame⟩ := fillLoop_spec (v := x) hraw
        rw [except_bind_ok (edit_eq hb hmoved.allocated hloop)]
        refine ⟨_, _, rfl, hfill m _ List.length_replicate hholds hsame, List.length_replicate,
          fun y hy => ?_, fun heq => (by cases heq), fun _ => rfl⟩
        cases hy
        rfl
    | none =>
        obtain ⟨m, xs, hloop, hlen, hholds, hsame, hdflt⟩ := doConstruct_spec dflt hraw
        rw [except_bind_ok (edit_eq hb hmoved.allocated hloop)]
        exact ⟨_, xs, rfl, hfill m xs hlen hholds hsame, hlen, fun _ heq => (by cases heq),
          fun _ => hdflt, fun _ => rfl⟩

theorem VecHolds.readable (hv : VecHolds t h v l) : Source h v.storage 0 l := by
  have hwhole : VecHolds t h v (l ++ []) := by rwa [List.append_nil]
  exact hwhole.source_front

theorem insertArrayAt_spec {u : Vec} (hv : VecHolds t h v (l₁ ++ l₂)) (hu : VecHolds t h u xs)
    (hshare : ∀ b, v.storage = some b → u.storage = some b → 1 < (h.buf b).refs)
    (hok : 0 < xs.length ∨ l₂ = [] ∨ Stays t) :
    ∃ r, insertArrayAt t junk h v u.storage l₁.length u.count = .ok r ∧
      Becomes t v h r.1 r.2.1 (l₁ ++ xs ++ l₂) ∧ (0 < xs.length → r.2.2 = .ok l₁.length) := by
  have hindex : ¬ v.count < l₁.length := by
    have := hv.count_eq
    omega
  obtain ⟨h', v', hgrow, hcases⟩ := grow_cases junk hv hok
  unfold insertArrayAt
  rw [if_neg hindex, hu.1, except_bind_ok hgrow]
  dsimp only
  rcases hcases with ⟨hloc, hnil, hbecomes⟩ | ⟨new, hb, hloc, hmoved, hraw, hfill⟩
  · obtain rfl := List.length_eq_zero_iff.mp hnil
    rw [hloc]
    refine ⟨(h', v', .noMemory), ?_, by rwa [List.append_nil], fun hpos =>
      absurd hpos (Nat.lt_irrefl 0)⟩
    cases v'.storage <;> rfl
  · have hsrc : Source h' u.storage 0 xs := by
      cases hbu : u.storage with
      | none => exact hu.eq_nil hbu
      | some bu =>
          obtain ⟨⟨hitems, -⟩, -⟩ :=
            hmoved.keeps (hu.hasItems hbu) fun hbv => hshare bu hbv hbu
          exact ⟨hitems.allocated, hitems.filled.items⟩
    obtain ⟨m, hcopy, hholds, hsame, hnone⟩ := doCopy_spec hmoved.allocated hraw hsrc
    rw [hb, hloc]
    dsimp only
    rw [except_bind_ok hcopy]
    refine ⟨_, rfl, ?_, fun _ => rfl⟩
    dsimp only
    have hbecomes := hfill m xs rfl hholds hsame
    split
    · rename_i heq
      rw [hnone heq] at hbecomes
      have hid : h'.setBlock new (h'.buf new).block = h' := by
        unfold Heap.setBlock Heap.setBuf
        rw [Function.update_eq_self]
      rwa [hid] at hbecomes
    · exact hbecomes

theorem location_spec (hv : VecHolds t h v (l₁ ++ x :: l₂)) :
    hasLocation h v l₁.length = true ∧ ∃ h' v' new, editArrayImpl t junk h v = .ok (h', v') ∧
      v'.count = v.count ∧ v'.storage = some new ∧ Moved v h h' new ∧
      Filled t (h'.buf new).block (l₁ ++ x :: l₂) := by
  cases hb : v.storage with
  | none =>
      have := hv.eq_nil hb
      simp at this
  | some b =>
      obtain ⟨-, hle⟩ := hv.capacity hb
      rw [List.length_append, List.length_cons] at hle
      obtain ⟨h', new, hedit, hmoved, hfilled, -⟩ := editArrayImpl_spec junk hv hb
      refine ⟨?_, h', _, new, hedit, rfl, rfl, hmoved, hfilled⟩
      rw [hasLocation_eq hb]
      exact decide_eq_true (by omega)

theorem assignItem_spec (hv : VecHolds t h v (l₁ ++ x :: l₂)) :
    ∃ r, assignItem t junk h v l₁.length y = .ok r ∧
      Becomes t v h r.1 r.2 (l₁ ++ y :: l₂) := by
  obtain ⟨hloc, h', v', new, hedit, hcount, hb, hmoved, hfilled⟩ := location_spec junk hv
  obtain ⟨m, hassign, hholds, hsame⟩ := assign_spec (w := y) hfilled.items
  rw [Nat.zero_add] at hassign hsame
  have hlen : (l₁ ++ x :: l₂).length = (l₁ ++ y :: l₂).length := by simp
  unfold assignItem
  rw [if_pos hloc, except_bind_ok hedit]
  dsimp only
  rw [except_bind_ok (edit_eq hb hmoved.allocated hassign)]
  refine ⟨_, rfl, hcount.trans (hv.1.trans hlen), .inr ⟨new, hb, hmoved.setBlock, ?_⟩⟩
  have hle := hfilled.le
  have hrest := hfilled.rest.frame hsame (.inr (by simp))
  rw [setBlock_self]
  rw [hlen] at hle hrest
  exact ⟨hholds, by rw [hsame.cap]; exact hle, by rw [hsame.cap]; exact hrest⟩

theorem replaceAt_spec (dflt : α) (prototype : Option α) (hv : VecHolds t h v (l₁ ++ x :: l₂)) :
    ∃ r z, replaceAt t dflt junk h v prototype l₁.length = .ok r ∧
      Becomes t v h r.1 r.2.1 (l₁ ++ z :: l₂) ∧ (∀ y, prototype = some y → z = y) ∧
      (prototype = none → t.trivialCtor = false → z = dflt) ∧ r.2.2 = .ok l₁.length := by
  obtain ⟨hloc, h', v', new, hedit, hcount, hb, hmoved, hfilled⟩ := location_spec junk hv
  have hindex : ¬ v.count ≤ l₁.length := by
    have := hv.1
    rw [List.length_append, List.length_cons] at this
    omega
  have hone (z : α) : l₁ ++ [z] ++ l₂ = l₁ ++ z :: l₂ := by simp
  have hfilled' : Filled t (h'.buf new).block (l₁ ++ [x] ++ l₂) := by rwa [hone]
  obtain ⟨m, hdestroy, -, hgapped⟩ := hfilled'.cut
  have hlen : v'.count = l₁.length + 1 + l₂.length := by
    rw [hcount, hv.1, List.length_append, List.length_cons]
    omega
  have hbecomes (m' : Block α) (z : α) (hz : Holds m' l₁.length [z])
      (hsame : SameBut m m' l₁.length 1) :
      Becomes t v h (h'.setBlock new m') v' (l₁ ++ z :: l₂) := by
    refine ⟨?_, .inr ⟨new, hb, hmoved.setBlock, ?_⟩⟩
    · rw [hlen, List.length_append, List.length_cons]
      omega
    · rw [setBlock_self, ← hone]
      exact hgapped.fill hz rfl hsame
  unfold replaceAt
  rw [if_neg hindex, if_pos hloc, except_bind_ok hedit]
  dsimp only
  cases prototype with
  | some y =>
      obtain ⟨m', hloop, hholds, hsame⟩ := fillLoop_spec (v := y) hgapped.gap
      have hall : (do
          let m ← doDestroy t (h'.buf new).block l₁.length 1
          m.fillLoop t.trivialDtor y l₁.length 1) = .ok m' :=
        (except_bind_ok hdestroy).trans hloop
      rw [except_bind_ok (edit_eq hb hmoved.allocated hall)]
      refine ⟨_, y, rfl, hbecomes m' y hholds hsame, fun z hz => ?_, fun heq => (by cases heq), rfl⟩
      cases hz
      rfl
  | none =>
      obtain ⟨m', xs, hloop, hxs, hholds, hsame, hdflt⟩ :=
        doConstruct_spec dflt hgapped.gap
      obtain ⟨z, rfl⟩ := List.length_eq_one_iff.mp hxs
      have hall : (do
          let m ← doDestroy t (h'.buf new).block l₁.length 1
          doConstruct t dflt m l₁.length 1) = .ok m' := (except_bind_ok hdestroy).trans hloop
      rw [except_bind_ok (edit_eq hb hmoved.allocated hall)]
      exact ⟨_, z, rfl, hbecomes m' z hholds hsame, fun _ heq => (by cases heq), fun _ hctor =>
        List.singleton_inj.mp (hdflt hctor), rfl⟩

theorem setCapacity_spec {k : ℕ} (hv : VecHolds t h v l) :
    ∃ r, setCapacity t junk h v k = .ok r ∧ (k ≤ v.count ∧ r.1 = h ∧ r.2.1 = v ∨
      Becomes t v h r.1 r.2.1 l) := by
  unfold setCapacity
  split
  · rename_i hle
    exact ⟨_, rfl, .inl ⟨hle, rfl, rfl⟩⟩
  · rename_i hmore
    have hle : l.length ≤ k := by
      have := hv.1
      omega
    obtain ⟨h₁, h₂, hcopy, hrelease, hmoved, hfilled, -⟩ := copyAll_spec junk hv hle
    dsimp only
    rw [except_bind_ok hcopy, except_bind_ok hrelease]
    exact ⟨_, rfl, .inr ⟨hv.1, .inr ⟨h.next, rfl, hmoved, hfilled⟩⟩⟩

end VectorImpl

end BinderForLinux
