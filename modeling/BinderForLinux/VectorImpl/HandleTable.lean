import BinderForLinux.VectorImpl.Safety

/-!
# The table of handles

`ProcessState` looks up a handle in a vector and makes the vector longer if the handle is not in
it. The handle is an `int32_t`, and the sizes are not.
-/

namespace BinderForLinux

namespace VectorImpl

namespace Sized

open Library Block

/-- `ProcessState::handle_entry`, with its two pointers. -/
structure HandleEntry where
  binder : Option ℕ
  refs : Option ℕ
  deriving DecidableEq

def HandleEntry.new : HandleEntry := ⟨none, none⟩

/-- The traits of a type that says nothing of itself. -/
def entryTraits : Traits := ⟨false, false, false, false⟩

/-- `sizeof(handle_entry)`. -/
def entrySize : ItemSize := ⟨16, by decide, by decide⟩

/-- What is not defined, in the vector or in `handle + 1`. -/
inductive LookupFault
  | vector (e : Fault)
  | overflow
  deriving DecidableEq

def toSize (x : ℤ) : ℕ := (x % 2 ^ 64).toNat

/-- `err < NO_ERROR`, where the index that is returned is converted to `status_t`. -/
def isNegative : Status → Bool
  | .ok n => decide (2 ^ 31 ≤ n % 2 ^ 32)
  | .badIndex | .badValue | .noMemory => true

section Lookup

variable (junk : ℕ → ℕ → HandleEntry) (a : Allocator) (m : Memory HandleEntry) (v : Vec)
  (handle : ℤ)

/-- `ProcessState::lookupHandleLocked`, with the index of the entry. -/
def lookupHandleLocked : Except LookupFault (Memory HandleEntry × Vec × Option ℕ) :=
  let n := v.count
  if n ≤ toSize handle then
    if handle = 2 ^ 31 - 1 then .error .overflow
    else do
      let r ← (insertAt entryTraits .new junk entrySize a m v (some .new) n
        (sub (toSize (handle + 1)) n)).mapError .vector
      if isNegative r.2.2 = true then .ok (r.1, r.2.1, none)
      else editItemAt r.1 r.2.1
  else editItemAt m v
where
  /-- `Vector::editItemAt`; there has to be an item. -/
  editItemAt (m : Memory HandleEntry) (v : Vec) :
      Except LookupFault (Memory HandleEntry × Vec × Option ℕ) := do
    let r ← (editItemLocation entryTraits junk entrySize a m v (toSize handle)).mapError .vector
    match r.2.2 with
    | some i => .ok (r.1, r.2.1, some i)
    | none => .error (.vector .outOfBounds)

end Lookup

/-- Nothing, and the table is as it was, or the entry of the handle, in the table, which may have
new entries at its end. -/
inductive Found (m : Memory HandleEntry) (v : Vec) (l : List HandleEntry) (handle : ℤ) :
    Except LookupFault (Memory HandleEntry × Vec × Option ℕ) → Prop
  | null {m' : Memory HandleEntry} {v' : Vec}
      (hl : Became entryTraits entrySize m v m' v' l) : Found m v l handle (.ok (m', v', none))
  | entry {m' : Memory HandleEntry} {v' : Vec} {i k : ℕ}
      (hl : Became entryTraits entrySize m v m' v' (l ++ List.replicate k .new))
      (hi : i < v'.count) (heq : (i : ℤ) = handle) : Found m v l handle (.ok (m', v', some i))

/-- The handle is in the table, or the table can be made longer up to it. -/
structure Findable (a : Allocator) (m : Memory HandleEntry) (v : Vec) (handle : ℤ) : Prop where
  overflow : handle ≠ 2 ^ 31 - 1
  insertable : Insertable entryTraits entrySize a m v v.count
    (sub (toSize (handle + 1)) v.count)
  nowhere : handle = -1 → capacity entrySize m v = 0

/-! ### One item -/

section Items

variable {α : Type} {t : Traits} {dflt : α} {g : ℕ → ℕ → α} {z : ItemSize} {a : Allocator}
  {m : Memory α} {v : Vec} {b index : ℕ} {l : List α}

theorem editItemLocation_none (hge : capacity z m v ≤ index) :
    editItemLocation t g z a m v index = .ok (m, v, none) := by
  have hloc : hasLocation z m v index = false := decide_eq_false (Nat.not_lt.mpr hge)
  unfold editItemLocation
  rw [hloc, if_neg Bool.false_ne_true]

theorem editItemLocation_of_edit {m' : Memory α} {v' : Vec} (hlt : index < capacity z m v)
    (hedit : editArrayImpl t g z a m v = .ok (m', v')) (hb : v'.storage = some b) :
    editItemLocation t g z a m v index = .ok (m', v', some index) := by
  have hloc : hasLocation z m v index = true := decide_eq_true hlt
  unfold editItemLocation
  rw [if_pos hloc, except_bind_ok hedit]
  dsimp only
  rw [hb]
  rfl

theorem editArrayImpl_alone (hb : v.storage = some b) (hone : (m.heap.buf b).refs = 1) :
    editArrayImpl t g z a m v = .ok (m, v) := by
  unfold editArrayImpl
  rw [hb]
  dsimp only
  rw [if_pos hone]

/-- The vector gets its buffer for itself, or goes on with what it shares. -/
theorem editArrayImpl_became (hm : m.Wf z) (hv : VecHolds t m.heap v l) :
    ∃ m' v', editArrayImpl t g z a m v = .ok (m', v') ∧ Became t z m v m' v' l ∧
      capacity z m' v' = capacity z m v ∧ (v.storage ≠ none → v'.storage ≠ none) := by
  cases hb : v.storage with
  | none =>
      exact ⟨m, v, editArrayImpl_none hb, .unchanged hm hv, rfl, fun hne => absurd rfl hne⟩
  | some b =>
      by_cases hw : Writable z a m v
      · obtain ⟨m', new, hedit, hmoved, hfilled, hcap, hwf⟩ :=
          editArrayImpl_spec (g := g) hm hv hb hw
        refine ⟨m', _, hedit, ⟨hwf, .inr ⟨hv.1, .inr ⟨new, rfl, hmoved, hfilled⟩⟩⟩, ?_,
          fun _ => Option.some_ne_none new⟩
        rw [capacity_of_storage hb, capacity_of_storage rfl, ← hwf.cap new, hcap, hm.cap b]
      · unfold Writable at hw
        push Not at hw
        obtain ⟨b', hb', hrefs, hno⟩ := hw
        exact ⟨m, v, editArrayImpl_kept hm hb' hrefs hno, .unchanged hm hv, rfl,
          fun _ => by rw [hb]; exact Option.some_ne_none b⟩

theorem editItemLocation_became (hm : m.Wf z) (hv : VecHolds t m.heap v l)
    (hlt : index < capacity z m v) :
    ∃ m' v', editItemLocation t g z a m v index = .ok (m', v', some index) ∧
      Became t z m v m' v' l := by
  obtain ⟨m', v', hedit, hl, -, hstorage⟩ :=
    editArrayImpl_became (g := g) (a := a) hm hv
  have hne : v.storage ≠ none := fun hb => by
    unfold capacity at hlt
    rw [hb] at hlt
    cases hlt
  obtain ⟨b, hb⟩ := Option.ne_none_iff_exists'.mp (hstorage hne)
  exact ⟨m', v', editItemLocation_of_edit hlt hedit hb, hl⟩

theorem insertAt_empty (dflt : α) (item : Option α) (hm : m.Wf z) (hv : VecHolds t m.heap v l)
    (hcount : v.count = 0) {r : Memory α × Vec × Status}
    (hinsert : insertAt t dflt g z a m v item 0 0 = .ok r) :
    if 0 < capacity z m v then r.2.2 = .ok 0 else r.2.2 = .noMemory := by
  obtain ⟨m', v', hedit, -, hcap, -⟩ := editArrayImpl_became (g := g) (a := a) hm hv
  have hcount' : v'.count = 0 := (editArrayImpl_inv hm hedit).2.1.trans hcount
  have hgrow : grow t g z a m v 0 0 = .ok (m', v', hasLocation z m' v' 0) := by
    have hsame : (⟨v'.storage, 0⟩ : Vec) = v' := by
      rw [← hcount']
    unfold grow
    dsimp only
    rw [hcount, Nat.add_zero, wrap_eq (Nat.two_pow_pos 64), if_neg (Nat.not_lt_zero _),
      except_bind_ok hedit, if_neg (not_not.mpr rfl), except_bind_ok rfl]
    dsimp only
    rw [hsame]
    rfl
  unfold insertAt at hinsert
  rw [if_neg (Nat.not_lt_zero _), except_bind_ok hgrow] at hinsert
  dsimp only at hinsert
  split
  · rename_i hpos
    have hloc : hasLocation z m' v' 0 = true := decide_eq_true (by rwa [hcap])
    rw [if_pos hloc] at hinsert
    obtain ⟨i, -, hinsert⟩ := except_bind_eq_ok.mp hinsert
    obtain ⟨h', -, hinsert⟩ := except_bind_eq_ok.mp hinsert
    cases hinsert
    rfl
  · rename_i hzero
    have hloc : hasLocation z m' v' 0 = false := decide_eq_false (by rwa [hcap])
    rw [hloc, if_neg Bool.false_ne_true] at hinsert
    cases hinsert
    rfl

end Items

/-! ### Looking up -/

section Table

variable {g : ℕ → ℕ → HandleEntry} {a : Allocator} {m m' : Memory HandleEntry} {v v' : Vec}
  {l : List HandleEntry} {handle : ℤ} {o : Option ℕ}
  {r : Memory HandleEntry × Vec × Status}

theorem toSize_of_nonneg {x : ℤ} (h : 0 ≤ x) (hlt : x < 2 ^ 64) : (toSize x : ℤ) = x := by
  unfold toSize
  omega

theorem toSize_of_neg {x : ℤ} (h : x < 0) (hge : -2 ^ 31 ≤ x) :
    (toSize x : ℤ) = 2 ^ 64 + x := by
  unfold toSize
  omega

theorem Memory.Wf.entries_lt (hm : m.Wf entrySize) : capacity entrySize m v ≤ 2 ^ 60 := by
  unfold capacity
  split
  · exact Nat.zero_le _
  · rename_i b _
    have hlt := hm.lt b
    have hbytes : entrySize.bytes = 16 := rfl
    rw [hbytes]
    omega

theorem lookupHandleLocked_inside (hlt : ¬ v.count ≤ toSize handle) :
    lookupHandleLocked g a m v handle = lookupHandleLocked.editItemAt g a handle m v := by
  unfold lookupHandleLocked
  rw [if_neg hlt]

theorem lookupHandleLocked_inserts (hge : v.count ≤ toSize handle) (hmax : handle ≠ 2 ^ 31 - 1)
    (hinsert : insertAt entryTraits .new g entrySize a m v (some .new) v.count
      (sub (toSize (handle + 1)) v.count) = .ok r) :
    lookupHandleLocked g a m v handle =
      if isNegative r.2.2 = true then .ok (r.1, r.2.1, none)
      else lookupHandleLocked.editItemAt g a handle r.1 r.2.1 := by
  unfold lookupHandleLocked
  dsimp only
  rw [if_pos hge, if_neg hmax, hinsert]
  rfl

theorem editItemAt_some {i : ℕ}
    (hedit : editItemLocation entryTraits g entrySize a m v (toSize handle) =
      .ok (m', v', some i)) :
    lookupHandleLocked.editItemAt g a handle m v = .ok (m', v', some i) := by
  unfold lookupHandleLocked.editItemAt
  rw [hedit]
  rfl

theorem editItemAt_none (hge : capacity entrySize m v ≤ toSize handle) :
    lookupHandleLocked.editItemAt g a handle m v = .error (.vector .outOfBounds) := by
  unfold lookupHandleLocked.editItemAt
  rw [editItemLocation_none hge]
  rfl

theorem found_inside (hm : m.Wf entrySize) (hv : VecHolds entryTraits m.heap v l)
    (hhandle : -2 ^ 31 ≤ handle ∧ handle < 2 ^ 31) (hlt : ¬ v.count ≤ toSize handle) :
    Found m v l handle (lookupHandleLocked g a m v handle) := by
  have hcap := hm.count_le hv
  have hentries := hm.entries_lt (v := v)
  have hpos : 0 ≤ handle := by
    by_contra hneg
    have := toSize_of_neg (Int.not_le.mp hneg) hhandle.1
    omega
  obtain ⟨m', v', hedit, hl⟩ := editItemLocation_became (g := g) (a := a) hm hv
    (show toSize handle < capacity entrySize m v by omega)
  rw [lookupHandleLocked_inside hlt, editItemAt_some hedit]
  have hnone : l ++ List.replicate 0 HandleEntry.new = l := List.append_nil l
  have hcount := hl.count
  refine .entry (k := 0) (by rwa [hnone]) ?_ (toSize_of_nonneg hpos (by omega))
  rw [hcount, ← hv.1]
  omega

theorem found_inserted (hm : m.Wf entrySize) (hv : VecHolds entryTraits m.heap v l)
    (hhandle : -2 ^ 31 ≤ handle ∧ handle < 2 ^ 31) (hge : v.count ≤ toSize handle)
    (hok : Findable a m v handle) :
    Found m v l handle (lookupHandleLocked g a m v handle) := by
  obtain ⟨hmax, hinsertable, hnowhere⟩ := hok
  have hsafe := insertAt_safe (g := g) HandleEntry.new (some HandleEntry.new) hm hv
    fun _ => hinsertable
  obtain ⟨r, hinsert⟩ : ∃ r, insertAt entryTraits .new g entrySize a m v (some .new) v.count
      (sub (toSize (handle + 1)) v.count) = .ok r := by
    generalize insertAt entryTraits .new g entrySize a m v (some .new) v.count
      (sub (toSize (handle + 1)) v.count) = x at hsafe
    cases hsafe with
    | error hs hl => exact ⟨_, rfl⟩
    | done heffect hl => exact ⟨_, rfl⟩
  rw [hinsert] at hsafe
  obtain ⟨l', hl, hcases⟩ := hsafe.became
  rw [lookupHandleLocked_inserts hge hmax hinsert]
  rcases hcases with ⟨herror, rfl⟩ | ⟨hindex, hinserts⟩
  · have hnegative : isNegative r.2.2 = true := by
      cases hs : r.2.2 with
      | ok n =>
          rw [hs] at herror
          exact herror.elim
      | badIndex => rfl
      | badValue => rfl
      | noMemory => rfl
    rw [if_pos hnegative]
    exact .null hl
  · have hlen := hinserts.length (Nat.le_of_eq hv.1)
    have hcount := hl.count
    have hsum := hinsertable.sum
    have hclt := hm.count_lt hv
    rw [hlen, ← hv.1] at hcount
    have hentries := hl.1.entries_lt (v := r.2.1)
    by_cases hpos : 0 ≤ handle
    · have hsize := toSize_of_nonneg hpos (by omega)
      have hnext := toSize_of_nonneg (x := handle + 1) (by omega) (by omega)
      have hamount : sub (toSize (handle + 1)) v.count = toSize (handle + 1) - v.count :=
        sub_eq (by omega) (by omega)
      obtain ⟨xs, hxs, ⟨hnew, -⟩, rfl⟩ := hinserts
      rw [hnew _ rfl, List.take_of_length_le (Nat.le_of_eq hv.1.symm),
        List.drop_of_length_le (Nat.le_of_eq hv.1.symm), List.append_nil] at hl
      have hnonneg : ¬ isNegative r.2.2 = true := by
        rw [hindex]
        refine fun hneg => absurd (of_decide_eq_true hneg) ?_
        omega
      obtain ⟨b, hb⟩ := hl.storage hv (by omega)
      have hone := hl.refs (by omega) hb
      have hroom := hl.room hb
      rw [hl.1.cap b, ← capacity_of_storage hb] at hroom
      rw [if_neg hnonneg, editItemAt_some (editItemLocation_of_edit
        (show toSize handle < capacity entrySize r.1 r.2.1 by omega)
        (editArrayImpl_alone hb hone) hb)]
      exact .entry hl (by omega) hsize
    · rw [Int.not_le] at hpos
      have hsize := toSize_of_neg hpos hhandle.1
      by_cases hone : handle = -1
      · subst hone
        have hzero : toSize (-1 + 1) = 0 := by decide
        rw [hzero] at hsum hinsert
        have hempty : v.count = 0 := by
          unfold sub wrap at hsum
          omega
        have hsub : sub 0 0 = 0 := by decide
        rw [hempty, hsub] at hinsert
        have hloc := insertAt_empty .new (some .new) hm hv hempty hinsert
        rw [hnowhere rfl, if_neg (Nat.lt_irrefl 0), hindex] at hloc
        cases hloc
      · have hnext := toSize_of_neg (x := handle + 1) (by omega) (by omega)
        have hamount : sub (toSize (handle + 1)) v.count = toSize (handle + 1) - v.count :=
          sub_eq (by omega) (by have := hm.count_le hv; have := hm.entries_lt (v := v); omega)
        exfalso
        have hcap := hm.count_le hv
        have hentries' := hm.entries_lt (v := v)
        rw [hamount] at hcount
        obtain ⟨b, hb⟩ := hl.storage hv (by omega)
        have hroom := hl.room hb
        rw [hl.1.cap b, ← capacity_of_storage hb] at hroom
        omega

theorem not_found_error {e : LookupFault} : ¬ Found m v l handle (.error e) := fun h => by
  cases h

theorem not_found_spoiled (hm : m.Wf entrySize) (hv : VecHolds entryTraits m.heap v l)
    (hhandle : -2 ^ 31 ≤ handle ∧ handle < 2 ^ 31) (hge : v.count ≤ toSize handle)
    (hbad : ¬ Insertable entryTraits entrySize a m v v.count
      (sub (toSize (handle + 1)) v.count))
    (hinsert : insertAt entryTraits .new g entrySize a m v (some .new) v.count
      (sub (toSize (handle + 1)) v.count) = .ok r) :
    ¬ Found m v l handle (if isNegative r.2.2 = true then .ok (r.1, r.2.1, none)
      else lookupHandleLocked.editItemAt g a handle r.1 r.2.1) := fun hfound => by
  obtain ⟨⟨m', v', loc⟩, h', hgrow, hsame, hm', hv'⟩ := insertAt_grow (Nat.le_refl _) hinsert
  obtain ⟨hwf, hgrown⟩ := grow_grownTo hm hv hgrow
  rw [hm', hv'] at hfound
  have hend : 0 < sub (toSize (handle + 1)) v.count ∨ v.count = v.count ∨ Stays entryTraits :=
    .inr (.inl rfl)
  split at hfound
  · cases hfound with
    | null hl =>
        exact hgrown.spoiled hm hv wrap_lt hbad (fun _ _ => hend) hsame (.inl hv.1.symm) hl
  · generalize hres : lookupHandleLocked.editItemAt g a handle (m'.withHeap h') v' = res at hfound
    cases hfound with
    | null hl =>
        unfold lookupHandleLocked.editItemAt at hres
        obtain ⟨r, -, hres⟩ := except_bind_eq_ok.mp hres
        split at hres <;> cases hres
    | @entry m₂ v₂ i k hl hi heq =>
        have hclt := hm.count_lt hv
        have hsize := toSize_of_nonneg (x := handle) (by omega) (by omega)
        have hnext := toSize_of_nonneg (x := handle + 1) (by omega) (by omega)
        have hamount : sub (toSize (handle + 1)) v.count = toSize (handle + 1) - v.count :=
          sub_eq (by omega) (by omega)
        have hsum : v.count + sub (toSize (handle + 1)) v.count = toSize handle + 1 := by omega
        rw [hsum, wrap_eq (by omega)] at hgrown
        cases hgrown with
        | refused hmore hno =>
            rw [← hsum] at hmore hno
            exact hbad ⟨by omega, fun _ => .inr hno, fun hroom => absurd hmore hroom,
              fun _ => hend⟩
        | @resized m' new _ hmore hbytes hcap =>
            have hfits : ¬ toSize handle + 1 ≤ grownBytes entrySize (toSize handle + 1) /
                entrySize.bytes := fun hfits => by
              rw [← hsum] at hmore hbytes hfits
              exact hbad ⟨by omega, fun _ => .inl ⟨hbytes, hfits⟩, fun hroom => absurd hmore hroom,
                fun _ => hend⟩
            have hsmall : capacity entrySize (m'.withHeap h') ⟨some new, toSize handle + 1⟩ =
                grownBytes entrySize (toSize handle + 1) / entrySize.bytes :=
              (capacity_of_storage rfl).trans ((hwf.cap new).symm.trans hcap)
            rw [editItemAt_none (by omega)] at hres
            cases hres
        | inPlace hroom hcount hshared =>
            have hown : ¬ (sub (toSize (handle + 1)) v.count = 0 ∨ Writable entrySize a m v) :=
              fun hown => by
                rw [← hsum] at hroom
                exact hbad ⟨by omega, fun hmore => absurd hmore hroom, fun _ => hown,
                  fun _ => hend⟩
            rw [not_or] at hown
            obtain ⟨hne, hw⟩ := hown
            unfold Writable at hw
            push Not at hw
            obtain ⟨b, hb, hrefs, hno⟩ := hw
            obtain ⟨hb', hsizes, hbuffers⟩ := hshared b hb hrefs hno
            have hrefs' : ((m'.withHeap h').heap.buf b).refs ≠ 1 := by
              have hkeep : ((m'.withHeap h').heap.buf b).refs = (m.heap.buf b).refs :=
                (hsame.refs b).trans (hbuffers.refs b)
              rwa [hkeep]
            have hcap : capacity entrySize (m'.withHeap h') v' = capacity entrySize m v := by
              rw [capacity_of_storage hb', capacity_of_storage hb]
              exact congrArg (fun s => s b / entrySize.bytes) hsizes
            have hno' : Refused a (m'.withHeap h')
                (capacity entrySize (m'.withHeap h') v' * entrySize.bytes) := by
              unfold Refused at hno ⊢
              rw [hcap]
              have hnext' : (m'.withHeap h').heap.next = m.heap.next :=
                hsame.next.trans hbuffers.next
              rwa [hnext']
            have hkept := editArrayImpl_kept (t := entryTraits) (g := g)
              (hwf.withHeap hsame.caps) hb' hrefs' hno'
            have hinside : toSize handle < capacity entrySize (m'.withHeap h') v' := by
              rw [hcap]
              omega
            rw [editItemAt_some (editItemLocation_of_edit hinside hkept hb')] at hres
            cases hres
            exact hrefs' (hl.refs (by omega) hb')

/-- A handle is looked up if the table has it or can be made longer up to it. -/
theorem lookupHandleLocked_found_iff (hm : m.Wf entrySize)
    (hv : VecHolds entryTraits m.heap v l) (hhandle : -2 ^ 31 ≤ handle ∧ handle < 2 ^ 31) :
    Found m v l handle (lookupHandleLocked g a m v handle) ↔
      (v.count ≤ toSize handle → Findable a m v handle) := by
  constructor
  · intro hfound hge
    have hmax : handle ≠ 2 ^ 31 - 1 := fun hmax => by
      unfold lookupHandleLocked at hfound
      dsimp only at hfound
      rw [if_pos hge, if_pos hmax] at hfound
      exact not_found_error hfound
    cases hinsert : insertAt entryTraits .new g entrySize a m v (some .new) v.count
        (sub (toSize (handle + 1)) v.count) with
    | error e =>
        unfold lookupHandleLocked at hfound
        dsimp only at hfound
        rw [if_pos hge, if_neg hmax, hinsert] at hfound
        exact absurd hfound not_found_error
    | ok r =>
        rw [lookupHandleLocked_inserts hge hmax hinsert] at hfound
        by_cases hok : Insertable entryTraits entrySize a m v v.count
            (sub (toSize (handle + 1)) v.count)
        · refine ⟨hmax, hok, fun hone => ?_⟩
          subst hone
          by_contra hcap
          have hsum := hok.sum
          have hclt := hm.count_lt hv
          have hzero : toSize (-1 + 1) = 0 := by decide
          rw [hzero] at hsum hinsert
          have hempty : v.count = 0 := by
            unfold sub wrap at hsum
            omega
          have hsub : sub 0 0 = 0 := by decide
          rw [hempty, hsub] at hinsert
          have hloc := insertAt_empty .new (some .new) hm hv hempty hinsert
          rw [if_pos (Nat.pos_of_ne_zero hcap)] at hloc
          obtain ⟨r', h', hgrow, hsame, hm', -⟩ := insertAt_grow (Nat.zero_le _) hinsert
          have hwf := (grow_grownTo hm hv hgrow).1.withHeap hsame.caps
          rw [← hm'] at hwf
          have hsize : toSize (-1) = 2 ^ 64 - 1 := by decide
          have hentries := hwf.entries_lt (v := r.2.1)
          have hnonneg : ¬ isNegative (.ok 0) = true := by decide
          rw [hloc, if_neg hnonneg, editItemAt_none (by omega)] at hfound
          exact not_found_error hfound
        · exact absurd hfound (not_found_spoiled hm hv hhandle hge hok hinsert)
  · intro hok
    by_cases hge : v.count ≤ toSize handle
    · exact found_inserted hm hv hhandle hge (hok hge)
    · exact found_inside hm hv hhandle hge

end Table

end Sized

end VectorImpl

end BinderForLinux
