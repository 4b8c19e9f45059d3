import BinderForLinux.VectorImpl.Shrinking

/-!
# Operations that are safe for all sizes

An operation is safe if it leaves the items as they are and returns an error, or does what it does
to a list. For each operation there is a condition on the sizes under which it is, and only then.
-/

namespace BinderForLinux

namespace VectorImpl

namespace Sized

open Library Block

variable {α : Type} {t : Traits} {dflt : α} {g : ℕ → ℕ → α} {z : ItemSize} {a : Allocator}
  {m m' : Memory α} {h h' h'' : Heap α} {u v v' : Vec} {b index n : ℕ} {loc : Bool}
  {l l' l₁ l₂ xs : List α}

def Status.IsError : Status → Prop
  | .ok _ => False
  | .badIndex | .badValue | .noMemory => True

/-- The vector has the items of `l`, after nothing was done or in a buffer that it has for itself.
Nothing else has changed. -/
def Became (t : Traits) (z : ItemSize) (m : Memory α) (v : Vec) (m' : Memory α) (v' : Vec)
    (l : List α) : Prop :=
  m'.Wf z ∧ (m' = m ∧ v' = v ∧ VecHolds t m.heap v l ∨ Becomes t v m.heap m'.heap v' l)

/-- An error that changes nothing, or the effect on the list `l`. -/
inductive Safe (t : Traits) (z : ItemSize) (m : Memory α) (v : Vec) (l : List α) (index : ℕ)
    (Effect : List α → Prop) : Except Fault (Memory α × Vec × Status) → Prop
  | error {m' : Memory α} {v' : Vec} {s : Status} (hs : Status.IsError s)
      (hl : Became t z m v m' v' l) : Safe t z m v l index Effect (.ok (m', v', s))
  | done {m' : Memory α} {v' : Vec} {l' : List α} (heffect : Effect l')
      (hl : Became t z m v m' v' l') : Safe t z m v l index Effect (.ok (m', v', .ok index))

/-! ### Conditions -/

/-- Sizes for which items can be inserted. -/
structure Insertable (t : Traits) (z : ItemSize) (a : Allocator) (m : Memory α) (v : Vec)
    (index n : ℕ) : Prop where
  sum : v.count + n < 2 ^ 64
  room : capacity z m v < v.count + n → Fits z (grownBytes z (v.count + n)) (v.count + n) ∨
    RoomRefused t a m v (v.count = index) (grownBytes z (v.count + n))
  own : ¬ capacity z m v < v.count + n → n = 0 ∨ Writable z a m v
  moves : ¬ capacity z m v < v.count + n → 0 < n ∨ index = v.count ∨ Stays t

/-- Sizes for which items can be removed from a vector with a buffer. -/
structure Removable (t : Traits) (z : ItemSize) (a : Allocator) (m : Memory α) (v : Vec)
    (index n : ℕ) : Prop where
  room : Shrinks z m v (v.count - n) →
    RoomRefused t a m v (index = v.count - n) (shrunkBytes z (v.count - n)) ∧ n = 0 ∨
      ¬ RoomRefused t a m v (index = v.count - n) (shrunkBytes z (v.count - n)) ∧
        Fits z (shrunkBytes z (v.count - n)) (v.count - n)
  own : ¬ Shrinks z m v (v.count - n) → n = 0 ∨ Writable z a m v
  moves : ¬ Shrinks z m v (v.count - n) → 0 < n ∨ index = v.count ∨ Stays t

/-! ### What a vector became -/

theorem Became.unchanged (hm : m.Wf z) (hv : VecHolds t m.heap v l) :
    Became t z m v m v l := ⟨hm, .inl ⟨rfl, rfl, hv⟩⟩

theorem Became.count (hl : Became t z m v m' v' l) : v'.count = l.length := by
  obtain ⟨-, ⟨-, rfl, hv⟩ | hbecomes⟩ := hl
  · exact hv.1
  · exact hbecomes.1

theorem Became.room (hl : Became t z m v m' v' l) (hb : v'.storage = some b) :
    v'.count ≤ (m'.heap.buf b).block.cap := by
  rw [hl.count]
  obtain ⟨-, ⟨rfl, rfl, hv⟩ | ⟨-, ⟨-, -, hb', -⟩ | ⟨new, hb', -, hfilled⟩⟩⟩ := hl
  · exact (hv.hasItems hb).1.filled.le
  · cases hb.symm.trans hb'
  · cases hb.symm.trans hb'
    exact hfilled.le

theorem Became.refs (hl : Became t z m v m' v' l) (hne : v'.count ≠ v.count)
    (hb : v'.storage = some b) : (m'.heap.buf b).refs = 1 := by
  obtain ⟨-, ⟨-, rfl, -⟩ | ⟨-, ⟨-, -, hb', -⟩ | ⟨new, hb', hmoved, -⟩⟩⟩ := hl
  · exact absurd rfl hne
  · cases hb.symm.trans hb'
  · cases hb.symm.trans hb'
    exact hmoved.refs

theorem Became.storage (hv : VecHolds t m.heap v l) (hl : Became t z m v m' v' l')
    (hne : v'.count ≠ v.count) : ∃ b, v'.storage = some b := by
  have hcount := hl.count
  obtain ⟨-, ⟨-, rfl, -⟩ | ⟨-, ⟨hb, -, -, rfl⟩ | ⟨new, hb, -⟩⟩⟩ := hl
  · exact absurd rfl hne
  · rw [hv.1, hv.eq_nil hb] at hne
    exact absurd hcount hne
  · exact ⟨new, hb⟩

theorem Memory.Wf.count_le (hm : m.Wf z) (hv : VecHolds t m.heap v l) :
    v.count ≤ capacity z m v := by
  rw [hm.capacity_eq]
  cases hb : v.storage with
  | none =>
      rw [hv.1, hv.eq_nil hb]
      exact Nat.zero_le _
  | some b =>
      obtain ⟨hcapacity, hle⟩ := hv.capacity hb
      rwa [hcapacity, hv.1]

/-! ### Putting items -/

theorem eq_of_sameBut_zero {x y : Block α} {i : ℕ} (hsame : SameBut x y i 0) : y = x := by
  obtain ⟨cap, cell⟩ := x
  obtain ⟨cap', cell'⟩ := y
  obtain ⟨hcap, hcell⟩ := hsame
  cases hcap
  exact congrArg (Block.mk cap) (funext fun k => hcell k (by omega))

/-- Where there is place for the items, the vector has them after they were put there. -/
structure Placed (t : Traits) (z : ItemSize) (m : Memory α) (v : Vec) (m' : Memory α) (v' : Vec)
    (l₁ : List α) (n : ℕ) (l₂ : List α) (d : ℕ) : Prop where
  storage : v'.storage = some d
  allocated : (m'.heap.buf d).allocated = true
  bytes : (l₁.length + n) * z.bytes < 2 ^ 64
  raw : Raw t.trivialDtor (m'.heap.buf d).block l₁.length n
  keeps : ∀ u xs, VecHolds t m.heap u xs →
    (∀ b, v.storage = some b → u.storage = some b → 1 < (m.heap.buf b).refs) →
      Source m'.heap u.storage 0 xs
  became : ∀ (x : Block α) (xs : List α), xs.length = n → Holds x l₁.length xs →
    SameBut (m'.heap.buf d).block x l₁.length n →
      Became t z m v (m'.withHeap (m'.heap.setBlock d x)) v' (l₁ ++ xs ++ l₂)

theorem Grown.cases (hm : m.Wf z) (hv : VecHolds t m.heap v (l₁ ++ l₂))
    (hgrown : Grown t z m v l₁ n l₂ (m', v', loc)) :
    loc = false ∧ Became t z m v m' v' (l₁ ++ l₂) ∨
      loc = true ∧ ∃ d, Placed t z m v m' v' l₁ n l₂ d := by
  cases hgrown with
  | refused => exact .inl ⟨rfl, .unchanged hm hv⟩
  | kept hn =>
      subst hn
      cases hloc : hasLocation z m v l₁.length with
      | false => exact .inl ⟨rfl, .unchanged hm hv⟩
      | true =>
          refine .inr ⟨rfl, ?_⟩
          have hlt : l₁.length < capacity z m v := of_decide_eq_true hloc
          cases hb : v.storage with
          | none =>
              unfold capacity at hlt
              rw [hb] at hlt
              cases hlt
          | some d =>
              rw [capacity_of_storage hb, ← hm.cap d] at hlt
              obtain ⟨hitems, -⟩ := hv.hasItems hb
              refine ⟨d, hb, hitems.allocated, hm.bytes_lt (Nat.le_of_lt hlt), trivial,
                fun u xs hu _ => hu.readable, fun x xs hlen _ hsame => ?_⟩
              obtain rfl := List.length_eq_zero_iff.mp hlen
              rw [eq_of_sameBut_zero hsame, setBlock_eq_self, List.append_nil]
              exact .unchanged hm hv
  | @gapped m' new hmoved hgapped hwf =>
      by_cases hlt : l₁.length < capacity z m' ⟨some new, l₁.length + n + l₂.length⟩
      · refine .inr ⟨decide_eq_true hlt, new, rfl, hmoved.allocated,
          hwf.bytes_lt (b := new) (Nat.le_trans (Nat.le_add_right _ _) hgapped.le), hgapped.gap,
          fun u xs hu hshare => ?_, fun x xs hlen hxs hsame => ⟨?_, .inr ?_⟩⟩
        · unfold Source
          cases hbu : u.storage with
          | none => exact hu.eq_nil hbu
          | some bu =>
              obtain ⟨⟨hitems, -⟩, -⟩ :=
                hmoved.keeps (hu.hasItems hbu) fun hbv => hshare bu hbv hbu
              exact ⟨hitems.allocated, hitems.filled.items⟩
        · exact hwf.withHeap (sameBuffers_setBlock hsame.cap).caps
        · exact Becomes.fill rfl rfl hmoved hgapped hxs hlen hsame
      · refine .inl ⟨decide_eq_false hlt, hwf, .inr ?_⟩
        rw [capacity_of_storage rfl, ← hwf.cap new] at hlt
        obtain ⟨rfl, rfl⟩ := hgapped.noLocation (Nat.not_lt.mp hlt)
        exact ⟨by simp, .inr ⟨new, rfl, hmoved, hgapped.filled⟩⟩

/-! ### Wrong sizes -/

theorem GrownTo.spoiled (hm : m.Wf z) (hv : VecHolds t m.heap v l) (hn : n < 2 ^ 64)
    (hgrown : GrownTo t z a m v index (wrap (v.count + n)) (m', v', loc))
    (hbad : ¬ Insertable t z a m v index n)
    (hmoves : v.count + n < 2 ^ 64 → ¬ capacity z m v < v.count + n →
      0 < n ∨ index = v.count ∨ Stays t)
    (hsame : SameBuffers m'.heap h') (hlen : l'.length = v.count ∨ l'.length = v.count + n) :
    ¬ Became t z m v (m'.withHeap h') v' l' := fun hl => by
  have hlt := hm.count_lt hv
  have hle := hm.count_le hv
  have hcount := hl.count
  by_cases hsum : v.count + n < 2 ^ 64
  · rw [wrap_eq hsum] at hgrown
    cases hgrown with
    | refused hmore hno =>
        exact hbad ⟨hsum, fun _ => .inr hno, fun hroom => absurd hmore hroom,
          fun hroom => absurd hmore hroom⟩
    | @resized m' new _ hmore hbytes hcap =>
        have hfits : ¬ v.count + n ≤ grownBytes z (v.count + n) / z.bytes := fun hfits =>
          hbad ⟨hsum, fun _ => .inl ⟨hbytes, hfits⟩, fun hroom => absurd hmore hroom,
            fun hroom => absurd hmore hroom⟩
        have hbuf := hl.room rfl
        have hcap' : ((m'.withHeap h').heap.buf new).block.cap =
            grownBytes z (v.count + n) / z.bytes := (hsame.caps new).trans hcap
        rw [hcap'] at hbuf
        exact hfits hbuf
    | inPlace hroom hcount' hshared =>
        have hown : ¬ (n = 0 ∨ Writable z a m v) := fun hown =>
          hbad ⟨hsum, fun hmore => absurd hmore hroom, fun _ => hown, hmoves hsum⟩
        rw [not_or] at hown
        obtain ⟨hne, hw⟩ := hown
        unfold Writable at hw
        push Not at hw
        obtain ⟨b, hb, hrefs, hno⟩ := hw
        obtain ⟨hb', -, hbuffers⟩ := hshared b hb hrefs hno
        have hone := hl.refs (by omega) hb'
        have hrefs'' : ((m'.withHeap h').heap.buf b).refs = (m.heap.buf b).refs :=
          (hsame.refs b).trans (hbuffers.refs b)
        exact hrefs (hrefs''.symm.trans hone)
  · have hwrap : wrap (v.count + n) = v.count + n - 2 ^ 64 := by
      unfold wrap
      omega
    rw [hwrap] at hgrown
    cases hgrown with
    | refused hmore hno => omega
    | resized hmore hbytes hcap => omega
    | inPlace hroom hcount' hshared => omega

theorem Safe.became {Effect : List α → Prop} {r : Memory α × Vec × Status}
    (h : Safe t z m v l index Effect (.ok r)) :
    ∃ l', Became t z m v r.1 r.2.1 l' ∧
      (Status.IsError r.2.2 ∧ l' = l ∨ r.2.2 = .ok index ∧ Effect l') := by
  cases h with
  | error hs hl => exact ⟨l, hl, .inl ⟨hs, rfl⟩⟩
  | done heffect hl => exact ⟨_, hl, .inr ⟨rfl, heffect⟩⟩

/-! ### Inserting -/

def Inserts (l : List α) (index n : ℕ) (Items : List α → Prop) (l' : List α) : Prop :=
  ∃ xs, xs.length = n ∧ Items xs ∧ l' = l.take index ++ xs ++ l.drop index

def NewItems (t : Traits) (dflt : α) (item : Option α) (n : ℕ) (xs : List α) : Prop :=
  (∀ x, item = some x → xs = List.replicate n x) ∧
    (item = none → t.trivialCtor = false → xs = List.replicate n dflt)

theorem Inserts.length {Items : List α → Prop} (hindex : index ≤ l.length)
    (h : Inserts l index n Items l') : l'.length = l.length + n := by
  obtain ⟨xs, hlen, -, rfl⟩ := h
  rw [List.length_append, List.length_append, List.length_take_of_le hindex, List.length_drop,
    hlen]
  omega

theorem insertAt_safe (dflt : α) (item : Option α) (hm : m.Wf z) (hv : VecHolds t m.heap v l)
    (hok : index ≤ v.count → Insertable t z a m v index n) :
    Safe t z m v l index (Inserts l index n (NewItems t dflt item n))
      (insertAt t dflt g z a m v item index n) := by
  unfold insertAt
  split
  · exact .error trivial (.unchanged hm hv)
  · rename_i hindex
    obtain ⟨hsum, hroom, hown, hmoves⟩ := hok (Nat.not_lt.mp hindex)
    rw [hv.1, Nat.not_lt] at hindex
    obtain ⟨l₁, l₂, rfl, rfl⟩ := exists_split hindex
    have hcount := hv.count_eq
    obtain ⟨⟨m', v', loc⟩, hgrow, hgrown⟩ := grow_spec (g := g) (a := a) hm hv hsum hroom
      fun hplace => ⟨hown hplace, (hmoves hplace).imp_right fun h => h.imp_left fun hend =>
        eq_nil_of_length (by omega)⟩
    rw [except_bind_ok hgrow]
    dsimp only
    rcases hgrown.cases hm hv with ⟨rfl, hl⟩ | ⟨rfl, d, hplaced⟩
    · rw [if_neg Bool.false_ne_true]
      exact .error trivial hl
    · have hplace : place z l₁.length = .ok l₁.length :=
        place_eq (Nat.lt_of_le_of_lt (Nat.mul_le_mul_right _ (Nat.le_add_right _ _))
          hplaced.bytes)
      rw [if_pos rfl, except_bind_ok hplace]
      cases item with
      | some x =>
          obtain ⟨y, hloop, hholds, hsame⟩ := fillLoop_spec (v := x) hplaced.raw
          rw [except_bind_ok (edit_eq hplaced.storage hplaced.allocated hloop)]
          have hnew : NewItems t dflt (some x) n (List.replicate n x) :=
            ⟨fun x' hx' => by rw [Option.some.inj hx'], fun heq => by cases heq⟩
          refine .done ⟨_, List.length_replicate, hnew, ?_⟩
            (hplaced.became y _ List.length_replicate hholds hsame)
          rw [List.take_left, List.drop_left]
      | none =>
          obtain ⟨y, xs, hloop, hlen, hholds, hsame, hdflt⟩ :=
            doConstruct_spec dflt hplaced.raw
          rw [except_bind_ok (edit_eq hplaced.storage hplaced.allocated hloop)]
          refine .done ⟨xs, hlen, ⟨fun _ heq => (by cases heq), fun _ => hdflt⟩, ?_⟩
            (hplaced.became y xs hlen hholds hsame)
          rw [List.take_left, List.drop_left]

theorem insertArrayAt_safe (hm : m.Wf z) (hv : VecHolds t m.heap v l)
    (hu : VecHolds t m.heap u xs)
    (hshare : ∀ b, v.storage = some b → u.storage = some b → 1 < (m.heap.buf b).refs)
    (hok : index ≤ v.count → Insertable t z a m v index xs.length) :
    Safe t z m v l index (Inserts l index xs.length (· = xs))
      (insertArrayAt t g z a m v u.storage index xs.length) := by
  unfold insertArrayAt
  split
  · exact .error trivial (.unchanged hm hv)
  · rename_i hindex
    obtain ⟨hsum, hroom, hown, hmoves⟩ := hok (Nat.not_lt.mp hindex)
    rw [hv.1, Nat.not_lt] at hindex
    obtain ⟨l₁, l₂, rfl, rfl⟩ := exists_split hindex
    have hcount := hv.count_eq
    obtain ⟨⟨m', v', loc⟩, hgrow, hgrown⟩ := grow_spec (g := g) (a := a) hm hv hsum hroom
      fun hplace => ⟨hown hplace, (hmoves hplace).imp_right fun h => h.imp_left fun hend =>
        eq_nil_of_length (by omega)⟩
    rw [except_bind_ok hgrow]
    dsimp only
    rcases hgrown.cases hm hv with ⟨rfl, hl⟩ | ⟨rfl, d, hplaced⟩
    · split
      · rename_i heq
        cases heq
      · exact .error trivial hl
    · rw [hplaced.storage]
      dsimp only
      have hbytes := hplaced.bytes
      rw [Nat.add_mul] at hbytes
      obtain ⟨y, hcopy, hholds, hsame, hnone⟩ :=
        doCopy_spec hplaced.allocated hplaced.raw (hplaced.keeps u xs hu hshare)
      have hcopy' : doCopy t z m'.heap d l₁.length u.storage 0 xs.length =
          .ok (m'.heap.setBlock d y) := by
        rw [doCopy_eq (by omega) (by omega) (by omega), hcopy]
        split
        · rename_i heq
          rw [hnone heq, setBlock_eq_self]
        · rfl
      rw [except_bind_ok hcopy']
      refine .done ⟨xs, rfl, rfl, ?_⟩ (hplaced.became y xs rfl hholds hsame)
      rw [List.take_left, List.drop_left]

theorem grow_error (hm : m.Wf z) (hv : VecHolds t m.heap v l) (hindex : index ≤ v.count)
    (hroom : ¬ capacity z m v < v.count + n)
    (hmoves : ¬ (0 < n ∨ index = v.count ∨ Stays t)) :
    grow t g z a m v index n = .error .overwritten := by
  rw [not_or, not_or] at hmoves
  obtain rfl : n = 0 := by omega
  rw [hv.1] at hindex
  obtain ⟨l₁, l₂, rfl, rfl⟩ := exists_split hindex
  have hcount := hv.count_eq
  exact sized_grow_self hm hv (by omega) hmoves.2.2 hroom

theorem insert_not_safe {Effect : List α → Prop} {x : Except Fault (Memory α × Vec × Status)}
    (hm : m.Wf z) (hv : VecHolds t m.heap v l) (hn : n < 2 ^ 64) (hindex : index ≤ v.count)
    (heffect : ∀ l', Effect l' → l'.length = v.count + n)
    (hbad : ¬ Insertable t z a m v index n)
    (hx : ∀ r, x = .ok r → ∃ r' h', grow t g z a m v index n = .ok r' ∧
      SameBuffers r'.1.heap h' ∧ r.1 = r'.1.withHeap h' ∧ r.2.1 = r'.2.1) :
    ¬ Safe t z m v l index Effect x := fun hsafe => by
  obtain ⟨r, rfl⟩ : ∃ r, x = .ok r := by
    cases hsafe with
    | error hs hl => exact ⟨_, rfl⟩
    | done heffect hl => exact ⟨_, rfl⟩
  obtain ⟨⟨m', v', loc⟩, h', hgrow, hsame, hm', hv'⟩ := hx r rfl
  obtain ⟨-, hgrown⟩ := grow_grownTo hm hv hgrow
  have hmoves (_ : v.count + n < 2 ^ 64) (hroom : ¬ capacity z m v < v.count + n) :
      0 < n ∨ index = v.count ∨ Stays t := by
    by_contra hno
    cases hgrow.symm.trans (grow_error hm hv hindex hroom hno)
  obtain ⟨l', hl, hcases⟩ := hsafe.became
  rw [hm', hv'] at hl
  refine hgrown.spoiled hm hv hn hbad hmoves hsame ?_ hl
  rcases hcases with ⟨-, rfl⟩ | ⟨-, hl'⟩
  · exact .inl hv.1.symm
  · exact .inr (heffect l' hl')

theorem insertAt_grow {item : Option α} (hindex : index ≤ v.count)
    {r : Memory α × Vec × Status}
    (hinsert : insertAt t dflt g z a m v item index n = .ok r) :
    ∃ r' h', grow t g z a m v index n = .ok r' ∧ SameBuffers r'.1.heap h' ∧
      r.1 = r'.1.withHeap h' ∧ r.2.1 = r'.2.1 := by
  unfold insertAt at hinsert
  rw [if_neg (Nat.not_lt.mpr hindex)] at hinsert
  obtain ⟨r', hgrow, hinsert⟩ := except_bind_eq_ok.mp hinsert
  split at hinsert
  · obtain ⟨i, -, hinsert⟩ := except_bind_eq_ok.mp hinsert
    obtain ⟨h', hedit, hinsert⟩ := except_bind_eq_ok.mp hinsert
    cases hinsert
    refine ⟨r', h', hgrow, edit_sameBuffers (fun x x' hx => ?_) hedit, rfl, rfl⟩
    split at hx
    · exact fillLoop_cap hx
    · exact doConstruct_cap hx
  · cases hinsert
    exact ⟨r', r'.1.heap, hgrow, .refl, rfl, rfl⟩

theorem insertAt_safe_iff (item : Option α) (hm : m.Wf z) (hv : VecHolds t m.heap v l)
    (hn : n < 2 ^ 64) :
    Safe t z m v l index (Inserts l index n (NewItems t dflt item n))
        (insertAt t dflt g z a m v item index n) ↔
      (index ≤ v.count → Insertable t z a m v index n) := by
  refine ⟨fun hsafe hindex => ?_, insertAt_safe dflt item hm hv⟩
  by_contra hbad
  refine insert_not_safe (g := g) hm hv hn hindex (fun l' hl' => ?_) hbad
    (fun _ hr => insertAt_grow hindex hr) hsafe
  rw [hl'.length (hv.1 ▸ hindex), hv.1]

theorem insertArrayAt_safe_iff (hm : m.Wf z) (hv : VecHolds t m.heap v l)
    (hu : VecHolds t m.heap u xs)
    (hshare : ∀ b, v.storage = some b → u.storage = some b → 1 < (m.heap.buf b).refs)
    (hn : xs.length < 2 ^ 64) :
    Safe t z m v l index (Inserts l index xs.length (· = xs))
        (insertArrayAt t g z a m v u.storage index xs.length) ↔
      (index ≤ v.count → Insertable t z a m v index xs.length) := by
  refine ⟨fun hsafe hindex => ?_, insertArrayAt_safe hm hv hu hshare⟩
  by_contra hbad
  refine insert_not_safe (g := g) hm hv hn hindex (fun l' hl' => ?_) hbad
    (fun r hr => ?_) hsafe
  · rw [hl'.length (hv.1 ▸ hindex), hv.1]
  · unfold insertArrayAt at hr
    rw [if_neg (Nat.not_lt.mpr hindex)] at hr
    obtain ⟨r', hgrow, hr⟩ := except_bind_eq_ok.mp hr
    split at hr
    · obtain ⟨h', hcopy, hr⟩ := except_bind_eq_ok.mp hr
      cases hr
      exact ⟨r', h', hgrow, sized_doCopy_sameBuffers hcopy, rfl, rfl⟩
    · cases hr
      exact ⟨r', r'.1.heap, hgrow, .refl, rfl, rfl⟩

/-! ### Removing -/

/-- The items are there, and taken from between the others. -/
def Removes (l : List α) (index n : ℕ) (l' : List α) : Prop :=
  index + n ≤ l.length ∧ l' = l.take index ++ l.drop (index + n)

theorem Removes.length (h : Removes l index n l') : l'.length = l.length - n := by
  obtain ⟨hle, rfl⟩ := h
  rw [List.length_append, List.length_take_of_le (by omega), List.length_drop]
  omega

theorem removes_split : Removes (l₁ ++ xs ++ l₂) l₁.length xs.length (l₁ ++ l₂) := by
  refine ⟨by simp, ?_⟩
  rw [← List.length_append, List.drop_left, List.append_assoc, List.take_left]

theorem removeItemsAt_safe (hm : m.Wf z) (hv : VecHolds t m.heap v l)
    (hok : wrap (index + n) ≤ v.count →
      index + n ≤ v.count ∧ (v.storage ≠ none → Removable t z a m v index n)) :
    Safe t z m v l index (Removes l index n) (removeItemsAt t g z a m v index n) := by
  unfold removeItemsAt
  split
  · exact .error trivial (.unchanged hm hv)
  · rename_i hsum
    obtain ⟨hle, hremovable⟩ := hok (Nat.not_lt.mp hsum)
    rw [hv.1] at hle
    obtain ⟨l₀, l₂, rfl, hcut⟩ := exists_split hle
    obtain ⟨l₁, xs, rfl, rfl⟩ : ∃ l₁ xs, l₀ = l₁ ++ xs ∧ index = l₁.length :=
      exists_split (by omega)
    obtain rfl : n = xs.length := by
      rw [List.length_append] at hcut
      omega
    cases hb : v.storage with
    | none =>
        have hshrink : shrink t g z a m v l₁.length xs.length = .ok (m, v) := by
          unfold shrink
          rw [hb]
        have hnil := hv.eq_nil hb
        simp only [List.append_eq_nil_iff] at hnil
        obtain ⟨⟨rfl, rfl⟩, rfl⟩ := hnil
        rw [except_bind_ok hshrink]
        have hnothing : Removes ([] ++ [] ++ [] : List α) ([] : List α).length
            ([] : List α).length ([] ++ []) := removes_split
        exact .done hnothing (.unchanged hm hv)
    | some b =>
        obtain ⟨hroom, hown, hmoves⟩ := hremovable (by rw [hb]; exact Option.some_ne_none b)
        have hcount := hv.1
        rw [List.length_append, List.length_append] at hcount
        have hleft : v.count - xs.length = l₁.length + l₂.length := by omega
        rw [hleft, List.length_eq_zero_iff] at hroom hown
        rw [hleft] at hmoves
        obtain ⟨⟨m', v'⟩, hshrink, hcases⟩ := shrink_spec (g := g) hm hv hb hroom
          fun hfew => ⟨hown hfew, (hmoves hfew).imp_right fun h => h.imp_left fun hend =>
            eq_nil_of_length (by omega)⟩
        rw [except_bind_ok hshrink]
        refine .done removes_split ?_
        rcases hcases with ⟨rfl, heq⟩ | ⟨hbecomes, hwf⟩
        · cases heq
          rw [List.append_nil] at hv
          exact .unchanged hm hv
        · exact ⟨hwf, .inr hbecomes⟩

theorem removeItemsAt_safe_iff (hm : m.Wf z) (hv : VecHolds t m.heap v l) :
    Safe t z m v l index (Removes l index n) (removeItemsAt t g z a m v index n) ↔
      (wrap (index + n) ≤ v.count →
        index + n ≤ v.count ∧ (v.storage ≠ none → Removable t z a m v index n)) := by
  refine ⟨fun hsafe hsum => ?_, removeItemsAt_safe hm hv⟩
  unfold removeItemsAt at hsafe
  rw [if_neg (Nat.not_lt.mpr hsum)] at hsafe
  obtain ⟨r, hshrink⟩ : ∃ r, shrink t g z a m v index n = .ok r := by
    cases hshrink : shrink t g z a m v index n with
    | ok r => exact ⟨r, rfl⟩
    | error e =>
        rw [hshrink] at hsafe
        cases hsafe
  rw [except_bind_ok hshrink] at hsafe
  obtain ⟨l', hl, hcases⟩ := hsafe.became
  obtain ⟨-, heffect⟩ := hcases.resolve_left fun h => h.1
  have hle := heffect.1
  have hlength := heffect.length
  have hcount := hl.count
  dsimp only at hcount
  rw [← hv.1] at hle hlength
  have hlt := hm.count_lt hv
  have hsub : sub v.count n = v.count - n := sub_eq hlt (by omega)
  refine ⟨hle, fun hstorage => ?_⟩
  obtain ⟨b, hb⟩ := Option.ne_none_iff_exists'.mp hstorage
  by_cases hmany : Shrinks z m v (v.count - n)
  · by_cases hno : RoomRefused t a m v (index = v.count - n) (shrunkBytes z (v.count - n))
    · rw [← hsub] at hmany hno
      cases hshrink.symm.trans (shrink_refused hv hb hmany hno)
      rw [hsub] at hmany hno
      have hsame : v.count = l'.length := hcount
      exact ⟨fun _ => .inl ⟨hno, by omega⟩, fun hfew => absurd hmany hfew,
        fun hfew => absurd hmany hfew⟩
    · have hshrunk := shrink_shrunkTo hm hv hshrink
      rw [hsub] at hshrunk
      cases hshrunk with
      | kept hb' => cases hb.symm.trans hb'
      | refused _ hno' => exact absurd hno' hno
      | resized _ hbytes hcap =>
          have hroom := hl.room rfl
          dsimp only at hroom
          rw [hcap] at hroom
          exact ⟨fun _ => .inr ⟨hno, hbytes, hroom⟩, fun hfew => absurd hmany hfew,
            fun hfew => absurd hmany hfew⟩
      | inPlace hfew => exact absurd hmany hfew
  · refine ⟨fun hmany' => absurd hmany' hmany, fun _ => ?_, fun _ => ?_⟩
    · by_contra hown
      rw [not_or] at hown
      obtain ⟨hne, hw⟩ := hown
      unfold Writable at hw
      push Not at hw
      obtain ⟨b', hb', hrefs, hno⟩ := hw
      have hshrunk := shrink_shrunkTo hm hv hshrink
      rw [hsub] at hshrunk
      cases hshrunk with
      | kept hb' => cases hb.symm.trans hb'
      | refused hmany' => exact hmany hmany'
      | resized hmany' => exact hmany hmany'
      | inPlace _ hcount' hshared =>
          obtain ⟨hb'', hbuffers⟩ := hshared b' hb' hrefs hno
          have hone := hl.refs (by dsimp only; omega) hb''
          exact hrefs ((hbuffers.refs b').symm.trans hone)
    · by_contra hmoves
      rw [not_or, not_or] at hmoves
      obtain rfl : n = 0 := by omega
      have hindex : index ≤ l.length := by
        rw [← hv.1]
        omega
      obtain ⟨l₁, l₂, rfl, rfl⟩ := exists_split hindex
      have hsplit := hv.count_eq
      rw [Nat.sub_zero] at hmany
      cases hshrink.symm.trans (sized_shrink_self hm hv (by omega) hmoves.2.2 hmany)

end Sized

end VectorImpl

end BinderForLinux
