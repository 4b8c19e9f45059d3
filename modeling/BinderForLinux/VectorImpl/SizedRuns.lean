import BinderForLinux.VectorImpl.HandleTable

/-!
# Runs with sizes in bytes

Any number of vectors, as long as the sizes of each operation are right. In every state that is
reached, the next operation is safe if and only if its sizes are.
-/

namespace BinderForLinux

namespace VectorImpl

namespace Sized

open Library Block

variable {α : Type}

/-- The vectors, and the sizes of their buffers. -/
structure Vectors (α : Type) where
  world : World α
  size : ℕ → ℕ

def Vectors.memory (w : Vectors α) : Memory α := ⟨w.world.heap, w.size⟩

def Vectors.init (junk : ℕ → ℕ → α) : Vectors α := ⟨World.init junk, fun _ => 0⟩

def Vectors.put (w : Vectors α) (i : ℕ) (m : Memory α) (v : Vec) : Vectors α :=
  ⟨w.world.put i m.heap (some v), m.size⟩

inductive Op (α : Type)
  | construct
  | copy (rhs : ℕ)
  | assign (i rhs : ℕ)
  | insertAt (i : ℕ) (item : Option α) (index numItems : ℕ)
  | insertVectorAt (i vector index : ℕ)
  | removeItemsAt (i index count : ℕ)
  | destruct (i : ℕ)

variable (t : Traits) (dflt : α) (junk : ℕ → ℕ → α) (z : ItemSize) (a : Allocator)
  (w : Vectors α)

def Vectors.other (op : VectorImpl.Op α) : Except Fault (Vectors α) :=
  (VectorImpl.step t dflt junk w.world op).map fun world => { w with world := world }

def step : Op α → Except Fault (Vectors α)
  | .construct => w.other t dflt junk .construct
  | .copy rhs => w.other t dflt junk (.copy rhs)
  | .assign i rhs => w.other t dflt junk (.assign i rhs)
  | .destruct i => w.other t dflt junk (.destruct i)
  | .insertAt i item index numItems => do
      let v ← w.world.get i
      (insertAt t dflt junk z a w.memory v item index numItems).map fun r => w.put i r.1 r.2.1
  | .insertVectorAt i vector index => do
      let v ← w.world.get i
      let v' ← w.world.get vector
      (insertArrayAt t junk z a w.memory v v'.storage index v'.count).map fun r =>
        w.put i r.1 r.2.1
  | .removeItemsAt i index count => do
      let v ← w.world.get i
      (removeItemsAt t junk z a w.memory v index count).map fun r => w.put i r.1 r.2.1

def Op.Right : Op α → Prop
  | .construct => True
  | .copy rhs => w.world.vec rhs ≠ none
  | .assign i rhs => w.world.vec i ≠ none ∧ w.world.vec rhs ≠ none
  | .destruct i => w.world.vec i ≠ none
  | .insertAt i _ index numItems => ∃ v ∈ w.world.vec i,
      index ≤ v.count → Insertable t z a w.memory v index numItems
  | .insertVectorAt i vector index => i ≠ vector ∧ ∃ v ∈ w.world.vec i,
      ∃ v' ∈ w.world.vec vector, index ≤ v.count → Insertable t z a w.memory v index v'.count
  | .removeItemsAt i index count => ∃ v ∈ w.world.vec i, wrap (index + count) ≤ v.count →
      index + count ≤ v.count ∧ (v.storage ≠ none → Removable t z a w.memory v index count)

inductive Run : List (Op α) → Vectors α → Prop
  | nil : Run [] (Vectors.init junk)
  | snoc {ops : List (Op α)} {op : Op α} {w w' : Vectors α} (h : Run ops w)
      (hright : op.Right t z a w) (hstep : step t dflt junk z a w op = .ok w') :
      Run (ops ++ [op]) w'

/-- The sizes are right, and the buffers counted. -/
structure Vectors.Wf : Prop where
  memory : w.memory.Wf z
  inv : Inv t w.world

section Runs

variable {t dflt z a w} {g : ℕ → ℕ → α} {w' : Vectors α} {m' : Memory α} {v v' : Vec} {i : ℕ}
  {l : List α}

theorem Vectors.Wf.init : (Vectors.init g).Wf t z :=
  ⟨⟨fun _ => (Nat.zero_div _).symm, fun _ => by
    change headerSize + 0 < 2 ^ 64
    decide⟩, .init t g⟩

theorem Vectors.Wf.became (h : w.Wf t z) (hv : w.world.vec i = some v)
    (hl : Became t z w.memory v m' v' l) : (w.put i m' v').Wf t z := by
  obtain ⟨hwf, ⟨rfl, rfl, -⟩ | hbecomes⟩ := hl
  · have hsame : w.world.put i w.world.heap (some v') = w.world := by
      unfold World.put
      rw [← hv, Function.update_eq_self]
    refine ⟨hwf, ?_⟩
    change Inv t (w.world.put i w.world.heap (some v'))
    rw [hsame]
    exact h.inv
  · exact ⟨hwf, (h.inv.becomes hv hbecomes).1⟩

theorem Vectors.Wf.safe {index : ℕ} {Effect : List α → Prop}
    {x : Except Fault (Memory α × Vec × Status)} (h : w.Wf t z) (hv : w.world.vec i = some v)
    (hsafe : Safe t z w.memory v l index Effect x)
    (hstep : (x.map fun r => w.put i r.1 r.2.1) = .ok w') : w'.Wf t z := by
  cases hsafe with
  | error hs hl =>
      cases hstep
      exact h.became hv hl
  | done heffect hl =>
      cases hstep
      exact h.became hv hl

theorem acquire_sameCaps {h h' : Heap α} {b : ℕ} (hacquire : acquire h b = .ok h') :
    SameCaps h h' := by
  unfold acquire at hacquire
  split at hacquire
  · cases hacquire
    exact sameCaps_setBuf rfl
  · cases hacquire

theorem Vectors.Wf.other {op : VectorImpl.Op α} (h : w.Wf t z)
    (hsim : Simulates t dflt w.world op (VectorImpl.step t dflt g w.world op))
    (hcaps : ∀ world, VectorImpl.step t dflt g w.world op = .ok world →
      SameCaps w.world.heap world.heap)
    (hstep : w.other t dflt g op = .ok w') : w'.Wf t z := by
  obtain ⟨world, hok, rfl⟩ := except_map_eq_ok.mp hstep
  obtain ⟨world', hok', hinv, -⟩ := hsim
  cases hok.symm.trans hok'
  exact ⟨h.memory.withHeap (hcaps world hok), hinv⟩

theorem copy_sameCaps {rhs : ℕ} {world world' : World α}
    (hstep : VectorImpl.step t dflt g world (.copy rhs) = .ok world') :
    SameCaps world.heap world'.heap := by
  obtain ⟨v, -, hstep⟩ := except_bind_eq_ok.mp hstep
  split at hstep
  · obtain ⟨h', hacquire, rfl⟩ := except_map_eq_ok.mp hstep
    exact acquire_sameCaps hacquire
  · cases hstep
    exact fun _ => rfl

theorem assign_sameCaps {rhs : ℕ} {world world' : World α}
    (hstep : VectorImpl.step t dflt g world (.assign i rhs) = .ok world') :
    SameCaps world.heap world'.heap := by
  obtain ⟨v, -, hstep⟩ := except_bind_eq_ok.mp hstep
  obtain ⟨u, -, hstep⟩ := except_bind_eq_ok.mp hstep
  split at hstep
  · cases hstep
    exact fun _ => rfl
  · obtain ⟨r, hassign, rfl⟩ := except_map_eq_ok.mp hstep
    obtain ⟨h', hrelease, hassign⟩ := except_bind_eq_ok.mp hassign
    split at hassign
    · split at hassign
      · obtain ⟨h'', hacquire, rfl⟩ := except_map_eq_ok.mp hassign
        exact (releaseStorage_sameCaps hrelease).trans (acquire_sameCaps hacquire)
      · cases hassign
    · cases hassign
      exact releaseStorage_sameCaps hrelease

theorem destruct_sameCaps {world world' : World α}
    (hstep : VectorImpl.step t dflt g world (.destruct i) = .ok world') :
    SameCaps world.heap world'.heap := by
  obtain ⟨v, -, hstep⟩ := except_bind_eq_ok.mp hstep
  obtain ⟨h', hrelease, rfl⟩ := except_map_eq_ok.mp hstep
  exact releaseStorage_sameCaps hrelease

theorem view_ne_none {world : World α} (h : world.vec i ≠ none) : view world i ≠ none := by
  obtain ⟨v, hv⟩ := Option.ne_none_iff_exists'.mp h
  rw [view, hv]
  exact Option.some_ne_none _

theorem Vectors.Wf.step {op : Op α} (h : w.Wf t z) (hright : op.Right t z a w)
    (hstep : Sized.step t dflt g z a w op = .ok w') : w'.Wf t z := by
  cases op with
  | construct =>
      refine h.other (simulates_construct g h.inv) (fun world hok => ?_) hstep
      cases hok
      exact fun _ => rfl
  | copy rhs =>
      exact h.other (simulates_copy g h.inv (view_ne_none hright)) (fun _ => copy_sameCaps) hstep
  | assign i rhs =>
      exact h.other (simulates_assign g h.inv ⟨view_ne_none hright.1, view_ne_none hright.2⟩)
        (fun _ => assign_sameCaps) hstep
  | destruct i =>
      exact h.other (simulates_destruct g h.inv (view_ne_none hright))
        (fun _ => destruct_sameCaps) hstep
  | insertAt i item index numItems =>
      obtain ⟨v, hv, hok⟩ := hright
      dsimp only [Sized.step] at hstep
      rw [except_bind_ok (get_eq hv)] at hstep
      exact h.safe hv (insertAt_safe dflt item h.memory (h.inv.holds i v hv) hok) hstep
  | insertVectorAt i vector index =>
      obtain ⟨hne, v, hv, u, hu, hok⟩ := hright
      have hholds := h.inv.holds vector u hu
      have hcount := hholds.1
      rw [hcount] at hok
      dsimp only [Sized.step] at hstep
      rw [except_bind_ok (get_eq hv), except_bind_ok (get_eq hu), hcount] at hstep
      exact h.safe hv (insertArrayAt_safe h.memory (h.inv.holds i v hv) hholds
        (fun b hb hb' => h.inv.shared hne.symm hv hu hb hb') hok) hstep
  | removeItemsAt i index count =>
      obtain ⟨v, hv, hok⟩ := hright
      dsimp only [Sized.step] at hstep
      rw [except_bind_ok (get_eq hv)] at hstep
      exact h.safe hv (removeItemsAt_safe h.memory (h.inv.holds i v hv) hok) hstep

theorem Run.wf {ops : List (Op α)} (hrun : Run t dflt g z a ops w) : w.Wf t z := by
  induction hrun with
  | nil => exact .init
  | snoc _ hright hstep ih => exact ih.step hright hstep

/-! ### All sizes -/

variable (t dflt g z a w) in
/-- Exactly with the right sizes the operations are safe, for all sizes that there are. The array
is what another vector has, or could have. -/
structure SafeForAll : Prop where
  insertAt : ∀ i v item index n, w.world.vec i = some v → n < 2 ^ 64 →
    (Safe t z w.memory v (items w.world.heap v) index
        (Inserts (items w.world.heap v) index n (NewItems t dflt item n))
        (insertAt t dflt g z a w.memory v item index n) ↔
      (index ≤ v.count → Insertable t z a w.memory v index n))
  insertArrayAt : ∀ i v u xs index, w.world.vec i = some v → VecHolds t w.world.heap u xs →
    (∀ b, v.storage = some b → u.storage = some b → 1 < (w.world.heap.buf b).refs) →
    xs.length < 2 ^ 64 →
    (Safe t z w.memory v (items w.world.heap v) index
        (Inserts (items w.world.heap v) index xs.length (· = xs))
        (insertArrayAt t g z a w.memory v u.storage index xs.length) ↔
      (index ≤ v.count → Insertable t z a w.memory v index xs.length))
  removeItemsAt : ∀ i v index n, w.world.vec i = some v → index < 2 ^ 64 → n < 2 ^ 64 →
    (Safe t z w.memory v (items w.world.heap v) index
        (Removes (items w.world.heap v) index n)
        (removeItemsAt t g z a w.memory v index n) ↔
      (wrap (index + n) ≤ v.count → index + n ≤ v.count ∧
        (v.storage ≠ none → Removable t z a w.memory v index n)))

/-- In each table, every handle is looked up exactly with the right sizes. -/
structure FoundForAll (g : ℕ → ℕ → HandleEntry) (a : Allocator) (w : Vectors HandleEntry) :
    Prop where
  found : ∀ i v handle, w.world.vec i = some v → -2 ^ 31 ≤ handle → handle < 2 ^ 31 →
    (Found w.memory v (items w.world.heap v) handle
        (lookupHandleLocked g a w.memory v handle) ↔
      (v.count ≤ toSize handle → Findable a w.memory v handle))

theorem Vectors.Wf.safeForAll (h : w.Wf t z) : SafeForAll t dflt z a w g where
  insertAt := fun i v item _ _ hv hn => insertAt_safe_iff item h.memory (h.inv.holds i v hv) hn
  insertArrayAt := fun i v _ _ _ hv hu hshare hn =>
    insertArrayAt_safe_iff h.memory (h.inv.holds i v hv) hu hshare hn
  removeItemsAt := fun i v _ _ hv _ _ => removeItemsAt_safe_iff h.memory (h.inv.holds i v hv)

theorem Vectors.Wf.foundForAll {g : ℕ → ℕ → HandleEntry} {w : Vectors HandleEntry}
    (h : w.Wf entryTraits entrySize) : FoundForAll g a w where
  found := fun i v _ hv hge hlt =>
    lookupHandleLocked_found_iff h.memory (h.inv.holds i v hv) ⟨hge, hlt⟩

/-- In every state reached, the operations and the table of handles are safe exactly with the right
sizes; so are the operations in every state in which the sizes are right and the buffers counted,
whatever was done to reach it. -/
theorem safe_iff_right_sizes {ops : List (Op α)} (hrun : Run t dflt g z a ops w) :
    SafeForAll t dflt z a w g ∧ (∀ g' ops' w', Run entryTraits .new g' entrySize a ops' w' →
      FoundForAll g' a w') ∧ ∀ w' : Vectors α, w'.Wf t z → SafeForAll t dflt z a w' g :=
  ⟨hrun.wf.safeForAll, fun _ _ _ hrun' => hrun'.wf.foundForAll, fun _ hwf => hwf.safeForAll⟩

end Runs

/-! ### Four numbers -/

def plain : Traits := ⟨true, true, true, true⟩

def intSize : ItemSize := ⟨4, by decide, by decide⟩

/-- There is memory for what can be addressed by a process. -/
def roomy : Allocator := ⟨fun _ n => decide (n < 2 ^ 47), fun _ n => decide (n < 2 ^ 47)⟩

abbrev PlainRun (ops : List (Op ℕ)) (w : Vectors ℕ) : Prop :=
  Run plain 0 (fun _ _ => 0) intSize roomy ops w

theorem insertable_four : Insertable plain intSize roomy (Vectors.init fun _ _ => 0).memory
    ⟨none, 0⟩ 0 4 where
  sum := by decide
  room := fun _ => .inl ⟨by decide, by decide⟩
  own := fun hroom => absurd (by decide) hroom
  moves := fun _ => .inl (by decide)

theorem run_four : ∃ (ops : List (Op ℕ)) (w : Vectors ℕ) (v : Vec), PlainRun ops w ∧
    w.world.vec 0 = some v ∧ items w.world.heap v = [5, 5, 5, 5] ∧
      (removeItemsAt plain (fun _ _ => 0) intSize roomy w.memory v 1 (2 ^ 64 - 1)).map
        (fun r => (items r.1.heap r.2.1, r.2.2)) = .ok ([5, 5, 5, 5, 5], .ok 1) := by
  have h₁ : PlainRun ([] ++ [.construct]) _ := .snoc .nil trivial rfl
  have h₂ : PlainRun (_ ++ [.insertAt 0 (some 5) 0 4]) _ :=
    .snoc h₁ ⟨⟨none, 0⟩, rfl, fun _ => insertable_four⟩ rfl
  exact ⟨_, _, _, h₂, rfl, rfl, rfl⟩

/-- A vector of four numbers, and an empty table. -/
theorem safe_iff_right_sizes_four : ∃ (ops : List (Op ℕ)) (w : Vectors ℕ) (v : Vec)
    (w' : Vectors HandleEntry), PlainRun ops w ∧ w.world.vec 0 = some v ∧
      items w.world.heap v = [5, 5, 5, 5] ∧
      SafeForAll plain 0 intSize roomy w (fun _ _ => 0) ∧
      w'.world.vec 0 = some ⟨none, 0⟩ ∧ FoundForAll (fun _ _ => .new) roomy w' := by
  obtain ⟨ops, w, v, hrun, hv, hitems, -⟩ := run_four
  obtain ⟨hsafe, hfound, -⟩ := safe_iff_right_sizes hrun
  have hempty : Run entryTraits HandleEntry.new (fun _ _ => HandleEntry.new) entrySize roomy
      ([] ++ [.construct]) _ := .snoc .nil trivial rfl
  exact ⟨ops, w, v, _, hrun, hv, hitems, hsafe, rfl, hfound _ _ _ hempty⟩

/-- Four numbers become five, where all but one are removed that a `size_t` can count. -/
theorem removeItemsAt_adds : ∃ (ops : List (Op ℕ)) (w : Vectors ℕ) (v : Vec),
    PlainRun ops w ∧ w.world.vec 0 = some v ∧ items w.world.heap v = [5, 5, 5, 5] ∧
      (removeItemsAt plain (fun _ _ => 0) intSize roomy w.memory v 1 (2 ^ 64 - 1)).map
        (fun r => (items r.1.heap r.2.1, r.2.2)) = .ok ([5, 5, 5, 5, 5], .ok 1) ∧
      ¬ Safe plain intSize w.memory v [5, 5, 5, 5] 1 (Removes [5, 5, 5, 5] 1 (2 ^ 64 - 1))
        (removeItemsAt plain (fun _ _ => 0) intSize roomy w.memory v 1 (2 ^ 64 - 1)) := by
  obtain ⟨ops, w, v, hrun, hv, hitems, hremove⟩ := run_four
  have hholds := hrun.wf.inv.holds 0 v hv
  rw [hitems] at hholds
  refine ⟨ops, w, v, hrun, hv, hitems, hremove, fun hsafe => ?_⟩
  have hwrap : wrap (1 + (2 ^ 64 - 1)) = 0 := by decide
  have hle := ((removeItemsAt_safe_iff hrun.wf.memory hholds).mp hsafe
    (by rw [hwrap]; exact Nat.zero_le _)).1
  have hcount : v.count = 4 := hholds.1
  omega

end Sized

end VectorImpl

end BinderForLinux
