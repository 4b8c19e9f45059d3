import BinderForLinux.Library.Counting
import BinderForLinux.VectorImpl.Changes

/-!
# Vectors as lists

However many vectors share a buffer, each is a list of its own: an operation on one of them does to
its items what it would do to a list, and nothing to the others.
-/

namespace BinderForLinux

namespace VectorImpl

open Library Block

variable {α : Type} {t : Traits} {dflt : α} {junk : ℕ → ℕ → α} {w w' : World α} {h' : Heap α}
  {u v v' : Vec} {o : Option Vec} {b i j n : ℕ} {l l' l₁ l₂ xs : List α} {x y : α}

def items (h : Heap α) (v : Vec) : List α :=
  match v.storage with
  | none => []
  | some b => (List.range v.count).map fun k => ((h.buf b).block.cell k).val

theorem VecHolds.items_eq {h : Heap α} (hv : VecHolds t h v l) : items h v = l := by
  unfold items
  cases hb : v.storage with
  | none => exact (hv.eq_nil hb).symm
  | some b =>
      have hholds := holds_iff.mp (hv.hasItems hb).1.filled.items
      refine List.ext_getElem (by simp [hv.1]) fun k hk hk' => ?_
      have hcell := (hholds k hk').2
      rw [Nat.zero_add] at hcell
      simp [hcell]

def view (w : World α) (i : ℕ) : Option (List α) := (w.vec i).map (items w.heap)

def storageOf (o : Option Vec) : Option ℕ := o.bind Vec.storage

def owners (w : World α) (b : ℕ) : ℕ :=
  (List.range w.next).countP fun i => decide (storageOf (w.vec i) = some b)

/-- The count of references, of a buffer that is not freed. -/
def refsOf (h : Heap α) (b : ℕ) : ℕ := if (h.buf b).allocated = true then (h.buf b).refs else 0

/-- Each vector has a list of items, and a buffer counts the vectors that have it. -/
structure Inv (t : Traits) (w : World α) : Prop where
  holds : ∀ i v, w.vec i = some v → VecHolds t w.heap v (items w.heap v)
  fresh : ∀ i, w.vec i ≠ none → i < w.next
  refs : ∀ b, owners w b = refsOf w.heap b
  pos : ∀ b, (w.heap.buf b).allocated = true → 0 < (w.heap.buf b).refs
  next : ∀ b, (w.heap.buf b).allocated = true → b < w.heap.next

@[simp] theorem put_self : (w.put i h' o).vec i = o := Function.update_self ..

theorem put_of_ne (hj : j ≠ i) : (w.put i h' o).vec j = w.vec j := Function.update_of_ne hj ..

theorem owners_put (h' : Heap α) (hi : i < w.next) : (owners (w.put i h' o) b : ℤ) =
    owners w b - (if storageOf (w.vec i) = some b then 1 else 0) +
      if storageOf o = some b then 1 else 0 := by
  have hchange := countP_change (f := fun i => decide (storageOf (w.vec i) = some b))
    (g := fun j => decide (storageOf ((w.put i h' o).vec j) = some b)) List.nodup_range
    (List.mem_range.mpr hi) fun j _ hj => by rw [put_of_ne hj]
  rw [put_self] at hchange
  simp only [decide_eq_true_eq] at hchange
  exact hchange

theorem Inv.shared (h : Inv t w) (hne : j ≠ i) (hv : w.vec i = some v) (hu : w.vec j = some u)
    (hb : v.storage = some b) (hb' : u.storage = some b) : 1 < (w.heap.buf b).refs := by
  have hput := owners_put (o := none) (b := b) w.heap (h.fresh i (by simp [hv]))
  have hpos : 0 < owners (w.put i w.heap none) b := by
    refine List.countP_pos_iff.mpr ⟨j, List.mem_range.mpr (h.fresh j (by simp [hu])), ?_⟩
    rw [put_of_ne hne, hu]
    exact decide_eq_true hb'
  have hrefs := h.refs b
  have hone : storageOf (some v) = some b := hb
  unfold refsOf at hrefs
  rw [hv, if_pos hone, if_neg (fun heq => by cases heq)] at hput
  split at hrefs <;> omega

theorem Inv.put (h : Inv t w) (hi : i < w.next)
    (hkeep : ∀ j u, j ≠ i → w.vec j = some u → ∀ l, VecHolds t w.heap u l → VecHolds t h' u l)
    (hnew : ∀ v, o = some v → ∃ l, VecHolds t h' v l)
    (hrefs : ∀ b, (refsOf h' b : ℤ) = refsOf w.heap b -
      (if storageOf (w.vec i) = some b then 1 else 0) + if storageOf o = some b then 1 else 0)
    (hpos : ∀ b, (h'.buf b).allocated = true → 0 < (h'.buf b).refs)
    (hnext : ∀ b, (h'.buf b).allocated = true → b < h'.next) :
    Inv t (w.put i h' o) ∧ ∀ j, j ≠ i → view (w.put i h' o) j = view w j := by
  refine ⟨⟨fun j u hu => ?_, fun j hj => ?_, fun b => ?_, hpos, hnext⟩, fun j hj => ?_⟩
  · change VecHolds t h' u (items h' u)
    by_cases heq : j = i
    · rw [heq, put_self] at hu
      obtain ⟨l, hl⟩ := hnew u hu
      rwa [hl.items_eq]
    · rw [put_of_ne heq] at hu
      have hl := hkeep j u heq hu _ (h.holds j u hu)
      rwa [hl.items_eq]
  · change j < w.next
    by_cases heq : j = i
    · rwa [heq]
    · rw [put_of_ne heq] at hj
      exact h.fresh j hj
  · have howners := owners_put (o := o) (b := b) h' hi
    have hold := h.refs b
    have hafter := hrefs b
    change owners (w.put i h' o) b = refsOf h' b
    omega
  · unfold view
    rw [put_of_ne hj]
    cases hu : w.vec j with
    | none => rfl
    | some u =>
        have hl := hkeep j u hj hu _ (h.holds j u hu)
        exact congrArg some hl.items_eq

theorem view_eq (hv : w.vec i = some v) (hl : VecHolds t w.heap v l) : view w i = some l := by
  rw [view, hv, Option.map_some, hl.items_eq]

theorem storageOf_some : storageOf (some v) = v.storage := rfl

/-! ### Letting go and sharing -/

theorem Released.refsOf {h h' : Heap α} (hrel : Released (h.buf b) (h'.buf b))
    (halloc : (h.buf b).allocated = true) (hpos : 0 < (h.buf b).refs) :
    (VectorImpl.refsOf h' b : ℤ) = VectorImpl.refsOf h b - 1 ∧
      ((h'.buf b).allocated = true → 0 < (h'.buf b).refs) := by
  unfold Released at hrel
  unfold VectorImpl.refsOf
  rw [if_pos halloc]
  split at hrel
  · rename_i hone
    rw [hrel, hone, if_neg Bool.false_ne_true]
    exact ⟨rfl, fun hfalse => absurd hfalse Bool.false_ne_true⟩
  · rw [hrel]
    dsimp only
    rw [if_pos halloc]
    omega

theorem Inv.hasItems (h : Inv t w) (hv : w.vec i = some v) (hb : v.storage = some b) :
    HasItems t (w.heap.buf b) (items w.heap v) ∧ b < w.heap.next := (h.holds i v hv).hasItems hb

theorem refsOf_congr {h h' : Heap α} (hbuf : h'.buf b = h.buf b) :
    refsOf h' b = refsOf h b := by
  unfold refsOf
  rw [hbuf]

theorem Inv.letGo (h : Inv t w) (hv : w.vec i = some v) {new : ℕ} (hletgo : LetGo v new w.heap h')
    (hb : b ≠ new) : (refsOf h' b : ℤ) = refsOf w.heap b - (if v.storage = some b then 1 else 0) ∧
      ((h'.buf b).allocated = true → 0 < (h'.buf b).refs ∧ b < w.heap.next) := by
  have hafter := hletgo b hb
  split at hafter
  · rename_i hstorage
    obtain ⟨hitems, hlt⟩ := h.hasItems hv hstorage
    obtain ⟨hrefs, hpos⟩ := Released.refsOf hafter hitems.allocated hitems.refs
    rw [if_pos hstorage]
    exact ⟨hrefs, fun halloc => ⟨hpos halloc, hlt⟩⟩
  · rename_i hstorage
    rw [refsOf_congr hafter, hafter, if_neg hstorage]
    exact ⟨by omega, fun halloc => ⟨h.pos b halloc, h.next b halloc⟩⟩

theorem Inv.moved (h : Inv t w) (hv : w.vec i = some v) {new : ℕ} (hmoved : Moved v w.heap h' new)
    (b : ℕ) : (refsOf h' b : ℤ) = refsOf w.heap b - (if v.storage = some b then 1 else 0) +
        (if new = b then 1 else 0) ∧
      ((h'.buf b).allocated = true → 0 < (h'.buf b).refs ∧ b < h'.next) := by
  have hone : refsOf h' new = 1 := by
    rw [refsOf, if_pos hmoved.allocated, hmoved.refs]
  rcases hmoved.others with ⟨hold, hrefs, hnext, hrest⟩ | ⟨hnew, hnext, hletgo⟩
  · obtain ⟨hitems, hlt⟩ := h.hasItems hv hold
    have hbefore : refsOf w.heap new = 1 := by
      rw [refsOf, if_pos hitems.allocated, hrefs]
    by_cases hb : b = new
    · rw [hb, hone, hbefore, hold, if_pos rfl, if_pos rfl, hmoved.refs, hnext]
      exact ⟨rfl, fun _ => ⟨Nat.zero_lt_one, hlt⟩⟩
    · have hne : ¬ new = b := fun heq => hb heq.symm
      have hne' : ¬ some new = some b := fun heq => hne (Option.some.inj heq)
      rw [refsOf_congr (hrest b hb), hrest b hb, hold, hnext, if_neg hne, if_neg hne']
      exact ⟨by omega, fun halloc => ⟨h.pos b halloc, h.next b halloc⟩⟩
  · by_cases hb : b = new
    · have hbefore : refsOf w.heap new = 0 := by
        refine if_neg fun halloc => ?_
        have := h.next new halloc
        omega
      have hstorage : ¬ v.storage = some new := fun hold => by
        have := (h.hasItems hv hold).2
        omega
      rw [hb, hone, hbefore, if_neg hstorage, if_pos rfl, hmoved.refs]
      exact ⟨rfl, fun _ => ⟨Nat.zero_lt_one, by omega⟩⟩
    · obtain ⟨hrefs, hpos⟩ := h.letGo hv hletgo hb
      have hne : ¬ new = b := fun heq => hb heq.symm
      rw [hrefs, if_neg hne, hnext]
      exact ⟨by omega, fun halloc => ⟨(hpos halloc).1, by have := (hpos halloc).2; omega⟩⟩

theorem Inv.becomes (h : Inv t w) (hv : w.vec i = some v) (hb : Becomes t v w.heap h' v' l) :
    Inv t (w.put i h' (some v')) ∧ view (w.put i h' (some v')) i = some l ∧
      ∀ j, j ≠ i → view (w.put i h' (some v')) j = view w j := by
  have hi : i < w.next := h.fresh i (by simp [hv])
  obtain ⟨hcount, hcases⟩ := hb
  have hholds : VecHolds t h' v' l := by
    refine ⟨hcount, ?_⟩
    rcases hcases with ⟨-, -, hb', hnil⟩ | ⟨new, hb', hmoved, hfilled⟩
    · rw [hb']
      exact hnil
    · rw [hb']
      refine ⟨⟨hmoved.allocated, by rw [hmoved.refs]; exact Nat.zero_lt_one, hfilled⟩, ?_⟩
      rcases hmoved.others with ⟨hold, -, hnext, -⟩ | ⟨rfl, hnext, -⟩
      · rw [hnext]
        exact (h.hasItems hv hold).2
      · omega
  suffices hput : Inv t (w.put i h' (some v')) ∧
      ∀ j, j ≠ i → view (w.put i h' (some v')) j = view w j from
    ⟨hput.1, view_eq put_self hholds, hput.2⟩
  rcases hcases with ⟨hb, rfl, hb', -⟩ | ⟨new, hb', hmoved, -⟩
  · refine h.put hi (fun _ _ _ _ _ hl => hl) (fun u hu => ⟨l, ?_⟩) (fun b => ?_) h.pos h.next
    · cases hu
      exact hholds
    · rw [hv, storageOf_some, storageOf_some, hb, hb']
      omega
  · refine h.put hi (fun j u hj hu l hl => ⟨hl.1, ?_⟩) (fun u hu => ⟨l, ?_⟩) (fun b => ?_)
      (fun b hb => ?_) fun b hb => ?_
    · cases hbu : u.storage with
      | none => exact hl.eq_nil hbu
      | some b => exact (hmoved.keeps (hl.hasItems hbu) fun hbv => h.shared hj hv hu hbv hbu).1
    · cases hu
      exact hholds
    · rw [hv, storageOf_some, storageOf_some, hb', (h.moved hv hmoved b).1]
      simp only [Option.some.injEq]
    · exact ((h.moved hv hmoved b).2 hb).1
    · exact ((h.moved hv hmoved b).2 hb).2

theorem Inv.release (h : Inv t w) (hv : w.vec i = some v) (ho : o = none ∨ o = some ⟨none, 0⟩) :
    ∃ h', releaseStorage t w.heap v = .ok h' ∧ Inv t (w.put i h' o) ∧
      ∀ j, j ≠ i → view (w.put i h' o) j = view w j := by
  have hi : i < w.next := h.fresh i (by simp [hv])
  have hne : v.storage ≠ some w.heap.next := fun hb => by
    have := (h.hasItems hv hb).2
    omega
  have hstorage : storageOf o = none := by
    rcases ho with rfl | rfl <;> rfl
  obtain ⟨h', hrelease, hnext, hletgo, hsame⟩ := releaseStorage_spec (h.holds i v hv) hne
  have hspec (b : ℕ) : (refsOf h' b : ℤ) =
      refsOf w.heap b - (if v.storage = some b then 1 else 0) ∧
      ((h'.buf b).allocated = true → 0 < (h'.buf b).refs ∧ b < w.heap.next) := by
    by_cases hb : b = w.heap.next
    · rw [hb, refsOf_congr hsame, hsame, if_neg hne]
      exact ⟨by omega, fun halloc => ⟨h.pos _ halloc, h.next _ halloc⟩⟩
    · exact h.letGo hv hletgo hb
  refine ⟨h', hrelease, h.put hi (fun j u hj hu l hl => ⟨hl.1, ?_⟩) (fun u hu => ?_) (fun b => ?_)
    (fun b hb => ((hspec b).2 hb).1) fun b hb => hnext.symm ▸ ((hspec b).2 hb).2⟩
  · cases hbu : u.storage with
    | none => exact hl.eq_nil hbu
    | some b =>
        obtain ⟨hitems, hlt⟩ := hl.hasItems hbu
        have hafter := hletgo b (by omega)
        dsimp only
        rw [hnext]
        refine ⟨?_, hlt⟩
        split at hafter
        · rename_i hbv
          have hmore := h.shared hj hv hu hbv hbu
          rw [Released, if_neg (by omega)] at hafter
          rw [hafter]
          exact ⟨hitems.allocated, by dsimp only; omega, hitems.filled⟩
        · rwa [hafter]
  · rcases ho with rfl | rfl
    · cases hu
    · cases hu
      exact ⟨[], rfl, rfl⟩
  · have hno : ¬ (none : Option ℕ) = some b := fun heq => by cases heq
    rw [(hspec b).1, hv, storageOf_some, hstorage, if_neg hno]
    omega

theorem Inv.share (h : Inv t w) (hi : i < w.next) (hnone : storageOf (w.vec i) = none)
    (hu : w.vec j = some u) (hb : u.storage = some b) :
    ∃ h', acquire w.heap b = .ok h' ∧ Inv t (w.put i h' (some u)) ∧
      view (w.put i h' (some u)) i = view w j ∧
      ∀ k, k ≠ i → view (w.put i h' (some u)) k = view w k := by
  have hitems := (h.hasItems hu hb).1
  refine ⟨w.heap.setBuf b { w.heap.buf b with refs := (w.heap.buf b).refs + 1 },
    if_pos hitems.allocated, ?_⟩
  generalize hk : w.heap.setBuf b { w.heap.buf b with refs := (w.heap.buf b).refs + 1 } = k
  have hself : k.buf b = { w.heap.buf b with refs := (w.heap.buf b).refs + 1 } := by
    rw [← hk, setBuf_self]
  have hrest (b' : ℕ) (hb' : b' ≠ b) : k.buf b' = w.heap.buf b' := by
    rw [← hk, setBuf_of_ne hb']
  have hnext : k.next = w.heap.next := by
    rw [← hk]
    rfl
  have hkeep (u' : Vec) (l : List α) (hl : VecHolds t w.heap u' l) : VecHolds t k u' l := by
    refine ⟨hl.1, ?_⟩
    cases hbu : u'.storage with
    | none => exact hl.eq_nil hbu
    | some b' =>
        obtain ⟨hitems', hlt⟩ := hl.hasItems hbu
        dsimp only
        rw [hnext]
        refine ⟨?_, hlt⟩
        by_cases hb' : b' = b
        · rw [hb', hself]
          rw [hb'] at hitems'
          exact ⟨hitems'.allocated, Nat.succ_pos _, hitems'.filled⟩
        · rwa [hrest b' hb']
  have hput := h.put (o := some u) hi (fun _ u' _ _ l hl => hkeep u' l hl)
    (fun u' hu' => ⟨items w.heap u, by cases hu'; exact hkeep u _ (h.holds j u hu)⟩)
    (fun b' => ?_) (fun b' halloc => ?_) fun b' halloc => ?_
  · refine ⟨hput.1, ?_, hput.2⟩
    rw [view_eq put_self (hkeep u _ (h.holds j u hu)), view_eq hu (h.holds j u hu)]
  · have hno : ¬ (none : Option ℕ) = some b' := fun heq => by cases heq
    rw [hnone, storageOf_some, hb, if_neg hno]
    by_cases hb' : b' = b
    · have hbefore : refsOf w.heap b = (w.heap.buf b).refs := if_pos hitems.allocated
      have hafter : refsOf k b = (w.heap.buf b).refs + 1 := by
        rw [refsOf, hself]
        exact if_pos hitems.allocated
      rw [hb', hbefore, hafter, if_pos rfl]
      omega
    · rw [refsOf_congr (hrest b' hb'), if_neg (fun heq => hb' (Option.some.inj heq).symm)]
      omega
  · by_cases hb' : b' = b
    · rw [hb', hself]
      exact Nat.succ_pos _
    · rw [hrest b' hb'] at halloc ⊢
      exact h.pos b' halloc
  · rw [hnext]
    by_cases hb' : b' = b
    · rw [hb']
      exact (h.hasItems hu hb).2
    · rw [hrest b' hb'] at halloc
      exact h.next b' halloc

theorem Inv.extend (h : Inv t w) : Inv t { w with next := w.next + 1 } := by
  refine ⟨h.holds, fun i hi => Nat.lt_succ_of_lt (h.fresh i hi), fun b => ?_, h.pos, h.next⟩
  have hnone : w.vec w.next = none := by
    by_contra hsome
    exact absurd (h.fresh w.next hsome) (Nat.lt_irrefl _)
  have hlast : decide (storageOf (w.vec w.next) = some b) = false := by
    rw [hnone]
    rfl
  unfold owners
  dsimp only
  rw [List.range_succ, List.countP_append, List.countP_singleton, hlast]
  exact h.refs b

/-! ### Lists -/

/-- Lists under the names of the vectors. -/
structure Lists (α : Type) where
  list : ℕ → Option (List α)
  next : ℕ

def Lists.set (L : Lists α) (i : ℕ) (o : Option (List α)) : Lists α :=
  { L with list := Function.update L.list i o }

def Lists.add (L : Lists α) (l : List α) : Lists α :=
  { L.set L.next (some l) with next := L.next + 1 }

/-- The vectors are there, and so are the items at the indices. -/
def Op.Valid (L : Lists α) : Op α → Prop
  | .construct => True
  | .copy rhs => L.list rhs ≠ none
  | .assign i rhs => L.list i ≠ none ∧ L.list rhs ≠ none
  | .insertAt i _ index _ => ∃ l ∈ L.list i, index ≤ l.length
  | .insertVectorAt i vector index =>
      i ≠ vector ∧ (∃ l ∈ L.list i, index ≤ l.length) ∧ L.list vector ≠ none
  | .removeItemsAt i index count => ∃ l ∈ L.list i, index + count ≤ l.length
  | .replaceAt i _ index => ∃ l ∈ L.list i, index < l.length
  | .assignItem i index _ => ∃ l ∈ L.list i, index < l.length
  | .setCapacity i _ => L.list i ≠ none
  | .clear i => L.list i ≠ none
  | .destruct i => L.list i ≠ none

/-- What the operations do to lists. Items that are constructed without a constructor can be
anything. -/
def ListStep (t : Traits) (dflt : α) (L : Lists α) : Op α → Lists α → Prop
  | .construct, L' => L' = L.add []
  | .copy rhs, L' => ∃ l, L.list rhs = some l ∧ L' = L.add l
  | .assign i rhs, L' => ∃ l, L.list rhs = some l ∧ L' = L.set i (some l)
  | .insertAt i item index numItems, L' => ∃ l xs, L.list i = some l ∧ xs.length = numItems ∧
      (∀ x, item = some x → xs = List.replicate numItems x) ∧
      (item = none → t.trivialCtor = false → xs = List.replicate numItems dflt) ∧
      L' = L.set i (some (l.take index ++ xs ++ l.drop index))
  | .insertVectorAt i vector index, L' => ∃ l xs, L.list i = some l ∧ L.list vector = some xs ∧
      L' = L.set i (some (l.take index ++ xs ++ l.drop index))
  | .removeItemsAt i index count, L' => ∃ l, L.list i = some l ∧
      L' = L.set i (some (l.take index ++ l.drop (index + count)))
  | .replaceAt i prototype index, L' => ∃ l x, L.list i = some l ∧
      (∀ y, prototype = some y → x = y) ∧ (prototype = none → t.trivialCtor = false → x = dflt) ∧
      L' = L.set i (some (l.set index x))
  | .assignItem i index x, L' => ∃ l, L.list i = some l ∧ L' = L.set i (some (l.set index x))
  | .setCapacity _ _, L' => L' = L
  | .clear i, L' => L' = L.set i (some [])
  | .destruct i, L' => L' = L.set i none

/-- Items that are behind the place would be moved to where they are. -/
def MovesSelf (w : World α) : Op α → Prop
  | .insertAt i _ index numItems => numItems = 0 ∧ ∃ v ∈ w.vec i, index < v.count
  | .insertVectorAt i vector index =>
      (∃ u ∈ w.vec vector, u.count = 0) ∧ ∃ v ∈ w.vec i, index < v.count
  | .removeItemsAt i index count =>
      count = 0 ∧ ∃ v ∈ w.vec i, index < v.count ∧ ¬ v.count * 3 < capacity w.heap v
  | _ => False

def World.lists (w : World α) : Lists α := ⟨view w, w.next⟩

theorem Inv.of_view (h : Inv t w) (hl : view w i = some l) :
    ∃ v, w.vec i = some v ∧ VecHolds t w.heap v l := by
  unfold view at hl
  obtain ⟨v, hv, rfl⟩ := Option.map_eq_some_iff.mp hl
  exact ⟨v, hv, h.holds i v hv⟩

theorem Inv.holds_of_view (h : Inv t w) (hv : w.vec i = some v) (hl : view w i = some l) :
    VecHolds t w.heap v l := by
  obtain ⟨u, hu, hholds⟩ := h.of_view hl
  cases hv.symm.trans hu
  exact hholds

theorem lists_put {x : Option (List α)} (hi : view (w.put i h' o) i = x)
    (hrest : ∀ j, j ≠ i → view (w.put i h' o) j = view w j) :
    (w.put i h' o).lists = w.lists.set i x := by
  have hlist : view (w.put i h' o) = Function.update (view w) i x :=
    Function.eq_update_iff.mpr ⟨hi, hrest⟩
  unfold World.lists Lists.set
  rw [hlist]
  rfl

/-- The invariant of one step, with what the step does to the lists. -/
def Simulates (t : Traits) (dflt : α) (w : World α) (op : Op α) (r : Except Fault (World α)) :
    Prop :=
  ∃ w', r = .ok w' ∧ Inv t w' ∧ ListStep t dflt w.lists op w'.lists

theorem get_eq (hv : w.vec i = some v) : w.get i = .ok v := by
  unfold World.get
  rw [hv]

theorem Inv.change (h : Inv t w) (hv : w.vec i = some v) (hb : Becomes t v w.heap h' v' l) :
    Inv t (w.put i h' (some v')) ∧ (w.put i h' (some v')).lists = w.lists.set i (some l) := by
  obtain ⟨hinv, hi, hrest⟩ := h.becomes hv hb
  exact ⟨hinv, lists_put hi hrest⟩

theorem exists_split {index : ℕ} (hindex : index ≤ l.length) :
    ∃ l₁ l₂, l = l₁ ++ l₂ ∧ index = l₁.length :=
  ⟨l.take index, l.drop index, (List.take_append_drop index l).symm,
    (List.length_take_of_le hindex).symm⟩

theorem exists_split_cons {index : ℕ} (hindex : index < l.length) :
    ∃ l₁ x l₂, l = l₁ ++ x :: l₂ ∧ index = l₁.length := by
  obtain ⟨l₁, l₂, rfl, rfl⟩ := exists_split (Nat.le_of_lt hindex)
  cases l₂ with
  | nil => simp at hindex
  | cons x l₂ => exact ⟨l₁, x, l₂, rfl, rfl⟩

/-! ### One operation -/

section Simulation

variable (junk)

theorem Simulates.of_change {op : Op α} {r : Except Fault (World α)} (h : Inv t w)
    (hv : w.vec i = some v) (hb : Becomes t v w.heap h' v' l)
    (hr : r = .ok (w.put i h' (some v')))
    (hlist : ListStep t dflt w.lists op (w.lists.set i (some l))) :
    Simulates t dflt w op r := by
  obtain ⟨hinv, hlists⟩ := h.change hv hb
  exact ⟨_, hr, hinv, hlists ▸ hlist⟩

theorem lists_add {v : Vec} (hi : view (w.add h' v) w.next = some l)
    (hrest : ∀ j, j ≠ w.next → view (w.add h' v) j = view w j) :
    (w.add h' v).lists = w.lists.add l := by
  have hlist : view (w.add h' v) = Function.update (view w) w.next (some l) :=
    Function.eq_update_iff.mpr ⟨hi, hrest⟩
  unfold World.lists Lists.add Lists.set
  rw [hlist]
  rfl

theorem Inv.vec_next (h : Inv t w) : w.vec w.next = none := by
  by_contra hsome
  exact absurd (h.fresh w.next hsome) (Nat.lt_irrefl _)

theorem Inv.addEmpty (h : Inv t w) :
    Inv t (w.add w.heap ⟨none, 0⟩) ∧ (w.add w.heap ⟨none, 0⟩).lists = w.lists.add [] := by
  have hnone : storageOf (w.vec w.next) = none := by rw [h.vec_next]; rfl
  have hempty : VecHolds t w.heap ⟨none, 0⟩ [] := ⟨rfl, rfl⟩
  have hlt : w.next < { w with next := w.next + 1 }.next := Nat.lt_succ_self _
  have hput := Inv.put (o := some ⟨none, 0⟩) h.extend hlt (fun _ _ _ _ _ hl => hl)
    (fun v hv => ⟨[], by cases hv; exact hempty⟩)
    (fun b => by
      have hsame : storageOf (some (⟨none, 0⟩ : Vec)) = none := rfl
      dsimp only
      rw [hnone, hsame]
      omega) h.pos h.next
  have hself : (w.add w.heap ⟨none, 0⟩).vec w.next = some ⟨none, 0⟩ := Function.update_self ..
  exact ⟨hput.1, lists_add (view_eq hself hempty) hput.2⟩

theorem view_empty : view (w.put i h' (some ⟨none, 0⟩)) i = some [] := by
  rw [view, put_self]
  rfl

theorem simulates_construct (h : Inv t w) :
    Simulates t dflt w .construct (step t dflt junk w .construct) :=
  ⟨_, rfl, h.addEmpty.1, h.addEmpty.2⟩

theorem simulates_copy (h : Inv t w) (hvalid : (Op.copy j : Op α).Valid w.lists) :
    Simulates t dflt w (.copy j) (step t dflt junk w (.copy j)) := by
  obtain ⟨l, hl⟩ := Option.ne_none_iff_exists'.mp hvalid
  obtain ⟨u, hu, hholds⟩ := h.of_view hl
  dsimp only [step]
  rw [except_bind_ok (get_eq hu)]
  cases hb : u.storage with
  | none =>
      obtain rfl := hholds.eq_nil hb
      have hempty : u = ⟨none, 0⟩ := by
        obtain ⟨storage, count⟩ := u
        cases hb
        cases hholds.1
        rfl
      rw [hempty]
      exact ⟨_, rfl, h.addEmpty.1, [], hl, h.addEmpty.2⟩
  | some b =>
      have hnone : storageOf (w.vec w.next) = none := by rw [h.vec_next]; rfl
      obtain ⟨h', hacquire, hinv, hself, hrest⟩ :=
        h.extend.share (i := w.next) (Nat.lt_succ_self _) hnone hu hb
      dsimp only at hacquire ⊢
      rw [hacquire]
      exact ⟨_, rfl, hinv, l, hl, lists_add (hself.trans hl) hrest⟩

theorem lists_set_self {L : Lists α} (hl : L.list i = some l) : L.set i (some l) = L := by
  unfold Lists.set
  rw [← hl, Function.update_eq_self]

theorem simulates_assign (h : Inv t w) (hvalid : (Op.assign i j : Op α).Valid w.lists) :
    Simulates t dflt w (.assign i j) (step t dflt junk w (.assign i j)) := by
  obtain ⟨hi, hj⟩ := hvalid
  obtain ⟨l, hl⟩ := Option.ne_none_iff_exists'.mp hi
  obtain ⟨l', hl'⟩ := Option.ne_none_iff_exists'.mp hj
  obtain ⟨v, hv, -⟩ := h.of_view hl
  obtain ⟨u, hu, hholds⟩ := h.of_view hl'
  dsimp only [step]
  rw [except_bind_ok (get_eq hv), except_bind_ok (get_eq hu)]
  split
  · rename_i heq
    subst heq
    exact ⟨w, rfl, h, l, hl, (lists_set_self hl).symm⟩
  · rename_i hne
    obtain ⟨h₁, hrelease, hinv, hrest⟩ := h.release hv (o := some ⟨none, 0⟩) (.inr rfl)
    unfold assign
    rw [except_bind_ok hrelease]
    by_cases hcount : u.count = 0
    · rw [if_neg (not_not.mpr hcount)]
      have hnil : l' = [] := List.length_eq_zero_iff.mp (hholds.1.symm.trans hcount)
      rw [hnil] at hl'
      exact ⟨_, rfl, hinv, [], hl', lists_put view_empty hrest⟩
    · rw [if_pos hcount]
      cases hb : u.storage with
      | none =>
          have hnil := hholds.eq_nil hb
          rw [hnil] at hholds
          exact absurd hholds.1 hcount
      | some b =>
          have hu' : (w.put i h₁ (some ⟨none, 0⟩)).vec j = some u :=
            (put_of_ne fun heq => hne heq.symm).trans hu
          have hlt : i < w.next := h.fresh i (by simp [hv])
          have hnone : storageOf ((w.put i h₁ (some ⟨none, 0⟩)).vec i) = none := by
            rw [put_self]
            rfl
          obtain ⟨h₂, hacquire, hinv₂, hself, hrest₂⟩ := hinv.share hlt hnone hu' hb
          have htwice : (w.put i h₁ (some ⟨none, 0⟩)).put i h₂ (some u) = w.put i h₂ (some u) := by
            unfold World.put
            dsimp only
            rw [Function.update_idem]
          rw [htwice] at hinv₂ hself hrest₂
          have hother := hrest j fun heq => hne heq.symm
          change acquire h₁ b = _ at hacquire
          dsimp only
          rw [hacquire]
          refine ⟨_, rfl, hinv₂, l', hl', lists_put (hself.trans (hother.trans hl'))
            fun k hk => (hrest₂ k hk).trans (hrest k hk)⟩

theorem simulates_setCapacity (h : Inv t w) (hvalid : (Op.setCapacity i n : Op α).Valid w.lists) :
    Simulates t dflt w (.setCapacity i n) (step t dflt junk w (.setCapacity i n)) := by
  obtain ⟨l, hl⟩ := Option.ne_none_iff_exists'.mp hvalid
  obtain ⟨v, hv, hholds⟩ := h.of_view hl
  obtain ⟨r, hset, hcases⟩ := setCapacity_spec junk (k := n) hholds
  have hstep : step t dflt junk w (.setCapacity i n) = .ok (w.put i r.1 (some r.2.1)) := by
    dsimp only [step]
    rw [except_bind_ok (get_eq hv), hset]
    rfl
  rcases hcases with ⟨-, hheap, hvec⟩ | hbecomes
  · have hsame : w.put i w.heap (some v) = w := by
      unfold World.put
      rw [← hv, Function.update_eq_self]
    rw [hheap, hvec, hsame] at hstep
    exact ⟨w, hstep, h, rfl⟩
  · refine .of_change h hv hbecomes hstep ?_
    exact lists_set_self hl

theorem simulates_clear (h : Inv t w) (hvalid : (Op.clear i : Op α).Valid w.lists) :
    Simulates t dflt w (.clear i) (step t dflt junk w (.clear i)) := by
  obtain ⟨l, hl⟩ := Option.ne_none_iff_exists'.mp hvalid
  obtain ⟨v, hv, hholds⟩ := h.of_view hl
  have hwhole : VecHolds t w.heap v ([] ++ l ++ []) := by
    rwa [List.nil_append, List.append_nil]
  obtain ⟨h', v', hshrink, hbecomes⟩ := shrink_spec junk hwhole (.inr (.inl rfl))
  refine .of_change h hv hbecomes ?_ rfl
  dsimp only [step, clear]
  rw [except_bind_ok (get_eq hv), hholds.1]
  rw [List.length_nil] at hshrink
  rw [hshrink]
  rfl

theorem simulates_destruct (h : Inv t w) (hvalid : (Op.destruct i : Op α).Valid w.lists) :
    Simulates t dflt w (.destruct i) (step t dflt junk w (.destruct i)) := by
  obtain ⟨l, hl⟩ := Option.ne_none_iff_exists'.mp hvalid
  obtain ⟨v, hv, -⟩ := h.of_view hl
  obtain ⟨h', hrelease, hinv, hrest⟩ := h.release hv (.inl rfl)
  refine ⟨w.put i h' none, ?_, hinv, lists_put ?_ hrest⟩
  · dsimp only [step]
    rw [except_bind_ok (get_eq hv), hrelease]
    rfl
  · rw [view, put_self]
    rfl

theorem simulates_insertAt {item : Option α} {index : ℕ} (h : Inv t w)
    (hvalid : (Op.insertAt i item index n).Valid w.lists)
    (hmoves : ¬ (¬ Stays t ∧ MovesSelf w (.insertAt i item index n))) :
    Simulates t dflt w (.insertAt i item index n)
      (step t dflt junk w (.insertAt i item index n)) := by
  obtain ⟨l, hl, hindex⟩ := hvalid
  obtain ⟨v, hv, hholds⟩ := h.of_view hl
  obtain ⟨l₁, l₂, rfl, rfl⟩ := exists_split hindex
  have hok : 0 < n ∨ l₂ = [] ∨ Stays t := by
    by_contra hno
    rw [not_or, not_or] at hno
    refine hmoves ⟨hno.2.2, by omega, v, hv, ?_⟩
    have := hholds.count_eq
    have := List.length_pos_iff.mpr hno.2.1
    omega
  obtain ⟨r, xs, hinsert, hbecomes, hlen, hsome, hnone, -⟩ :=
    insertAt_spec junk dflt item hholds hok
  refine .of_change h hv hbecomes ?_ ⟨l₁ ++ l₂, xs, hl, hlen, hsome, hnone, ?_⟩
  · dsimp only [step]
    rw [except_bind_ok (get_eq hv), hinsert]
    rfl
  · rw [List.take_left, List.drop_left]

theorem simulates_insertVectorAt {index : ℕ} (h : Inv t w)
    (hvalid : (Op.insertVectorAt i j index : Op α).Valid w.lists)
    (hmoves : ¬ (¬ Stays t ∧ MovesSelf w (.insertVectorAt i j index))) :
    Simulates t dflt w (.insertVectorAt i j index)
      (step t dflt junk w (.insertVectorAt i j index)) := by
  obtain ⟨hne, ⟨l, hl, hindex⟩, hvector⟩ := hvalid
  obtain ⟨xs, hxs⟩ := Option.ne_none_iff_exists'.mp hvector
  obtain ⟨v, hv, hholds⟩ := h.of_view hl
  obtain ⟨u, hu, hitems⟩ := h.of_view hxs
  obtain ⟨l₁, l₂, rfl, rfl⟩ := exists_split hindex
  have hok : 0 < xs.length ∨ l₂ = [] ∨ Stays t := by
    by_contra hno
    rw [not_or, not_or] at hno
    refine hmoves ⟨hno.2.2, ⟨u, hu, by rw [hitems.1]; omega⟩, v, hv, ?_⟩
    have := hholds.count_eq
    have := List.length_pos_iff.mpr hno.2.1
    omega
  obtain ⟨r, hinsert, hbecomes, -⟩ := insertArrayAt_spec junk hholds hitems
    (fun b hb hb' => h.shared (fun heq => hne heq.symm) hv hu hb hb') hok
  refine .of_change h hv hbecomes ?_ ⟨l₁ ++ l₂, xs, hl, hxs, ?_⟩
  · dsimp only [step]
    rw [except_bind_ok (get_eq hv), except_bind_ok (get_eq hu), hinsert]
    rfl
  · rw [List.take_left, List.drop_left]

theorem simulates_removeItemsAt {index : ℕ} (h : Inv t w)
    (hvalid : (Op.removeItemsAt i index n : Op α).Valid w.lists)
    (hmoves : ¬ (¬ Stays t ∧ MovesSelf w (.removeItemsAt i index n))) :
    Simulates t dflt w (.removeItemsAt i index n)
      (step t dflt junk w (.removeItemsAt i index n)) := by
  obtain ⟨l, hl, hindex⟩ := hvalid
  obtain ⟨v, hv, hholds⟩ := h.of_view hl
  obtain ⟨l₀, l₂, rfl, hcut⟩ := exists_split hindex
  obtain ⟨l₁, xs, rfl, rfl⟩ : ∃ l₁ xs, l₀ = l₁ ++ xs ∧ index = l₁.length :=
    exists_split (by omega)
  obtain rfl : n = xs.length := by
    rw [List.length_append] at hcut
    omega
  have hcount := hholds.count_eq
  rw [List.length_append] at hcount
  have hok : 0 < xs.length ∨ l₂ = [] ∨ Stays t ∨
      (l₁.length + l₂.length) * 3 < capacity w.heap v := by
    by_contra hno
    simp only [not_or] at hno
    have := List.length_pos_iff.mpr hno.2.1
    exact hmoves ⟨hno.2.2.1, by omega, v, hv, by omega,
      by rw [show v.count = l₁.length + l₂.length by omega]; exact hno.2.2.2⟩
  obtain ⟨h', v', hshrink, hbecomes⟩ := shrink_spec junk hholds hok
  refine .of_change h hv hbecomes ?_ ⟨l₁ ++ xs ++ l₂, hl, ?_⟩
  · dsimp only [step, removeItemsAt]
    rw [except_bind_ok (get_eq hv), if_neg (by omega), except_bind_ok hshrink]
    rfl
  · rw [hcut, List.drop_left, List.append_assoc, List.take_left]

theorem simulates_replaceAt {prototype : Option α} {index : ℕ} (h : Inv t w)
    (hvalid : (Op.replaceAt i prototype index).Valid w.lists) :
    Simulates t dflt w (.replaceAt i prototype index)
      (step t dflt junk w (.replaceAt i prototype index)) := by
  obtain ⟨l, hl, hindex⟩ := hvalid
  obtain ⟨v, hv, hholds⟩ := h.of_view hl
  obtain ⟨l₁, x, l₂, rfl, rfl⟩ := exists_split_cons hindex
  obtain ⟨r, z, hreplace, hbecomes, hsome, hnone, -⟩ := replaceAt_spec junk dflt prototype hholds
  refine .of_change h hv hbecomes ?_ ⟨_, z, hl, hsome, hnone, ?_⟩
  · dsimp only [step]
    rw [except_bind_ok (get_eq hv), hreplace]
    rfl
  · simp

theorem simulates_assignItem {index : ℕ} (h : Inv t w)
    (hvalid : (Op.assignItem i index y).Valid w.lists) :
    Simulates t dflt w (.assignItem i index y) (step t dflt junk w (.assignItem i index y)) := by
  obtain ⟨l, hl, hindex⟩ := hvalid
  obtain ⟨v, hv, hholds⟩ := h.of_view hl
  obtain ⟨l₁, x, l₂, rfl, rfl⟩ := exists_split_cons hindex
  obtain ⟨r, hassign, hbecomes⟩ := assignItem_spec junk (y := y) hholds
  refine .of_change h hv hbecomes ?_ ⟨_, hl, ?_⟩
  · dsimp only [step]
    rw [except_bind_ok (get_eq hv), hassign]
    rfl
  · simp

/-- Unless items are moved to where they are, an operation does what it does to lists. -/
theorem simulates (h : Inv t w) {op : Op α} (hvalid : op.Valid w.lists)
    (hmoves : ¬ (¬ Stays t ∧ MovesSelf w op)) :
    Simulates t dflt w op (step t dflt junk w op) := by
  cases op with
  | construct => exact simulates_construct junk h
  | copy rhs => exact simulates_copy junk h hvalid
  | assign i rhs => exact simulates_assign junk h hvalid
  | insertAt i item index numItems => exact simulates_insertAt junk h hvalid hmoves
  | insertVectorAt i vector index => exact simulates_insertVectorAt junk h hvalid hmoves
  | removeItemsAt i index count => exact simulates_removeItemsAt junk h hvalid hmoves
  | replaceAt i prototype index => exact simulates_replaceAt junk h hvalid
  | assignItem i index x => exact simulates_assignItem junk h hvalid
  | setCapacity i newCapacity => exact simulates_setCapacity junk h hvalid
  | clear i => exact simulates_clear junk h hvalid
  | destruct i => exact simulates_destruct junk h hvalid

theorem step_movesSelf (h : Inv t w) {op : Op α} (hvalid : op.Valid w.lists)
    (hstays : ¬ Stays t) (hmoves : MovesSelf w op) :
    step t dflt junk w op = .error .overwritten := by
  cases op with
  | insertAt i item index numItems =>
      obtain ⟨rfl, v, hv, hlt⟩ := hmoves
      obtain ⟨l, hl, hindex⟩ := hvalid
      obtain ⟨l₁, l₂, rfl, rfl⟩ := exists_split hindex
      have hholds := h.holds_of_view hv hl
      have hcount := hholds.count_eq
      dsimp only [step, insertAt]
      rw [except_bind_ok (get_eq hv), if_neg (by omega),
        grow_self junk hholds (by omega) hstays]
      rfl
  | insertVectorAt i vector index =>
      obtain ⟨⟨u, hu, hempty⟩, v, hv, hlt⟩ := hmoves
      obtain ⟨-, ⟨l, hl, hindex⟩, -⟩ := hvalid
      obtain ⟨l₁, l₂, rfl, rfl⟩ := exists_split hindex
      have hholds := h.holds_of_view hv hl
      have hcount := hholds.count_eq
      dsimp only [step, insertArrayAt]
      rw [except_bind_ok (get_eq hv), except_bind_ok (get_eq hu), if_neg (by omega), hempty,
        grow_self junk hholds (by omega) hstays]
      rfl
  | removeItemsAt i index count =>
      obtain ⟨rfl, v, hv, hlt, hmany⟩ := hmoves
      obtain ⟨l, hl, hindex⟩ := hvalid
      obtain ⟨l₁, l₂, rfl, rfl⟩ := exists_split hindex
      have hholds := h.holds_of_view hv hl
      have hcount := hholds.count_eq
      rw [hcount] at hmany
      dsimp only [step, removeItemsAt]
      rw [except_bind_ok (get_eq hv), if_neg (by omega),
        shrink_self junk hholds (by omega) hstays hmany]
      rfl
  | _ => exact hmoves.elim

end Simulation

/-! ### Runs -/

/-- Operations on lists that do not know of each other. -/
inductive ListRun (t : Traits) (dflt : α) : List (Op α) → Lists α → Prop
  | nil : ListRun t dflt [] ⟨fun _ => none, 0⟩
  | snoc {ops : List (Op α)} {op : Op α} {L L' : Lists α} (h : ListRun t dflt ops L)
      (hvalid : op.Valid L) (hstep : ListStep t dflt L op L') : ListRun t dflt (ops ++ [op]) L'

/-- Operations on the vectors. -/
inductive Run (t : Traits) (dflt : α) (junk : ℕ → ℕ → α) : List (Op α) → World α → Prop
  | nil : Run t dflt junk [] (World.init junk)
  | snoc {ops : List (Op α)} {op : Op α} {w w' : World α} (h : Run t dflt junk ops w)
      (hvalid : op.Valid w.lists) (hstep : step t dflt junk w op = .ok w') :
      Run t dflt junk (ops ++ [op]) w'

/-- A buffer counts its vectors and is freed with the last of them, and the items of its vectors
are what is constructed in it. -/
structure Counted (t : Traits) (w : World α) : Prop where
  refs : ∀ b, (w.heap.buf b).allocated = true → (w.heap.buf b).refs = owners w b
  freed : ∀ b, (w.heap.buf b).allocated = true ↔ 0 < owners w b
  constructed : ∀ i v b, w.vec i = some v → v.storage = some b →
    v.count ≤ (w.heap.buf b).block.cap ∧
      (∀ k < v.count, ((w.heap.buf b).block.cell k).live = true) ∧
      (t.trivialDtor = false → ∀ k < (w.heap.buf b).block.cap, v.count ≤ k →
        ((w.heap.buf b).block.cell k).live = false)

theorem Inv.init (t : Traits) (junk : ℕ → ℕ → α) : Inv t (World.init junk) where
  holds := fun _ _ hv => by cases hv
  fresh := fun _ hi => absurd rfl hi
  refs := fun _ => rfl
  pos := fun _ halloc => by cases halloc
  next := fun _ halloc => by cases halloc

theorem Inv.counted (h : Inv t w) : Counted t w := by
  have hrefs (b : ℕ) (halloc : (w.heap.buf b).allocated = true) :
      (w.heap.buf b).refs = owners w b := by
    rw [h.refs b]
    exact (if_pos halloc).symm
  refine ⟨hrefs, fun b => ⟨fun halloc => hrefs b halloc ▸ h.pos b halloc, fun howners => ?_⟩,
    fun i v b hv hb => ?_⟩
  · by_contra hfreed
    rw [h.refs b, refsOf, if_neg hfreed] at howners
    exact Nat.lt_irrefl _ howners
  · have hcount := (h.holds i v hv).1
    obtain ⟨hitems, hle, hrest⟩ := (h.hasItems hv hb).1.filled
    rw [← hcount] at hle hrest
    refine ⟨hle, fun k hk => ?_, fun hplain k hk hbehind => ?_⟩
    · rw [hcount] at hk
      have hcell := (holds_iff.mp hitems k hk).2
      rw [Nat.zero_add] at hcell
      rw [hcell]
    · obtain ⟨-, hraw⟩ := raw_iff.mp hrest (k - v.count) (by omega)
      rw [Nat.add_sub_cancel' hbehind] at hraw
      exact hraw.resolve_left (by rw [hplain]; exact Bool.false_ne_true)

theorem Run.inv {ops : List (Op α)} (hrun : Run t dflt junk ops w) :
    Inv t w ∧ ListRun t dflt ops w.lists := by
  induction hrun with
  | nil => exact ⟨.init t junk, .nil⟩
  | snoc hrun hvalid hstep ih =>
      obtain ⟨hinv, hlists⟩ := ih
      have hmoves : ¬ (¬ Stays t ∧ MovesSelf _ _) := fun hmoves => by
        cases hstep.symm.trans (step_movesSelf junk hinv hvalid hmoves.1 hmoves.2)
      obtain ⟨w', hok, hinv', hlist⟩ := simulates junk hinv hvalid hmoves
      cases hstep.symm.trans hok
      exact ⟨hinv', .snoc hlists hvalid hlist⟩

/-- Items that own something, and are copied one by one. -/
def owning : Traits := ⟨false, false, false, false⟩

abbrev OwningRun (ops : List (Op ℕ)) (w : World ℕ) : Prop := Run owning 0 (fun _ _ => 0) ops w

end VectorImpl

end BinderForLinux
