import BinderForLinux.Parcel.Bounds
import BinderForLinux.Parcel.Inventory

/-!
# Parcels with their objects in order

The listed objects of a parcel do not overlap and lie inside the data. As long as that is so and
no store meets them, what the operations do to the objects are entries of the inventory.
-/

namespace BinderForLinux

namespace Parcel

open Library

/-! ### The inventory of a parcel -/

namespace Effect

def acquired : Effect → List FlatObject
  | .acquire f => [f]
  | _ => []

def released : Effect → List FlatObject
  | .release f => [f]
  | _ => []

def duped : Effect → List ℕ
  | .dup _ fd => validFd (fd % 2 ^ 32)
  | _ => []

def closed : Effect → List ℕ
  | .close fd => validFd fd
  | _ => []

/-- An entry is stored inside the block of the table. -/
def InTable : Effect → Prop
  | .tableStore index room => index < room
  | _ => True

/-- The effect does nothing to the objects. -/
structure Quiet (e : Effect) : Prop where
  acquired : e.acquired = []
  released : e.released = []
  duped : e.duped = []
  closed : e.closed = []
  inTable : e.InTable

end Effect

/-- The inventory that a parcel and its log stand for. -/
def inventory (p : Parcel) : Inventory where
  received := p.mOwner
  objects := held p
  total := p.mOpenAshmemSize
  acquired := p.log.flatMap Effect.acquired
  released := p.log.flatMap Effect.released
  duped := p.log.flatMap Effect.duped
  closed := p.log.flatMap Effect.closed

/-- The listed objects do not overlap, they lie inside the data, and every entry was stored
inside the table. -/
structure Orderly (p : Parcel) : Prop where
  spaced : p.objects.Pairwise fun a b => a + objectSize ≤ b
  inside : ∀ off ∈ p.objects, off + objectSize ≤ p.mDataSize
  table : ∀ e ∈ p.log, e.InTable

/-- A parcel in order becomes one in order, by these entries. -/
structure Refined (o : Oracle) (p p' : Parcel) (es : List Entry) : Prop where
  orderly : Orderly p'
  trace : Trace (Inventory.Step o) (inventory p) es (inventory p')

section Refinement

variable {o : Oracle} {p p' q : Parcel} {w w' : World} {len : ℕ} {st : Status}
  {es es' : List Entry} {l : List Effect}

theorem orderly_new : Orderly new := ⟨.nil, by simp [new], by simp [new]⟩

theorem Refined.refl (h : Orderly p) : Refined o p p [] := ⟨h, .nil _⟩

theorem Refined.trans (h : Refined o p q es) (h' : Refined o q p' es') :
    Refined o p p' (es ++ es') := ⟨h'.orderly, h.trace.append h'.trace⟩

theorem Refined.of_step {e : Entry} (h : Orderly p')
    (hs : Inventory.Step o (inventory p) e (inventory p')) :
    Refined o p p' [e] := ⟨h, .single hs⟩

theorem objectAt_shift {m m' : Data} {a b : ℕ}
    (h : ∀ i, i < objectSize → m' (a + i) = m (b + i)) : objectAt m' a = objectAt m b := by
  have hfield (k n : ℕ) (hk : k + n ≤ objectSize) : getLE m' (a + k) n = getLE m (b + k) n := by
    refine getLE_shift fun i hi => ?_
    rw [Nat.add_assoc, Nat.add_assoc]
    exact h (k + i) (by omega)
  unfold objectAt
  rw [hfield 4 4 (by decide), hfield 8 8 (by decide), hfield 16 8 (by decide)]
  congr 1
  exact hfield 0 4 (by decide)

theorem objectAt_congr {m m' : Data} {off : ℕ}
    (h : ∀ i, off ≤ i → i < off + objectSize → m' i = m i) : objectAt m' off = objectAt m off :=
  objectAt_shift fun i hi => h (off + i) (by omega) (by omega)

theorem flatMap_quiet {α : Type} {f : Effect → List α} (hf : ∀ e ∈ l, f e = []) (l₀ : List Effect) :
    (l₀ ++ l).flatMap f = l₀.flatMap f := by
  rw [List.flatMap_append, List.flatMap_eq_nil_iff.mpr hf, List.append_nil]

/-- Nothing changes for the objects. -/
structure Silent (p p' : Parcel) : Prop where
  objects : p'.objects = p.objects
  bytes : ∀ off ∈ p.objects, ∀ i, off ≤ i → i < off + objectSize → p'.bytes i = p.bytes i
  inside : ∀ off ∈ p.objects, off + objectSize ≤ p'.mDataSize
  owner : p'.mOwner = p.mOwner
  total : p'.mOpenAshmemSize = p.mOpenAshmemSize
  log : ∃ l, p'.log = p.log ++ l ∧ ∀ e ∈ l, e.Quiet

namespace Silent

theorem held_eq (h : Silent p p') : held p' = held p := by
  unfold held
  rw [h.objects]
  exact List.map_congr_left fun off hoff => objectAt_congr (h.bytes off hoff)

theorem inventory_eq (h : Silent p p') : inventory p' = inventory p := by
  obtain ⟨l, hlog, hquiet⟩ := h.log
  unfold inventory
  rw [h.owner, h.held_eq, h.total, hlog, flatMap_quiet fun e he => (hquiet e he).acquired,
    flatMap_quiet fun e he => (hquiet e he).released, flatMap_quiet fun e he => (hquiet e he).duped,
    flatMap_quiet fun e he => (hquiet e he).closed]

theorem orderly (hs : Silent p p') (h : Orderly p) : Orderly p' := by
  obtain ⟨l, hlog, hquiet⟩ := hs.log
  refine ⟨hs.objects ▸ h.spaced, hs.objects ▸ hs.inside, fun e he => ?_⟩
  rw [hlog] at he
  exact (List.mem_append.mp he).elim (h.table e) fun he => (hquiet e he).inTable

theorem refined (hs : Silent p p') (h : Orderly p) : Refined o p p' [] := by
  refine ⟨hs.orderly h, ?_⟩
  rw [hs.inventory_eq]
  exact .nil _

/-- Fields the inventory does not read, and a log that grows by quiet effects. -/
theorem of_log (h : Orderly p) (hobjs : p'.objects = p.objects) (hbytes : p'.bytes = p.bytes)
    (hsize : p.mDataSize ≤ p'.mDataSize) (howner : p'.mOwner = p.mOwner)
    (htotal : p'.mOpenAshmemSize = p.mOpenAshmemSize) (hlog : p'.log = p.log ++ l)
    (hquiet : ∀ e ∈ l, e.Quiet) : Silent p p' :=
  ⟨hobjs, fun _ _ _ _ _ => by rw [hbytes], fun off hoff => le_trans (h.inside off hoff) hsize,
    howner, htotal, l, hlog, hquiet⟩

theorem of_same (h : Orderly p) (hobjs : p'.objects = p.objects) (hbytes : p'.bytes = p.bytes)
    (hsize : p.mDataSize ≤ p'.mDataSize) (howner : p'.mOwner = p.mOwner)
    (htotal : p'.mOpenAshmemSize = p.mOpenAshmemSize) (hlog : p'.log = p.log) : Silent p p' :=
  .of_log h hobjs hbytes hsize howner htotal (hlog.trans (List.append_nil _).symm) (by simp)

theorem of_nil (hnil : p.objects = []) (hnil' : p'.objects = []) (howner : p'.mOwner = p.mOwner)
    (htotal : p'.mOpenAshmemSize = p.mOpenAshmemSize) (hlog : p'.log = p.log ++ l)
    (hquiet : ∀ e ∈ l, e.Quiet) : Silent p p' :=
  ⟨hnil'.trans hnil.symm, by simp [hnil], by simp [hnil], howner, htotal, l, hlog, hquiet⟩

end Silent

theorem quiet_store (off n capacity : ℕ) : (Effect.store off n capacity).Quiet :=
  ⟨rfl, rfl, rfl, rfl, trivial⟩

theorem quiet_malloc (b : ℕ) : (Effect.malloc b).Quiet := ⟨rfl, rfl, rfl, rfl, trivial⟩

theorem quiet_free (b : ℕ) : (Effect.free b).Quiet := ⟨rfl, rfl, rfl, rfl, trivial⟩

theorem quiet_load {e : Effect} (h : e.IsLoad) : e.Quiet := by
  cases e with
  | load off n => exact ⟨rfl, rfl, rfl, rfl, trivial⟩
  | _ => exact h.elim

theorem quiet_singleton {e : Effect} (h : e.Quiet) : ∀ e' ∈ [e], e'.Quiet := by
  intro e' he
  obtain rfl := List.mem_singleton.mp he
  exact h

theorem quiet_pair {e₁ e₂ : Effect} (h₁ : e₁.Quiet) (h₂ : e₂.Quiet) :
    ∀ e ∈ [e₁, e₂], e.Quiet := by
  intro e he
  rcases List.mem_pair.mp he with rfl | rfl
  · exact h₁
  · exact h₂

theorem Orderly.nil_of_none (h : Orderly p) (hb : Bounded p) (hown : p.mOwner = false)
    (hnone : p.mData = none) : p.objects = [] := by
  have hcap := hb.empty hown hnone
  have hsize := hb.size_le
  refine List.eq_nil_iff_forall_not_mem.mpr fun off hoff => ?_
  have hin := h.inside off hoff
  unfold objectSize at hin
  omega

/-! ### Taking possession and giving up -/

theorem keptObjects_first (p : Parcel) (desired : ℕ) : keptObjects p desired <+: p.objects := by
  unfold keptObjects
  split
  · split
    · exact List.nil_prefix
    · exact List.rdropWhile_prefix _ _
  · exact List.prefix_refl _

/-! What releasing, closing and acquiring add to the inventory. -/

theorem flatMap_release {α : Type} (f : Effect → List α) (fs : List FlatObject) :
    (fs.flatMap releaseEffects).flatMap f =
      fs.flatMap fun x => f (.release x) ++ if x.isOwnedFd then f (.close x.handle) else [] := by
  rw [List.flatMap_assoc]
  congr 1
  funext x
  unfold releaseEffects
  split
  · simp
  · simp

theorem flatMap_close {α : Type} (f : Effect → List α) (fs : List FlatObject) :
    (fs.flatMap closeEffects).flatMap f =
      fs.flatMap fun x => if x.type = binderTypeFd then f (.close x.handle) else [] := by
  rw [List.flatMap_assoc]
  congr 1
  funext x
  unfold closeEffects
  split
  · simp
  · simp

theorem flatMap_acquire {α : Type} (f : Effect → List α) (fs : List FlatObject) :
    (fs.map Effect.acquire).flatMap f = fs.flatMap fun x => f (.acquire x) :=
  List.flatMap_map ..

theorem inventory_release {gone : List FlatObject} (howner : p'.mOwner = p.mOwner)
    (htotal : p'.mOpenAshmemSize = subAshmem o p.mOpenAshmemSize gone)
    (hlog : p'.log = p.log ++ gone.flatMap releaseEffects) :
    inventory p' = (inventory p).release o (held p') gone := by
  have hacquired : (gone.flatMap releaseEffects).flatMap Effect.acquired = [] := by
    simp [flatMap_release, Effect.acquired]
  have hreleased : (gone.flatMap releaseEffects).flatMap Effect.released = gone := by
    simp [flatMap_release, Effect.released]
  have hduped : (gone.flatMap releaseEffects).flatMap Effect.duped = [] := by
    simp [flatMap_release, Effect.duped]
  have hclosed : (gone.flatMap releaseEffects).flatMap Effect.closed =
      gone.flatMap FlatObject.closes := flatMap_release _ _
  unfold inventory Inventory.release
  simp only [howner, htotal, hlog, List.flatMap_append, hacquired, hreleased, hduped, hclosed,
    List.append_nil]

theorem inventory_close {p' : Parcel} {gone : List FlatObject}
    (hlog : p'.log = p.log ++ (gone.flatMap closeEffects ++ [.freeBuffer])) :
    (inventory p').acquired = (inventory p).acquired ∧
    (inventory p').released = (inventory p).released ∧
      (inventory p').duped = (inventory p).duped ∧
        (inventory p').closed = (inventory p).closed ++ gone.flatMap FlatObject.fds := by
  have hclosed : (gone.flatMap closeEffects).flatMap Effect.closed =
      gone.flatMap FlatObject.fds := flatMap_close _ _
  unfold inventory
  simp only [hlog, List.flatMap_append, hclosed]
  simp [flatMap_close, Effect.acquired, Effect.released, Effect.duped, Effect.closed]

theorem inTable_release (fs : List FlatObject) : ∀ e ∈ fs.flatMap releaseEffects, e.InTable := by
  intro e he
  obtain ⟨f, rfl | rfl⟩ := mem_releaseEffects he
  · trivial
  · trivial

theorem inTable_close (fs : List FlatObject) :
    ∀ e ∈ fs.flatMap closeEffects ++ [.freeBuffer], e.InTable := by
  intro e he
  rcases List.mem_append.mp he with he | he
  · obtain ⟨f, rfl⟩ := mem_closeEffects he
    trivial
  · obtain rfl := List.mem_singleton.mp he
    trivial

theorem Orderly.log_append (h : Orderly p) (hl : ∀ e ∈ l, e.InTable) :
    ∀ e ∈ p.log ++ l, e.InTable := fun e he =>
  (List.mem_append.mp he).elim (h.table e) (hl e)

theorem Orderly.emptied (hnil : p'.objects = []) (htable : ∀ e ∈ p'.log, e.InTable) :
    Orderly p' := ⟨hnil ▸ .nil, by simp [hnil], htable⟩

theorem Orderly.clears (h : Orderly p) (hown : p.mOwner = false) (hnil : p'.objects = [])
    (howner : p'.mOwner = p.mOwner)
    (htotal : p'.mOpenAshmemSize = subAshmem o p.mOpenAshmemSize (held p).reverse)
    (hlog : p'.log = p.log ++ (held p).reverse.flatMap releaseEffects) :
    Refined o p p' [.clears] := by
  have hempty : held p' = [] := by rw [held, hnil, List.map_nil]
  refine .of_step (.emptied hnil ?_) ?_
  · rw [hlog]
    exact h.log_append (inTable_release _)
  · rw [inventory_release howner htotal hlog, hempty]
    exact .clears hown

theorem Orderly.givesBack (h : Orderly p) (hown : p.mOwner = true) (hnil : p'.objects = [])
    (howner : p'.mOwner = false) (htotal : p'.mOpenAshmemSize = p.mOpenAshmemSize)
    (hlog : p'.log = p.log ++ ((held p).reverse.flatMap closeEffects ++ [.freeBuffer])) :
    Refined o p p' [.givesBack] := by
  refine .of_step (.emptied hnil ?_) ?_
  · rw [hlog]
    exact h.log_append (inTable_close _)
  · obtain ⟨hacquired, hreleased, hduped, hclosed⟩ := inventory_close hlog
    have hobjs : (inventory p').objects = [] := by simp [inventory, held, hnil]
    have hinventory : inventory p' = { inventory p with
        received := false
        objects := []
        closed := (inventory p).closed ++ (held p).reverse.flatMap FlatObject.fds } :=
      Inventory.ext howner hobjs htotal hacquired hreleased hduped hclosed
    rw [hinventory]
    exact .givesBack hown

theorem Orderly.resets (h : Orderly p) (hown : p.mOwner = false) (hnil : p.objects = [])
    (hnil' : p'.objects = []) (howner : p'.mOwner = false) (htotal : p'.mOpenAshmemSize = 0)
    (hlog : p'.log = p.log) : Refined o p p' [.resets] := by
  refine .of_step (.emptied hnil' ?_) ?_
  · rw [hlog]
    exact h.table
  · have hempty : (inventory p).objects = [] := by simp [inventory, held, hnil]
    have hinventory : inventory p' = { inventory p with total := 0 } := by
      simp [inventory, held, hnil, hnil', howner, hown, htotal, hlog]
    rw [hinventory]
    exact .resets hown hempty

/-- The parcel takes possession of the objects that it keeps, if none of them is cut. -/
theorem Orderly.possessed (h : Orderly p) {b desired : ℕ} (hown : p.mOwner = true)
    (hcut : ∀ off ∈ keptObjects p desired, off + objectSize ≤ desired) :
    Refined o p (possessed o p b desired)
      [.possesses ((keptObjects p desired).map (objectAt p.bytes))] := by
  have hkeeps := keptObjects_first p desired
  have hin (off : ℕ) (hoff : off ∈ keptObjects p desired) :
      off + objectSize ≤ min p.mDataSize desired :=
    le_min (h.inside off (hkeeps.subset hoff)) (hcut off hoff)
  have hheld : held (Parcel.possessed o p b desired) =
      (keptObjects p desired).map (objectAt p.bytes) := by
    refine List.map_congr_left fun off hoff => objectAt_congr fun i _ hi => if_pos ?_
    have := hin off hoff
    omega
  have hlog : (Parcel.possessed o p b desired).log = p.log ++ (.malloc b ::
      ((keptObjects p desired).reverse.map (objectAt p.bytes)).map .acquire ++
        ((held p).reverse.flatMap closeEffects ++ [.freeBuffer])) := rfl
  rw [List.map_reverse] at hlog
  refine .of_step ⟨h.spaced.sublist hkeeps.sublist, hin, ?_⟩ ?_
  · rw [hlog]
    refine h.log_append fun e he => ?_
    rcases List.mem_append.mp he with he | he
    · rcases List.mem_cons.mp he with rfl | he
      · trivial
      · obtain ⟨f, -, rfl⟩ := List.mem_map.mp he
        trivial
    · exact inTable_close _ e he
  · have htotal : (inventory (Parcel.possessed o p b desired)).total =
      addAshmem o (inventory p).total
        ((keptObjects p desired).map (objectAt p.bytes)).reverse := by
      rw [← List.map_reverse]
      rfl
    have hclosed : ((held p).reverse.flatMap closeEffects).flatMap Effect.closed =
        (held p).reverse.flatMap FlatObject.fds := flatMap_close _ _
    have hinventory : inventory (Parcel.possessed o p b desired) = { inventory p with
        received := false
        objects := (keptObjects p desired).map (objectAt p.bytes)
        total := addAshmem o (inventory p).total
          ((keptObjects p desired).map (objectAt p.bytes)).reverse
        acquired := (inventory p).acquired ++
          ((keptObjects p desired).map (objectAt p.bytes)).reverse
        closed := (inventory p).closed ++ (held p).reverse.flatMap FlatObject.fds } := by
      refine Inventory.ext rfl hheld htotal ?_ ?_ ?_ ?_
      all_goals
        simp only [inventory, hlog, List.flatMap_append, List.flatMap_cons, flatMap_acquire,
          hclosed]
        simp [flatMap_close, Effect.acquired, Effect.released, Effect.duped, Effect.closed]
    rw [hinventory]
    exact .possesses _ hown (hkeeps.map _)

/-! ### Growing -/

/-- The entries of data that grow: those of the driver become the parcel's own. -/
def GrowthEntries (p : Parcel) (st : Status) (es : List Entry) : Prop :=
  es = [] ∨ p.mOwner = true ∧ st = .noError ∧ es = [.possesses (held p)]

theorem Orderly.grown (h : Orderly p) (hb : Bounded p) (hg : Grown o p w len st q w') :
    ∃ es, Refined o p q es ∧ GrowthEntries p st es := by
  cases hg with
  | failed _ err n l hst hl =>
      have hquiet : ∀ e ∈ l, e.Quiet := by
        rcases hl with rfl | ⟨-, rfl, -⟩
        · simp
        · exact quiet_pair (quiet_malloc _) (quiet_free _)
      refine ⟨[], Silent.refined ?_ h, .inl rfl⟩
      exact .of_log h rfl rfl le_rfl rfl rfl rfl hquiet
  | possessed n hown hgrow =>
      have hall : keptObjects p (growTo p len) = p.objects := keptObjects_of_le (le_of_lt hgrow.lt)
      have hpossessed := h.possessed (o := o) (b := w.allocs) hown
        fun off hoff => by
          have hin := h.inside off (hall ▸ hoff)
          have hlt := hgrow.lt
          omega
      rw [hall] at hpossessed
      exact ⟨_, hpossessed, .inr ⟨hown, rfl, rfl⟩⟩
  | reallocated n b hown hb' hgrow hlt =>
      refine ⟨[], Silent.refined ⟨rfl, fun off hoff i _ hi => if_pos ?_, h.inside, rfl, rfl, _, rfl,
        quiet_pair (quiet_free _) (quiet_malloc _)⟩ h, .inl rfl⟩
      have hin := h.inside off hoff
      have hsize := hb.size_le
      omega
  | kept n b hown hb' hgrow hle =>
      refine ⟨[], Silent.refined ?_ h, .inl rfl⟩
      exact .of_same h rfl rfl le_rfl rfl rfl rfl
  | started hown hnone hgrow =>
      have hnil := h.nil_of_none hb hown hnone
      refine ⟨[], Silent.refined ?_ h, .inl rfl⟩
      exact .of_nil hnil hnil rfl rfl rfl (quiet_singleton (quiet_malloc _))

/-! ### Writers -/

/-- A store of `len` bytes at the position meets no listed object and no data of the driver. -/
structure Clear (p : Parcel) (len : ℕ) : Prop where
  own : p.mOwner = true → fits p len = false
  spares : ∀ off ∈ p.objects, p.mDataPos + len ≤ off ∨ off + objectSize ≤ p.mDataPos

def AtEnd (p : Parcel) : Prop := ∀ off ∈ p.objects, off + objectSize ≤ p.mDataPos

/-- The table has room for an entry where it is not made to grow. -/
def HasEntry (p : Parcel) : Prop :=
  p.objects.length < p.mObjectsCapacity → p.mOwner = false ∧ p.objects.length < p.room

/-- The parcel `q` has room for `len` bytes at its position, apart from the objects of `p`. -/
structure Roomed (p q : Parcel) (len : ℕ) : Prop where
  own : q.mOwner = false
  objects : q.objects = p.objects
  spares : ∀ off ∈ q.objects, q.mDataPos + len ≤ off ∨ off + objectSize ≤ q.mDataPos
  atEnd : AtEnd p → AtEnd q
  size : q.mDataSize = p.mDataSize
  room : p.mOwner = false → q.room = p.room ∧ q.mObjectsCapacity = p.mObjectsCapacity
  received : p.mOwner = true → q.room = q.mObjectsCapacity

/-- The entries of a writer that may have to grow the data. -/
def RoomEntries (o : Oracle) (p : Parcel) (w : World) (len : ℕ) (es : List Entry) : Prop :=
  es = [] ∨ p.mOwner = true ∧ fits p len = false ∧ (growData o p w len).1 = .noError ∧
    es = [.possesses (held p)]

theorem Roomed.refl (hown : p.mOwner = false)
    (hspares : ∀ off ∈ p.objects, p.mDataPos + len ≤ off ∨ off + objectSize ≤ p.mDataPos) :
    Roomed p p len :=
  ⟨hown, rfl, hspares, id, rfl, fun _ => ⟨rfl, rfl⟩, fun htrue =>
    absurd (hown.symm.trans htrue) (by decide)⟩

theorem Orderly.roomed (h : Orderly p) (hb : Bounded p)
    (hspares : ∀ off ∈ p.objects, p.mDataPos + len ≤ off ∨ off + objectSize ≤ p.mDataPos)
    (hlt : p.mDataCapacity < p.mDataPos + len ∨ p.mDataCapacity < p.mDataSize + len)
    (hg : Grown o p w len .noError q w') :
    Roomed p q len := by
  cases hg with
  | failed _ err n l hst hl => exact absurd rfl hst
  | possessed n hown hgrow =>
      have hall : keptObjects p (growTo p len) = p.objects := keptObjects_of_le (le_of_lt hgrow.lt)
      refine ⟨rfl, hall, ?_, fun hend => ?_, min_eq_left (le_of_lt hgrow.lt), fun hfalse => ?_,
        fun _ => rfl⟩
      · change ∀ off ∈ keptObjects p (growTo p len), _
        rw [hall]
        exact hspares
      · change ∀ off ∈ keptObjects p (growTo p len), _
        rw [hall]
        exact hend
      · rw [hown] at hfalse
        cases hfalse
  | reallocated n b hown hb' hgrow hlt' =>
      exact ⟨hown, rfl, hspares, id, rfl, fun _ => ⟨rfl, rfl⟩, fun htrue =>
        absurd (hown.symm.trans htrue) (by decide)⟩
  | kept n b hown hb' hgrow hle =>
      -- The position is beyond the end of the data, and stays so.
      have hto := hgrow.growTo_eq
      have hbehind (off : ℕ) (hoff : off ∈ p.objects) :
          off + objectSize ≤ min p.mDataPos (growTo p len) := by
        have hin := h.inside off hoff
        have hgt := hgrow.lt
        omega
      exact ⟨hown, rfl, fun off hoff => .inr (hbehind off hoff), fun _ => hbehind, rfl,
        fun _ => ⟨rfl, rfl⟩, fun htrue => absurd (hown.symm.trans htrue) (by decide)⟩
  | started hown hnone hgrow =>
      have hnil := h.nil_of_none hb hown hnone
      have hnone' (off : ℕ) (hoff : off ∈ p.objects) (P : Prop) : P := by
        rw [hnil] at hoff
        cases hoff
      have hsize : 0 = p.mDataSize := by
        have hcap := hb.empty hown hnone
        have hle := hb.size_le
        omega
      exact ⟨hown, rfl, fun off hoff => hnone' off hoff _, fun _ off hoff => hnone' off hoff _,
        hsize, fun _ => ⟨rfl, rfl⟩, fun htrue => absurd (hown.symm.trans htrue) (by decide)⟩

theorem Orderly.room (h : Orderly p) (hb : Bounded p) (hclear : Clear p len)
    (hroom : Room o p w len q w') :
    Roomed p q len ∧ ∃ es, Refined o p q es ∧ RoomEntries o p w len es := by
  cases hroom with
  | fits hfits =>
      have hown : p.mOwner = false := by
        by_contra hne
        rw [hclear.own (by simpa using hne)] at hfits
        cases hfits
      exact ⟨.refl hown hclear.spares, [], .refl h, .inl rfl⟩
  | grown hfits hg =>
      have hlt : p.mDataCapacity < p.mDataPos + len := by
        have hmod := hfits
        simp only [fits, decide_eq_false_iff_not, not_le] at hmod
        have hle : (p.mDataPos + len) % sizeT ≤ p.mDataPos + len := Nat.mod_le _ _
        omega
      obtain ⟨es, hrefined, hes⟩ := h.grown hb (growData_cases hg)
      refine ⟨h.roomed hb hclear.spares (.inl hlt) (growData_cases hg), es, hrefined,
        hes.imp_right ?_⟩
      rintro ⟨hown, -, hes⟩
      exact ⟨hown, hfits, by rw [hg], hes⟩

theorem storeAll_same (p : Parcel) (fills : List (ℕ × List UInt8)) :
    storeAll p fills =
      { p with bytes := (storeAll p fills).bytes, log := (storeAll p fills).log } := by
  induction fills generalizing p with
  | nil => rfl
  | cons f fills ih => exact ih (p.store f.1 f.2)

theorem storeAll_log (p : Parcel) (fills : List (ℕ × List UInt8)) :
    ∃ l, (storeAll p fills).log = p.log ++ l ∧ ∀ e ∈ l, e.Quiet := by
  induction fills generalizing p with
  | nil => exact ⟨[], by simp [storeAll], by simp⟩
  | cons f fills ih =>
      obtain ⟨l, hlog, hquiet⟩ := ih (p.store f.1 f.2)
      refine ⟨.store f.1 f.2.length p.mDataCapacity :: l, ?_, ?_⟩
      · change (storeAll (p.store f.1 f.2) fills).log = _
        rw [hlog]
        simp [Parcel.store]
      · intro e he
        rcases List.mem_cons.mp he with rfl | he
        · exact quiet_store _ _ _
        · exact hquiet e he

theorem storeAll_outside {off i : ℕ} {fills : List (ℕ × List UInt8)} (hin : Within off len fills)
    (hi : i < off ∨ off + len ≤ i) : (storeAll p fills).bytes i = p.bytes i := by
  induction fills generalizing p with
  | nil => rfl
  | cons f fills ih =>
      have hrest : Within off len fills := fun g hg => hin g (List.mem_cons_of_mem _ hg)
      have hf := hin f List.mem_cons_self
      have hstep : (storeAll (p.store f.1 f.2) fills).bytes i = (p.store f.1 f.2).bytes i :=
        ih hrest
      exact hstep.trans (putBytes_outside (by omega))

theorem Roomed.stores (hr : Roomed p q len) (h : Orderly q) {fills : List (ℕ × List UInt8)}
    (hin : Within q.mDataPos len fills) : Silent q (storeAll q fills) where
  objects := by rw [storeAll_same]
  bytes := fun off hoff i h₁ h₂ => storeAll_outside hin (by
    have := hr.spares off hoff
    omega)
  inside := by
    rw [storeAll_same]
    exact h.inside
  owner := by rw [storeAll_same]
  total := by rw [storeAll_same]
  log := storeAll_log q fills

theorem Silent.trans (h : Silent p q) (h' : Silent q p') : Silent p p' := by
  obtain ⟨l, hlog, hquiet⟩ := h.log
  obtain ⟨l', hlog', hquiet'⟩ := h'.log
  refine ⟨h'.objects.trans h.objects, fun off hoff i h₁ h₂ => ?_, ?_, h'.owner.trans h.owner,
    h'.total.trans h.total, l ++ l', by rw [hlog', hlog, List.append_assoc], fun e he => ?_⟩
  · rw [h'.bytes off (h.objects ▸ hoff) i h₁ h₂, h.bytes off hoff i h₁ h₂]
  · rw [← h.objects]
    exact h'.inside
  · exact (List.mem_append.mp he).elim (hquiet e) (hquiet' e)

theorem silent_finishWrite (h : Orderly p) (len : ℕ) : Silent p (finishWrite p len) :=
  .of_same h rfl rfl (le_max_left _ _) rfl rfl rfl

theorem Orderly.written (h : Orderly p) (hb : Bounded p)
    (hclear : GetsRoom o p w len → Clear p len) (hw : Written o p w len p' w') :
    ∃ es, Refined o p p' es ∧ RoomEntries o p w len es := by
  cases hw with
  | unchanged => exact ⟨[], .refl h, .inl rfl⟩
  | failed hst hfits hg =>
      obtain ⟨es, hrefined, hes⟩ := h.grown hb hg
      exact ⟨es, hrefined, hes.imp_right fun hes => absurd hes.2.1 hst⟩
  | put fills hroom hin =>
      obtain ⟨hr, es, hrefined, hes⟩ := h.room hb (hclear hroom.gets) hroom
      have hstores := hr.stores hrefined.orderly hin
      have hdone := hstores.trans (silent_finishWrite (hstores.orderly hrefined.orderly) len)
      refine ⟨es, ?_, hes⟩
      simpa using hrefined.trans (hdone.refined hrefined.orderly)

/-! ### Objects -/

theorem flagFds_same (val : FlatObject) (p : Parcel) :
    flagFds val p =
      { p with mHasFds := (flagFds val p).mHasFds, mFdsKnown := (flagFds val p).mFdsKnown } := by
  unfold flagFds
  split
  · rfl
  · rfl

theorem silent_objectStored (h : Orderly q) (val : FlatObject)
    (hspares : ∀ off ∈ q.objects, q.mDataPos + objectSize ≤ off ∨ off + objectSize ≤ q.mDataPos) :
    Silent q (objectStored val q) := by
  refine ⟨rfl, fun off hoff i h₁ h₂ => putBytes_outside ?_, h.inside, rfl, rfl, _, rfl,
    quiet_singleton (quiet_store _ _ _)⟩
  rw [FlatObject.length_bytes]
  have := hspares off hoff
  omega

theorem silent_flagFds (h : Orderly p) (val : FlatObject) : Silent p (flagFds val p) := by
  rw [flagFds_same]
  exact .of_same h rfl rfl le_rfl rfl rfl rfl

theorem Orderly.listed (h : Orderly p) {val : FlatObject} {off : ℕ} (hown : p.mOwner = false)
    (hval : objectAt p.bytes off = val) (hend : ∀ x ∈ p.objects, x + objectSize ≤ off)
    (hin : off + objectSize ≤ p'.mDataSize) (hsize : p.mDataSize ≤ p'.mDataSize)
    (hroom : p.objects.length < p.room) (hobjs : p'.objects = p.objects ++ [off])
    (hbytes : p'.bytes = p.bytes) (howner : p'.mOwner = p.mOwner)
    (htotal : p'.mOpenAshmemSize = (p.mOpenAshmemSize + ashmemOf o val) % sizeT)
    (hlog : p'.log = p.log ++ [.tableStore p.objects.length p.room, .acquire val]) :
    Refined o p p' [.lists val] := by
  refine .of_step ⟨?_, ?_, ?_⟩ ?_
  · rw [hobjs]
    refine List.pairwise_append.mpr ⟨h.spaced, List.pairwise_singleton _ _, fun x hx y hy => ?_⟩
    obtain rfl := List.mem_singleton.mp hy
    exact hend x hx
  · intro x hx
    rw [hobjs] at hx
    rcases List.mem_append.mp hx with hx | hx
    · exact le_trans (h.inside x hx) hsize
    · obtain rfl := List.mem_singleton.mp hx
      exact hin
  · rw [hlog]
    refine h.log_append fun e he => ?_
    rcases List.mem_pair.mp he with rfl | rfl
    · exact hroom
    · trivial
  · have hinventory : inventory p' = { inventory p with
        objects := (inventory p).objects ++ [val]
        total := ((inventory p).total + ashmemOf o val) % sizeT
        acquired := (inventory p).acquired ++ [val] } := by
      have hheld : held p' = held p ++ [val] := by
        simp [held, hobjs, hbytes, hval]
      refine Inventory.ext howner hheld htotal ?_ ?_ ?_ ?_
      all_goals
        simp [inventory, hlog, Effect.acquired, Effect.released, Effect.duped, Effect.closed]
    rw [hinventory]
    exact .lists val hown

def ObjectEntries (o : Oracle) (p : Parcel) (w : World) (val : FlatObject) (nullMetaData : Bool)
    (st : Status) (es : List Entry) : Prop :=
  ∃ es₀, RoomEntries o p w objectSize es₀ ∧
    (es = es₀ ∧ ¬ (st = .noError ∧ (nullMetaData = true ∨ val.binder ≠ 0)) ∨
      es = es₀ ++ [.lists val] ∧ st = .noError ∧ (nullMetaData = true ∨ val.binder ≠ 0))

theorem Orderly.putObject (h : Orderly q) {val : FlatObject} {nullMetaData : Bool}
    (hf : val.Ranged) (hown : q.mOwner = false)
    (hspares : ∀ off ∈ q.objects, q.mDataPos + objectSize ≤ off ∨ off + objectSize ≤ q.mDataPos)
    (hlist : nullMetaData = true ∨ val.binder ≠ 0 → AtEnd q ∧ q.objects.length < q.room)
    (hput : putObject o q val nullMetaData = (st, p')) :
    ∃ es, Refined o q p' es ∧
      (es = [] ∧ ¬ (st = .noError ∧ (nullMetaData = true ∨ val.binder ≠ 0)) ∨
        es = [.lists val] ∧ st = .noError ∧ (nullMetaData = true ∨ val.binder ≠ 0)) := by
  have hstored := silent_objectStored h val hspares
  have hflag := hstored.trans (silent_flagFds (hstored.orderly h) val)
  have horder := hflag.orderly h
  obtain ⟨rfl, -, -, rfl⟩ | ⟨rfl, hnull, hbinder, rfl⟩ | ⟨rfl, hlisted, -, rfl⟩ :=
    putObject_cases hput
  · exact ⟨[], hstored.refined h, .inl ⟨rfl, nofun⟩⟩
  · refine ⟨[], (hflag.trans (silent_finishWrite horder _)).refined h, .inl ⟨rfl, ?_⟩⟩
    simp [hnull, hbinder]
  · obtain ⟨hend, hroom⟩ := hlist hlisted
    refine ⟨[.lists val], ?_, .inr ⟨rfl, rfl, hlisted⟩⟩
    have hval : objectAt (flagFds val (objectStored val q)).bytes q.mDataPos = val := by
      rw [flagFds_same]
      exact objectAt_of_carries (carries_putBytes _ _ _) hf
    rw [flagFds_same] at hval horder hflag ⊢
    exact (hflag.refined h).trans (horder.listed hown hval hend (le_max_right _ _)
      (le_max_left _ _) hroom rfl rfl rfl rfl rfl)

theorem Orderly.objectWritten (h : Orderly p) (hb : Bounded p) {val : FlatObject}
    {nullMetaData : Bool} (hf : val.Ranged)
    (hclear : GetsRoom o p w objectSize → Clear p objectSize ∧
      (nullMetaData = true ∨ val.binder ≠ 0 → AtEnd p ∧ HasEntry p))
    (hw : ObjectWritten o p w val nullMetaData st p' w') :
    ∃ es, Refined o p p' es ∧ ObjectEntries o p w val nullMetaData st es := by
  cases hw with
  | failed hst hfits hg =>
      obtain ⟨es, hrefined, hes⟩ := h.grown hb hg
      refine ⟨es, hrefined, es, hes.imp_right fun hes => absurd hes.2.1 hst, .inl ⟨rfl, ?_⟩⟩
      exact fun hok => hst hok.1
  | tableFull hroom hfull =>
      rename_i q w₁
      obtain ⟨-, es, hrefined, hes⟩ := h.room hb (hclear hroom.gets).1 hroom
      have hsilent : Silent q q.give := .of_same hrefined.orderly rfl rfl le_rfl rfl rfl rfl
      refine ⟨es, ?_, es, hes, .inl ⟨rfl, nofun⟩⟩
      simpa using hrefined.trans (hsilent.refined hrefined.orderly)
  | put hroom henough =>
      obtain ⟨hclear, hlist⟩ := hclear hroom.gets
      obtain ⟨hr, es, hrefined, hes⟩ := h.room hb hclear hroom
      obtain ⟨es', hrefined', hes'⟩ := hrefined.orderly.putObject hf hr.own hr.spares
        (fun hlisted => by
          obtain ⟨hend, hentry⟩ := hlist hlisted
          obtain ⟨hown, hlt⟩ := hentry henough
          rw [hr.objects, (hr.room hown).1]
          exact ⟨hr.atEnd hend, hlt⟩) rfl
      refine ⟨es ++ es', hrefined.trans hrefined', es, hes, ?_⟩
      rcases hes' with ⟨rfl, hne⟩ | ⟨rfl, hok⟩
      · exact .inl ⟨List.append_nil es, hne⟩
      · exact .inr ⟨rfl, hok⟩
  | putGrown hroom hfull =>
      rename_i q w₁
      obtain ⟨hclear, hlist⟩ := hclear hroom.gets
      obtain ⟨hr, es, hrefined, hes⟩ := h.room hb hclear hroom
      have hsilent : Silent q (tableGrown q ((q.objects.length + 2) * 3 / 2)) :=
        .of_same hrefined.orderly rfl rfl le_rfl rfl rfl rfl
      obtain ⟨es', hrefined', hes'⟩ := (hsilent.orderly hrefined.orderly).putObject hf hr.own
        hr.spares (fun hlisted => ⟨hr.atEnd (hlist hlisted).1, by
          change q.objects.length < (q.objects.length + 2) * 3 / 2
          omega⟩) rfl
      refine ⟨es ++ es', hrefined.trans ((hsilent.refined hrefined.orderly).trans hrefined'), es,
        hes, ?_⟩
      rcases hes' with ⟨rfl, hne⟩ | ⟨rfl, hok⟩
      · exact .inl ⟨List.append_nil es, hne⟩
      · exact .inr ⟨rfl, hok⟩

end Refinement

end Parcel

end BinderForLinux
