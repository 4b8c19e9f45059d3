import BinderForLinux.Parcel.Writers

/-!
# The stores of the writers

A writer that finds too little room grows the data, to a size that is computed from the size of
the data, and stores at the position without a second look at the bound. So a store may lie
outside the data where the position was set beyond the end of the data. Where each operation
lands (`Op.Lands`), every store is within the capacity, and so is the size.
-/

namespace BinderForLinux

namespace Parcel

open Library

/-- A store lies in the data, as large as they are when it is made. -/
def Effect.InBounds : Effect → Prop
  | .store off len capacity => off + len ≤ capacity
  | _ => True

instance : DecidablePred Effect.InBounds
  | .store _ _ _ => inferInstanceAs (Decidable (_ ≤ _))
  | .load _ _ => .isTrue trivial
  | .tableStore _ _ => .isTrue trivial
  | .malloc _ => .isTrue trivial
  | .free _ => .isTrue trivial
  | .acquire _ => .isTrue trivial
  | .release _ => .isTrue trivial
  | .dup _ _ => .isTrue trivial
  | .close _ => .isTrue trivial
  | .freeBuffer => .isTrue trivial

/-! ### Where a writer lands -/

/-- There is room for `len` bytes at the position once the data have grown. The first data of
a parcel move the position to their start. -/
def FitsGrown (p : Parcel) (len : ℕ) : Prop :=
  if p.mOwner = false ∧ p.mData = none then True
  else if p.mOwner = true ∨ p.mDataCapacity < growTo p len then
    p.mDataPos + len ≤ growTo p len
  else min p.mDataPos (growTo p len) + len ≤ p.mDataCapacity

/-- A writer of `len` bytes lands in the data: they fit, or the data cannot grow, or they fit
then. -/
def Lands (o : Oracle) (p : Parcel) (w : World) (len : ℕ) : Prop :=
  p.mDataPos + len ≤ p.mDataCapacity ∨
    p.mDataPos + len < sizeT ∧ ((growData o p w len).1 ≠ .noError ∨ FitsGrown p len)

/-- All of the objects that are taken over lie in the range that is appended, and the position
is where they go. -/
def ObjectsLand (p parcel : Parcel) (offset len : ℕ) : Prop :=
  (p.mOwner = false → p.mData = none → p.mDataPos = 0) ∧
    ∀ off ∈ rangeObjects parcel.objects offset len,
      offset ≤ off ∧ off + objectSize ≤ offset + len

/-- `appendFrom` lands in the data: nothing is appended, or there is room at the position for
what is appended. -/
def AppendLands (o : Oracle) (p : Parcel) (w : World) (parcel : Parcel) (offset len : ℕ) : Prop :=
  ¬ InSource parcel offset len ∨
  if p.mDataSize + len ≤ p.mDataCapacity then
    p.mDataPos + len ≤ p.mDataCapacity ∧
      (rangeObjects parcel.objects offset len = [] ∨ ObjectsLand p parcel offset len)
  else
    (growData o p w len).1 ≠ .noError ∨ FitsGrown p len ∧
      (rangeObjects parcel.objects offset len = [] ∨ ObjectsLand p parcel offset len)

/-- The operation lands in the data. Only the writers and `appendFrom` may miss them. -/
def Op.Lands (o : Oracle) (s : State) : Op → Prop
  | .writeAligned val => Parcel.Lands o s.1 s.2 val.length
  | .writeUnpadded data => Parcel.Lands o s.1 s.2 data.length
  | .writeInplace len => Parcel.Lands o s.1 s.2 (padUnsafe len)
  | .write data => Parcel.Lands o s.1 s.2 (padUnsafe data.length)
  | .writeChars str => Parcel.Lands o s.1 s.2 (padUnsafe (2 * str.length + 2))
  | .writeObject _ _ => Parcel.Lands o s.1 s.2 objectSize
  | .writeDupFileDescriptor fd =>
      o.dup s.2.dups ≥ 2 ^ 31 ∨
        Parcel.Lands o (s.1.record [.dup fd (o.dup s.2.dups)])
          { s.2 with dups := s.2.dups + 1 } objectSize
  | .appendFrom parcel offset len => AppendLands o s.1 s.2 parcel offset len
  | _ => True

/-! ### The invariant -/

/-- The data of a parcel of its own are at most `INT32_MAX` bytes, a parcel without data has
no capacity, received data are as large as their buffer, and every store was in bounds. -/
structure Bounded (p : Parcel) : Prop where
  size_le : p.mDataSize ≤ p.mDataCapacity
  capacity_le : p.mOwner = false → p.mDataCapacity ≤ int32Max
  empty : p.mOwner = false → p.mData = none → p.mDataCapacity = 0
  received : p.mOwner = true → p.mDataCapacity = p.mDataSize
  stores : ∀ e ∈ p.log, e.InBounds

section Invariant

variable {o : Oracle} {p p' q : Parcel} {w w' : World} {len : ℕ} {st : Status}

namespace Bounded

theorem init : Bounded new where
  size_le := le_rfl
  capacity_le := fun _ => Nat.zero_le _
  empty := fun _ _ => rfl
  received := nofun
  stores := by simp [new]

/-- Only what the invariant speaks of matters. -/
theorem congr (h : Bounded p) (hsize : p'.mDataSize = p.mDataSize)
    (hcap : p'.mDataCapacity = p.mDataCapacity) (hown : p'.mOwner = p.mOwner)
    (hdata : p'.mData = p.mData) (hlog : ∀ e ∈ p'.log, e.InBounds) : Bounded p' where
  size_le := by rw [hsize, hcap]; exact h.size_le
  capacity_le := by rw [hown, hcap]; exact h.capacity_le
  empty := by rw [hown, hdata, hcap]; exact h.empty
  received := by rw [hown, hsize, hcap]; exact h.received
  stores := hlog

theorem log_append (h : Bounded p) {l : List Effect} (hl : ∀ e ∈ l, e.InBounds) :
    ∀ e ∈ p.log ++ l, e.InBounds := fun e he =>
  (List.mem_append.mp he).elim (h.stores e) (hl e)

theorem account (h : Bounded p) {m : ℕ} {l : List Effect} (hl : ∀ e ∈ l, e.InBounds) :
    Bounded (account p m l) :=
  h.congr rfl rfl rfl rfl (h.log_append hl)

theorem store (h : Bounded p) (off : ℕ) (bs : List UInt8)
    (hin : off + bs.length ≤ p.mDataCapacity) : Bounded (p.store off bs) :=
  h.congr rfl rfl rfl rfl (h.log_append (by simpa [Effect.InBounds] using hin))

theorem storeAll (h : Bounded p) {fills : List (ℕ × List UInt8)}
    (hin : ∀ f ∈ fills, f.1 + f.2.length ≤ p.mDataCapacity) : Bounded (storeAll p fills) := by
  induction fills generalizing p with
  | nil => exact h
  | cons f fills ih =>
      exact ih (h.store f.1 f.2 (hin f List.mem_cons_self)) fun g hg =>
        hin g (List.mem_cons_of_mem _ hg)

theorem finishWrite (h : Bounded p) (hin : p.mDataPos + len ≤ p.mDataCapacity) :
    Bounded (finishWrite p len) where
  size_le := max_le h.size_le hin
  capacity_le := h.capacity_le
  empty := h.empty
  received := fun hown => by
    have hsize := h.received hown
    change p.mDataCapacity = max p.mDataSize (p.mDataPos + len)
    omega
  stores := h.stores

theorem give (h : Bounded p) : Bounded p.give := h.congr rfl rfl rfl rfl h.stores

theorem freeTable (h : Bounded p) : Bounded p.freeTable := h.congr rfl rfl rfl rfl h.stores

theorem tableGrown (h : Bounded p) (n : ℕ) : Bounded (tableGrown p n) :=
  h.congr rfl rfl rfl rfl h.stores

/-! ### References and descriptors -/

theorem inBounds_acquire (fs : List FlatObject) : ∀ e ∈ fs.map Effect.acquire, e.InBounds := by
  intro e he
  obtain ⟨f, -, rfl⟩ := List.mem_map.mp he
  trivial

theorem inBounds_release (fs : List FlatObject) :
    ∀ e ∈ fs.flatMap releaseEffects, e.InBounds := by
  intro e he
  obtain ⟨f, rfl | rfl⟩ := mem_releaseEffects he
  · trivial
  · trivial

theorem inBounds_close (fs : List FlatObject) : ∀ e ∈ fs.flatMap closeEffects, e.InBounds := by
  intro e he
  obtain ⟨f, rfl⟩ := mem_closeEffects he
  trivial

theorem releaseObjects (h : Bounded p) : Bounded (releaseObjects o p) := by
  rw [releaseObjects_eq]
  exact h.account (inBounds_release _)

theorem freeBuffer (h : Bounded p) : Bounded (freeBuffer p) := by
  rw [freeBuffer_eq]
  refine h.account fun e he => ?_
  rcases List.mem_append.mp he with he | he
  · exact inBounds_close _ e he
  · obtain rfl := List.mem_singleton.mp he
    trivial

theorem initState (h : Bounded p) : Bounded (initState p) where
  size_le := le_rfl
  capacity_le := fun _ => Nat.zero_le _
  empty := fun _ _ => rfl
  received := nofun
  stores := h.stores

theorem dropObjects (h : Bounded p) {desired : ℕ} {shrinks : Bool} :
    Bounded (dropObjects o p desired shrinks) := by
  unfold Parcel.dropObjects
  dsimp only
  split
  · rw [releaseEach_eq]
    exact h.congr rfl rfl rfl rfl (h.log_append (inBounds_release _))
  · exact h

/-! ### Growing -/

theorem possessed (h : Bounded p) {b desired : ℕ} (hmax : desired ≤ int32Max) :
    Bounded (possessed o p b desired) where
  size_le := min_le_right _ _
  capacity_le := fun _ => hmax
  empty := fun _ hnone => nomatch hnone
  received := nofun
  stores := by
    refine h.log_append fun e he => ?_
    rcases List.mem_append.mp he with he | he
    · rcases List.mem_cons.mp he with rfl | he
      · trivial
      · exact inBounds_acquire _ e he
    · rcases List.mem_append.mp he with he | he
      · exact inBounds_close _ e he
      · obtain rfl := List.mem_singleton.mp he
        trivial

theorem reallocated (h : Bounded p) {b b' desired : ℕ} (hown : p.mOwner = false)
    (hmax : desired ≤ int32Max) (hlt : p.mDataCapacity < desired) :
    Bounded (reallocated o p b b' desired) where
  size_le := le_trans h.size_le (le_of_lt hlt)
  capacity_le := fun _ => hmax
  empty := fun _ hnone => nomatch hnone
  received := fun h' => by
    change p.mOwner = true at h'
    rw [hown] at h'
    cases h'
  stores := h.log_append (by simp [Effect.InBounds])

theorem started (h : Bounded p) {b desired : ℕ} (hown : p.mOwner = false)
    (hmax : desired ≤ int32Max) : Bounded (started o p b desired) where
  size_le := Nat.zero_le _
  capacity_le := fun _ => hmax
  empty := fun _ hnone => nomatch hnone
  received := fun h' => by
    change p.mOwner = true at h'
    rw [hown] at h'
    cases h'
  stores := h.log_append (by simp [Effect.InBounds])

theorem refused (h : Bounded p) {n : ℕ} {l : List Effect} {err : Status}
    (hl : l = [] ∨ p.mOwner = true ∧ l = [.malloc w.allocs, .free w.allocs] ∧ 0 < n) :
    Bounded { p.record l with mError := err } := by
  refine h.congr rfl rfl rfl rfl (h.log_append fun e he => ?_)
  rcases hl with rfl | ⟨-, rfl, -⟩
  · cases he
  · rcases List.mem_pair.mp he with rfl | rfl
    · trivial
    · trivial

theorem grown (h : Bounded p) (hg : Grown o p w len st p' w') : Bounded p' := by
  cases hg with
  | failed _ err n l hst hl => exact h.refused hl
  | possessed n hown hgrow => exact h.possessed hgrow.le
  | reallocated n b hown hb hgrow hlt => exact h.reallocated hown hgrow.le hlt
  | kept n b hown hb hgrow hle => exact h.congr rfl rfl rfl rfl h.stores
  | started hown hb hgrow => exact h.started hown hgrow.le

theorem resized (h : Bounded p) {size : ℕ} (hown : p.mOwner = false)
    (hle : size ≤ p.mDataCapacity) : Bounded { p with mDataSize := size } where
  size_le := hle
  capacity_le := h.capacity_le
  empty := h.empty
  received := fun h' => by
    change p.mOwner = true at h'
    rw [hown] at h'
    cases h'
  stores := h.stores

theorem truncated (h : Bounded p) (hown : p.mOwner = false) (desired : ℕ) :
    Bounded (truncated p desired) := by
  have hle : min p.mDataSize desired ≤ p.mDataCapacity := le_trans (min_le_left _ _) h.size_le
  exact (h.resized hown hle).congr rfl rfl rfl rfl h.stores

/-- What `continueWrite` leaves is bounded, and has room for the size that was asked for. -/
theorem continued (h : Bounded p) {desired : ℕ} (hc : Continued o p w desired st p' w') :
    Bounded p' ∧ (st = .noError → p'.mOwner = false ∧ desired ≤ p'.mDataCapacity) := by
  cases hc with
  | tooLarge hbig => exact ⟨h, nofun⟩
  | released hown hzero => exact ⟨h.freeBuffer.initState, fun _ => ⟨rfl, hzero.le⟩⟩
  | refused n l hl => exact ⟨h.refused hl, nofun⟩
  | possessed n hown hpos hmax => exact ⟨h.possessed hmax, fun _ => ⟨rfl, le_rfl⟩⟩
  | reallocated n b sh hown hb hmax hlt =>
      refine ⟨h.dropObjects.reallocated ?_ hmax ?_, fun _ => ⟨?_, le_rfl⟩⟩
      · rw [dropObjects_owner, hown]
      · rw [dropObjects_capacity]
        exact hlt
      · exact dropObjects_owner.trans hown
  | exhausted n b sh hown hb hlt =>
      exact ⟨h.dropObjects.congr rfl rfl rfl rfl h.dropObjects.stores, nofun⟩
  | truncated n b sh hown hb hle hmax =>
      refine ⟨h.dropObjects.truncated (dropObjects_owner.trans hown) desired, fun _ => ⟨?_, ?_⟩⟩
      · exact dropObjects_owner.trans hown
      · change desired ≤ (Parcel.dropObjects o p desired sh).mDataCapacity
        rw [dropObjects_capacity]
        exact hle
  | started hown hb hmax => exact ⟨h.started hown hmax, fun _ => ⟨hown, le_rfl⟩⟩

/-! ### Writers -/

theorem room (h : Bounded p) (hroom : Room o p w len q w') : Bounded q := by
  cases hroom with
  | fits _ => exact h
  | grown _ hg => exact h.grown (growData_cases hg)

theorem fitsGrown (hfits : FitsGrown p len) (hg : Grown o p w len .noError q w') :
    q.mDataPos + len ≤ q.mDataCapacity := by
  unfold FitsGrown at hfits
  cases hg with
  | failed _ err n l hst hl => exact absurd rfl hst
  | possessed n hown hgrow =>
      rw [if_neg (by simp [hown]), if_pos (.inl hown)] at hfits
      exact hfits
  | reallocated n b hown hb hgrow hlt =>
      rw [if_neg (by simp [hb]), if_pos (.inr hlt)] at hfits
      exact hfits
  | kept n b hown hb hgrow hle =>
      rw [if_neg (by simp [hb]), if_neg (by simp [hown, hle])] at hfits
      exact hfits
  | started hown hb hgrow =>
      have hto := hgrow.growTo_eq
      change 0 + len ≤ growTo p len
      omega

theorem lands_room (hlands : Lands o p w len) (hroom : Room o p w len q w') :
    q.mDataPos + len ≤ q.mDataCapacity := by
  rcases hlands with hle | ⟨hwrap, hgrow⟩
  · cases hroom with
    | fits _ => exact hle
    | grown hfits hg =>
        have hmod : (p.mDataPos + len) % sizeT ≤ p.mDataPos + len := Nat.mod_le _ _
        simp only [fits, decide_eq_false_iff_not] at hfits
        omega
  · cases hroom with
    | fits hfits =>
        simp only [fits, decide_eq_true_eq, Nat.mod_eq_of_lt hwrap] at hfits
        exact hfits
    | grown hfits hg =>
        rcases hgrow with hne | hfits'
        · rw [hg] at hne
          exact absurd rfl hne
        · exact fitsGrown hfits' (growData_cases hg)

theorem written (h : Bounded p) (hlands : Lands o p w len) (hw : Written o p w len p' w') :
    Bounded p' := by
  cases hw with
  | unchanged => exact h
  | failed hst hfits hg => exact h.grown hg
  | put fills hroom hin =>
      have hq := h.room hroom
      have hle := lands_room hlands hroom
      refine (hq.storeAll fun f hf => ?_).finishWrite ?_
      · have := hin f hf
        omega
      · rw [storeAll_pos, storeAll_capacity]
        exact hle

theorem flagFds (h : Bounded p) (val : FlatObject) : Bounded (flagFds val p) := by
  unfold Parcel.flagFds
  split
  · exact h.congr rfl rfl rfl rfl h.stores
  · exact h

theorem listed (h : Bounded p) (val : FlatObject) (off : ℕ) : Bounded (listed o val off p) :=
  h.congr rfl rfl rfl rfl (h.log_append (by simp [Effect.InBounds]))

theorem putObject (h : Bounded p) {val : FlatObject} {nullMetaData : Bool}
    (hin : p.mDataPos + objectSize ≤ p.mDataCapacity)
    (hput : putObject o p val nullMetaData = (st, p')) : Bounded p' := by
  have hlen : val.bytes.length = objectSize := by simp [FlatObject.bytes, objectSize]
  have hstore : Bounded (objectStored val p) := h.store _ _ (by rw [hlen]; exact hin)
  have hflag := hstore.flagFds val
  have hpos : (Parcel.flagFds val (objectStored val p)).mDataPos = p.mDataPos := by
    unfold Parcel.flagFds
    split
    · rfl
    · rfl
  have hcap : (Parcel.flagFds val (objectStored val p)).mDataCapacity = p.mDataCapacity := by
    unfold Parcel.flagFds
    split
    · rfl
    · rfl
  have hin' : (Parcel.flagFds val (objectStored val p)).mDataPos + objectSize ≤
      (Parcel.flagFds val (objectStored val p)).mDataCapacity := by
    rw [hpos, hcap]
    exact hin
  obtain ⟨-, -, -, rfl⟩ | ⟨-, -, -, rfl⟩ | ⟨-, -, -, rfl⟩ := putObject_cases hput
  · exact hstore
  · exact hflag.finishWrite hin'
  · exact (hflag.listed val p.mDataPos).finishWrite hin'

theorem objectWritten (h : Bounded p) {val : FlatObject} {nullMetaData : Bool}
    (hlands : Lands o p w objectSize)
    (hw : ObjectWritten o p w val nullMetaData st p' w') : Bounded p' := by
  cases hw with
  | failed hst hfits hg => exact h.grown hg
  | tableFull hroom => exact (h.room hroom).give
  | put hroom henough => exact (h.room hroom).putObject (lands_room hlands hroom) rfl
  | putGrown hroom hfull =>
      have hle := lands_room hlands hroom
      exact ((h.room hroom).tableGrown _).putObject hle rfl

theorem adopted (h : Bounded p) {fd off : ℕ} (hin : off + objectSize ≤ p.mDataCapacity) :
    Bounded (adopted o fd off p) := by
  unfold objectSize at hin
  have hdup : Bounded ((Parcel.listed o (objectAt p.bytes off) off p).record
      [.dup (objectAt p.bytes off).handle fd]) :=
    (h.listed (objectAt p.bytes off) off).account (by simp [Effect.InBounds])
  have hhandle := hdup.store (off + 8) (bytesLE 4 fd)
    (by rw [length_bytesLE]; change off + 8 + 4 ≤ p.mDataCapacity; omega)
  have hcookie := hhandle.store (off + 16) (bytesLE 8 1)
    (by rw [length_bytesLE]; change off + 16 + 8 ≤ p.mDataCapacity; omega)
  exact hcookie.congr rfl rfl rfl rfl hcookie.stores

theorem appendObjects (h : Bounded p) {offs : List ℕ}
    (hin : ∀ off ∈ offs, off + objectSize ≤ p.mDataCapacity) :
    Bounded (appendObjects o p w offs).2.1 := by
  unfold Parcel.appendObjects
  -- The status is carried along; the capacity stays.
  suffices hfold : ∀ st : Status, Bounded (offs.foldl (appendObject o) (st, p, w)).2.1 from
    hfold .noError
  intro st
  induction offs generalizing p w st with
  | nil => exact h
  | cons off offs ih =>
      rw [List.foldl_cons]
      have hoff := hin off List.mem_cons_self
      have hrest (x : ℕ) (hx : x ∈ offs) := hin x (List.mem_cons_of_mem _ hx)
      obtain ⟨-, hr⟩ | ⟨-, st', hr⟩ := appendObject_cases (rfl : appendObject o (st, p, w) off = _)
      · rw [hr]
        exact ih (h.listed _ _) hrest st
      · rw [hr]
        exact ih (h.adopted hoff) hrest st'

theorem appendRoom (h : Bounded p) (hroom : AppendRoom o p w len q w') :
    Bounded q ∧ q.mDataSize + len ≤ q.mDataCapacity := by
  cases hroom with
  | enough hle => exact ⟨h, hle⟩
  | grown hlt hg =>
      have hg' := growData_cases hg
      refine ⟨h.grown hg', ?_⟩
      cases hg' with
      | failed _ err n l hst hl => exact absurd rfl hst
      | possessed n hown hgrow =>
          have hto := hgrow.growTo_eq
          have hle : min p.mDataSize (growTo p len) ≤ p.mDataSize := min_le_left _ _
          change min p.mDataSize (growTo p len) + len ≤ growTo p len
          omega
      | reallocated n b hown hb hgrow hlt' =>
          have hto := hgrow.growTo_eq
          change p.mDataSize + len ≤ growTo p len
          omega
      | kept n b hown hb hgrow hle =>
          have hto := hgrow.growTo_eq
          omega
      | started hown hb hgrow =>
          have hto := hgrow.growTo_eq
          change 0 + len ≤ growTo p len
          omega

theorem appendData (h : Bounded p) {parcel : Parcel} {offset : ℕ}
    (hpos : p.mDataPos + len ≤ p.mDataCapacity) (hsize : p.mDataSize + len ≤ p.mDataCapacity)
    (hlen : 0 < len) : Bounded (appendData p parcel offset len) := by
  have hown : p.mOwner = false := by
    by_contra hne
    have := h.received (by simpa using hne)
    omega
  have hstore := h.store p.mDataPos (getBytes parcel.bytes offset len)
    (by rw [length_getBytes]; exact hpos)
  exact (hstore.resized hown hsize).congr rfl rfl rfl rfl hstore.stores

end Bounded

theorem intToSizeT_of_le {x : ℕ} (h : x ≤ int32Max) : intToSizeT x = x := by
  unfold int32Max at h
  unfold intToSizeT
  rw [Nat.mod_eq_of_lt (by omega), if_pos (by omega)]

theorem shifted_eq {x offset pos : ℕ} (hx : offset ≤ x) (hlt : x - offset + pos ≤ int32Max) :
    (x + sizeT - offset + pos) % sizeT = x - offset + pos := by
  unfold int32Max at hlt
  unfold sizeT
  omega

/-- The position stays when the data grow, unless they are the first data. -/
theorem Grown.pos_eq (hg : Grown o p w len .noError q w')
    (hlt : p.mDataCapacity < p.mDataSize + len)
    (hfirst : p.mOwner = false → p.mData = none → p.mDataPos = 0) :
    q.mDataPos = p.mDataPos := by
  cases hg with
  | failed _ err n l hst hl => exact absurd rfl hst
  | possessed n hown hgrow => rfl
  | reallocated n b hown hb hgrow hlt' => rfl
  | kept n b hown hb hgrow hle =>
      have hto := hgrow.growTo_eq
      omega
  | started hown hb hgrow => exact (hfirst hown hb).symm

namespace Bounded

/-- Where `appendFrom` lands there is room at the position, and the objects move with the
data. -/
theorem appendLands_shifted (h : Bounded p) {parcel : Parcel} {offset : ℕ}
    (hlands : AppendLands o p w parcel offset len) (hsrc : InSource parcel offset len)
    (hroom : AppendRoom o p w len q w') :
    q.mDataPos + len ≤ q.mDataCapacity ∧
      (rangeObjects parcel.objects offset len = [] ∨
        q.mDataPos = p.mDataPos ∧ ObjectsLand p parcel offset len ∧
          shiftedObjects p parcel offset len =
            (rangeObjects parcel.objects offset len).map fun x => x - offset + q.mDataPos) := by
  obtain ⟨hq, hsize⟩ := h.appendRoom hroom
  obtain hout | hlands := hlands
  · exact absurd hsrc hout
  obtain ⟨hpos, hobjects⟩ : q.mDataPos + len ≤ q.mDataCapacity ∧
      (rangeObjects parcel.objects offset len = [] ∨
        q.mDataPos = p.mDataPos ∧ ObjectsLand p parcel offset len) := by
    cases hroom with
    | enough hle =>
        rw [if_pos hle] at hlands
        exact ⟨hlands.1, hlands.2.imp_right fun hobj => ⟨rfl, hobj⟩⟩
    | grown hlt hg =>
        rw [if_neg (by omega)] at hlands
        obtain hne | ⟨hfits, hobj⟩ := hlands
        · rw [hg] at hne
          exact absurd rfl hne
        have hg' := growData_cases hg
        exact ⟨fitsGrown hfits hg', hobj.imp_right fun hobj => ⟨hg'.pos_eq hlt hobj.1, hobj⟩⟩
  refine ⟨hpos, ?_⟩
  rcases hobjects with hnil | ⟨hsame, hland⟩
  · exact .inl hnil
  refine .inr ⟨hsame, hland, ?_⟩
  have hown : q.mOwner = false := by
    by_contra hne
    have hrec := hq.received (by simpa using hne)
    have hlen := hsrc.pos
    omega
  have hmax := hq.capacity_le hown
  refine List.map_congr_left fun x hx => ?_
  have hxin := hland.2 x hx
  rw [← hsame, intToSizeT_of_le (by omega), shifted_eq hxin.1 (by omega)]

theorem appendLands_room (h : Bounded p) {parcel : Parcel} {offset : ℕ}
    (hlands : AppendLands o p w parcel offset len) (hsrc : InSource parcel offset len)
    (hroom : AppendRoom o p w len q w') :
    q.mDataPos + len ≤ q.mDataCapacity ∧
      ∀ off ∈ shiftedObjects p parcel offset len, off + objectSize ≤ q.mDataCapacity := by
  obtain ⟨hpos, hobjects⟩ := h.appendLands_shifted hlands hsrc hroom
  refine ⟨hpos, fun off hoff => ?_⟩
  rcases hobjects with hnil | ⟨-, hland, hshift⟩
  · rw [shiftedObjects, hnil] at hoff
    cases hoff
  · rw [hshift] at hoff
    obtain ⟨x, hx, rfl⟩ := List.mem_map.mp hoff
    have hxin := hland.2 x hx
    omega

theorem appended (h : Bounded p) {parcel : Parcel} {offset : ℕ}
    (hlands : AppendLands o p w parcel offset len)
    (ha : Appended o p w parcel offset len p' w') : Bounded p' := by
  cases ha with
  | unchanged => exact h
  | failed hst hcap hg => exact h.grown hg
  | plain hsrc hroom hnone =>
      obtain ⟨hq, hsize⟩ := h.appendRoom hroom
      exact hq.appendData (h.appendLands_room hlands hsrc hroom).1 hsize hsrc.pos
  | tableFull hsrc hroom hsome hfull =>
      obtain ⟨hq, hsize⟩ := h.appendRoom hroom
      exact (hq.appendData (h.appendLands_room hlands hsrc hroom).1 hsize hsrc.pos).give
  | listed hsrc hroom henough =>
      obtain ⟨hq, hsize⟩ := h.appendRoom hroom
      obtain ⟨hpos, hin⟩ := h.appendLands_room hlands hsrc hroom
      exact (hq.appendData hpos hsize hsrc.pos).appendObjects hin
  | listedGrown hsrc hroom hsome hfull =>
      obtain ⟨hq, hsize⟩ := h.appendRoom hroom
      obtain ⟨hpos, hin⟩ := h.appendLands_room hlands hsrc hroom
      exact ((hq.appendData hpos hsize hsrc.pos).tableGrown _).appendObjects hin

/-! ### Setting the data -/

theorem emptied (h : Bounded p) (hown : p.mOwner = false) : Bounded (emptied p) :=
  (h.resized hown (Nat.zero_le _)).congr rfl rfl rfl rfl h.stores

theorem restarted (h : Bounded p) {desired : ℕ} (hr : Restarted o p w desired st p' w') :
    Bounded p' ∧ (st = .noError → p'.mOwner = false ∧ desired ≤ p'.mDataCapacity) := by
  cases hr with
  | tooLarge hbig => exact ⟨h, nofun⟩
  | received hown hc => exact h.freeBuffer.initState.continued hc
  | refused hown hlt => exact ⟨h.congr rfl rfl rfl rfl h.stores, nofun⟩
  | replaced bs l hown hmax ha hl =>
      have hbytes : Bounded { p with bytes := bs } := h.congr rfl rfl rfl rfl h.stores
      have hrel : Bounded (Parcel.releaseObjects o
          (Parcel.account { p with bytes := bs } p.mOpenAshmemSize l)) := by
        refine (hbytes.account fun e he => ?_).releaseObjects
        rcases hl with ⟨-, -, rfl⟩ | ⟨b, -, -, -, rfl⟩
        · obtain rfl := List.mem_singleton.mp he
          trivial
        · rcases List.mem_pair.mp he with rfl | rfl
          · trivial
          · trivial
      have hown' : (Parcel.releaseObjects o
          (Parcel.account { p with bytes := bs } p.mOpenAshmemSize l)).mOwner = false :=
        (releaseObjects_owner _).trans hown
      refine ⟨⟨Nat.zero_le _, fun _ => hmax, ?_, fun htrue => ?_, hrel.stores⟩,
        fun _ => ⟨hown', le_rfl⟩⟩
      · intro _ hnone
        cases hnone
      · exact absurd (hown'.symm.trans htrue) (by decide)
  | freed b hown hb hzero =>
      have hbytes : Bounded { p with bytes := o.stale w.allocs } :=
        h.congr rfl rfl rfl rfl h.stores
      have hrel : Bounded (Parcel.releaseObjects o (Parcel.account
          { p with bytes := o.stale w.allocs } p.mOpenAshmemSize [.free b])) :=
        (hbytes.account (by simp [Effect.InBounds])).releaseObjects
      have hown' := (releaseObjects_owner (o := o) (Parcel.account
        { p with bytes := o.stale w.allocs } p.mOpenAshmemSize [.free b])).trans hown
      exact ⟨hrel.emptied hown', fun _ => ⟨hown', hzero.le.trans (Nat.zero_le _)⟩⟩
  | kept hown hb hle hmax =>
      have hown' := (releaseObjects_owner (o := o) p).trans hown
      refine ⟨h.releaseObjects.emptied hown', fun _ => ⟨hown', ?_⟩⟩
      exact hle.trans (releaseObjects_capacity p).ge

theorem freeDataNoInit (h : Bounded p) (hf : freeDataNoInit o p w = (p', w')) : Bounded p' := by
  obtain ⟨-, rfl, -⟩ | ⟨-, -, rfl, -⟩ | ⟨b, -, -, rfl, -⟩ := freeDataNoInit_cases hf
  · exact h.freeBuffer
  · exact h.releaseObjects.freeTable
  · have hfreed : Bounded ((Parcel.releaseObjects o p).record [.free b]) :=
      h.releaseObjects.account (by simp [Effect.InBounds])
    exact hfreed.freeTable

theorem readOnly (h : Bounded p) (hr : ReadOnly p p') : Bounded p' := by
  obtain ⟨l, hl, hload⟩ := hr.loads
  have hin : ∀ e ∈ p'.log, e.InBounds := by
    rw [hl]
    refine h.log_append fun e he => ?_
    have hload := hload e he
    cases e with
    | store off len cap => exact hload.elim
    | _ => trivial
  rw [hr.same]
  exact h.congr rfl rfl rfl rfl hin

end Bounded

/-! ### Runs -/

theorem Bounded.outcome (h : Bounded p) {op : Op} (hlands : op.Lands o (p, w))
    (hout : Outcome o p w op p' w') : Bounded p' := by
  cases hout with
  | plain hlen hw =>
      cases op with
      | writeAligned | writeUnpadded | writeInplace | write | writeChars =>
          cases hlen
          exact h.written hlands hw
      | _ => cases hlen
  | object hw => exact h.objectWritten hlands hw
  | notDup hdup => exact h
  | dup hdup hw =>
      have hland := hlands.resolve_left (not_le.mpr hdup)
      exact (h.account (by simp [Effect.InBounds])).objectWritten hland hw
  | dupFailed hdup hst hw =>
      have hland := hlands.resolve_left (not_le.mpr hdup)
      have hq := (h.account (by simp [Effect.InBounds])).objectWritten hland hw
      exact hq.account (by simp [Effect.InBounds])
  | append ha => exact h.appended hlands ha
  | sameSize => exact h
  | sizeFailed hst hc => exact (h.continued hc).1
  | sized hc =>
      obtain ⟨hq, hroom⟩ := h.continued hc
      exact hq.resized (hroom rfl).1 (hroom rfl).2
  | sameCapacity => exact h
  | capacity hlt hc => exact (h.continued hc).1
  | position hle => exact h.congr rfl rfl rfl rfl h.stores
  | sameData => exact h
  | dataFailed hst hr => exact (h.restarted hr).1
  | data hr =>
      rename_i buffer q
      obtain ⟨hq, hroom⟩ := h.restarted hr
      have hstore := hq.store 0 buffer (by simpa using (hroom rfl).2)
      exact (hstore.resized (hroom rfl).1 (hroom rfl).2).congr rfl rfl rfl rfl hstore.stores
  | received hf =>
      have hq := h.freeDataNoInit hf
      exact ⟨le_rfl, nofun, nofun, fun _ => rfl, hq.stores⟩
  | freed hf => exact (h.freeDataNoInit hf).initState
  | allowFds => exact h.congr rfl rfl rfl rfl h.stores
  | setError => exact h.congr rfl rfl rfl rfl h.stores
  | reads _ hr => exact h.readOnly hr

/-- In every run whose operations land, every state is bounded. -/
theorem bounded_of_reach {s : State} (h : Reach (step o) (fun s op => op.Lands o s) (new, w) s) :
    Bounded s.1 :=
  h.invariant (I := fun s => Bounded s.1) Bounded.init
    fun _ _ _ hb hlands hstep => hb.outcome hlands (outcome hstep)

end Invariant

/-- In every run whose operations land in the data, no store lies outside the data as large as
they are when it is made, and the size is within the capacity. -/
theorem stores_in_bounds (o : Oracle) (w : World) {s : State}
    (h : Reach (step o) (fun s op => op.Lands o s) (new, w) s) :
    (∀ off len capacity, .store off len capacity ∈ s.1.log → off + len ≤ capacity) ∧
      s.1.mDataSize ≤ s.1.mDataCapacity :=
  ⟨fun _ _ _ he => (bounded_of_reach h).stores _ he, (bounded_of_reach h).size_le⟩

/-! ### Runs of a process whose allocations succeed -/

/-- Every allocation succeeds, fresh memory is zero, `dup` counts up from `100`, and there is
no shared memory. -/
def plainOracle : Oracle where
  allocates := fun _ => true
  fresh := fun _ _ => 0
  stale := fun _ _ => 0
  dup := fun n => 100 + n
  ashmemSize := fun _ => -1

instance (p : Parcel) (len : ℕ) : Decidable (FitsGrown p len) :=
  inferInstanceAs (Decidable (if p.mOwner = false ∧ p.mData = none then True
    else if p.mOwner = true ∨ p.mDataCapacity < growTo p len then
      p.mDataPos + len ≤ growTo p len
    else min p.mDataPos (growTo p len) + len ≤ p.mDataCapacity))

instance (o : Oracle) (p : Parcel) (w : World) (len : ℕ) : Decidable (Lands o p w len) :=
  inferInstanceAs (Decidable (_ ∨ _ ∧ (_ ∨ FitsGrown p len)))

/-- A writer of plain data that lands, or a new position. -/
def Op.plainLands (o : Oracle) (s : State) : Op → Bool
  | .setDataPosition _ => true
  | .writeAligned val => decide (Parcel.Lands o s.1 s.2 val.length)
  | .write data => decide (Parcel.Lands o s.1 s.2 (padUnsafe data.length))
  | _ => false

theorem lands_of_plainLands {o : Oracle} {s : State} {op : Op} (h : op.plainLands o s = true) :
    op.Lands o s := by
  cases op with
  | setDataPosition pos => trivial
  | writeAligned val =>
      have hlands : Parcel.Lands o s.1 s.2 val.length := of_decide_eq_true h
      exact hlands
  | write data =>
      have hlands : Parcel.Lands o s.1 s.2 (padUnsafe data.length) := of_decide_eq_true h
      exact hlands
  | _ => cases h

/-- A run that overwrites, within the data, and then grows them. -/
theorem stores_in_bounds_grown : ∃ s,
    Reach (step plainOracle) (fun s op => op.Lands plainOracle s) (new, World.init) s ∧
      s.1.mDataSize = 14 ∧
      (∀ off len capacity, .store off len capacity ∈ s.1.log → off + len ≤ capacity) ∧
        s.1.mDataSize ≤ s.1.mDataCapacity := by
  obtain ⟨s, hs, hsize⟩ := Option.map_eq_some_iff.mp
    (show (runChecked (step plainOracle) (fun s op => op.plainLands plainOracle s = true)
        (new, World.init)
        [.writeAligned (bytesLE 4 7), .setDataPosition 2, .writeAligned (bytesLE 4 8),
          .write [1, 2, 3, 4, 5]]).map (fun s => s.1.mDataSize) = some 14 by decide +kernel)
  have hreach := (reach_of_runChecked hs).mono fun _ _ => lands_of_plainLands
  exact ⟨s, hreach, hsize, stores_in_bounds plainOracle World.init hreach⟩

/-- A value written beyond the end of the data: they grow from four bytes to twelve, the value
is stored at one thousand. -/
theorem store_beyond_the_data : ¬ ∀ s : State,
    Reach (step plainOracle) (fun _ _ => True) (new, World.init) s →
      (∀ off len capacity, .store off len capacity ∈ s.1.log → off + len ≤ capacity) ∧
        s.1.mDataSize ≤ s.1.mDataCapacity := by
  intro hall
  obtain ⟨s, hs, hlast⟩ : ∃ s,
      runActions (step plainOracle) (new, World.init)
        [.writeAligned (bytesLE 4 7), .setDataPosition 1000, .writeAligned (bytesLE 4 8)] = .ok s ∧
      s.1.log.getLast? = some (.store 1000 4 12) := ⟨_, rfl, by decide +kernel⟩
  have hle := (hall s (reach_of_runActions hs)).1 1000 4 12 (List.mem_of_getLast? hlast)
  omega

end Parcel

end BinderForLinux
