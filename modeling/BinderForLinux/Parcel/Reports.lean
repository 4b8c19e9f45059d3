import BinderForLinux.Parcel.Bounds
import BinderForLinux.Parcel.Typed

/-!
# What a write reports

A parcel to which only was appended has its position at the end of data of its own. There
`growData` has three ends, and one of them leaves `mError` as it was.
-/

namespace BinderForLinux

namespace Parcel

open Library

variable {o : Oracle} {p p' q : Parcel} {w w' : World} {st : Status} {len n : ℕ}

/-- The position is at the end of data of the parcel's own. -/
structure Packed (p : Parcel) : Prop where
  pos_eq : p.mDataPos = p.mDataSize
  size_le : p.mDataSize ≤ p.mDataCapacity
  capacity_le : p.mDataCapacity ≤ int32Max
  own : p.mOwner = false
  empty : p.mData = none → p.mDataCapacity = 0

/-- Only the contents, the table and the records are others. -/
structure SamePlace (p p' : Parcel) : Prop where
  pos : p'.mDataPos = p.mDataPos
  size : p'.mDataSize = p.mDataSize
  capacity : p'.mDataCapacity = p.mDataCapacity
  own : p'.mOwner = p.mOwner
  data : p'.mData = p.mData

theorem SamePlace.refl (p : Parcel) : SamePlace p p := ⟨rfl, rfl, rfl, rfl, rfl⟩

theorem SamePlace.trans (h : SamePlace p q) (h' : SamePlace q p') : SamePlace p p' :=
  ⟨h'.pos.trans h.pos, h'.size.trans h.size, h'.capacity.trans h.capacity, h'.own.trans h.own,
    h'.data.trans h.data⟩

theorem Packed.same (h : Packed p) (hs : SamePlace p p') : Packed p' where
  pos_eq := by rw [hs.pos, hs.size, h.pos_eq]
  size_le := by rw [hs.size, hs.capacity]; exact h.size_le
  capacity_le := by rw [hs.capacity]; exact h.capacity_le
  own := hs.own.trans h.own
  empty := fun hnone => hs.capacity.trans (h.empty (hs.data.symm.trans hnone))

theorem packed_new : Packed new := ⟨rfl, le_rfl, Nat.zero_le _, rfl, fun _ => rfl⟩

def capacityWith (p : Parcel) (len : ℕ) : ℕ :=
  if p.mDataSize + len ≤ p.mDataCapacity then p.mDataCapacity else (p.mDataSize + len) * 3 / 2

/-- The parcel with room for `len` bytes, and otherwise the same data. -/
structure HasRoom (p q : Parcel) (len : ℕ) : Prop where
  packed : Packed q
  size : q.mDataSize = p.mDataSize
  below : ∀ i, i < p.mDataSize → q.bytes i = p.bytes i
  room : q.mDataSize + len ≤ q.mDataCapacity
  capacity : q.mDataCapacity = capacityWith p len
  block : q.mData = none → p.mData = none
  error : q.mError = p.mError
  kept : p.mDataSize + len ≤ p.mDataCapacity → q.mData = p.mData

theorem HasRoom.refl (h : Packed p) (hroom : p.mDataSize + len ≤ p.mDataCapacity) :
    HasRoom p p len :=
  ⟨h, rfl, fun _ _ => rfl, hroom, (if_pos hroom).symm, id, rfl, fun _ => rfl⟩

/-- Data as large as `growData` would make them are refused. -/
def TooLarge (p : Parcel) (len : ℕ) : Prop :=
  p.mDataCapacity < p.mDataSize + len ∧ int32Max < (p.mDataSize + len) * 3 / 2

instance (p : Parcel) (len : ℕ) : Decidable (TooLarge p len) :=
  inferInstanceAs (Decidable (p.mDataCapacity < p.mDataSize + len ∧
    int32Max < (p.mDataSize + len) * 3 / 2))

theorem Packed.fits_eq (h : Packed p) (hlen : len ≤ int32Max + 3) :
    fits p len = decide (p.mDataSize + len ≤ p.mDataCapacity) := by
  have hsize := h.size_le
  have hcap := h.capacity_le
  unfold fits
  rw [h.pos_eq, Nat.mod_eq_of_lt]
  simp only [int32Max, sizeT] at *
  omega

/-- The ends of `growData` where the data are full: too large, which is not recorded, out of
memory, which is, and room. -/
theorem Packed.growData_cases (h : Packed p) (w : World)
    (hfull : p.mDataCapacity < p.mDataSize + len) (hlen : len ≤ int32Max + 3) :
    (TooLarge p len ∧ growData o p w len = (.badValue, p, w)) ∨
    (¬ TooLarge p len ∧ o.allocates w.allocs = false ∧
      growData o p w len = (.noMemory, outOfMemory p, w.tried 1)) ∨
    (¬ TooLarge p len ∧ o.allocates w.allocs = true ∧
      ∃ q w', growData o p w len = (.noError, q, w') ∧ HasRoom p q len) := by
  have hsize := h.size_le
  have hcap := h.capacity_le
  have hto : growTo p len = (p.mDataSize + len) * 3 / 2 := by
    unfold growTo sizeT
    simp only [int32Max] at hcap hlen
    rw [Nat.mod_eq_of_lt (by omega)]
  have hlt : p.mDataSize < growTo p len := by omega
  by_cases hbig : TooLarge p len
  · refine .inl ⟨hbig, ?_⟩
    unfold growData
    split
    · rfl
    · change (if growTo p len ≤ p.mDataSize then _ else continueWrite o p w (growTo p len)) = _
      have hmax : growTo p len > int32Max := hto ▸ hbig.2
      rw [if_neg (not_le.mpr hlt), continueWrite, if_pos hmax]
  · have hle : growTo p len ≤ int32Max := by
      rw [hto]
      by_contra hmore
      exact hbig ⟨hfull, not_le.mp hmore⟩
    have hgrow : growData o p w len = continueWrite o p w (growTo p len) := by
      unfold growData
      rw [if_neg (by omega)]
      exact if_neg (not_le.mpr hlt)
    have hown : ¬ p.mOwner = true := by rw [h.own]; exact Bool.false_ne_true
    have hwith : capacityWith p len = growTo p len := by
      rw [capacityWith, if_neg (not_le.mpr hfull), hto]
    rw [hgrow, continueWrite, if_neg (not_lt.mpr hle), if_neg hown]
    refine .inr ?_
    cases hb : p.mData with
    | none =>
        have hzero := h.empty hb
        cases ha : o.allocates w.allocs with
        | false => exact .inl ⟨hbig, rfl, by simp [World.alloc, ha, outOfMemory, World.tried, hb]⟩
        | true =>
            simp only [World.alloc, ha, if_true]
            refine .inr ⟨hbig, trivial, _, _, rfl,
              ⟨⟨rfl, Nat.zero_le _, hle, h.own, fun hnone => absurd hnone (Option.some_ne_none _)⟩,
                ?_, ?_, ?_, hwith.symm, fun hnone => absurd hnone (Option.some_ne_none _), rfl,
                fun hroom => ?_⟩⟩
            · change 0 = p.mDataSize
              omega
            · omega
            · change 0 + len ≤ growTo p len
              omega
            · omega
    | some b =>
        have hmore : growTo p len > p.mDataCapacity := by omega
        simp only [keptObjects_of_le (le_of_lt hlt), dropObjects_of_le (le_of_lt hlt),
          lt_self_iff_false, if_false, resize, if_pos hmore]
        cases ha : o.allocates w.allocs with
        | false => exact .inl ⟨hbig, rfl, by simp [World.alloc, ha, outOfMemory, World.tried, hb]⟩
        | true =>
            simp only [World.alloc, ha, if_true]
            refine .inr ⟨hbig, trivial, _, _, rfl,
              ⟨⟨h.pos_eq, ?_, hle, h.own, fun hnone => absurd hnone (Option.some_ne_none _)⟩, rfl,
                fun i hi => ?_, ?_, hwith.symm, fun hnone => absurd hnone (Option.some_ne_none _),
                rfl, fun hroom => ?_⟩⟩
            · change p.mDataSize ≤ growTo p len
              omega
            · exact if_pos (by omega)
            · change p.mDataSize + len ≤ growTo p len
              omega
            · omega

/-! ### What was written -/

/-- The bytes were appended. -/
structure HasWritten (p p' : Parcel) (bs : List UInt8) : Prop where
  pos : p'.mDataPos = p.mDataPos + bs.length
  size : p'.mDataSize = p.mDataSize + bs.length
  carries : Carries p'.bytes p.mDataPos bs
  below : ∀ i, i < p.mDataPos → p'.bytes i = p.bytes i

theorem HasWritten.trans {bs bs' : List UInt8} (h : HasWritten p q bs) (h' : HasWritten q p' bs') :
    HasWritten p p' (bs ++ bs') where
  pos := by rw [h'.pos, h.pos, List.length_append, Nat.add_assoc]
  size := by rw [h'.size, h.size, List.length_append, Nat.add_assoc]
  carries := by
    have hpos := h.pos
    refine carries_append.mpr ⟨h.carries.congr fun i _ hi => h'.below i (by omega), ?_⟩
    rw [← hpos]
    exact h'.carries
  below := fun i hi => by
    have hpos := h.pos
    rw [h'.below i (by omega), h.below i hi]

theorem HasRoom.written {r : Parcel} {bs : List UInt8} (h : Packed p) (hq : HasRoom p q bs.length)
    (hs : SamePlace (finishWrite q bs.length) r)
    (hbelow : ∀ i, i < q.mDataPos → r.bytes i = q.bytes i)
    (hcarries : Carries r.bytes q.mDataPos bs) : Packed r ∧ HasWritten p r bs := by
  have hend := hq.packed.pos_eq
  have hsize := hq.size
  have hpos := h.pos_eq
  have hroom := hq.room
  have hsize' : r.mDataSize = q.mDataSize + bs.length := by
    rw [hs.size]
    change max q.mDataSize (q.mDataPos + bs.length) = _
    omega
  have hpos' : r.mDataPos = q.mDataPos + bs.length := hs.pos
  have hcap : r.mDataCapacity = q.mDataCapacity := hs.capacity
  refine ⟨⟨by omega, by omega, hcap ▸ hq.packed.capacity_le, hs.own.trans hq.packed.own,
    fun hnone => hcap.trans (hq.packed.empty (hs.data.symm.trans hnone))⟩, by omega, by omega, ?_,
    fun i hi => ?_⟩
  · rwa [show p.mDataPos = q.mDataPos by omega]
  · rw [hbelow i (by omega), hq.below i (by omega)]

theorem HasRoom.stored {bs : List UInt8} (h : Packed p) (hq : HasRoom p q (padUnsafe bs.length))
    (log : List Effect) :
    Packed (finishWrite { q with
        bytes := putBytes (maskPadding q bs.length).bytes q.mDataPos bs
        log := log } (padUnsafe bs.length)) ∧
      HasWritten p (finishWrite { q with
        bytes := putBytes (maskPadding q bs.length).bytes q.mDataPos bs
        log := log } (padUnsafe bs.length)) (padded bs) := by
  have hcarries : Carries (putBytes (maskPadding q bs.length).bytes q.mDataPos bs) q.mDataPos
      (padded bs) :=
    carries_padded fun i h₁ h₂ => maskPadding_zero q bs.length h₁ h₂
  have hbelow (i : ℕ) (hi : i < q.mDataPos) :
      putBytes (maskPadding q bs.length).bytes q.mDataPos bs i = q.bytes i := by
    rw [putBytes_outside (.inl (by omega)), maskPadding_below q _ (by omega)]
  rw [← length_padded] at hq ⊢
  exact hq.written h ⟨rfl, rfl, rfl, rfl, rfl⟩ hbelow hcarries

/-! ### Writers at the end -/

/-- The data have room for `len` bytes, or get it. -/
def HasMemory (o : Oracle) (p : Parcel) (w : World) (len : ℕ) : Prop :=
  p.mDataSize + len ≤ p.mDataCapacity ∨ ¬ TooLarge p len ∧ o.allocates w.allocs = true

instance (o : Oracle) (p : Parcel) (w : World) (len : ℕ) : Decidable (HasMemory o p w len) :=
  inferInstanceAs (Decidable (p.mDataSize + len ≤ p.mDataCapacity ∨
    ¬ TooLarge p len ∧ o.allocates w.allocs = true))

theorem samePlace_outOfMemory (p : Parcel) : SamePlace p (outOfMemory p) :=
  ⟨rfl, rfl, rfl, rfl, rfl⟩

theorem Packed.storeGrowing_cases (h : Packed p) (w : World) (hlen : len ≤ int32Max + 3)
    (put : Parcel → Status × Parcel) :
    (HasMemory o p w len ∧ ∃ q w', storeGrowing o p w len put = ((put q).1, (put q).2, w') ∧
      HasRoom p q len) ∨
    (¬ HasMemory o p w len ∧ ∃ st p' w', storeGrowing o p w len put = (st, p', w') ∧
      st ≠ .noError ∧ SamePlace p p') := by
  unfold storeGrowing HasMemory
  rw [h.fits_eq hlen]
  by_cases hroom : p.mDataSize + len ≤ p.mDataCapacity
  · rw [if_pos (decide_eq_true hroom)]
    exact .inl ⟨.inl hroom, p, w, rfl, .refl h hroom⟩
  · have hno : ¬ decide (p.mDataSize + len ≤ p.mDataCapacity) = true := by simpa using hroom
    rw [if_neg hno]
    rcases h.growData_cases (o := o) w (not_le.mp hroom) hlen with
      ⟨hbig, hgrow⟩ | ⟨hsmall, hrefused, hgrow⟩ | ⟨hsmall, hallocates, q, w', hgrow, hq⟩
    · rw [hgrow]
      exact .inr ⟨fun hmem => hmem.elim hroom fun hmem => hmem.1 hbig, _, _, _, rfl, by decide,
        .refl p⟩
    · rw [hgrow]
      refine .inr ⟨fun hmem => hmem.elim hroom fun hmem => ?_, _, _, _, rfl, by decide,
        samePlace_outOfMemory p⟩
      rw [hrefused] at hmem
      exact Bool.false_ne_true hmem.2
    · rw [hgrow]
      exact .inl ⟨.inr ⟨hsmall, hallocates⟩, q, w', rfl, hq⟩

theorem Packed.writeAligned_cases (h : Packed p) (w : World) {val : List UInt8}
    (hlen : val.length ≤ int32Max) :
    (HasMemory o p w val.length ∧ ∃ p' w', writeAligned o p w val = (.noError, p', w') ∧
      Packed p' ∧ HasWritten p p' val ∧ p'.mDataCapacity = capacityWith p val.length ∧
        p'.mError = p.mError) ∨
    (¬ HasMemory o p w val.length ∧ ∃ st p' w', writeAligned o p w val = (st, p', w') ∧
      st ≠ .noError ∧ SamePlace p p') := by
  rcases h.storeGrowing_cases (o := o) w (by omega : val.length ≤ int32Max + 3)
    (fun p => (.noError, finishWrite (p.store p.mDataPos val) val.length)) with
    ⟨hmem, q, w', hwrite, hq⟩ | hfailed
  · obtain ⟨hend, hwritten⟩ := hq.written h
      (r := finishWrite (q.store q.mDataPos val) val.length) ⟨rfl, rfl, rfl, rfl, rfl⟩
      (fun i hi => putBytes_outside (.inl hi)) (carries_putBytes _ _ _)
    exact .inl ⟨hmem, _, w', hwrite, hend, hwritten, hq.capacity, hq.error⟩
  · exact .inr hfailed

/-- `writeInplace` gives no place without a record of it. -/
def Unplaced (p : Parcel) (len : ℕ) : Prop := int32Max < len ∨ TooLarge p (padUnsafe len)

instance (p : Parcel) (len : ℕ) : Decidable (Unplaced p len) :=
  inferInstanceAs (Decidable (int32Max < len ∨ TooLarge p (padUnsafe len)))

theorem Packed.writeInplace_cases (h : Packed p) (w : World) (len : ℕ) :
    (Unplaced p len ∧ writeInplace o p w len = (none, p, w)) ∨
    (¬ Unplaced p len ∧ p.mDataCapacity < p.mDataSize + padUnsafe len ∧
      ∃ w', writeInplace o p w len = (none, outOfMemory p, w')) ∨
    (¬ Unplaced p len ∧ ∃ q w', writeInplace o p w len =
        (some q.mDataPos, finishWrite (maskPadding q len) (padUnsafe len), w') ∧
      HasRoom p q (padUnsafe len)) := by
  unfold writeInplace Unplaced
  by_cases hlen : len > int32Max
  · rw [if_pos hlen]
    exact .inl ⟨.inl hlen, rfl⟩
  · have hpad := padUnsafe_le len
    have hsize := h.size_le
    have hcap := h.capacity_le
    have hpos := h.pos_eq
    have hnowrap : ¬ (p.mDataPos + padUnsafe len) % sizeT < p.mDataPos := by
      rw [Nat.mod_eq_of_lt]
      · omega
      · simp only [int32Max, sizeT] at *
        omega
    rw [if_neg hlen]
    dsimp only
    rw [if_neg hnowrap, h.fits_eq (by omega)]
    by_cases hroom : p.mDataSize + padUnsafe len ≤ p.mDataCapacity
    · rw [if_pos (decide_eq_true hroom)]
      exact .inr (.inr ⟨fun hun => hun.elim hlen fun hbig => by have := hbig.1; omega, p, w, rfl,
        .refl h hroom⟩)
    · have hno : ¬ decide (p.mDataSize + padUnsafe len ≤ p.mDataCapacity) = true := by
        simpa using hroom
      rw [if_neg hno]
      rcases h.growData_cases (o := o) w (not_le.mp hroom) (by omega) with
        ⟨hbig, hgrow⟩ | ⟨hsmall, -, hgrow⟩ | ⟨hsmall, -, q, w', hgrow, hq⟩
      · rw [hgrow]
        exact .inl ⟨.inr hbig, rfl⟩
      · rw [hgrow]
        exact .inr (.inl ⟨fun hun => hun.elim hlen hsmall, not_le.mp hroom, _, rfl⟩)
      · rw [hgrow]
        exact .inr (.inr ⟨fun hun => hun.elim hlen hsmall, q, w', rfl, hq⟩)

/-! ### `write` and `writeString16` -/

/-- The calls of `write` and of `writeString16`, where no string is a null pointer. -/
inductive Payload
  | write (data : List UInt8)
  | string16 (str : Option (List UInt16))

def Payload.call (o : Oracle) (p : Parcel) (w : World) : Payload → Status × Parcel × World
  | .write data => Parcel.write o p w data
  | .string16 none => writeInt32 o p w (-1)
  | .string16 (some str) => writeString16 o p w str

def Payload.encoding : Payload → List UInt8
  | .write data => padded data
  | .string16 none => intBytes 4 (-1)
  | .string16 (some str) => intBytes 4 str.length ++ padded (charsBytes str ++ bytesLE 2 0)

/-- The length word that is written before the rest. -/
def Payload.lengthWord : Payload → List UInt8
  | .string16 (some str) => intBytes 4 str.length
  | _ => []

/-- Success is reported if and only if the argument was written, and otherwise at most its length
word was. -/
def Payload.Reports (x : Payload) (p : Parcel) (st : Status) (p' : Parcel) : Prop :=
  (st = .noError ↔ HasWritten p p' x.encoding) ∧
    (¬ HasWritten p p' x.encoding →
      p'.mDataSize = p.mDataSize ∨ HasWritten p p' x.lengthWord)

/-- `writeInplace` fails, and `mError` has no error that could be returned; or it has one, and
nothing is written to a parcel without a block. -/
def Payload.Unreported (o : Oracle) (p : Parcel) (w : World) : Payload → Prop
  | .write data =>
      p.mError = .noError ∧ data.length ≤ int32Max ∧ TooLarge p (padUnsafe data.length) ∨
        p.mError ≠ .noError ∧ data = [] ∧ p.mData = none
  | .string16 none => False
  | .string16 (some str) => p.mError = .noError ∧ HasMemory o p w 4 ∧
      (int32Max < 2 * str.length + 2 ∨
        capacityWith p 4 < p.mDataSize + 4 + padUnsafe (2 * str.length + 2) ∧
          int32Max < (p.mDataSize + 4 + padUnsafe (2 * str.length + 2)) * 3 / 2)

theorem Payload.reports_of_written {x : Payload} (hwritten : HasWritten p p' x.encoding) :
    x.Reports p .noError p' :=
  ⟨iff_of_true rfl hwritten, fun hno => absurd hwritten hno⟩

theorem Payload.reports_of_failed {x : Payload} (hst : st ≠ .noError)
    (hno : ¬ HasWritten p p' x.encoding)
    (hsize : p'.mDataSize = p.mDataSize ∨ HasWritten p p' x.lengthWord) : x.Reports p st p' :=
  ⟨iff_of_false hst hno, fun _ => hsize⟩

theorem TooLarge.pos (h : TooLarge p len) (hend : Packed p) : 0 < len := by
  have hfull := h.1
  have hsize := hend.size_le
  omega

theorem not_hasWritten_of_same {bs : List UInt8} (hs : p'.mDataSize = p.mDataSize)
    (hpos : 0 < bs.length) : ¬ HasWritten p p' bs := fun hwritten => by
  have hsize := hwritten.size
  omega

/-- `write` reports what it did unless `writeInplace` fails without a record, or succeeds with a
null pointer in spite of one. -/
theorem Packed.writeBytes_reports (h : Packed p) {data : List UInt8}
    (hcall : write o p w data = (st, p', w')) : (Payload.write data).Reports p st p' ↔
      ¬ (Payload.write data).Unreported o p w := by
  have hlength := length_padded data
  have hpad := le_padUnsafe data.length
  have hsize := h.size_le
  unfold write at hcall
  by_cases hlen : data.length > int32Max
  · rw [if_pos hlen] at hcall
    cases hcall
    refine iff_of_true (Payload.reports_of_failed (by decide) ?_ (.inl rfl)) fun hun => ?_
    · exact not_hasWritten_of_same rfl (by change 0 < (padded data).length; omega)
    · rcases hun with hun | hun
      · have := hun.2.1
        omega
      · rw [hun.2.1] at hlen
        exact Nat.not_lt_zero _ hlen
  · rw [if_neg hlen] at hcall
    rcases h.writeInplace_cases (o := o) w data.length with
      ⟨hun, hplace⟩ | ⟨hplaced, hfull, w₁, hplace⟩ | ⟨hplaced, q, w₁, hplace, hq⟩
    · have hbig := hun.resolve_left hlen
      have hpos : 0 < (padded data).length := by have := hbig.pos h; omega
      have hno : ¬ HasWritten p p (padded data) := not_hasWritten_of_same rfl hpos
      rw [hplace] at hcall
      cases hcall
      by_cases herr : p.mError = .noError
      · refine iff_of_false (fun hrep => hno (hrep.1.mp herr)) fun hrep => ?_
        exact hrep (.inl ⟨herr, by omega, hbig⟩)
      · refine iff_of_true (Payload.reports_of_failed herr hno (.inl rfl)) fun hrep => ?_
        rcases hrep with hrep | hrep
        · exact herr hrep.1
        · rw [hrep.2.1] at hpos
          exact Nat.lt_irrefl _ hpos
    · have hpos : 0 < (padded data).length := by omega
      rw [hplace] at hcall
      cases hcall
      refine iff_of_true (Payload.reports_of_failed (fun heq => by cases heq)
        (not_hasWritten_of_same rfl hpos) (.inl rfl)) fun hrep => ?_
      rcases hrep with hrep | hrep
      · exact hplaced (.inr hrep.2.2)
      · rw [hrep.2.1] at hpos
        exact Nat.lt_irrefl _ hpos
    · rw [hplace, maskPadding_same] at hcall
      dsimp only [finishWrite] at hcall
      by_cases hnull : q.mData = none ∧ q.mOwner = false
      · have hzero := hq.packed.empty hnull.1
        have hroom := hq.room
        have hnil : data = [] := List.length_eq_zero_iff.mp (by omega)
        subst hnil
        rw [if_pos hnull] at hcall
        cases hcall
        have hwritten := (hq.stored h (maskPadding q 0).log).2
        rw [List.length_nil, putBytes_nil] at hwritten
        have hblock := hq.block hnull.1
        have herror := hq.error
        refine ⟨fun hrep hun => ?_, fun hun => ⟨iff_of_true ?_ hwritten, fun hno =>
          absurd hwritten hno⟩⟩
        · have hst := hrep.1.mpr hwritten
          rcases hun with hun | hun
          · have := hun.2.2.pos h
            exact Nat.lt_irrefl _ this
          · exact hun.1 (herror ▸ hst)
        · by_contra hne
          exact hun (.inr ⟨fun heq => hne (herror.trans heq), rfl, hblock⟩)
      · rw [if_neg hnull] at hcall
        cases hcall
        refine iff_of_true (Payload.reports_of_written (hq.stored h _).2) fun hrep => ?_
        rcases hrep with hrep | hrep
        · exact hplaced (.inr hrep.2.2)
        · obtain ⟨-, hnil, hblock⟩ := hrep
          have hzero : padUnsafe data.length = 0 := by rw [hnil]; rfl
          exact hnull ⟨(hq.kept (by omega)).trans hblock, hq.packed.own⟩

theorem Packed.writeInt32_null_reports (h : Packed p)
    (hcall : writeInt32 o p w (-1) = (st, p', w')) :
    (Payload.string16 none).Reports p st p' := by
  unfold writeInt32 at hcall
  have hlen : (intBytes 4 (-1)).length ≤ int32Max := by
    rw [length_intBytes]
    decide
  rcases h.writeAligned_cases (o := o) w hlen with
    ⟨-, q, w₁, hwrite, -, hwritten, -⟩ | ⟨-, st₁, q, w₁, hwrite, hst, hs⟩
  · rw [hwrite] at hcall
    cases hcall
    exact Payload.reports_of_written hwritten
  · rw [hwrite] at hcall
    cases hcall
    refine Payload.reports_of_failed hst ?_ (.inl hs.size)
    exact not_hasWritten_of_same hs.size
      (by change 0 < (intBytes 4 (-1)).length; rw [length_intBytes]; decide)

/-- `writeString16` reports what it did unless `writeInplace` fails without a record. -/
theorem Packed.writeString16_reports (h : Packed p) {str : List UInt16}
    (hcall : writeString16 o p w str = (st, p', w')) :
    (Payload.string16 (some str)).Reports p st p' ↔
      ¬ (Payload.string16 (some str)).Unreported o p w := by
  have hchars : (charsBytes str ++ bytesLE 2 0).length = 2 * str.length + 2 := by simp
  have hlength := length_padded (charsBytes str ++ bytesLE 2 0)
  have hpad := le_padUnsafe (2 * str.length + 2)
  rw [hchars] at hlength
  have hencoding : (Payload.string16 (some str)).encoding.length =
      4 + padUnsafe (2 * str.length + 2) := by
    change (intBytes 4 str.length ++ padded (charsBytes str ++ bytesLE 2 0)).length = _
    rw [List.length_append, length_intBytes, hlength]
  have hword : (intBytes 4 (str.length : ℤ)).length = 4 := length_intBytes _ _
  have hshort : (intBytes 4 (str.length : ℤ)).length ≤ int32Max := by rw [hword]; decide
  unfold writeString16 writeInt32 at hcall
  rcases h.writeAligned_cases (o := o) w hshort with
    ⟨hmem, q, w₁, hwrite, hend, hwritten, hcap, herr⟩ | ⟨hmem, st₁, q, w₁, hwrite, hst, hs⟩
  · rw [hwrite] at hcall
    rw [hword] at hmem hcap
    have hsize := hwritten.size
    rw [hword] at hsize
    have hun : (Payload.string16 (some str)).Unreported o p w ↔
        q.mError = .noError ∧ Unplaced q (2 * str.length + 2) := by
      unfold Payload.Unreported Unplaced TooLarge
      rw [hcap, hsize, herr]
      exact ⟨fun hun => ⟨hun.1, hun.2.2⟩, fun hun => ⟨hun.1, hmem, hun.2⟩⟩
    -- After the length word nothing, or all of the string.
    have hfailed (hs : q.mDataSize = p'.mDataSize) :
        ¬ HasWritten p p' (Payload.string16 (some str)).encoding := fun hall => by
      have := hall.size
      omega
    unfold andThen writeChars at hcall
    rw [hun]
    rcases hend.writeInplace_cases (o := o) w₁ (2 * str.length + 2) with
      ⟨hunplaced, hplace⟩ | ⟨hplaced, hfull, w₂, hplace⟩ | ⟨hplaced, r, w₂, hplace, hr⟩
    · dsimp only at hcall
      rw [hplace] at hcall
      cases hcall
      by_cases hq : p'.mError = .noError
      · refine iff_of_false (fun hrep => hfailed rfl (hrep.1.mp hq)) fun hrep => ?_
        exact hrep ⟨hq, hunplaced⟩
      · exact iff_of_true (Payload.reports_of_failed hq (hfailed rfl) (.inr hwritten))
          fun hrep => hq hrep.1
    · dsimp only at hcall
      rw [hplace] at hcall
      cases hcall
      refine iff_of_true (Payload.reports_of_failed (fun heq => by cases heq) (hfailed rfl)
        (.inr ?_)) fun hrep => hplaced hrep.2
      exact ⟨hwritten.pos, hwritten.size, hwritten.carries, hwritten.below⟩
    · dsimp only at hcall
      rw [hplace, maskPadding_same] at hcall
      cases hcall
      have hstores (m : Data) : putBytes (putBytes m r.mDataPos (charsBytes str))
          (r.mDataPos + 2 * str.length) (bytesLE 2 0) =
            putBytes m r.mDataPos (charsBytes str ++ bytesLE 2 0) := by
        rw [putBytes_append, length_charsBytes]
      rw [← hchars] at hr
      have hstored := (hr.stored hend (((maskPadding r (2 * str.length + 2)).log ++
        [.store r.mDataPos (charsBytes str).length r.mDataCapacity]) ++
        [.store (r.mDataPos + 2 * str.length) (bytesLE 2 0).length r.mDataCapacity])).2
      rw [← hstores, hchars] at hstored
      exact iff_of_true (Payload.reports_of_written (hwritten.trans hstored))
        fun hrep => hplaced hrep.2
  · rw [hword] at hmem
    have hcall' : (st₁, q, w₁) = (st, p', w') := by
      rw [hwrite] at hcall
      unfold andThen at hcall
      cases st₁ with
      | noError => exact absurd rfl hst
      | _ => exact hcall
    cases hcall'
    refine iff_of_true (Payload.reports_of_failed hst ?_ (.inl hs.size)) fun hrep => hmem hrep.2.1
    exact not_hasWritten_of_same hs.size (by omega)

/-! ### Parcels to which only was appended -/

/-- The operations that append to the data. `writeAligned` is for values of four or eight
bytes. -/
def Op.Appends : Op → Prop
  | .writeAligned val => val.length = 4 ∨ val.length = 8
  | .writeUnpadded _ => True
  | .writeInplace _ => True
  | .write _ => True
  | .writeChars _ => True
  | .writeObject _ _ => True
  | .writeDupFileDescriptor _ => True
  | .appendFrom _ _ _ => True
  | .allowFds _ => True
  | _ => False

theorem HasRoom.finish {r : Parcel} (hq : HasRoom p q len) (hs : SamePlace (finishWrite q len) r) :
    Packed r := by
  have hend := hq.packed.pos_eq
  have hroom := hq.room
  have hsize : r.mDataSize = max q.mDataSize (q.mDataPos + len) := hs.size
  have hpos : r.mDataPos = q.mDataPos + len := hs.pos
  have hcap : r.mDataCapacity = q.mDataCapacity := hs.capacity
  exact ⟨by omega, by omega, hcap ▸ hq.packed.capacity_le, hs.own.trans hq.packed.own,
    fun hnone => hcap.trans (hq.packed.empty (hs.data.symm.trans hnone))⟩

theorem Packed.room (h : Packed p) (hlen : len ≤ int32Max + 3) (hroom : Room o p w len q w') :
    HasRoom p q len := by
  cases hroom with
  | fits hfits =>
      rw [h.fits_eq hlen, decide_eq_true_eq] at hfits
      exact .refl h hfits
  | grown hfits hg =>
      rw [h.fits_eq hlen, decide_eq_false_iff_not] at hfits
      rcases h.growData_cases (o := o) w (not_le.mp hfits) hlen with
        ⟨-, hgrow⟩ | ⟨-, -, hgrow⟩ | ⟨-, -, r, w₁, hgrow, hr⟩
      · rw [hgrow] at hg
        cases hg
      · rw [hgrow] at hg
        cases hg
      · rw [hgrow] at hg
        cases hg
        exact hr

theorem samePlace_of_grown (hg : Grown o p w len st p' w') (hst : st ≠ .noError) :
    SamePlace p p' := by
  cases hg with
  | failed _ err n l _ _ => exact ⟨rfl, rfl, rfl, rfl, rfl⟩
  | _ => exact absurd rfl hst

theorem samePlace_maskPadding (p : Parcel) (len : ℕ) : SamePlace p (maskPadding p len) := by
  rw [maskPadding_same]
  exact ⟨rfl, rfl, rfl, rfl, rfl⟩

theorem samePlace_flagFds (val : FlatObject) (p : Parcel) : SamePlace p (flagFds val p) := by
  unfold flagFds
  split <;> exact ⟨rfl, rfl, rfl, rfl, rfl⟩

theorem samePlace_finishWrite (hs : SamePlace p q) (len : ℕ) :
    SamePlace (finishWrite p len) (finishWrite q len) := by
  refine ⟨?_, ?_, hs.capacity, hs.own, hs.data⟩
  · change q.mDataPos + len = p.mDataPos + len
    rw [hs.pos]
  · change max q.mDataSize (q.mDataPos + len) = max p.mDataSize (p.mDataPos + len)
    rw [hs.pos, hs.size]

theorem Packed.putObject {val : FlatObject} {nullMetaData : Bool} (hq : HasRoom p q objectSize) :
    Packed (Parcel.putObject o q val nullMetaData).2 := by
  have hstored : SamePlace q (objectStored val q) := ⟨rfl, rfl, rfl, rfl, rfl⟩
  have hflags := hstored.trans (samePlace_flagFds val (objectStored val q))
  rcases hput : Parcel.putObject o q val nullMetaData with ⟨st, p'⟩
  obtain ⟨-, -, -, rfl⟩ | ⟨-, -, -, rfl⟩ | ⟨-, -, -, rfl⟩ := putObject_cases hput
  · exact hq.packed.same hstored
  · exact hq.finish (samePlace_finishWrite hflags _)
  · refine hq.finish (samePlace_finishWrite (hflags.trans ?_) _)
    exact ⟨rfl, rfl, rfl, rfl, rfl⟩

theorem Packed.writeObject (h : Packed p) {val : FlatObject} {nullMetaData : Bool}
    (hcall : Parcel.writeObject o p w val nullMetaData = (st, p', w')) : Packed p' := by
  have hlen : objectSize ≤ int32Max + 3 := by decide
  cases objectWritten hcall with
  | failed hst _ hg => exact h.same (samePlace_of_grown hg hst)
  | tableFull hroom _ => exact (h.room hlen hroom).packed.same ⟨rfl, rfl, rfl, rfl, rfl⟩
  | put hroom _ => exact Packed.putObject (h.room hlen hroom)
  | @putGrown q w₁ hroom _ =>
      have hq := h.room hlen hroom
      have hs : SamePlace q (tableGrown q ((q.objects.length + 2) * 3 / 2)) :=
        ⟨rfl, rfl, rfl, rfl, rfl⟩
      exact Packed.putObject (p := p) ⟨hq.packed.same hs, hq.size, hq.below, hq.room, hq.capacity,
        hq.block, hq.error, hq.kept⟩

theorem samePlace_appendObject (o : Oracle) (p : Parcel) (w : World) (st : Status) (off : ℕ) :
    SamePlace p (appendObject o (st, p, w) off).2.1 := by
  obtain ⟨-, hr⟩ | ⟨-, st', hr⟩ := appendObject_cases (rfl : appendObject o (st, p, w) off = _)
  · rw [hr]
    exact ⟨rfl, rfl, rfl, rfl, rfl⟩
  · rw [hr]
    exact ⟨rfl, rfl, rfl, rfl, rfl⟩

theorem samePlace_appendObjects (o : Oracle) (p : Parcel) (w : World) (offs : List ℕ) :
    SamePlace p (appendObjects o p w offs).2.1 := by
  unfold appendObjects
  suffices hfold : ∀ r : Status × Parcel × World,
      SamePlace r.2.1 (offs.foldl (appendObject o) r).2.1 from hfold (.noError, p, w)
  induction offs with
  | nil => exact fun r => .refl _
  | cons off offs ih =>
      intro r
      rw [List.foldl_cons]
      exact (samePlace_appendObject o r.2.1 r.2.2 r.1 off).trans (ih _)

theorem Packed.appendFrom (h : Packed p) {parcel : Parcel} {offset : ℕ}
    (hcall : Parcel.appendFrom o p w parcel offset len = (st, p', w')) : Packed p' := by
  have hroomy {q : Parcel} {w₁ : World} (hlen : len ≤ int32Max)
      (hroom : AppendRoom o p w len q w₁) : Packed (appendData q parcel offset len) := by
    have hq : HasRoom p q len := by
      cases hroom with
      | enough hle => exact .refl h hle
      | grown hfull hg =>
          rcases h.growData_cases (o := o) w hfull (by omega) with
            ⟨-, hgrow⟩ | ⟨-, -, hgrow⟩ | ⟨-, -, r, w₂, hgrow, hr⟩
          · rw [hgrow] at hg
            cases hg
          · rw [hgrow] at hg
            cases hg
          · rw [hgrow] at hg
            cases hg
            exact hr
    refine hq.finish ⟨rfl, ?_, rfl, rfl, rfl⟩
    change q.mDataSize + len = max q.mDataSize (q.mDataPos + len)
    have := hq.packed.pos_eq
    omega
  cases appended hcall with
  | unchanged => exact h
  | failed hst _ hg => exact h.same (samePlace_of_grown hg hst)
  | plain hsrc hroom _ => exact hroomy hsrc.le_max hroom
  | tableFull hsrc hroom _ _ => exact (hroomy hsrc.le_max hroom).same ⟨rfl, rfl, rfl, rfl, rfl⟩
  | listed hsrc hroom _ => exact (hroomy hsrc.le_max hroom).same (samePlace_appendObjects _ _ _ _)
  | listedGrown hsrc hroom _ _ =>
      refine (hroomy hsrc.le_max hroom).same (.trans ?_ (samePlace_appendObjects _ _ _ _))
      exact ⟨rfl, rfl, rfl, rfl, rfl⟩

/-- What is stored through the result of `writeInplace` has no part in where the data end. -/
theorem Packed.writeInplace (h : Packed p) {d : Option ℕ} {r : Parcel}
    (hcall : Parcel.writeInplace o p w len = (d, p', w')) (hs : SamePlace p' r) : Packed r := by
  rcases h.writeInplace_cases (o := o) w len with
    ⟨-, hplace⟩ | ⟨-, -, w₁, hplace⟩ | ⟨-, q, w₁, hplace, hq⟩
  · rw [hplace] at hcall
    cases hcall
    exact h.same hs
  · rw [hplace] at hcall
    cases hcall
    exact h.same ((samePlace_outOfMemory p).trans hs)
  · rw [hplace] at hcall
    cases hcall
    exact hq.finish ((samePlace_finishWrite (samePlace_maskPadding q len) _).trans hs)

theorem Packed.write (h : Packed p) {data : List UInt8}
    (hcall : Parcel.write o p w data = (st, p', w')) : Packed p' := by
  unfold Parcel.write at hcall
  split at hcall
  · cases hcall
    exact h
  · rcases hplace : Parcel.writeInplace o p w data.length with ⟨_ | d, q, w₁⟩
    · rw [hplace] at hcall
      cases hcall
      exact h.writeInplace hplace (.refl _)
    · rw [hplace] at hcall
      dsimp only at hcall
      split at hcall
      · cases hcall
        exact h.writeInplace hplace (.refl _)
      · cases hcall
        exact h.writeInplace hplace ⟨rfl, rfl, rfl, rfl, rfl⟩

theorem Packed.writeChars (h : Packed p) {str : List UInt16}
    (hcall : Parcel.writeChars o p w str = (st, p', w')) : Packed p' := by
  unfold Parcel.writeChars at hcall
  rcases hplace : Parcel.writeInplace o p w (2 * str.length + 2) with ⟨_ | d, q, w₁⟩
  · rw [hplace] at hcall
    cases hcall
    exact h.writeInplace hplace (.refl _)
  · rw [hplace] at hcall
    cases hcall
    exact h.writeInplace hplace ⟨rfl, rfl, rfl, rfl, rfl⟩

theorem Packed.storeGrowing (h : Packed p) {val : List UInt8} (hlen : val.length ≤ int32Max + 3)
    (hcall : Parcel.storeGrowing o p w val.length (fun p =>
      (.noError, finishWrite (p.store p.mDataPos val) val.length)) = (st, p', w')) :
    Packed p' := by
  rcases h.storeGrowing_cases (o := o) w hlen (fun p =>
    (.noError, finishWrite (p.store p.mDataPos val) val.length)) with
    ⟨-, q, w₁, hwrite, hq⟩ | ⟨-, st₁, q, w₁, hwrite, -, hs⟩
  · rw [hwrite] at hcall
    cases hcall
    exact hq.finish ⟨rfl, rfl, rfl, rfl, rfl⟩
  · rw [hwrite] at hcall
    cases hcall
    exact h.same hs

theorem Packed.writeUnpadded (h : Packed p) {data : List UInt8}
    (hcall : Parcel.writeUnpadded o p w data = (st, p', w')) : Packed p' := by
  unfold Parcel.writeUnpadded at hcall
  split at hcall
  · cases hcall
    exact h
  split at hcall
  · cases hcall
    exact h
  · exact h.storeGrowing (by omega) hcall

theorem Packed.writeDupFileDescriptor (h : Packed p) {fd : ℕ}
    (hcall : Parcel.writeDupFileDescriptor o p w fd = (st, p', w')) : Packed p' := by
  have hrecord : Packed (p.record [.dup fd (o.dup w.dups)]) := h.same ⟨rfl, rfl, rfl, rfl, rfl⟩
  unfold Parcel.writeDupFileDescriptor Parcel.writeFileDescriptor at hcall
  dsimp only at hcall
  split at hcall
  · cases hcall
    exact h
  split at hcall
  · rename_i hwrite
    cases hcall
    exact hrecord.writeObject hwrite
  · rename_i hwrite
    cases hcall
    exact (hrecord.writeObject hwrite).same ⟨rfl, rfl, rfl, rfl, rfl⟩

theorem Packed.step (h : Packed p) {op : Op} (happends : op.Appends)
    (hstep : Parcel.step o (p, w) op = .ok (p', w')) : Packed p' := by
  cases op with
  | writeAligned val =>
      obtain ⟨st, hr⟩ := exists_status (Except.ok.inj hstep)
      refine h.storeGrowing ?_ hr
      rcases happends with hlen | hlen <;> rw [hlen] <;> decide
  | writeUnpadded data =>
      obtain ⟨st, hr⟩ := exists_status (Except.ok.inj hstep)
      exact h.writeUnpadded hr
  | writeInplace len =>
      have hr : Parcel.writeInplace o p w len =
          ((Parcel.writeInplace o p w len).1, p', w') := Prod.ext rfl (Except.ok.inj hstep)
      exact h.writeInplace hr (.refl _)
  | write data =>
      obtain ⟨st, hr⟩ := exists_status (Except.ok.inj hstep)
      exact h.write hr
  | writeChars str =>
      obtain ⟨st, hr⟩ := exists_status (Except.ok.inj hstep)
      exact h.writeChars hr
  | writeObject val nullMetaData =>
      obtain ⟨st, hr⟩ := exists_status (Except.ok.inj hstep)
      exact h.writeObject hr
  | writeDupFileDescriptor fd =>
      obtain ⟨st, hr⟩ := exists_status (Except.ok.inj hstep)
      exact h.writeDupFileDescriptor hr
  | appendFrom parcel offset len =>
      obtain ⟨st, hr⟩ := exists_status (Except.ok.inj hstep)
      exact h.appendFrom hr
  | allowFds allow =>
      cases hstep
      exact h.same ⟨rfl, rfl, rfl, rfl, rfl⟩
  | _ => exact happends.elim

theorem packed_of_reach {s : State} {w₀ : World}
    (hreach : Reach (Parcel.step o) (fun _ op => op.Appends) (new, w₀) s) : Packed s.1 :=
  hreach.invariant (I := fun s => Packed s.1) packed_new fun _ _ _ h happends hstep =>
    h.step happends hstep

/-- On a parcel to which only was appended, `write` and `writeString16` report what they did,
unless `writeInplace` fails and leaves no error in `mError`. -/
theorem write_reports {s : State} {w₀ : World}
    (hreach : Reach (Parcel.step o) (fun _ op => op.Appends) (new, w₀) s) {x : Payload}
    (hcall : x.call o s.1 s.2 = (st, p', w')) :
    x.Reports s.1 st p' ↔ ¬ x.Unreported o s.1 s.2 := by
  have h := packed_of_reach hreach
  cases x with
  | write data => exact h.writeBytes_reports hcall
  | string16 str =>
      cases str with
      | none => exact iff_of_true (h.writeInt32_null_reports hcall) id
      | some str => exact h.writeString16_reports hcall

/-- A number and a string are appended. -/
theorem write_reports_sample : ∃ s : State,
    Reach (Parcel.step plainOracle) (fun _ op => op.Appends) (new, World.init) s ∧
      (Payload.string16 (some [65, 66])).Reports s.1
        ((Payload.string16 (some [65, 66])).call plainOracle s.1 s.2).1
        ((Payload.string16 (some [65, 66])).call plainOracle s.1 s.2).2.1 := by
  have happends : (Op.writeAligned (bytesLE 4 7)).Appends := .inl rfl
  have hreach : Reach (Parcel.step plainOracle) (fun _ op => op.Appends) (new, World.init)
      (writeAligned plainOracle new World.init (bytesLE 4 7)).2 := .tail .refl happends rfl
  have hun : ¬ (Payload.string16 (some [65, 66])).Unreported plainOracle
      (writeAligned plainOracle new World.init (bytesLE 4 7)).2.1
      (writeAligned plainOracle new World.init (bytesLE 4 7)).2.2 := by
    rintro ⟨-, -, hlarge | hlarge⟩
    · exact absurd hlarge (by decide)
    · have hsize : (writeAligned plainOracle new World.init (bytesLE 4 7)).2.1.mDataSize = 4 := by
        decide +kernel
      rw [hsize] at hlarge
      exact absurd hlarge.2 (by decide)
  exact ⟨_, hreach, (write_reports hreach rfl).mpr hun⟩

/-- A string whose bytes would be more than `INT32_MAX` is not written, and no error is
reported. -/
theorem writeString16_unreported : ∃ str : List UInt16,
    ¬ (Payload.string16 (some str)).Reports new
      ((Payload.string16 (some str)).call plainOracle new World.init).1
      ((Payload.string16 (some str)).call plainOracle new World.init).2.1 := by
  obtain ⟨str, hlength⟩ : ∃ str : List UInt16, str.length = 2 ^ 30 :=
    ⟨_, List.length_replicate (n := 2 ^ 30) (a := 0)⟩
  have hmem : HasMemory plainOracle new World.init 4 := .inr ⟨by decide, rfl⟩
  have hlarge : int32Max < 2 * str.length + 2 := by rw [hlength]; decide
  exact ⟨str, fun hrep =>
    (packed_new.writeString16_reports rfl).mp hrep ⟨rfl, hmem, .inl hlarge⟩⟩

end Parcel

end BinderForLinux
