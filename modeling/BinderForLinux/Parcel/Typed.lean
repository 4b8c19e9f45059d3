import BinderForLinux.Parcel.Writers

/-!
# Typed values

Each typed writer appends the encoding of its value to a parcel that is being written: data
with a length, a terminator or padding, and for an object an entry in the table. The data may
grow at any point.
-/

namespace BinderForLinux

namespace Parcel

open Library

/-! ### Values and their encodings -/

def padded (bs : List UInt8) : List UInt8 :=
  bs ++ List.replicate (padUnsafe bs.length - bs.length) 0

@[simp] theorem length_padded (bs : List UInt8) : (padded bs).length = padUnsafe bs.length := by
  have := le_padUnsafe bs.length
  simp [padded]
  omega

def fdObject (fd : ℕ) (takeOwnership : Bool) : FlatObject :=
  { type := binderTypeFd, flags := 0x17f, binder := fd, cookie := if takeOwnership then 1 else 0 }

/-- A strong reference: a null pointer, an object of the process, or a proxy at an address. -/
inductive Strong
  | null
  | object (refs this : ℕ)
  | proxy (address handle : ℕ)
  deriving DecidableEq, Repr

def Strong.binder : Strong → IBinder
  | .null => .null
  | .object refs this => .localBinder refs this
  | .proxy _ handle => .remoteBinder handle

/-- The values that are written, each by its own writer. No list is a null pointer. -/
inductive Value
  | int32 (x : ℤ)
  | uint32 (x : ℕ)
  | int64 (x : ℤ)
  | uint64 (x : ℕ)
  | pointer (x : ℕ)
  | cString (str : List UInt8)
  | string8 (str : List UInt8)
  | string16 (str : List UInt16)
  | byteArray (val : Option (List UInt8))
  | int32Array (val : Option (List ℤ))
  | strongBinder (val : Strong)
  | fileDescriptor (fd : ℕ) (takeOwnership : Bool)
  deriving DecidableEq, Repr

def writeValue (o : Oracle) (p : Parcel) (w : World) : Value → Status × Parcel × World
  | .int32 x => writeInt32 o p w x
  | .uint32 x => writeUint32 o p w x
  | .int64 x => writeInt64 o p w x
  | .uint64 x => writeUint64 o p w x
  | .pointer x => writePointer o p w x
  | .cString str => writeCString o p w str
  | .string8 str => writeString8 o p w str
  | .string16 str => writeString16 o p w str
  | .byteArray val => writeByteArray o p w val
  | .int32Array val => writeInt32Array o p w val
  | .strongBinder val => writeStrongBinder o p w val.binder
  | .fileDescriptor fd takeOwnership => writeFileDescriptor o p w fd takeOwnership

def encodeArray (len : ℕ) : Option (List UInt8) → List UInt8
  | none => intBytes 4 (-1)
  | some bs => intBytes 4 len ++ padded bs

namespace Value

def encode : Value → List UInt8
  | .int32 x => intBytes 4 x
  | .uint32 x => bytesLE 4 x
  | .int64 x => intBytes 8 x
  | .uint64 x => bytesLE 8 x
  | .pointer x => bytesLE 8 x
  | .cString str => padded (str ++ [0])
  | .string8 str => intBytes 4 str.length ++ if str = [] then [] else padded (str ++ [0])
  | .string16 str => intBytes 4 str.length ++ padded (charsBytes str ++ bytesLE 2 0)
  | .byteArray val => encodeArray (val.elim 0 List.length) val
  | .int32Array val =>
      encodeArray (val.elim 0 List.length) (val.map (List.flatMap (intBytes 4)))
  | .strongBinder val => (flattenBinder val.binder).bytes
  | .fileDescriptor fd takeOwnership => (fdObject fd takeOwnership).bytes

/-- Whether the value gets an entry in the table of objects. -/
def listed : Value → Bool
  | .strongBinder val => (flattenBinder val.binder).binder ≠ 0
  | .fileDescriptor _ _ => true
  | _ => false

def entries (off : ℕ) (v : Value) : List ℕ := if v.listed then [off] else []

end Value

/-! ### Parcels that are being written -/

/-- The position is at the end of data of the parcel's own. -/
structure Ready (p : Parcel) : Prop where
  pos_eq : p.mDataPos = p.mDataSize
  size_le : p.mDataSize ≤ p.mDataCapacity
  own : p.mOwner = false
  empty : p.mData = none → p.mDataCapacity = 0
  fds : p.mAllowFds = true

/-- The bytes `bs` were appended, and the entries `objs`. -/
structure Extends (p p' : Parcel) (bs : List UInt8) (objs : List ℕ) : Prop where
  ready : Ready p'
  size : p'.mDataSize = p.mDataSize + bs.length
  below : ∀ i, i < p.mDataSize → p'.bytes i = p.bytes i
  carries : Carries p'.bytes p.mDataSize bs
  objects : p'.objects = p.objects ++ objs

theorem ready_new : Ready new := ⟨rfl, le_rfl, rfl, fun _ => rfl, rfl⟩

namespace Extends

variable {p q p' : Parcel} {bs bs' : List UInt8} {objs objs' : List ℕ}

theorem refl (h : Ready p) : Extends p p [] [] :=
  ⟨h, by simp, fun _ _ => rfl, by simp [Carries, getBytes], by simp⟩

theorem trans (h : Extends p q bs objs) (h' : Extends q p' bs' objs') :
    Extends p p' (bs ++ bs') (objs ++ objs') where
  ready := h'.ready
  size := by
    rw [h'.size, h.size, List.length_append]
    omega
  below := fun i hi => by
    have hsize := h.size
    rw [h'.below i (by omega), h.below i hi]
  carries := by
    refine carries_append.mpr ⟨h.carries.congr fun i _ hi => ?_, ?_⟩
    · have hsize := h.size
      exact h'.below i (by omega)
    · rw [← h.size]
      exact h'.carries
  objects := by rw [h'.objects, h.objects, List.append_assoc]

end Extends

section Writers

variable {o : Oracle} {p : Parcel} {w : World} {len : ℕ}

/-- The parcel that has room, and otherwise the same data. -/
structure Roomy (p q : Parcel) (len : ℕ) : Prop where
  ready : Ready q
  size : q.mDataSize = p.mDataSize
  below : ∀ i, i < p.mDataSize → q.bytes i = p.bytes i
  objects : q.objects = p.objects
  room : q.mDataSize + len ≤ q.mDataCapacity

theorem growData_ok (hall : ∀ n, o.allocates n = true) (h : Ready p) (hlen : 0 < len)
    (hmax : (p.mDataSize + len) * 3 / 2 ≤ int32Max)
    (hcap : p.mDataCapacity < p.mDataSize + len) :
    ∃ q w', growData o p w len = (.noError, q, w') ∧ Roomy p q len := by
  have hto : growTo p len = (p.mDataSize + len) * 3 / 2 := by
    unfold growTo sizeT
    unfold int32Max at hmax
    rw [Nat.mod_eq_of_lt (by omega)]
  have hlt : p.mDataSize < growTo p len := by omega
  have hle : growTo p len ≤ int32Max := hto ▸ hmax
  have hlen' : ¬ len > int32Max := by omega
  have hgrow : growData o p w len = continueWrite o p w (growTo p len) := by
    unfold growData
    rw [if_neg hlen']
    exact if_neg (not_le.mpr hlt)
  have hown : ¬ p.mOwner = true := by simp [h.own]
  rw [hgrow]
  unfold continueWrite
  rw [if_neg (not_lt.mpr hle), if_neg hown]
  cases hb : p.mData with
  | none =>
      simp only [World.alloc, hall, if_true]
      refine ⟨_, _, rfl, ⟨⟨rfl, Nat.zero_le _, h.own, nofun, h.fds⟩, ?_, ?_, rfl, ?_⟩⟩
      · have := h.empty hb
        have := h.size_le
        change 0 = p.mDataSize
        omega
      · have := h.empty hb
        have := h.size_le
        omega
      · change 0 + len ≤ growTo p len
        omega
  | some b =>
      have hlt' : growTo p len > p.mDataCapacity := by omega
      simp only [keptObjects_of_le (le_of_lt hlt), dropObjects_of_le (le_of_lt hlt),
        lt_self_iff_false, if_false, resize, if_pos hlt', World.alloc, hall, if_true]
      have hsize := h.size_le
      refine ⟨_, _, rfl, ⟨⟨h.pos_eq, ?_, h.own, nofun, h.fds⟩, rfl, ?_, rfl, ?_⟩⟩
      · change p.mDataSize ≤ growTo p len
        omega
      · intro i hi
        exact if_pos (by omega)
      · change p.mDataSize + len ≤ growTo p len
        omega

theorem fits_eq (h : Ready p) (hmax : (p.mDataSize + len) * 3 / 2 ≤ int32Max) :
    fits p len = decide (p.mDataSize + len ≤ p.mDataCapacity) := by
  unfold fits
  rw [h.pos_eq, Nat.mod_eq_of_lt]
  unfold int32Max at hmax
  unfold sizeT
  omega

theorem Roomy.refl (h : Ready p) (hroom : p.mDataSize + len ≤ p.mDataCapacity) : Roomy p p len :=
  ⟨h, rfl, fun _ _ => rfl, rfl, hroom⟩

theorem Roomy.extends {q r : Parcel} {bs : List UInt8} {objs : List ℕ}
    (hq : Roomy p q bs.length) (hpos : r.mDataPos = q.mDataPos + bs.length)
    (hsize : r.mDataSize = max q.mDataSize (q.mDataPos + bs.length))
    (hcap : r.mDataCapacity = q.mDataCapacity) (hown : r.mOwner = q.mOwner)
    (hdata : r.mData = q.mData) (hfds : r.mAllowFds = q.mAllowFds)
    (hbelow : ∀ i, i < q.mDataSize → r.bytes i = q.bytes i)
    (hcarries : Carries r.bytes q.mDataSize bs) (hobjs : r.objects = q.objects ++ objs) :
    Extends p r bs objs := by
  have hend := hq.ready.pos_eq
  have hle := hq.ready.size_le
  have hroom := hq.room
  have hsame := hq.size
  refine ⟨⟨by omega, by omega, hown.trans hq.ready.own, fun hnone => ?_, hfds.trans hq.ready.fds⟩,
    by omega, fun i hi => ?_, hsame ▸ hcarries, by rw [hobjs, hq.objects]⟩
  · exact hcap.trans (hq.ready.empty (hdata.symm.trans hnone))
  · rw [hbelow i (by omega), hq.below i hi]

theorem storeGrowing_ok (hall : ∀ n, o.allocates n = true) (h : Ready p)
    (hmax : (p.mDataSize + len) * 3 / 2 ≤ int32Max) (put : Parcel → Status × Parcel) :
    ∃ q w', storeGrowing o p w len put = ((put q).1, (put q).2, w') ∧ Roomy p q len := by
  unfold storeGrowing
  rw [fits_eq h hmax]
  by_cases hroom : p.mDataSize + len ≤ p.mDataCapacity
  · rw [if_pos (by simpa using hroom)]
    exact ⟨p, w, rfl, .refl h hroom⟩
  · have hsize := h.size_le
    obtain ⟨q, w', hgrow, hq⟩ := growData_ok (w := w) hall h (by omega) hmax (not_le.mp hroom)
    rw [if_neg (by simpa using hroom), hgrow]
    exact ⟨q, w', rfl, hq⟩

theorem writeAligned_extends (hall : ∀ n, o.allocates n = true) (h : Ready p) (val : List UInt8)
    (hmax : (p.mDataSize + val.length) * 3 / 2 ≤ int32Max) :
    ∃ p' w', writeAligned o p w val = (.noError, p', w') ∧ Extends p p' val [] := by
  obtain ⟨q, w', hwrite, hq⟩ := storeGrowing_ok (w := w) hall h hmax
    fun p => (.noError, finishWrite (p.store p.mDataPos val) val.length)
  refine ⟨_, w', hwrite, hq.extends rfl rfl rfl rfl rfl rfl (fun i hi => ?_) ?_
    (List.append_nil _).symm⟩
  · refine putBytes_outside (.inl ?_)
    rw [hq.ready.pos_eq]
    exact hi
  · rw [← hq.ready.pos_eq]
    exact carries_putBytes _ _ _

/-- `writeInplace` masks the padding, and the caller stores its bytes before it. -/
theorem carries_padded {m : Data} {off : ℕ} {bs : List UInt8}
    (hzero : ∀ i, off + bs.length ≤ i → i < off + padUnsafe bs.length → m i = 0) :
    Carries (putBytes m off bs) off (padded bs) := by
  refine carries_append.mpr ⟨carries_putBytes _ _ _, ?_⟩
  unfold Carries
  rw [List.length_replicate]
  refine List.ext_getElem (by simp) fun i h₁ h₂ => ?_
  have hi : i < padUnsafe bs.length - bs.length := by simpa using h₁
  simp only [getBytes, List.getElem_map, List.getElem_range, List.getElem_replicate]
  rw [putBytes_outside (.inr (by omega))]
  exact hzero _ (by omega) (by omega)

theorem maskPadding_zero (q : Parcel) (len : ℕ) {i : ℕ} (h₁ : q.mDataPos + len ≤ i)
    (h₂ : i < q.mDataPos + padUnsafe len) : (maskPadding q len).bytes i = 0 := by
  have hpad := padUnsafe_le len
  have hle := le_padUnsafe len
  have hdvd : 4 ∣ padUnsafe len := Dvd.intro_left _ rfl
  unfold maskPadding
  dsimp only
  rw [if_neg (by omega)]
  obtain ⟨j, rfl⟩ := Nat.exists_eq_add_of_le
    (show q.mDataPos + padUnsafe len - 4 ≤ i by omega)
  simp only [Parcel.store]
  rw [putBytes_inside (by simp; omega), List.getElem_append_right (by simp; omega),
    List.getElem_replicate]

theorem maskPadding_below (q : Parcel) (len : ℕ) {i : ℕ} (h : i < q.mDataPos) :
    (maskPadding q len).bytes i = q.bytes i := by
  have hpad := padUnsafe_le len
  have hle := le_padUnsafe len
  have hdvd : 4 ∣ padUnsafe len := Dvd.intro_left _ rfl
  unfold maskPadding
  dsimp only
  split
  · rfl
  · exact putBytes_outside (.inl (by omega))

theorem writeInplace_ok (hall : ∀ n, o.allocates n = true) (h : Ready p)
    (hmax : (p.mDataSize + padUnsafe len) * 3 / 2 ≤ int32Max) :
    ∃ q w', writeInplace o p w len =
      (some q.mDataPos, finishWrite (maskPadding q len) (padUnsafe len), w') ∧
        Roomy p q (padUnsafe len) := by
  have hle := le_padUnsafe len
  have hpos := h.pos_eq
  unfold writeInplace
  rw [if_neg (by omega)]
  dsimp only
  rw [fits_eq h hmax, if_neg]
  · by_cases hroom : p.mDataSize + padUnsafe len ≤ p.mDataCapacity
    · rw [if_pos (by simpa using hroom)]
      exact ⟨p, w, rfl, .refl h hroom⟩
    · have hsize := h.size_le
      obtain ⟨q, w', hgrow, hq⟩ := growData_ok (w := w) hall h (by omega) hmax (not_le.mp hroom)
      rw [if_neg (by simpa using hroom), hgrow]
      exact ⟨q, w', rfl, hq⟩
  · rw [Nat.mod_eq_of_lt]
    · omega
    · unfold int32Max at hmax
      unfold sizeT
      omega

theorem maskPadding_same (q : Parcel) (len : ℕ) :
    maskPadding q len =
      { q with bytes := (maskPadding q len).bytes, log := (maskPadding q len).log } := by
  unfold maskPadding
  dsimp only
  split
  · rfl
  · rfl

theorem Roomy.stored {q : Parcel} {bs : List UInt8} (hq : Roomy p q (padUnsafe bs.length))
    (log : List Effect) :
    Extends p (finishWrite { q with
        bytes := putBytes (maskPadding q bs.length).bytes q.mDataPos bs
        log := log } (padUnsafe bs.length)) (padded bs) [] := by
  have hpos := hq.ready.pos_eq
  have hcarries : Carries (putBytes (maskPadding q bs.length).bytes q.mDataPos bs) q.mDataSize
      (padded bs) := by
    rw [← hpos]
    exact carries_padded fun i h₁ h₂ => maskPadding_zero q bs.length h₁ h₂
  have hbelow (i : ℕ) (hi : i < q.mDataSize) :
      putBytes (maskPadding q bs.length).bytes q.mDataPos bs i = q.bytes i := by
    rw [putBytes_outside (.inl (by omega)), maskPadding_below q _ (by omega)]
  rw [← length_padded] at hq ⊢
  exact hq.extends rfl rfl rfl rfl rfl rfl hbelow hcarries (by simp [finishWrite])

theorem write_extends (hall : ∀ n, o.allocates n = true) (h : Ready p) (data : List UInt8)
    (hpos : 0 < data.length ∨ 0 < p.mDataSize)
    (hmax : (p.mDataSize + padUnsafe data.length) * 3 / 2 ≤ int32Max) :
    ∃ p' w', write o p w data = (.noError, p', w') ∧ Extends p p' (padded data) [] := by
  have hle := le_padUnsafe data.length
  obtain ⟨q, w', hplace, hq⟩ := writeInplace_ok (w := w) hall h hmax
  have hdata : ¬ (q.mData = none ∧ q.mOwner = false) := fun hnull => by
    have hempty := hq.ready.empty hnull.1
    have hroom := hq.room
    have hsize := hq.size
    omega
  unfold write
  rw [if_neg (by omega), hplace, maskPadding_same]
  dsimp only [finishWrite]
  rw [if_neg hdata]
  exact ⟨_, w', rfl, hq.stored _⟩

theorem writeChars_extends (hall : ∀ n, o.allocates n = true) (h : Ready p) (str : List UInt16)
    (hmax : (p.mDataSize + padUnsafe (2 * str.length + 2)) * 3 / 2 ≤ int32Max) :
    ∃ p' w', writeChars o p w str = (.noError, p', w') ∧
      Extends p p' (padded (charsBytes str ++ bytesLE 2 0)) [] := by
  obtain ⟨q, w', hplace, hq⟩ := writeInplace_ok (w := w) hall h hmax
  have hlen : 2 * str.length + 2 = (charsBytes str ++ bytesLE 2 0).length := by simp
  have hstores (m : Data) : putBytes (putBytes m q.mDataPos (charsBytes str))
      (q.mDataPos + 2 * str.length) (bytesLE 2 0) =
        putBytes m q.mDataPos (charsBytes str ++ bytesLE 2 0) := by
    rw [putBytes_append, length_charsBytes]
  unfold writeChars
  rw [hplace, maskPadding_same]
  refine ⟨_, w', rfl, ?_⟩
  rw [hlen] at hq ⊢
  have hext := hq.stored (((maskPadding q (charsBytes str ++ bytesLE 2 0).length).log ++
    [.store q.mDataPos (charsBytes str).length q.mDataCapacity]) ++
    [.store (q.mDataPos + 2 * str.length) (bytesLE 2 0).length q.mDataCapacity])
  rw [← hstores] at hext
  exact hext

theorem putObject_extends {q : Parcel} (hq : Roomy p q objectSize) (val : FlatObject)
    (nullMetaData : Bool) :
    ∃ p', putObject o q val nullMetaData = (.noError, p') ∧
      Extends p p' val.bytes (if nullMetaData ∨ val.binder ≠ 0 then [p.mDataSize] else []) := by
  have hpos := hq.ready.pos_eq
  have hsize := hq.size
  have hbelow (i : ℕ) (hi : i < q.mDataSize) :
      putBytes q.bytes q.mDataPos val.bytes i = q.bytes i :=
    putBytes_outside (.inl (by omega))
  have hcarries : Carries (putBytes q.bytes q.mDataPos val.bytes) q.mDataSize val.bytes := by
    rw [← hpos]
    exact carries_putBytes _ _ _
  have hq' : Roomy p q val.bytes.length := by
    rw [FlatObject.length_bytes]
    exact hq
  -- Only the flags depend on the type.
  obtain ⟨known, has, hflag⟩ : ∃ known has, flagFds val (objectStored val q) =
      { objectStored val q with mFdsKnown := known, mHasFds := has } := by
    unfold flagFds
    split
    · exact ⟨true, true, rfl⟩
    · exact ⟨_, _, rfl⟩
  rcases hput : putObject o q val nullMetaData with ⟨st, p'⟩
  obtain ⟨-, -, hfds, -⟩ | ⟨rfl, hnull, hbinder, rfl⟩ | ⟨rfl, hlist, -, rfl⟩ := putObject_cases hput
  · rw [hq.ready.fds] at hfds
    cases hfds
  · refine ⟨_, rfl, ?_⟩
    rw [if_neg (by simp [hnull, hbinder]), hflag, ← FlatObject.length_bytes val]
    exact hq'.extends rfl rfl rfl rfl rfl rfl hbelow hcarries
      (by simp [finishWrite, objectStored, Parcel.store])
  · refine ⟨_, rfl, ?_⟩
    rw [if_pos hlist, hflag, ← FlatObject.length_bytes val, hpos, hsize]
    exact hq'.extends rfl rfl rfl rfl rfl rfl hbelow hcarries rfl

theorem writeObject_extends (hall : ∀ n, o.allocates n = true) (h : Ready p) (val : FlatObject)
    (nullMetaData : Bool) (hmax : (p.mDataSize + objectSize) * 3 / 2 ≤ int32Max) :
    ∃ p' w', writeObject o p w val nullMetaData = (.noError, p', w') ∧
      Extends p p' val.bytes (if nullMetaData ∨ val.binder ≠ 0 then [p.mDataSize] else []) := by
  obtain ⟨q, w₁, hgrow, hq⟩ : ∃ q w₁,
      (if fits p objectSize then (.noError, p, w) else growData o p w objectSize) =
        (Status.noError, q, w₁) ∧ Roomy p q objectSize := by
    rw [fits_eq h hmax]
    by_cases hroom : p.mDataSize + objectSize ≤ p.mDataCapacity
    · rw [if_pos (by simpa using hroom)]
      exact ⟨p, w, rfl, .refl h hroom⟩
    · rw [if_neg (by simpa using hroom)]
      exact growData_ok hall h (by decide) hmax (not_le.mp hroom)
  unfold writeObject
  dsimp only
  rw [hgrow]
  dsimp only
  by_cases hen : p.objects.length < p.mObjectsCapacity
  · obtain ⟨p', hput, hext⟩ := putObject_extends (o := o) hq val nullMetaData
    rw [if_pos (by simpa using hen)]
    dsimp only
    rw [hput]
    exact ⟨p', w₁, rfl, hext⟩
  · have hq' : Roomy p (tableGrown q ((q.objects.length + 2) * 3 / 2)) objectSize :=
      ⟨⟨hq.ready.pos_eq, hq.ready.size_le, hq.ready.own, hq.ready.empty, hq.ready.fds⟩, hq.size,
        hq.below, hq.objects, hq.room⟩
    obtain ⟨p', hput, hext⟩ := putObject_extends (o := o) hq' val nullMetaData
    rw [if_neg (by simpa using hen)]
    unfold growObjects
    simp only [World.alloc, hall, if_true]
    unfold tableGrown at hput
    rw [hput]
    exact ⟨p', _, rfl, hext⟩

theorem andThen_extends {r : Status × Parcel × World} {p₁ : Parcel} {w₁ : World}
    {f : Parcel → World → Status × Parcel × World} {bs bs' : List UInt8}
    (hr : r = (.noError, p₁, w₁)) (hext : Extends p p₁ bs [])
    (hf : ∃ p' w', f p₁ w₁ = (.noError, p', w') ∧ Extends p₁ p' bs' []) :
    ∃ p' w', andThen r f = (.noError, p', w') ∧ Extends p p' (bs ++ bs') [] := by
  obtain ⟨p', w', hf', hext'⟩ := hf
  refine ⟨p', w', ?_, hext.trans hext'⟩
  rw [hr]
  exact hf'

theorem writeArray_extends (hall : ∀ n, o.allocates n = true) (h : Ready p) (n : ℕ)
    (val : Option (List UInt8)) (hn : n ≤ int32Max)
    (hmax : (p.mDataSize + (encodeArray n val).length) * 3 / 2 ≤ int32Max) :
    ∃ p' w', writeArray o p w n val = (.noError, p', w') ∧ Extends p p' (encodeArray n val) [] := by
  unfold writeArray
  rw [if_neg (not_lt.mpr hn)]
  cases val with
  | none => exact writeAligned_extends hall h _ hmax
  | some bs =>
      simp only [encodeArray, List.length_append, length_intBytes, length_padded] at hmax
      obtain ⟨p₁, w₁, hlen, hext⟩ := writeAligned_extends (w := w) hall h (intBytes 4 (n : ℤ))
        (by rw [length_intBytes]; omega)
      have hsize := hext.size
      rw [length_intBytes] at hsize
      exact andThen_extends hlen hext
        (write_extends hall hext.ready bs (.inr (by omega)) (by omega))

theorem length_flatMap_intBytes (l : List ℤ) :
    (l.flatMap (intBytes 4)).length = 4 * l.length := by
  induction l with
  | nil => rfl
  | cons x l ih =>
      rw [List.flatMap_cons, List.length_append, length_intBytes, ih, List.length_cons]
      omega

theorem writeValue_extends (hall : ∀ n, o.allocates n = true) (h : Ready p) (v : Value)
    (hmax : (p.mDataSize + v.encode.length) * 3 / 2 ≤ int32Max) :
    ∃ p' w', writeValue o p w v = (.noError, p', w') ∧
      Extends p p' v.encode (v.entries p.mDataSize) := by
  cases v with
  | int32 x => exact writeAligned_extends hall h _ hmax
  | uint32 x => exact writeAligned_extends hall h _ hmax
  | int64 x => exact writeAligned_extends hall h _ hmax
  | uint64 x => exact writeAligned_extends hall h _ hmax
  | pointer x => exact writeAligned_extends hall h _ hmax
  | cString str =>
      refine write_extends hall h (str ++ [0]) (.inl (by simp)) ?_
      rw [← length_padded]
      exact hmax
  | string8 str =>
      simp only [Value.encode, List.length_append, length_intBytes] at hmax
      obtain ⟨p₁, w₁, hlen, hext⟩ := writeAligned_extends (w := w) hall h
        (intBytes 4 (str.length : ℤ)) (by rw [length_intBytes]; omega)
      refine andThen_extends hlen hext ?_
      by_cases hnil : str = []
      · subst hnil
        exact ⟨p₁, w₁, rfl, .refl hext.ready⟩
      · rw [if_neg hnil, length_padded] at hmax
        rw [if_neg hnil, if_pos (List.length_pos_iff.mpr hnil)]
        refine write_extends hall hext.ready (str ++ [0]) (.inl (by simp)) ?_
        rw [hext.size, length_intBytes]
        omega
  | string16 str =>
      simp only [Value.encode, List.length_append, length_intBytes, length_padded,
        length_charsBytes, length_bytesLE] at hmax
      obtain ⟨p₁, w₁, hlen, hext⟩ := writeAligned_extends (w := w) hall h
        (intBytes 4 (str.length : ℤ)) (by rw [length_intBytes]; omega)
      refine andThen_extends hlen hext (writeChars_extends hall hext.ready str ?_)
      rw [hext.size, length_intBytes]
      omega
  | byteArray val =>
      refine writeArray_extends hall h _ val ?_ hmax
      cases val with
      | none => exact Nat.zero_le _
      | some bs =>
          have hle := le_padUnsafe bs.length
          simp only [Value.encode, encodeArray, List.length_append, length_intBytes,
            length_padded] at hmax
          change bs.length ≤ int32Max
          omega
  | int32Array val =>
      refine writeArray_extends hall h _ (val.map (List.flatMap (intBytes 4))) ?_ hmax
      cases val with
      | none => exact Nat.zero_le _
      | some l =>
          have hle := le_padUnsafe (l.flatMap (intBytes 4)).length
          have hlen := length_flatMap_intBytes l
          simp only [Value.encode, encodeArray, Option.map_some, List.length_append,
            length_intBytes, length_padded] at hmax
          change l.length ≤ int32Max
          omega
  | strongBinder val =>
      have hlen : (Value.strongBinder val).encode.length = objectSize :=
        FlatObject.length_bytes _
      rw [hlen] at hmax
      obtain ⟨p', w', hwrite, hext⟩ := writeObject_extends (w := w) hall h
        (flattenBinder val.binder) false hmax
      refine ⟨p', w', hwrite, ?_⟩
      simpa [Value.entries, Value.listed, Value.encode] using hext
  | fileDescriptor fd takeOwnership =>
      have hlen : (Value.fileDescriptor fd takeOwnership).encode.length = objectSize :=
        FlatObject.length_bytes _
      rw [hlen] at hmax
      exact writeObject_extends hall h (fdObject fd takeOwnership) true hmax

/-! ### Sequences of values -/

/-- The writers one after the other, with what each of them returns. -/
def writeAll (o : Oracle) (p : Parcel) (w : World) : List Value → List Status × Parcel × World
  | [] => ([], p, w)
  | v :: vs =>
      let r := writeValue o p w v
      let rs := writeAll o r.2.1 r.2.2 vs
      (r.1 :: rs.1, rs.2)

def encodeAll (vs : List Value) : List UInt8 := vs.flatMap Value.encode

def allEntries : ℕ → List Value → List ℕ
  | _, [] => []
  | off, v :: vs => v.entries off ++ allEntries (off + v.encode.length) vs

theorem writeAll_extends (hall : ∀ n, o.allocates n = true) (h : Ready p) (vs : List Value)
    (hmax : (p.mDataSize + (encodeAll vs).length) * 3 / 2 ≤ int32Max) :
    (∀ st ∈ (writeAll o p w vs).1, st = .noError) ∧
      Extends p (writeAll o p w vs).2.1 (encodeAll vs) (allEntries p.mDataSize vs) := by
  induction vs generalizing p w with
  | nil => exact ⟨by simp [writeAll], .refl h⟩
  | cons v vs ih =>
      simp only [encodeAll, List.flatMap_cons, List.length_append] at hmax
      obtain ⟨p₁, w₁, hwrite, hext⟩ := writeValue_extends (w := w) hall h v (by omega)
      have hrest := ih (w := w₁) hext.ready (by rw [hext.size]; unfold encodeAll; omega)
      simp only [writeAll, hwrite]
      refine ⟨fun st hst => ?_, ?_⟩
      · rcases List.mem_cons.mp hst with rfl | hst
        · rfl
        · exact hrest.1 st hst
      · have hall := hext.trans hrest.2
        rw [hext.size] at hall
        exact hall

end Writers

end Parcel

end BinderForLinux
