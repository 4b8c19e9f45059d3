import BinderForLinux.Parcel.Lookup
import BinderForLinux.Parcel.Straight

/-!
# Native handles, there and back

What `writeNativeHandle` appends to a parcel, and what `readNativeHandle` makes of it.
-/

namespace BinderForLinux

namespace Parcel

open Library

/-! ### What the writer appends -/

/-- Bytes and entries were appended, and these descriptors duplicated. -/
structure Adds (p p' : Parcel) (bs : List UInt8) (objs : List ℕ) (ds : List (ℕ × ℕ)) : Prop where
  packed : Packed p'
  written : HasWritten p p' bs
  objects : p'.objects = p.objects ++ objs
  log : ∃ l, p'.log = p.log ++ l ∧ dupsIn l = ds

section Writing

variable {o : Oracle} {p p' q : Parcel} {w w' : World} {st : Status} {len : ℕ}

theorem Adds.refl (h : Packed p) : Adds p p [] [] [] where
  packed := h
  written := ⟨rfl, rfl, rfl, fun _ _ => rfl⟩
  objects := (List.append_nil _).symm
  log := ⟨[], (List.append_nil _).symm, rfl⟩

theorem Adds.trans {bs bs' : List UInt8} {objs objs' : List ℕ} {ds ds' : List (ℕ × ℕ)}
    (h : Adds p q bs objs ds) (h' : Adds q p' bs' objs' ds') :
    Adds p p' (bs ++ bs') (objs ++ objs') (ds ++ ds') where
  packed := h'.packed
  written := h.written.trans h'.written
  objects := by rw [h'.objects, h.objects, List.append_assoc]
  log := by
    obtain ⟨l, hl, hds⟩ := h.log
    obtain ⟨l', hl', hds'⟩ := h'.log
    exact ⟨l ++ l', by rw [hl', hl, List.append_assoc], by rw [dupsIn_append, hds, hds']⟩

theorem Packed.room_rest (h : Packed p) (hroom : Room o p w len q w') :
    q.objects = p.objects ∧ ∃ l, q.log = p.log ++ l ∧ dupsIn l = [] := by
  have hown := h.own
  cases hroom with
  | fits hfits => exact ⟨rfl, [], (List.append_nil _).symm, rfl⟩
  | grown hfits hg =>
      cases Parcel.growData_cases hg with
      | failed _ err n l hst _ => exact absurd rfl hst
      | possessed n howner _ =>
          rw [hown] at howner
          cases howner
      | reallocated n b _ hb _ _ => exact ⟨rfl, [.free b, .malloc (w.allocs + n)], rfl, rfl⟩
      | kept n b _ hb _ _ => exact ⟨rfl, [], (List.append_nil _).symm, rfl⟩
      | started _ hb _ => exact ⟨rfl, [.malloc w.allocs], rfl, rfl⟩

theorem Packed.writeAligned_adds (h : Packed p) {val : List UInt8} (hlen : val.length ≤ int32Max)
    (hcall : writeAligned o p w val = (.noError, p', w')) : Adds p p' val [] [] := by
  obtain ⟨q, hroom, hput⟩ | ⟨-, hst, -⟩ := Parcel.storeGrowing_cases hcall
  · cases hput
    have hq := h.room (by omega) hroom
    obtain ⟨hobjs, l, hl, hds⟩ := h.room_rest hroom
    obtain ⟨hend, hwritten⟩ := hq.written h
      (r := finishWrite (q.store q.mDataPos val) val.length) ⟨rfl, rfl, rfl, rfl, rfl⟩
      (fun i hi => putBytes_outside (.inl hi)) (carries_putBytes _ _ _)
    refine ⟨hend, hwritten, by rw [List.append_nil]; exact hobjs,
      l ++ [.store q.mDataPos val.length q.mDataCapacity], ?_, ?_⟩
    · show q.log ++ _ = _
      rw [hl, List.append_assoc]
    · rw [dupsIn_append, hds]
      rfl
  · exact absurd rfl hst

theorem Packed.writeInt32_adds (h : Packed p) {x : ℤ}
    (hcall : writeInt32 o p w x = (.noError, p', w')) : Adds p p' (intBytes 4 x) [] [] :=
  h.writeAligned_adds (by rw [length_intBytes]; decide) hcall

theorem adds_listed {val : FlatObject} (h : Packed p) (hq : HasRoom p q objectSize)
    (hobjs : q.objects = p.objects) {l : List Effect} (hl : q.log = p.log ++ l)
    (hds : dupsIn l = []) :
    Adds p (finishWrite (listed o val q.mDataPos (flagFds val (objectStored val q))) objectSize)
      val.bytes [p.mDataSize] [] := by
  have hpos : q.mDataPos = p.mDataSize := by rw [hq.packed.pos_eq, hq.size]
  have hflag : flagFds val (objectStored val q) = { objectStored val q with
      mHasFds := (flagFds val (objectStored val q)).mHasFds
      mFdsKnown := (flagFds val (objectStored val q)).mFdsKnown } := by
    unfold flagFds
    split <;> rfl
  rw [hflag]
  have hlen : val.bytes.length = objectSize := FlatObject.length_bytes val
  have hbelow (i : ℕ) (hi : i < q.mDataPos) : putBytes q.bytes q.mDataPos val.bytes i = q.bytes i :=
    putBytes_outside (.inl hi)
  rw [← hlen] at hq ⊢
  obtain ⟨hend, hwritten⟩ := hq.written h
    (r := finishWrite (listed o val q.mDataPos { objectStored val q with
      mHasFds := (flagFds val (objectStored val q)).mHasFds
      mFdsKnown := (flagFds val (objectStored val q)).mFdsKnown }) val.bytes.length)
    ⟨rfl, rfl, rfl, rfl, rfl⟩ hbelow (carries_putBytes _ _ _)
  refine ⟨hend, hwritten, ?_, l ++ ([.store q.mDataPos val.bytes.length q.mDataCapacity] ++
    [.tableStore q.objects.length q.room, .acquire val]), ?_, ?_⟩
  · show q.objects ++ [q.mDataPos] = _
    rw [hobjs, hpos]
  · show q.log ++ _ ++ _ = _
    rw [hl]
    simp only [List.append_assoc]
    rfl
  · rw [dupsIn_append, hds]
    rfl

theorem Packed.writeObject_adds (h : Packed p) {val : FlatObject}
    (hcall : Parcel.writeObject o p w val true = (.noError, p', w')) :
    Adds p p' val.bytes [p.mDataSize] [] := by
  have hlen : objectSize ≤ int32Max + 3 := by decide
  have hput {q : Parcel} {w₁ : World} (hroom : Room o p w objectSize q w₁) (t : Table)
      (n m : ℕ) (given : List Table)
      (hst : (Parcel.putObject o (withTable q t n m given) val true).1 = .noError) :
      Adds p (Parcel.putObject o (withTable q t n m given) val true).2 val.bytes
        [p.mDataSize] [] := by
    have hq := h.room hlen hroom
    obtain ⟨hobjs, l, hl, hds⟩ := h.room_rest hroom
    rcases hr : Parcel.putObject o (withTable q t n m given) val true with ⟨st, r⟩
    rw [hr] at hst
    obtain ⟨hno, -⟩ | ⟨-, hno, -⟩ | ⟨-, -, -, rfl⟩ := putObject_cases hr
    · rw [hno] at hst
      cases hst
    · cases hno
    · refine adds_listed (q := withTable q t n m given) h ?_ hobjs hl hds
      exact ⟨hq.packed.same ⟨rfl, rfl, rfl, rfl, rfl⟩, hq.size, hq.below, hq.room, hq.capacity,
        hq.block, hq.error, hq.kept⟩
  generalize hst : Status.noError = st at hcall
  cases objectWritten hcall with
  | failed hne _ hg => exact absurd hst.symm hne
  | tableFull hroom _ => cases hst
  | @put q w₁ hroom _ => exact hput hroom q.mObjects q.mObjectsCapacity q.room q.given hst.symm
  | @putGrown q w₁ hroom _ => exact hput hroom .own _ _ (q.given ++ [q.mObjects]) hst.symm

theorem Packed.writeDup_adds (h : Packed p) {fd : ℕ}
    (hcall : Parcel.writeDupFileDescriptor o p w fd = (.noError, p', w')) :
    ∃ new, new < 2 ^ 31 ∧ Adds p p' (ownedFd new).bytes [p.mDataSize] [(fd, new)] := by
  unfold Parcel.writeDupFileDescriptor at hcall
  dsimp only at hcall
  split at hcall
  · cases hcall
  rename_i hdup
  split at hcall
  · rename_i q w₁ hq
    cases hcall
    have hrec : Packed (p.record [.dup fd (o.dup w.dups)]) :=
      h.same ⟨rfl, rfl, rfl, rfl, rfl⟩
    have hadds := hrec.writeObject_adds hq
    obtain ⟨l, hl, hds⟩ := hadds.log
    refine ⟨o.dup w.dups, not_le.mp hdup, hadds.packed, ?_, hadds.objects,
      .dup fd (o.dup w.dups) :: l, ?_, ?_⟩
    · exact ⟨hadds.written.pos, hadds.written.size, hadds.written.carries, hadds.written.below⟩
    · rw [hl]
      show p.log ++ [_] ++ l = _
      rw [List.append_assoc]
      rfl
    · have happ := dupsIn_append [.dup fd (o.dup w.dups)] l
      rw [hds] at happ
      exact happ
  · rename_i err q w₁ hne hq
    cases hcall
    exact absurd rfl hne

/-- Where so many objects begin that follow each other. -/
def objectOffsets (off n : ℕ) : List ℕ := (List.range n).map fun i => off + objectSize * i

theorem andThen_noError {r : Status × Parcel × World} {f : Parcel → World → Status × Parcel × World}
    (h : andThen r f = (.noError, p', w')) :
    ∃ q w₁, r = (.noError, q, w₁) ∧ f q w₁ = (.noError, p', w') := by
  obtain ⟨st, q, w₁⟩ := r
  cases st with
  | noError => exact ⟨q, w₁, rfl, h⟩
  | _ => cases h

theorem Packed.writeDups_adds (h : Packed p) {fds : List CInt}
    (hcall : writeDups o p w fds = (.noError, p', w')) :
    ∃ news : List ℕ, news.length = fds.length ∧ (∀ new ∈ news, new < 2 ^ 31) ∧
      Adds p p' (news.flatMap fun new => (ownedFd new).bytes)
        (objectOffsets p.mDataSize news.length) ((fds.map CInt.bits).zip news) := by
  induction fds generalizing p w with
  | nil =>
      cases hcall
      exact ⟨[], rfl, fun _ hmem => absurd hmem List.not_mem_nil, .refl h⟩
  | cons fd fds ih =>
      obtain ⟨q, w₁, hdup, hrest⟩ := andThen_noError hcall
      obtain ⟨new, hnew, hadds⟩ := h.writeDup_adds hdup
      obtain ⟨news, hlen, hnews, hadds'⟩ := ih hadds.packed hrest
      refine ⟨new :: news, congrArg (· + 1) hlen, fun n hn => ?_, ?_⟩
      · rcases List.mem_cons.mp hn with rfl | hn
        · exact hnew
        · exact hnews n hn
      · have hsize := hadds.written.size
        rw [FlatObject.length_bytes] at hsize
        have hoffs : objectOffsets p.mDataSize (new :: news).length =
            [p.mDataSize] ++ objectOffsets q.mDataSize news.length := by
          unfold objectOffsets
          rw [hsize, List.length_cons, List.range_succ_eq_map, List.map_cons, List.map_map]
          refine congrArg (_ :: ·) (List.map_congr_left fun i _ => ?_)
          change p.mDataSize + objectSize * (i + 1) = p.mDataSize + objectSize + objectSize * i
          ring
        rw [hoffs]
        exact hadds.trans hadds'

theorem dupsIn_maskPadding (q : Parcel) (len : ℕ) :
    ∃ l, (maskPadding q len).log = q.log ++ l ∧ dupsIn l = [] := by
  unfold maskPadding
  dsimp only
  split
  · exact ⟨[], (List.append_nil _).symm, rfl⟩
  · exact ⟨_, rfl, rfl⟩

/-- `write` reports success where it wrote its bytes, and also where they find no place. -/
theorem Packed.write_adds (h : Packed p) (hsome : p.mData ≠ none) {data : List UInt8}
    (hcall : Parcel.write o p w data = (.noError, p', w')) :
    data.length ≤ int32Max ∧ (Adds p p' (padded data) [] [] ∨ Adds p p' [] [] []) := by
  have hown := h.own
  unfold Parcel.write at hcall
  split at hcall
  · cases hcall
  rename_i hlen
  refine ⟨not_lt.mp hlen, ?_⟩
  rcases hplace : Parcel.writeInplace o p w data.length with ⟨_ | d, q, w₁⟩
  · rw [hplace] at hcall
    have hq : q = p' := congrArg (fun r => r.2.1) hcall
    subst hq
    refine .inr ?_
    obtain ⟨-, ⟨rfl, -⟩ | ⟨st, hst, -, hg⟩⟩ | ⟨-, r, hr, -⟩ := Parcel.writeInplace_cases hplace
    · exact .refl h
    · cases hg with
      | failed _ err n l _ hl =>
          rcases hl with rfl | ⟨howner, -⟩
          · exact ⟨h.same ⟨rfl, rfl, rfl, rfl, rfl⟩, ⟨rfl, rfl, rfl, fun _ _ => rfl⟩,
              (List.append_nil _).symm, [], rfl, rfl⟩
          · rw [hown] at howner
            cases howner
      | _ => exact absurd rfl hst
    · cases hr
  · obtain ⟨hnone, -⟩ | ⟨-, r, hr, hroom, rfl⟩ := Parcel.writeInplace_cases hplace
    · cases hnone
    cases hr
    have hpad := padUnsafe_le data.length
    have hq := h.room (by omega) hroom
    obtain ⟨hobjs, l, hl, hds⟩ := h.room_rest hroom
    rw [hplace, ← maskPadding_eq] at hcall
    dsimp only at hcall
    have hdata : ¬ ((finishWrite (maskPadding r data.length) (padUnsafe data.length)).mData = none ∧
        (finishWrite (maskPadding r data.length) (padUnsafe data.length)).mOwner = false) := by
      rw [maskPadding_same]
      exact fun hnone => hsome (hq.block hnone.1)
    rw [if_neg hdata] at hcall
    cases hcall
    obtain ⟨l', hl', hds'⟩ := dupsIn_maskPadding r data.length
    refine .inl ?_
    have hstored := hq.stored h ((maskPadding r data.length).log ++
      [.store r.mDataPos data.length r.mDataCapacity])
    rw [maskPadding_same] at hl' ⊢
    refine ⟨hstored.1, hstored.2, ?_, l ++ l' ++ [.store r.mDataPos data.length r.mDataCapacity],
      ?_, ?_⟩
    · rw [List.append_nil]
      exact hobjs
    · show (maskPadding r data.length).log ++ _ = _
      rw [show (maskPadding r data.length).log = r.log ++ l' from hl', hl]
      simp only [List.append_assoc]
      rfl
    · rw [dupsIn_append, dupsIn_append, hds, hds']
      rfl

end Writing

/-- What `writeNativeHandle` writes before the numbers. -/
def handleFront (h : NativeHandle) (news : List ℕ) : List UInt8 :=
  intBytes 4 h.numFds ++ intBytes 4 h.numInts ++ news.flatMap fun new => (ownedFd new).bytes

def handleInts (h : NativeHandle) : List UInt8 := (h.ints.map CInt.val).flatMap (intBytes 4)

theorem length_handleInts (h : NativeHandle) : (handleInts h).length = 4 * h.numInts := by
  rw [handleInts, length_flatMap_intBytes, List.length_map, NativeHandle.numInts]

theorem padded_handleInts (h : NativeHandle) : padded (handleInts h) = handleInts h := by
  have hpad : padUnsafe (handleInts h).length - (handleInts h).length = 0 := by
    rw [length_handleInts]
    unfold padUnsafe
    omega
  rw [padded, hpad]
  exact List.append_nil _

theorem length_flatMap_ownedFd (news : List ℕ) :
    (news.flatMap fun new => (ownedFd new).bytes).length = objectSize * news.length := by
  induction news with
  | nil => rfl
  | cons new news ih =>
      rw [List.flatMap_cons, List.length_append, ih, FlatObject.length_bytes, List.length_cons]
      ring

theorem length_handleFront (h : NativeHandle) (news : List ℕ) :
    (handleFront h news).length = 8 + objectSize * news.length := by
  rw [handleFront, List.length_append, List.length_append, length_intBytes, length_intBytes,
    length_flatMap_ownedFd]

section Handles

variable {o : Oracle} {p p' q : Parcel} {w w' : World} {h : NativeHandle} {news : List ℕ}

/-- A handle that was written, up to its numbers at least. -/
structure HandleWritten (p p' : Parcel) (h : NativeHandle) (news : List ℕ) : Prop where
  length : news.length = h.numFds
  valid : ∀ new ∈ news, new < 2 ^ 31
  small : 4 * h.numInts ≤ int32Max
  adds : Adds p p' (handleFront h news ++ handleInts h)
      (objectOffsets (p.mDataSize + 8) h.numFds) ((h.fds.map CInt.bits).zip news) ∨
    Adds p p' (handleFront h news)
      (objectOffsets (p.mDataSize + 8) h.numFds) ((h.fds.map CInt.bits).zip news)

theorem Packed.writeNativeHandle (hp : Packed p)
    (hcall : Parcel.writeNativeHandle o p w (some h) = (.noError, p', w')) :
    h.version = nativeHandleSize ∧ ∃ news, HandleWritten p p' h news := by
  simp only [Parcel.writeNativeHandle] at hcall
  split at hcall
  · cases hcall
  rename_i hversion
  refine ⟨not_not.mp hversion, ?_⟩
  obtain ⟨q₁, w₁, h₁, hcall⟩ := andThen_noError hcall
  obtain ⟨q₂, w₂, h₂, hcall⟩ := andThen_noError hcall
  obtain ⟨q₃, w₃, h₃, hcall⟩ := andThen_noError hcall
  have hadds₁ := hp.writeInt32_adds h₁
  have hadds₂ := hadds₁.trans (hadds₁.packed.writeInt32_adds h₂)
  obtain ⟨news, hlen, hvalid, hadds₃⟩ := hadds₂.packed.writeDups_adds h₃
  have hsize := hadds₂.written.size
  rw [List.length_append, length_intBytes, length_intBytes] at hsize
  have hadds := hadds₂.trans hadds₃
  have hsome : q₃.mData ≠ none := fun hnone => by
    have hempty := hadds₃.packed.empty hnone
    have hle := hadds₃.packed.size_le
    have hmore := hadds₃.written.size
    omega
  rw [hsize, hlen] at hadds
  have hints : (h.ints.flatMap fun x => intBytes 4 x.val) = handleInts h := by
    rw [handleInts, List.flatMap_map]
  rw [hints] at hcall
  obtain ⟨hsmall, hwrite⟩ := hadds₃.packed.write_adds hsome hcall
  rw [length_handleInts] at hsmall
  rw [padded_handleInts] at hwrite
  refine ⟨news, hlen, hvalid, hsmall, ?_⟩
  rcases hwrite with hwrite | hwrite
  · have hall := hadds.trans hwrite
    simp only [List.append_nil, List.nil_append] at hall
    exact .inl hall
  · have hall := hadds.trans hwrite
    simp only [List.append_nil, List.nil_append] at hall
    exact .inr hall

end Handles

/-! ### What the reader finds -/

theorem CInt.wrap_val (x : CInt) : CInt.wrap x.val = x := by
  obtain ⟨x, hlow, hhigh⟩ := x
  norm_num at hlow hhigh
  refine CInt.ext ?_
  show toSigned 32 ((x % 2 ^ 32).toNat % 2 ^ 32) = x
  unfold toSigned
  split
  · omega
  · push_cast
    omega

theorem ints_back (h : NativeHandle) : (intsOf (handleInts h)).map CInt.wrap = h.ints := by
  have hrange : ∀ x ∈ h.ints.map CInt.val, InSigned 32 x := by
    intro x hx
    obtain ⟨y, -, rfl⟩ := List.mem_map.mp hx
    exact y.inRange
  rw [handleInts, intsOf_flatMap hrange, List.map_map]
  exact (List.map_congr_left fun x _ => x.wrap_val).trans (List.map_id _)

section Reading

variable {o : Oracle} {p p' q : Parcel} {w w' : World} {h : NativeHandle} {news : List ℕ}
variable {rest : List UInt8} {n dups : ℕ}

theorem Cursor.readCounts (hc : Cursor p (intBytes 4 n ++ intBytes 4 dups ++ rest))
    (hn : n ≤ int32Max) (hdups : dups ≤ int32Max) :
    ∃ p', Parcel.readCounts p = (some ((n : ℤ), (dups : ℤ)), p') ∧ Advances p p' 8 ∧
      Cursor p' rest := by
  have hin {k : ℕ} (hk : k ≤ int32Max) : InSigned 32 (k : ℤ) := by
    unfold int32Max at hk
    constructor
    · norm_num
    · norm_num
      omega
  have hval {k : ℕ} (hk : k ≤ int32Max) : toSigned 32 (ofBytesLE (intBytes 4 (k : ℤ))) = k :=
    toSigned_intBytes (by decide) (by decide) (hin hk)
  rw [List.append_assoc] at hc
  obtain ⟨q, h₁, ha₁⟩ := hc.readAligned
  have hc' := hc.advance ha₁
  obtain ⟨p', h₂, ha₂⟩ := hc'.readAligned
  rw [length_intBytes] at h₁ h₂
  have ha := ha₁.trans ha₂
  rw [length_intBytes, length_intBytes] at ha
  refine ⟨p', ?_, ha, hc'.advance ha₂⟩
  simp only [Parcel.readCounts, h₁, h₂, hval hn, hval hdups]

theorem Cursor.readFileDescriptor {new : ℕ} (hc : Cursor p ((ownedFd new).bytes ++ rest))
    (hnew : new < 2 ^ 31) (hs : p.objects.Pairwise (· < ·)) (hlisted : p.mDataPos ∈ p.objects) :
    (Parcel.readFileDescriptor p).1 = some new ∧
      ReadOnly p (Parcel.readFileDescriptor p).2 ∧
      (Parcel.readFileDescriptor p).2.mDataPos = p.mDataPos + objectSize ∧
      Cursor (Parcel.readFileDescriptor p).2 rest := by
  obtain ⟨hobj, hmod, hle⟩ := hc.object (ranged_ownedFd hnew)
  have hread := readOnly_readFileDescriptor p
  have hfind := (isSome_findObject hs p.mNextObjectHint p.mDataPos).mpr hlisted
  obtain ⟨opos, hopos⟩ := Option.isSome_iff_exists.mp hfind
  have hobject : Parcel.readObject p true = (some (ownedFd new),
      { p.record [.load p.mDataPos objectSize] with
        mDataPos := p.mDataPos + objectSize, mNextObjectHint := opos + 1 }) := by
    unfold Parcel.readObject
    simp only [hmod, hobj, if_pos hle, Parcel.record, hopos, not_true, false_and, if_false]
  have hfd : Parcel.readFileDescriptor p = (some new,
      { p.record [.load p.mDataPos objectSize] with
        mDataPos := p.mDataPos + objectSize, mNextObjectHint := opos + 1 }) := by
    have hhandle : (ownedFd new).handle = new := Nat.mod_eq_of_lt (by show new < 2 ^ 32; omega)
    simp only [Parcel.readFileDescriptor, hobject, hhandle]
    rfl
  rw [hfd] at hread ⊢
  refine ⟨rfl, hread, rfl, ?_⟩
  have hcarries := (carries_append.mp hc.carries).2
  have hends := hc.ends
  rw [List.length_append] at hends
  rw [FlatObject.length_bytes] at hcarries hends
  exact ⟨hcarries, by show p.mDataPos + objectSize + rest.length = p.mDataSize; omega, hc.small⟩

theorem Cursor.readFds (hc : Cursor p ((news.flatMap fun new => (ownedFd new).bytes) ++ rest))
    (hvalid : ∀ new ∈ news, new < 2 ^ 31) (hs : p.objects.Pairwise (· < ·))
    (hlisted : ∀ off ∈ objectOffsets p.mDataPos news.length, off ∈ p.objects) :
    (Parcel.readFds news.length p).1 = news.map some ∧
      Cursor (Parcel.readFds news.length p).2 rest := by
  induction news generalizing p with
  | nil => exact ⟨rfl, hc⟩
  | cons new news ih =>
      rw [List.flatMap_cons, List.append_assoc] at hc
      have hfirst : p.mDataPos ∈ objectOffsets p.mDataPos (new :: news).length :=
        List.mem_map.mpr ⟨0, by simp, by simp⟩
      obtain ⟨hfd, hread, hpos, hrest⟩ := hc.readFileDescriptor (hvalid new List.mem_cons_self) hs
        (hlisted _ hfirst)
      have hobjs : (Parcel.readFileDescriptor p).2.objects = p.objects := hread.same_objects
      have hmore : ∀ off ∈ objectOffsets (Parcel.readFileDescriptor p).2.mDataPos news.length,
          off ∈ (Parcel.readFileDescriptor p).2.objects := by
        intro off hoff
        obtain ⟨i, hi, rfl⟩ := List.mem_map.mp hoff
        rw [hobjs]
        refine hlisted _ (List.mem_map.mpr ⟨i + 1, ?_, ?_⟩)
        · rw [List.mem_range] at hi ⊢
          exact Nat.succ_lt_succ hi
        · rw [hpos]
          ring
      obtain ⟨hnews, hend⟩ := ih hrest (fun n hn => hvalid n (List.mem_cons_of_mem new hn))
        (hobjs ▸ hs) hmore
      refine ⟨?_, hend⟩
      rw [List.length_cons, Parcel.readFds, hfd, hnews]
      rfl

theorem fst_duplicates (hfds : (readFds n p).1 = news.map some)
    (hall : (duplicates o dups n p).length = n) : (duplicates o dups n p).map Prod.fst = news := by
  have hpairs := forall₂_duplicates hall
  rw [hfds] at hpairs
  generalize duplicates o dups n p = ds at hpairs
  clear hfds hall
  induction news generalizing ds with
  | nil =>
      cases hpairs
      rfl
  | cons new news ih =>
      obtain - | ⟨hhead, htail⟩ := hpairs
      rw [List.map_cons, ih _ htail, ← Option.some.inj hhead.1]

theorem length_duplicates_iff (hfds : (readFds n p).1 = news.map some)
    (hvalid : ∀ new ∈ news, new < 2 ^ 31) :
    (duplicates o dups n p).length = n ↔ ∀ i < n, o.dup (dups + i) < 2 ^ 31 := by
  induction n generalizing p news dups with
  | zero => exact iff_of_true rfl fun i hi => absurd hi (Nat.not_lt_zero i)
  | succ n ih =>
      cases news with
      | nil => cases hfds
      | cons new news =>
          obtain ⟨hfd, hrest⟩ := List.cons.inj hfds
          have hnew := hvalid new List.mem_cons_self
          have ih' : (duplicates o (dups + 1) n (readFileDescriptor p).2).length = n ↔
              ∀ i < n, o.dup (dups + 1 + i) < 2 ^ 31 :=
            ih hrest fun k hk => hvalid k (List.mem_cons_of_mem new hk)
          rw [duplicates, hfd]
          by_cases hdup : o.dup dups < 2 ^ 31
          · have hof : dupOf o dups (some new) = some (new, o.dup dups) := if_pos ⟨hnew, hdup⟩
            rw [hof]
            dsimp only
            rw [List.length_cons, Nat.add_right_cancel_iff, ih']
            constructor
            · intro hrest i hi
              cases i with
              | zero => exact hdup
              | succ i =>
                  have := hrest i (Nat.lt_of_succ_lt_succ hi)
                  rwa [Nat.add_assoc, Nat.add_comm 1 i] at this
            · intro hrest i hi
              have := hrest (i + 1) (Nat.succ_lt_succ hi)
              rwa [← Nat.add_assoc, Nat.add_right_comm] at this
          · have hof : dupOf o dups (some new) = none := if_neg fun hboth => hdup hboth.2
            rw [hof]
            exact iff_of_false (Nat.succ_ne_zero n).symm fun hrest =>
              hdup (hrest 0 (Nat.succ_pos n))

end Reading

/-! ### There and back -/

/-- The parcel is appended to, and its table is in order. -/
structure Orderable (p : Parcel) : Prop where
  packed : Packed p
  sorted : p.objects.Pairwise (· < ·)
  inside : ∀ off ∈ p.objects, off < p.mDataSize

/-- Reading from `q` what was written to `p` gives an equal handle: its descriptors are duplicates
of the duplicates that were written. -/
structure HandleBack (p p' : Parcel) (h : NativeHandle) (q : Parcel) (h' : NativeHandle)
    (q' : Parcel) : Prop where
  version : h'.version = h.version
  ints : h'.ints = h.ints
  fds : ∃ lw lr, p'.log = p.log ++ lw ∧ q'.log = q.log ++ lr ∧
    (dupsIn lw).map Prod.fst = h.fds.map CInt.bits ∧
    (dupsIn lr).map Prod.fst = (dupsIn lw).map Prod.snd ∧
    h'.fds.map CInt.bits = (dupsIn lr).map Prod.snd ∧ ∀ d ∈ dupsIn lr, d.2 < 2 ^ 31

/-- The counts are within the limits of `native_handle_create`, there is memory, no call of `dup`
fails, and all of the handle was written. -/
structure CanReadBack (o : Oracle) (w : World) (p p' : Parcel) (h : NativeHandle) : Prop where
  numFds : h.numFds ≤ 1024
  numInts : h.numInts ≤ 1024
  allocates : o.allocates w.allocs = true
  dups : ∀ i < h.numFds, o.dup (w.dups + i) < 2 ^ 31
  size : p'.mDataSize = p.mDataSize + 8 + objectSize * h.numFds + 4 * h.numInts

section Trip

variable {o : Oracle} {p p' q q' : Parcel} {w w' : World} {h h' : NativeHandle} {news : List ℕ}

theorem pairwise_objectOffsets (off n : ℕ) : (objectOffsets off n).Pairwise (· < ·) := by
  unfold objectOffsets
  rw [List.pairwise_map]
  refine List.Pairwise.imp ?_ List.pairwise_lt_range
  intro i j hij
  have hpos : 0 < objectSize := by decide
  exact Nat.add_lt_add_left (Nat.mul_lt_mul_of_pos_left hij hpos) off

theorem HandleWritten.found (hp : Orderable p) (hw : HandleWritten p p' h news) :
    ∃ rest q₁, readCounts (p'.seek 0 p.mDataSize) =
        (some ((h.numFds : ℤ), (h.numInts : ℤ)), q₁) ∧
      (readFds h.numFds q₁).1 = news.map some ∧ Cursor (readFds h.numFds q₁).2 rest ∧
      (rest = handleInts h ∨ rest = []) ∧
      (handleFront h news).length + rest.length + p.mDataSize = p'.mDataSize := by
  obtain ⟨rest, hrest, hadds⟩ : ∃ rest, (rest = handleInts h ∨ rest = []) ∧
      Adds p p' (handleFront h news ++ rest) (objectOffsets (p.mDataSize + 8) h.numFds)
        ((h.fds.map CInt.bits).zip news) := by
    rcases hw.adds with hadds | hadds
    · exact ⟨_, .inl rfl, hadds⟩
    · exact ⟨[], .inr rfl, by rw [List.append_nil]; exact hadds⟩
  have hsize := hadds.written.size
  rw [List.length_append] at hsize
  have hmax := hadds.packed.size_le.trans hadds.packed.capacity_le
  have hfront : (handleFront h news).length = 8 + 24 * news.length := length_handleFront h news
  have hlen := hw.length
  have hcursor : Cursor (p'.seek 0 p.mDataSize) (handleFront h news ++ rest) := by
    refine ⟨?_, ?_, hmax⟩
    · have hcarries := hadds.written.carries
      rw [hp.packed.pos_eq] at hcarries
      exact hcarries
    · show p.mDataSize + _ = p'.mDataSize
      rw [hsize, List.length_append]
  rw [handleFront, List.append_assoc] at hcursor
  obtain ⟨q₁, hcounts, hadvance, hc₁⟩ := hcursor.readCounts (by omega)
    (by have := hw.small; omega)
  have hobjs : q₁.objects = p.objects ++ objectOffsets (p.mDataSize + 8) h.numFds := by
    rw [hadvance.readOnly.same_objects]
    exact hadds.objects
  have hpos : q₁.mDataPos = p.mDataSize + 8 := hadvance.pos
  have hsorted : q₁.objects.Pairwise (· < ·) := by
    rw [hobjs, List.pairwise_append]
    refine ⟨hp.sorted, pairwise_objectOffsets _ _, fun a ha b hb => ?_⟩
    obtain ⟨i, -, rfl⟩ := List.mem_map.mp hb
    have := hp.inside a ha
    omega
  obtain ⟨hfds, hc₂⟩ := hc₁.readFds hw.valid hsorted (by
    intro off hoff
    rw [hobjs, List.mem_append]
    rw [hpos, hlen] at hoff
    exact .inr hoff)
  rw [hlen] at hfds hc₂
  exact ⟨rest, q₁, hcounts, hfds, hc₂, hrest, by omega⟩

theorem nativeHandleCreate_iff (o : Oracle) (w : World) (numFds numInts : ℕ) :
    (∃ h w', nativeHandleCreate o w numFds numInts = (some h, w')) ↔
      numFds ≤ 1024 ∧ numInts ≤ 1024 ∧ o.allocates w.allocs = true := by
  unfold nativeHandleCreate kMaxNativeFds kMaxNativeInts World.alloc
  by_cases hlimits : numFds ≤ 1024 ∧ numInts ≤ 1024
  · rw [if_neg (by omega)]
    cases ha : o.allocates w.allocs with
    | true => exact iff_of_true ⟨_, _, rfl⟩ ⟨hlimits.1, hlimits.2, rfl⟩
    | false =>
        refine iff_of_false ?_ fun hall => Bool.false_ne_true hall.2.2
        rintro ⟨h, w', hcreate⟩
        cases hcreate
  · rw [if_pos (by omega)]
    refine iff_of_false ?_ fun hall => hlimits ⟨hall.1, hall.2.1⟩
    rintro ⟨h, w', hcreate⟩
    cases hcreate

/-- A handle that is created has its size as version, and creating it makes no call of `dup`. -/
theorem nativeHandleCreate_eq {numFds numInts : ℤ}
    (hc : nativeHandleCreate o w numFds numInts = (some h, w')) :
    h.version = nativeHandleSize ∧ w'.dups = w.dups := by
  unfold nativeHandleCreate World.alloc at hc
  split at hc
  · cases hc
  · cases ha : o.allocates w.allocs with
    | true =>
        rw [ha] at hc
        cases hc
        exact ⟨rfl, rfl⟩
    | false =>
        rw [ha] at hc
        cases hc

theorem Cursor.read_nil (hc : Cursor p []) {len : ℕ} {bs : List UInt8}
    (hread : (Parcel.read p len).1 = .ok bs) : len = 0 := by
  have hends : p.mDataPos + 0 = p.mDataSize := hc.ends
  have hsmall := hc.small
  unfold Parcel.read at hread
  split at hread
  · cases hread
  rename_i hlen
  split at hread
  · rename_i hcan
    have hle := le_padUnsafe len
    have hpad := padUnsafe_le len
    unfold Parcel.canRead at hcan
    simp only [Bool.and_eq_true, decide_eq_true_eq] at hcan
    unfold int32Max at hlen hsmall
    have hmod : (p.mDataPos + padUnsafe len) % sizeT = p.mDataPos + padUnsafe len :=
      Nat.mod_eq_of_lt (by unfold sizeT; omega)
    omega
  · cases hread

theorem zip_map_fst {α β : Type} {l : List α} {l' : List β} (h : l.length = l'.length) :
    (l.zip l').map Prod.fst = l ∧ (l.zip l').map Prod.snd = l' :=
  ⟨List.map_fst_zip (Nat.le_of_eq h), List.map_snd_zip (Nat.le_of_eq h.symm)⟩

theorem fill_parcel (hall : (duplicates o w.dups h.numFds q).length = h.numFds) :
    (dupEach o q w h.fds).2.2.1 =
      { (readFds h.numFds q).2 with log := (dupEach o q w h.fds).2.2.1.log } := by
  rcases (dupsLeft o q w h.fds).ends with ⟨-, -, -, hp⟩ | ⟨hless, -⟩
  · exact hp
  · exact absurd hall (Nat.ne_of_lt hless)

theorem fill_fds (hall : (duplicates o w.dups h.numFds q).length = h.numFds) :
    (dupEach o q w h.fds).2.1 = (duplicates o w.dups h.numFds q).map fun d => .wrap d.2 := by
  rcases (dupsLeft o q w h.fds).ends with ⟨-, -, hfds, -⟩ | ⟨hless, -⟩
  · exact hfds
  · exact absurd hall (Nat.ne_of_lt hless)

/-- A handle that is read and the one that was written are equal if and only if nothing failed. -/
theorem HandleWritten.readBack (hp : Orderable p) (hversion : h.version = nativeHandleSize)
    (hw : HandleWritten p p' h news) :
    (∃ h' q' w', readNativeHandle o (p'.seek 0 p.mDataSize) w = (some h', q', w') ∧
      HandleBack p p' h (p'.seek 0 p.mDataSize) h' q') ↔ CanReadBack o w p p' h := by
  obtain ⟨rest, q₁, hcounts, hfds, hc, hrest, hsize⟩ := hw.found hp
  have hfront : (handleFront h news).length = 8 + 24 * news.length := length_handleFront h news
  have hobject : objectSize = 24 := rfl
  have hlen := hw.length
  have hq₁ : (readCounts (p'.seek 0 p.mDataSize)).2 = q₁ := congrArg Prod.snd hcounts
  have hcounts₁ : (readCounts (p'.seek 0 p.mDataSize)).1 =
      some ((h.numFds : ℤ), (h.numInts : ℤ)) := congrArg Prod.fst hcounts
  have hlw : ∃ lw, p'.log = p.log ++ lw ∧ dupsIn lw = (h.fds.map CInt.bits).zip news := by
    rcases hw.adds with hadds | hadds
    · exact hadds.log
    · exact hadds.log
  obtain ⟨lw, hlw, hdups⟩ := hlw
  have hlengths : (h.fds.map CInt.bits).length = news.length := by
    rw [List.length_map, hlen]
    rfl
  obtain ⟨hfst, hsnd⟩ := zip_map_fst hlengths
  obtain ⟨l₀, hl₀, hload⟩ := loads_readCounts (p'.seek 0 p.mDataSize)
  rw [hq₁] at hl₀
  constructor
  · rintro ⟨h', q', w', hcall, hback⟩
    by_cases hcreate : ∃ h₀ w₁, nativeHandleCreate o w h.numFds h.numInts = (some h₀, w₁)
    swap
    · obtain ⟨w₁, hnone⟩ := readNativeHandle_none (o := o) (p := p'.seek 0 p.mDataSize) (w := w)
        fun counts h₀ w₁ hcounts' hcreate' => by
          rw [hcounts₁] at hcounts'
          cases hcounts'
          exact hcreate ⟨h₀, w₁, hcreate'⟩
      rw [hnone] at hcall
      cases hcall
    obtain ⟨h₀, w₁, hcreate⟩ := hcreate
    obtain ⟨hn, hm, ha⟩ := (nativeHandleCreate_iff o w _ _).mp ⟨h₀, w₁, hcreate⟩
    obtain ⟨hcount₁, hcount₂⟩ := counts_of_create hcreate
    rw [Nat.cast_inj] at hcount₁ hcount₂
    rw [readNativeHandle_fill hcounts₁ hcreate, hq₁] at hcall
    obtain ⟨l, hshows, ⟨bs, p₂, w₂, hread, hlog, hfill⟩ | ⟨p₂, w₂, -, -, hfill⟩⟩ :=
      fill_cases o q₁ w₁ h₀
    swap
    · rw [hfill] at hcall
      cases hcall
    rw [hfill] at hcall
    cases hcall
    obtain ⟨lw', lr, hlw', hlr, -, hsame, -, -⟩ := hback.fds
    have hpre := (Shows.loads hload).append hshows
    rw [List.append_cancel_left (hlw'.symm.trans hlw), hdups, hsnd] at hsame
    rw [hl₀, List.append_assoc] at hlog
    rw [List.append_cancel_left (hlr.symm.trans hlog), hpre.dups] at hsame
    rw [List.nil_append, hcount₁, (nativeHandleCreate_eq hcreate).2] at hsame
    have hall := congrArg List.length hsame
    rw [List.length_map, hlen] at hall
    refine ⟨hn, hm, ha, (length_duplicates_iff hfds hw.valid).mp hall, ?_⟩
    rcases hrest with rfl | rfl
    · rw [length_handleInts] at hsize
      rw [hobject]
      omega
    · -- the numbers are read although none was written, so there are none
      have hzero : 4 * h₀.numInts = 0 := by
        rw [← hcount₁, ← (nativeHandleCreate_eq hcreate).2] at hall
        rw [fill_parcel hall, read_log, hcount₁] at hread
        exact hc.read_nil hread
      rw [List.length_nil] at hsize
      rw [hobject, ← hcount₂, hzero]
      omega
  · rintro ⟨hn, hm, ha, hgood, htotal⟩
    obtain ⟨h₀, w₁, hcreate⟩ := (nativeHandleCreate_iff o w _ _).mpr ⟨hn, hm, ha⟩
    obtain ⟨hcount₁, hcount₂⟩ := counts_of_create hcreate
    rw [Nat.cast_inj] at hcount₁ hcount₂
    obtain ⟨hversion₀, hworld⟩ := nativeHandleCreate_eq hcreate
    have hints : rest = handleInts h := by
      rcases hrest with rfl | rfl
      · rfl
      · refine (List.length_eq_zero_iff.mp ?_).symm
        rw [length_handleInts]
        rw [List.length_nil] at hsize
        rw [hobject] at htotal
        omega
    subst hints
    have hall : (duplicates o w.dups h.numFds q₁).length = h.numFds :=
      (length_duplicates_iff hfds hw.valid).mpr hgood
    rw [← hcount₁, ← hworld] at hall
    obtain ⟨l, hshows, hfill⟩ := fill_cases o q₁ w₁ h₀
    have hpre := (Shows.loads hload).append hshows
    have hnumbers : Cursor (readFds h.numFds q₁).2 (padded (handleInts h) ++ []) := by
      rw [padded_handleInts, List.append_nil]
      exact hc
    obtain ⟨p₃, hread₃, -⟩ := hnumbers.read
    rw [length_handleInts, ← hcount₁, ← hcount₂] at hread₃
    rcases hfill with ⟨bs, p₂, w₂, hread, hlog, hfill⟩ | ⟨p₂, w₂, hread, -, -⟩
    swap
    · rw [fill_parcel hall, read_log, hread₃] at hread
      cases hread
    rw [fill_parcel hall, read_log, hread₃] at hread
    cases hread
    have hcall := (congrArg (fillNativeHandle o · w₁ h₀) hq₁).trans hfill
    refine ⟨_, _, _, (readNativeHandle_fill hcounts₁ hcreate).trans hcall, ?_⟩
    refine ⟨hversion₀.trans hversion.symm, ints_back h, lw, l₀ ++ l, hlw, ?_, ?_, ?_, ?_, ?_⟩
    · rw [hlog, hl₀, List.append_assoc]
    · rw [hdups, hfst]
    · rw [hpre.dups, hdups, hsnd]
      exact fst_duplicates (hcount₁ ▸ hfds) hall
    · rw [hpre.dups, fill_fds hall]
      exact map_bits_duplicates fun d hd => lt_of_mem_duplicates hd
    · rw [hpre.dups]
      exact fun d hd => lt_of_mem_duplicates hd

end Trip

theorem orderable_new : Orderable new :=
  ⟨packed_new, .nil, fun _ hoff => absurd hoff List.not_mem_nil⟩

/-- The composite readers keep descriptors straight exactly where no call of `dup` fails on the way,
or the failure is not forgotten: `readNativeHandle` does where all its descriptors are duplicated,
`read(FlattenableHelperInterface)` where none is duplicated or all are and find a taker, and a
handle that was written in whole to the end of a parcel comes back where nothing fails. -/
theorem composite_readers (o : Oracle) (p : Parcel) (w : World) :
    (HandleStraight o p w ↔ HandleDups o p w) ∧
    (∀ unflatten, FlattenableStraight o unflatten p w ↔ FlattenableDups o unflatten p w) ∧
    ∀ (h : NativeHandle) (p' q : Parcel) (w' w₁ : World) (o' : Oracle), Orderable p →
      writeNativeHandle o p w (some h) = (.noError, p', w') →
      setDataPosition p' p.mDataSize = some q →
      ((∃ h' q' w₂, readNativeHandle o' q w₁ = (some h', q', w₂) ∧ HandleBack p p' h q h' q') ↔
        CanReadBack o' w₁ p p' h) := by
  refine ⟨readNativeHandle_straight o p w, fun u => readFlattenable_straight o u p w, ?_⟩
  intro h p' q w' w₁ o' hp hcall hseek
  obtain ⟨hversion, news, hw⟩ := hp.packed.writeNativeHandle hcall
  have hq : p'.seek 0 p.mDataSize = q := by
    unfold setDataPosition at hseek
    split at hseek
    · cases hseek
    · exact Option.some.inj hseek
  rw [← hq]
  exact hw.readBack hp hversion

def smallHandle : NativeHandle := ⟨nativeHandleSize, [.wrap 3], [.wrap (-7)]⟩

/-- Written to a fresh parcel it comes back. -/
theorem composite_readers_sample : ∃ p' q h' q' w₂,
    readNativeHandle plainOracle q World.init = (some h', q', w₂) ∧
      HandleBack new p' smallHandle q h' q' := by
  have hwritten :
      (writeNativeHandle plainOracle new World.init (some smallHandle)).1 = .noError := by
    decide +kernel
  have hcall : writeNativeHandle plainOracle new World.init (some smallHandle) =
      (.noError, (writeNativeHandle plainOracle new World.init (some smallHandle)).2) :=
    Prod.ext hwritten rfl
  have hsize : (writeNativeHandle plainOracle new World.init (some smallHandle)).2.1.mDataSize =
      new.mDataSize + 8 + objectSize * smallHandle.numFds + 4 * smallHandle.numInts := by
    decide +kernel
  have hdups : ∀ i < smallHandle.numFds, plainOracle.dup (World.init.dups + i) < 2 ^ 31 := by
    decide +kernel
  exact ⟨_, _, ((composite_readers plainOracle new World.init).2.2 _ _ _ _ World.init plainOracle
    orderable_new hcall rfl).mpr ⟨by decide, by decide, rfl, hdups, hsize⟩⟩

/-- A process that may not open any more descriptors. -/
def fullOracle : Oracle := { plainOracle with dup := fun _ => 2 ^ 32 - 1 }

def receivedHandle : Parcel :=
  (ipcSetDataReference fullOracle new World.init
    (putBytes (fun _ => 0) 0 (intBytes 4 1 ++ intBytes 4 0 ++ (ownedFd 5).bytes)) 32 [8]).1

/-- The descriptor cannot be duplicated, and a handle with the descriptor `-1` is returned. -/
theorem composite_readers_forget : ¬ ∀ (o : Oracle) (p : Parcel) (w : World),
    HandleStraight o p w ∧ (∀ unflatten, FlattenableStraight o unflatten p w) ∧
    ∀ (h : NativeHandle) (p' q : Parcel) (w' w₁ : World) (o' : Oracle), Orderable p →
      writeNativeHandle o p w (some h) = (.noError, p', w') →
      setDataPosition p' p.mDataSize = some q →
      ∃ h' q' w₂, readNativeHandle o' q w₁ = (some h', q', w₂) ∧ HandleBack p p' h q h' q' := by
  intro hall
  have hfds : (readNativeHandle fullOracle receivedHandle World.init).1.map
      (fun h => h.fds.map CInt.bits) = some [2 ^ 32 - 1] := by decide +kernel
  have hlog : dupsIn (readNativeHandle fullOracle receivedHandle World.init).2.1.log = [] := by
    decide +kernel
  have hread := (hall fullOracle receivedHandle World.init).1.returned
  generalize readNativeHandle fullOracle receivedHandle World.init = r at hfds hlog hread
  obtain ⟨r, p', w'⟩ := r
  obtain ⟨h, rfl, hbits⟩ := Option.map_eq_some_iff.mp hfds
  obtain ⟨l, hl, -, -, hdups⟩ := (hread h p' w' rfl).log
  dsimp only at hlog
  rw [hl, dupsIn_append] at hlog
  rw [(List.append_eq_nil_iff.mp hlog).2, hbits] at hdups
  cases hdups

end Parcel

end BinderForLinux
