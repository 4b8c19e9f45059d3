import BinderForLinux.Parcel.Steps

/-!
# What the writers do

Every writer of plain data makes room, stores within the bytes it writes and moves on; a writer
of an object also makes room in the table and lists the object. What has to be shown of runs is
shown of these parts.
-/

namespace BinderForLinux

namespace Parcel

open Library

variable {o : Oracle} {p p' q : Parcel} {w w' : World} {len : ℕ} {st : Status}

/-- Room was made for `len` bytes at the position of the parcel. -/
inductive Room (o : Oracle) (p : Parcel) (w : World) (len : ℕ) : Parcel → World → Prop
  | fits (h : fits p len = true) : Room o p w len p w
  | grown {q : Parcel} {w' : World} (h : fits p len = false)
      (hg : growData o p w len = (.noError, q, w')) : Room o p w len q w'

def GetsRoom (o : Oracle) (p : Parcel) (w : World) (len : ℕ) : Prop :=
  fits p len = true ∨ (growData o p w len).1 = .noError

theorem Room.gets (h : Room o p w len q w') : GetsRoom o p w len := by
  cases h with
  | fits hfits => exact .inl hfits
  | grown _ hg => exact .inr (by rw [hg])

def storeAll (p : Parcel) (fills : List (ℕ × List UInt8)) : Parcel :=
  fills.foldl (fun p f => p.store f.1 f.2) p

def Within (off len : ℕ) (fills : List (ℕ × List UInt8)) : Prop :=
  ∀ f ∈ fills, off ≤ f.1 ∧ f.1 + f.2.length ≤ off + len

/-- How a writer of `len` bytes of plain data ends. -/
inductive Written (o : Oracle) (p : Parcel) (w : World) (len : ℕ) : Parcel → World → Prop
  | unchanged : Written o p w len p w
  | failed {st : Status} {p' : Parcel} {w' : World} (hst : st ≠ .noError)
      (hfits : fits p len = false) (hg : Grown o p w len st p' w') : Written o p w len p' w'
  | put {q : Parcel} {w' : World} (fills : List (ℕ × List UInt8))
      (hroom : Room o p w len q w') (hin : Within q.mDataPos len fills) :
      Written o p w len (finishWrite (storeAll q fills) len) w'

theorem storeGrowing_cases {put : Parcel → Status × Parcel}
    (h : storeGrowing o p w len put = (st, p', w')) :
    (∃ q, Room o p w len q w' ∧ put q = (st, p')) ∨
      fits p len = false ∧ st ≠ .noError ∧ Grown o p w len st p' w' := by
  unfold storeGrowing at h
  split at h
  · rename_i hfits
    cases h
    exact .inl ⟨p, .fits hfits, rfl⟩
  · rename_i hfits
    have hfits' : fits p len = false := by simpa using hfits
    split at h
    · rename_i q w₁ hgrow
      cases h
      exact .inl ⟨q, .grown hfits' hgrow, rfl⟩
    · rename_i r hne
      refine .inr ⟨hfits', fun hst => ?_, growData_cases h⟩
      subst hst
      exact hne _ _ h

@[simp] theorem length_intBytes (n : ℕ) (x : ℤ) : (intBytes n x).length = n := by
  simp [intBytes]

theorem storeAll_append (p : Parcel) (l l' : List (ℕ × List UInt8)) :
    storeAll p (l ++ l') = storeAll (storeAll p l) l' := by
  simp [storeAll]

@[simp] theorem storeAll_pos (p : Parcel) (fills : List (ℕ × List UInt8)) :
    (storeAll p fills).mDataPos = p.mDataPos := by
  induction fills generalizing p with
  | nil => rfl
  | cons f fills ih => exact ih (p.store f.1 f.2)

@[simp] theorem storeAll_capacity (p : Parcel) (fills : List (ℕ × List UInt8)) :
    (storeAll p fills).mDataCapacity = p.mDataCapacity := by
  induction fills generalizing p with
  | nil => rfl
  | cons f fills ih => exact ih (p.store f.1 f.2)

theorem finishWrite_storeAll (p : Parcel) (len : ℕ) (fills : List (ℕ × List UInt8)) :
    storeAll (finishWrite p len) fills = finishWrite (storeAll p fills) len := by
  induction fills generalizing p with
  | nil => rfl
  | cons f fills ih => exact ih (p.store f.1 f.2)

theorem within_single {off len : ℕ} {bs : List UInt8} (h : bs.length ≤ len) :
    Within off len [(off, bs)] := by
  intro f hf
  obtain rfl := List.mem_singleton.mp hf
  simp only
  omega

theorem written_writeAligned {val : List UInt8} (h : writeAligned o p w val = (st, p', w')) :
    Written o p w val.length p' w' := by
  obtain ⟨q, hroom, hput⟩ | ⟨hfits, hst, hg⟩ := storeGrowing_cases h
  · cases hput
    exact .put [(q.mDataPos, val)] hroom (within_single le_rfl)
  · exact .failed hst hfits hg

theorem written_writeUnpadded {data : List UInt8} (h : writeUnpadded o p w data = (st, p', w')) :
    Written o p w data.length p' w' := by
  unfold writeUnpadded at h
  split at h
  · cases h
    exact .unchanged
  split at h
  · cases h
    exact .unchanged
  obtain ⟨q, hroom, hput⟩ | ⟨hfits, hst, hg⟩ := storeGrowing_cases h
  · cases hput
    exact .put [(q.mDataPos, data)] hroom (within_single le_rfl)
  · exact .failed hst hfits hg

/-- The string that `maskPadding` stores. -/
def paddingFill (p : Parcel) (len : ℕ) : List (ℕ × List UInt8) :=
  let padded := padUnsafe len
  if padded = len then []
  else
    let off := p.mDataPos + padded - 4
    [(off, getBytes p.bytes off (len + 4 - padded) ++ List.replicate (padded - len) 0)]

theorem maskPadding_eq (p : Parcel) (len : ℕ) :
    maskPadding p len = storeAll p (paddingFill p len) := by
  unfold maskPadding paddingFill
  dsimp only
  split
  · rfl
  · rfl

theorem le_padUnsafe (len : ℕ) : len ≤ padUnsafe len := by
  unfold padUnsafe
  omega

theorem padUnsafe_le (len : ℕ) : padUnsafe len ≤ len + 3 := by
  unfold padUnsafe
  omega

theorem within_paddingFill (p : Parcel) (len : ℕ) :
    Within p.mDataPos (padUnsafe len) (paddingFill p len) := by
  intro f hf
  unfold paddingFill at hf
  dsimp only at hf
  split at hf
  · cases hf
  · obtain rfl := List.mem_singleton.mp hf
    have h1 := le_padUnsafe len
    have h2 := padUnsafe_le len
    have h3 : 4 ∣ padUnsafe len := Dvd.intro_left _ rfl
    simp only [List.length_append, length_getBytes, List.length_replicate]
    omega

theorem writeInplace_cases {d : Option ℕ} (h : writeInplace o p w len = (d, p', w')) :
    (d = none ∧ (p' = p ∧ w' = w ∨
      ∃ st, st ≠ .noError ∧ fits p (padUnsafe len) = false ∧
        Grown o p w (padUnsafe len) st p' w')) ∨
    len ≤ int32Max ∧ ∃ q, d = some q.mDataPos ∧ Room o p w (padUnsafe len) q w' ∧
      p' = finishWrite (storeAll q (paddingFill q len)) (padUnsafe len) := by
  unfold writeInplace at h
  split at h
  · cases h
    exact .inl ⟨rfl, .inl ⟨rfl, rfl⟩⟩
  rename_i hlen
  dsimp only at h
  split at h
  · cases h
    exact .inl ⟨rfl, .inl ⟨rfl, rfl⟩⟩
  split at h
  · rename_i hfits
    cases h
    exact .inr ⟨by omega, p, rfl, .fits hfits, by rw [maskPadding_eq]⟩
  rename_i hfits
  have hfits' : fits p (padUnsafe len) = false := by simpa using hfits
  split at h
  · rename_i q w₁ hgrow
    cases h
    exact .inr ⟨by omega, q, rfl, .grown hfits' hgrow, by rw [maskPadding_eq]⟩
  · rename_i st q w₁ hne hgrow
    cases h
    exact .inl ⟨rfl, .inr ⟨st, hne, hfits', growData_cases hgrow⟩⟩

theorem written_writeInplace {d : Option ℕ} (h : writeInplace o p w len = (d, p', w')) :
    Written o p w (padUnsafe len) p' w' := by
  obtain ⟨-, ⟨rfl, rfl⟩ | ⟨st, hst, hfits, hg⟩⟩ | ⟨-, q, -, hroom, rfl⟩ := writeInplace_cases h
  · exact .unchanged
  · exact .failed hst hfits hg
  · exact .put _ hroom (within_paddingFill q len)

theorem written_fill {d : ℕ} {fills : List (ℕ × List UInt8)}
    (h : writeInplace o p w len = (some d, p', w')) (hin : Within d len fills) :
    Written o p w (padUnsafe len) (storeAll p' fills) w' := by
  obtain ⟨hnone, -⟩ | ⟨-, q, hd, hroom, rfl⟩ := writeInplace_cases h
  · cases hnone
  · obtain rfl := Option.some.inj hd
    rw [finishWrite_storeAll, ← storeAll_append]
    refine .put _ hroom fun f hf => ?_
    rcases List.mem_append.mp hf with hf | hf
    · exact within_paddingFill q len f hf
    · have hle := le_padUnsafe len
      have := hin f hf
      omega

theorem written_write {data : List UInt8} (h : write o p w data = (st, p', w')) :
    Written o p w (padUnsafe data.length) p' w' := by
  unfold write at h
  split at h
  · cases h
    exact .unchanged
  split at h
  · rename_i d q w₁ hd
    split at h
    · cases h
      exact written_writeInplace hd
    · cases h
      exact written_fill hd (within_single le_rfl)
  · rename_i q w₁ hd
    cases h
    exact written_writeInplace hd

@[simp] theorem length_charsBytes (str : List UInt16) :
    (charsBytes str).length = 2 * str.length := by
  induction str with
  | nil => rfl
  | cons c str ih =>
      simp only [charsBytes, List.flatMap_cons, List.length_append, length_bytesLE,
        List.length_cons] at ih ⊢
      omega

theorem written_writeChars {str : List UInt16} (h : writeChars o p w str = (st, p', w')) :
    Written o p w (padUnsafe (2 * str.length + 2)) p' w' := by
  unfold writeChars at h
  split at h
  · rename_i d q w₁ hd
    cases h
    have hin : Within d (2 * str.length + 2)
        [(d, charsBytes str), (d + 2 * str.length, bytesLE 2 0)] := by
      intro f hf
      rcases List.mem_pair.mp hf with rfl | rfl
      · simp
      · simp
        omega
    exact written_fill hd hin
  · rename_i q w₁ hd
    cases h
    exact written_writeInplace hd

/-! ### Objects -/

@[simp] theorem FlatObject.length_bytes (val : FlatObject) : val.bytes.length = objectSize := by
  simp [FlatObject.bytes, objectSize]

/-- The members of an object fit in their fields. -/
structure FlatObject.Ranged (f : FlatObject) : Prop where
  type : f.type < 2 ^ 32
  flags : f.flags < 2 ^ 32
  binder : f.binder < 2 ^ 64
  cookie : f.cookie < 2 ^ 64

theorem objectAt_of_carries {m : Data} {off : ℕ} {f : FlatObject} (h : Carries m off f.bytes)
    (hf : f.Ranged) : objectAt m off = f := by
  unfold FlatObject.bytes at h
  obtain ⟨h, hcookie⟩ := carries_append.mp h
  obtain ⟨h, hbinder⟩ := carries_append.mp h
  obtain ⟨htype, hflags⟩ := carries_append.mp h
  simp only [List.length_append, length_bytesLE] at hflags hbinder hcookie
  unfold objectAt
  rw [htype.getLE (lt_of_lt_of_eq hf.type (by norm_num)),
    hflags.getLE (lt_of_lt_of_eq hf.flags (by norm_num)),
    hbinder.getLE (lt_of_lt_of_eq hf.binder (by norm_num)),
    hcookie.getLE (lt_of_lt_of_eq hf.cookie (by norm_num))]

def tableGrown (p : Parcel) (n : ℕ) : Parcel :=
  { p.give with mObjects := .own, mObjectsCapacity := n, room := n }

def withTable (p : Parcel) (table : Table) (capacity room : ℕ) (given : List Table) : Parcel :=
  { p with mObjects := table, mObjectsCapacity := capacity, room := room, given := given }

def flagFds (val : FlatObject) (p : Parcel) : Parcel :=
  if val.type = binderTypeFd then { p with mHasFds := true, mFdsKnown := true } else p

def listed (o : Oracle) (val : FlatObject) (off : ℕ) (p : Parcel) : Parcel :=
  { p with
    objects := p.objects ++ [off]
    mOpenAshmemSize := (p.mOpenAshmemSize + ashmemOf o val) % sizeT
    log := p.log ++ [.tableStore p.objects.length p.room, .acquire val] }

def objectStored (val : FlatObject) (p : Parcel) : Parcel :=
  p.store p.mDataPos val.bytes

theorem putObject_cases {val : FlatObject} {nullMetaData : Bool}
    (h : putObject o p val nullMetaData = (st, p')) :
    (st = .fdsNotAllowed ∧ val.type = binderTypeFd ∧ p.mAllowFds = false ∧
      p' = objectStored val p) ∨
    (st = .noError ∧ nullMetaData = false ∧ val.binder = 0 ∧
      p' = finishWrite (flagFds val (objectStored val p)) objectSize) ∨
    (st = .noError ∧ (nullMetaData = true ∨ val.binder ≠ 0) ∧
      (val.type = binderTypeFd → p.mAllowFds = true) ∧
      p' =
        finishWrite (listed o val p.mDataPos (flagFds val (objectStored val p))) objectSize) := by
  unfold putObject at h
  dsimp only at h
  split at h
  · rename_i hfd
    cases h
    exact .inl ⟨rfl, hfd.1, Bool.eq_false_iff.mpr hfd.2, rfl⟩
  rename_i hfd
  split at h
  · rename_i hlist
    cases h
    refine .inr (.inr ⟨rfl, hlist, fun ht => ?_, ?_⟩)
    · by_contra hne
      exact hfd ⟨ht, hne⟩
    · unfold listed flagFds acquireObject Parcel.record
      split
      · simp [objectStored, Parcel.store]
      · simp [objectStored, Parcel.store]
  · rename_i hlist
    cases h
    obtain ⟨hm, hb⟩ := not_or.mp hlist
    exact .inr (.inl ⟨rfl, by simpa using hm, not_not.mp hb, rfl⟩)

/-- How `writeObject` ends: there is no room, or none in the table, or the object is put. -/
inductive ObjectWritten (o : Oracle) (p : Parcel) (w : World) (val : FlatObject)
    (nullMetaData : Bool) : Status → Parcel → World → Prop
  | failed {st : Status} {p' : Parcel} {w' : World} (hst : st ≠ .noError)
      (hfits : fits p objectSize = false) (hg : Grown o p w objectSize st p' w') :
      ObjectWritten o p w val nullMetaData st p' w'
  | tableFull {q : Parcel} {w' : World} (hroom : Room o p w objectSize q w')
      (hfull : p.mObjectsCapacity ≤ p.objects.length) :
      ObjectWritten o p w val nullMetaData .noMemory q.give (w'.tried 1)
  | put {q : Parcel} {w' : World} (hroom : Room o p w objectSize q w')
      (henough : p.objects.length < p.mObjectsCapacity) :
      ObjectWritten o p w val nullMetaData (putObject o q val nullMetaData).1
        (putObject o q val nullMetaData).2 w'
  | putGrown {q : Parcel} {w' : World} (hroom : Room o p w objectSize q w')
      (hfull : p.mObjectsCapacity ≤ p.objects.length) :
      ObjectWritten o p w val nullMetaData
        (putObject o (tableGrown q ((q.objects.length + 2) * 3 / 2)) val nullMetaData).1
        (putObject o (tableGrown q ((q.objects.length + 2) * 3 / 2)) val nullMetaData).2
        (w'.tried 1)

theorem objectWritten {val : FlatObject} {nullMetaData : Bool}
    (h : writeObject o p w val nullMetaData = (st, p', w')) :
    ObjectWritten o p w val nullMetaData st p' w' := by
  unfold writeObject at h
  dsimp only at h
  split at h
  · rename_i q w₁ hgrow
    have hroom : Room o p w objectSize q w₁ := by
      split at hgrow
      · rename_i hfits
        cases hgrow
        exact .fits hfits
      · rename_i hfits
        exact .grown (by simpa using hfits) hgrow
    by_cases hen : p.objects.length < p.mObjectsCapacity
    · simp only [hen, decide_true, if_true] at h
      cases h
      exact .put hroom hen
    · unfold growObjects World.alloc at h
      by_cases ha : o.allocates w₁.allocs
      · simp only [hen, decide_false, Bool.false_eq_true, if_false, if_pos ha] at h
        cases h
        exact .putGrown hroom (by omega)
      · simp only [hen, decide_false, Bool.false_eq_true, if_false, if_neg ha] at h
        cases h
        exact .tableFull hroom (by omega)
  · rename_i r hne
    split at h
    · rename_i hfits
      exact absurd (by rw [if_pos hfits]) (hne p w)
    · rename_i hfits
      refine .failed (fun hst => ?_) (by simpa using hfits) (growData_cases h)
      subst hst
      exact hne p' w' (by rw [if_neg hfits, h])

/-! ### Appending -/

/-- Room was made for `len` more bytes of data. -/
inductive AppendRoom (o : Oracle) (p : Parcel) (w : World) (len : ℕ) : Parcel → World → Prop
  | enough (h : p.mDataSize + len ≤ p.mDataCapacity) : AppendRoom o p w len p w
  | grown {q : Parcel} {w' : World} (h : p.mDataCapacity < p.mDataSize + len)
      (hg : growData o p w len = (.noError, q, w')) : AppendRoom o p w len q w'

theorem AppendRoom.gets (h : AppendRoom o p w len q w') :
    p.mDataSize + len ≤ p.mDataCapacity ∨ (growData o p w len).1 = .noError := by
  cases h with
  | enough hle => exact .inl hle
  | grown _ hg => exact .inr (by rw [hg])

def appendData (p parcel : Parcel) (offset len : ℕ) : Parcel :=
  { p.store p.mDataPos (getBytes parcel.bytes offset len) with
    mDataPos := p.mDataPos + len
    mDataSize := p.mDataSize + len }

def shiftedObjects (p parcel : Parcel) (offset len : ℕ) : List ℕ :=
  (rangeObjects parcel.objects offset len).map fun off =>
    (off + sizeT - offset + intToSizeT p.mDataPos) % sizeT

/-- The objects are taken over, one after the other. -/
def appendObjects (o : Oracle) (p : Parcel) (w : World) (offs : List ℕ) :
    Status × Parcel × World :=
  offs.foldl (appendObject o) (.noError, p, w)

/-- The descriptor at `off` is listed, and replaced by a duplicate that the parcel owns. -/
def adopted (o : Oracle) (fd off : ℕ) (p : Parcel) : Parcel :=
  let f := objectAt p.bytes off
  let p := (listed o f off p).record [.dup f.handle fd]
  { (p.store (off + 8) (bytesLE 4 fd)).store (off + 16) (bytesLE 8 1) with
    mHasFds := true
    mFdsKnown := true }

theorem appendObject_cases {off : ℕ} {r : Status × Parcel × World}
    (h : appendObject o (st, p, w) off = r) :
    ((objectAt p.bytes off).type ≠ binderTypeFd ∧
      r = (st, listed o (objectAt p.bytes off) off p, w)) ∨
    ((objectAt p.bytes off).type = binderTypeFd ∧ ∃ st',
      r = (st', adopted o (o.dup w.dups) off p, { w with dups := w.dups + 1 })) := by
  subst h
  unfold appendObject
  dsimp only
  split
  · rename_i hfd
    refine .inr ⟨hfd, if p.mAllowFds then st else .fdsNotAllowed, ?_⟩
    unfold adopted listed acquireObject Parcel.record Parcel.store
    simp only [List.append_assoc, List.cons_append, List.nil_append]
  · rename_i hfd
    refine .inl ⟨hfd, ?_⟩
    unfold listed acquireObject Parcel.record
    simp

theorem appendObjects_world (p : Parcel) (w : World) (offs : List ℕ) :
    ∃ n, (appendObjects o p w offs).2.2 = { w with dups := n } := by
  unfold appendObjects
  suffices hfold : ∀ st : Status,
      ∃ n, (offs.foldl (appendObject o) (st, p, w)).2.2 = { w with dups := n } from hfold .noError
  intro st
  induction offs generalizing p w st with
  | nil => exact ⟨w.dups, rfl⟩
  | cons off offs ih =>
      rw [List.foldl_cons]
      obtain ⟨-, hr⟩ | ⟨-, st', hr⟩ := appendObject_cases (rfl : appendObject o (st, p, w) off = _)
      · rw [hr]
        exact ih _ _ st
      · rw [hr]
        obtain ⟨n, hn⟩ := ih (adopted o (o.dup w.dups) off p) { w with dups := w.dups + 1 } st'
        exact ⟨n, hn⟩

/-- A range that `appendFrom` accepts. -/
structure InSource (parcel : Parcel) (offset len : ℕ) : Prop where
  pos : 0 < len
  le_max : len ≤ int32Max
  le_size : offset + len ≤ parcel.mDataSize

/-- How `appendFrom` ends. -/
inductive Appended (o : Oracle) (p : Parcel) (w : World) (parcel : Parcel) (offset len : ℕ) :
    Parcel → World → Prop
  | unchanged : Appended o p w parcel offset len p w
  | failed {st : Status} {p' : Parcel} {w' : World} (hst : st ≠ .noError)
      (hcap : p.mDataCapacity < p.mDataSize + len) (hg : Grown o p w len st p' w') :
      Appended o p w parcel offset len p' w'
  | plain {q : Parcel} {w' : World} (hsrc : InSource parcel offset len)
      (hroom : AppendRoom o p w len q w') (hnone : rangeObjects parcel.objects offset len = []) :
      Appended o p w parcel offset len (appendData q parcel offset len) w'
  | tableFull {q : Parcel} {w' : World} (hsrc : InSource parcel offset len)
      (hroom : AppendRoom o p w len q w') (hsome : rangeObjects parcel.objects offset len ≠ [])
      (hfull : q.mObjectsCapacity <
        q.objects.length + (rangeObjects parcel.objects offset len).length) :
      Appended o p w parcel offset len (appendData q parcel offset len).give (w'.tried 1)
  | listed {q : Parcel} {w' : World} (hsrc : InSource parcel offset len)
      (hroom : AppendRoom o p w len q w')
      (henough : q.objects.length + (rangeObjects parcel.objects offset len).length ≤
        q.mObjectsCapacity) :
      Appended o p w parcel offset len
        (appendObjects o (appendData q parcel offset len) w'
          (shiftedObjects p parcel offset len)).2.1
        (appendObjects o (appendData q parcel offset len) w'
          (shiftedObjects p parcel offset len)).2.2
  | listedGrown {q : Parcel} {w' : World} (hsrc : InSource parcel offset len)
      (hroom : AppendRoom o p w len q w') (hsome : rangeObjects parcel.objects offset len ≠ [])
      (hfull : q.mObjectsCapacity <
        q.objects.length + (rangeObjects parcel.objects offset len).length) :
      Appended o p w parcel offset len
        (appendObjects o (tableGrown (appendData q parcel offset len)
          ((q.objects.length + (rangeObjects parcel.objects offset len).length) * 3 / 2))
          (w'.tried 1) (shiftedObjects p parcel offset len)).2.1
        (appendObjects o (tableGrown (appendData q parcel offset len)
          ((q.objects.length + (rangeObjects parcel.objects offset len).length) * 3 / 2))
          (w'.tried 1) (shiftedObjects p parcel offset len)).2.2

theorem appended {parcel : Parcel} {offset : ℕ}
    (h : appendFrom o p w parcel offset len = (st, p', w')) :
    Appended o p w parcel offset len p' w' := by
  unfold appendFrom at h
  dsimp only at h
  split at h
  · cases h
    exact .unchanged
  rename_i hpos
  split at h
  · cases h
    exact .unchanged
  rename_i hmax
  split at h
  · cases h
    exact .unchanged
  rename_i hsrc
  have hsrc' : InSource parcel offset len := ⟨by omega, by omega, by omega⟩
  split at h
  · rename_i q w₁ hgrow
    have hroom : AppendRoom o p w len q w₁ := by
      split at hgrow
      · rename_i hcap
        exact .grown hcap hgrow
      · rename_i hcap
        cases hgrow
        exact .enough (by omega)
    split at h
    · rename_i hnone
      cases h
      exact .plain hsrc' hroom hnone
    rename_i hsome
    split at h
    · rename_i q₂ w₂ htab
      unfold growObjects World.alloc at htab
      split at htab
      · rename_i hfull
        by_cases ha : o.allocates w₁.allocs
        · rw [if_pos ha] at htab
          cases htab
          have hfold : appendObjects o (tableGrown (appendData q parcel offset len)
              ((q.objects.length + (rangeObjects parcel.objects offset len).length) * 3 / 2))
              (w₁.tried 1) (shiftedObjects p parcel offset len) = (st, p', w') := h
          have hend := Appended.listedGrown hsrc' hroom hsome hfull
          rw [hfold] at hend
          exact hend
        · rw [if_neg ha] at htab
          cases htab
      · rename_i henough
        cases htab
        have hfold : appendObjects o (appendData q parcel offset len) w₁
            (shiftedObjects p parcel offset len) = (st, p', w') := h
        have hend := Appended.listed hsrc' hroom (not_lt.mp henough)
        rw [hfold] at hend
        exact hend
    · rename_i r hne
      unfold growObjects World.alloc at h
      split at h
      · by_cases ha : o.allocates w₁.allocs
        · rename_i htab
          refine (hne (tableGrown (appendData q parcel offset len)
            ((q.objects.length + (rangeObjects parcel.objects offset len).length) * 3 / 2))
            (w₁.tried 1) ?_).elim
          rw [if_pos htab]
          unfold growObjects World.alloc
          rw [if_pos ha]
          rfl
        · rename_i hfull
          rw [if_neg ha] at h
          cases h
          exact .tableFull hsrc' hroom hsome hfull
      · rename_i htab
        refine (hne (appendData q parcel offset len) w₁ ?_).elim
        rw [if_neg htab]
        rfl
  · rename_i r hne
    split at h
    · rename_i hcap
      refine .failed (fun hst => ?_) hcap (growData_cases h)
      subst hst
      exact hne p' w' (by rw [if_pos hcap, h])
    · rename_i hcap
      exact absurd (by rw [if_neg hcap]) (hne p w)

/-! ### Setting the data -/

/-- What `restartWrite` leaves of the data and of the table. -/
def emptied (p : Parcel) : Parcel :=
  { p.freeTable with
    mDataSize := 0
    mDataPos := 0
    objects := []
    mObjects := .null
    mObjectsCapacity := 0
    room := 0
    mNextObjectHint := 0
    mHasFds := false
    mFdsKnown := true
    mAllowFds := true }

/-- The ways in which `restartWrite` can end. -/
inductive Restarted (o : Oracle) (p : Parcel) (w : World) (desired : ℕ) :
    Status → Parcel → World → Prop
  | tooLarge (h : desired > int32Max) : Restarted o p w desired .badValue p w
  | received {st : Status} {p' : Parcel} {w' : World} (hown : p.mOwner = true)
      (h : Continued o (initState (freeBuffer p)) w desired st p' w') :
      Restarted o p w desired st p' w'
  | refused (hown : p.mOwner = false) (hlt : p.mDataCapacity < desired) :
      Restarted o p w desired .noMemory (outOfMemory p) (w.tried 1)
  | replaced (bs : Data) (l : List Effect) (hown : p.mOwner = false) (hmax : desired ≤ int32Max)
      (ha : o.allocates w.allocs = true)
      (hl : p.mData = none ∧ bs = p.bytes ∧ l = [.malloc w.allocs] ∨
        ∃ b, p.mData = some b ∧ 0 < desired ∧ bs = o.stale w.allocs ∧
          l = [.free b, .malloc w.allocs]) :
      Restarted o p w desired .noError
        (emptied { releaseObjects o (account { p with bytes := bs } p.mOpenAshmemSize l) with
          mData := some w.allocs, bytes := o.fresh w.allocs, mDataCapacity := desired })
        ((w.tried 1).count desired p.mDataCapacity 0 0)
  | freed (b : ℕ) (hown : p.mOwner = false) (hb : p.mData = some b) (hzero : desired = 0) :
      Restarted o p w desired .noError
        (emptied (releaseObjects o
          (account { p with bytes := o.stale w.allocs } p.mOpenAshmemSize [.free b]))) w
  | kept (hown : p.mOwner = false) (hb : p.mData = none ∨ 0 < desired)
      (hle : desired ≤ p.mDataCapacity) (hmax : desired ≤ int32Max) :
      Restarted o p w desired .noError (emptied (releaseObjects o p)) (w.tried 1)

theorem reallocData_cases {desired : ℕ} {data : Option ℕ}
    (h : reallocData o p w desired = (data, p', w')) :
    (∃ bs l, data = some w.allocs ∧ p' = account { p with bytes := bs } p.mOpenAshmemSize l ∧
      w' = w.tried 1 ∧ o.allocates w.allocs = true ∧
        (p.mData = none ∧ bs = p.bytes ∧ l = [.malloc w.allocs] ∨
          ∃ b, p.mData = some b ∧ 0 < desired ∧ bs = o.stale w.allocs ∧
            l = [.free b, .malloc w.allocs])) ∨
    (∃ b, p.mData = some b ∧ desired = 0 ∧ data = none ∧ w' = w ∧
      p' = account { p with bytes := o.stale w.allocs } p.mOpenAshmemSize [.free b]) ∨
    (data = none ∧ p' = p ∧ w' = w.tried 1 ∧ (p.mData = none ∨ 0 < desired)) := by
  unfold reallocData World.alloc at h
  split at h
  · rename_i hb
    by_cases ha : o.allocates w.allocs
    · simp only [if_pos ha] at h
      cases h
      exact .inl ⟨p.bytes, _, rfl, rfl, rfl, ha, .inl ⟨hb, rfl, rfl⟩⟩
    · simp only [if_neg ha] at h
      cases h
      exact .inr (.inr ⟨rfl, rfl, rfl, .inl hb⟩)
  · rename_i b hb
    split at h
    · rename_i hzero
      cases h
      exact .inr (.inl ⟨b, hb, hzero, rfl, rfl, rfl⟩)
    · rename_i hpos
      by_cases ha : o.allocates w.allocs
      · simp only [if_pos ha] at h
        cases h
        exact .inl ⟨_, _, rfl, rfl, rfl, ha, .inr ⟨b, hb, by omega, rfl, rfl⟩⟩
      · simp only [if_neg ha] at h
        cases h
        exact .inr (.inr ⟨rfl, rfl, rfl, .inr (by omega)⟩)

theorem releaseObjects_capacity (p : Parcel) :
    (releaseObjects o p).mDataCapacity = p.mDataCapacity := by
  rw [releaseObjects_eq]
  rfl

theorem releaseObjects_owner (p : Parcel) : (releaseObjects o p).mOwner = p.mOwner := by
  rw [releaseObjects_eq]
  rfl

theorem restarted {desired : ℕ} (h : restartWrite o p w desired = (st, p', w')) :
    Restarted o p w desired st p' w' := by
  unfold restartWrite at h
  split at h
  · cases h
    exact .tooLarge (by assumption)
  rename_i hmax
  have hmax' : desired ≤ int32Max := not_lt.mp hmax
  split at h
  · rename_i hown
    simp only [freeData, freeDataNoInit, hown, if_true] at h
    exact .received hown (continueWrite_cases h)
  rename_i hown
  have hown' : p.mOwner = false := by simpa using hown
  rcases hr : reallocData o p w desired with ⟨data, q, w₁⟩
  simp only [hr] at h
  obtain ⟨bs, l, rfl, rfl, rfl, ha, hl⟩ | ⟨b, hb, hzero, rfl, rfl, rfl⟩ | ⟨rfl, rfl, rfl, hb⟩ :=
    reallocData_cases hr
  · rw [if_neg (by simp)] at h
    dsimp only at h
    rw [releaseObjects_capacity] at h
    cases h
    exact .replaced bs l hown' hmax' ha hl
  · rw [if_neg (by omega)] at h
    cases h
    exact .freed b hown' hb hzero
  · split at h
    · rename_i hlt
      cases h
      exact .refused hown' hlt.2
    · rename_i hle
      have hle' : desired ≤ q.mDataCapacity := by simpa using hle
      cases h
      exact .kept hown' hb hle' hmax'

theorem setDataSize_cases {size : ℕ} (h : setDataSize o p w size = (st, p', w')) :
    (p' = p ∧ w' = w) ∨ (st ≠ .noError ∧ Continued o p w size st p' w') ∨
      ∃ q, Continued o p w size .noError q w' ∧ p' = { q with mDataSize := size } := by
  unfold setDataSize at h
  split at h
  · cases h
    exact .inl ⟨rfl, rfl⟩
  split at h
  · rename_i q w₁ hq
    cases h
    exact .inr (.inr ⟨q, continueWrite_cases hq, rfl⟩)
  · rename_i r hne
    refine .inr (.inl ⟨fun hst => ?_, continueWrite_cases h⟩)
    subst hst
    exact hne _ _ h

theorem setDataCapacity_cases {size : ℕ} (h : setDataCapacity o p w size = (st, p', w')) :
    (p' = p ∧ w' = w) ∨ p.mDataCapacity < size ∧ Continued o p w size st p' w' := by
  unfold setDataCapacity at h
  split at h
  · cases h
    exact .inl ⟨rfl, rfl⟩
  split at h
  · rename_i hlt
    exact .inr ⟨hlt, continueWrite_cases h⟩
  · cases h
    exact .inl ⟨rfl, rfl⟩

theorem setData_cases {buffer : List UInt8} (h : setData o p w buffer = (st, p', w')) :
    (p' = p ∧ w' = w) ∨ (st ≠ .noError ∧ Restarted o p w buffer.length st p' w') ∨
      ∃ q, Restarted o p w buffer.length .noError q w' ∧
        p' = { q.store 0 buffer with mDataSize := buffer.length, mFdsKnown := false } := by
  unfold setData at h
  split at h
  · cases h
    exact .inl ⟨rfl, rfl⟩
  split at h
  · rename_i q w₁ hq
    cases h
    exact .inr (.inr ⟨q, restarted hq, rfl⟩)
  · rename_i r hne
    refine .inr (.inl ⟨fun hst => ?_, restarted h⟩)
    subst hst
    exact hne _ _ h

theorem freeDataNoInit_cases (h : freeDataNoInit o p w = (p', w')) :
    (p.mOwner = true ∧ p' = freeBuffer p ∧ w' = w) ∨
    (p.mOwner = false ∧ p.mData = none ∧ p' = (releaseObjects o p).freeTable ∧ w' = w) ∨
    ∃ b, p.mOwner = false ∧ p.mData = some b ∧
      p' = ((releaseObjects o p).record [.free b]).freeTable ∧
        w' = w.count 0 p.mDataCapacity 0 1 := by
  unfold freeDataNoInit at h
  split at h
  · rename_i hown
    cases h
    exact .inl ⟨hown, rfl, rfl⟩
  rename_i hown
  have hown' : p.mOwner = false := by simpa using hown
  have hdata : (releaseObjects o p).mData = p.mData := by
    rw [releaseObjects_eq]
    rfl
  dsimp only at h
  rw [releaseObjects_capacity] at h
  split at h
  · rename_i hb
    cases h
    exact .inr (.inl ⟨hown', hdata ▸ hb, rfl, rfl⟩)
  · rename_i b hb
    cases h
    exact .inr (.inr ⟨b, hown', hdata ▸ hb, rfl, rfl⟩)

/-! ### What a step does -/

def Op.plainLength : Op → Option ℕ
  | .writeAligned val => some val.length
  | .writeUnpadded data => some data.length
  | .writeInplace len => some (padUnsafe len)
  | .write data => some (padUnsafe data.length)
  | .writeChars str => some (padUnsafe (2 * str.length + 2))
  | _ => none

def World.duped (w : World) : World := { w with dups := w.dups + 1 }

/-- The object for a descriptor that the parcel owns. -/
def ownedFd (fd : ℕ) : FlatObject :=
  { type := binderTypeFd, flags := 0x17f, binder := fd, cookie := 1 }

/-- The parcel that refers to data of the driver. -/
def received (p : Parcel) (data : Data) (dataSize : ℕ) (objects : List ℕ) : Parcel :=
  scanForFds
    { p with
      mError := .noError
      mData := none
      bytes := data
      mDataSize := dataSize
      mDataCapacity := dataSize
      mDataPos := 0
      objects := if offsetsOk 0 objects then objects else []
      mObjects := .driver
      mObjectsCapacity := objects.length
      room := 0
      mNextObjectHint := 0
      mOwner := true }

/-- How an operation can end, if it does not abort. -/
inductive Outcome (o : Oracle) (p : Parcel) (w : World) : Op → Parcel → World → Prop
  | plain {op : Op} {len : ℕ} {p' : Parcel} {w' : World} (hlen : op.plainLength = some len)
      (hw : Written o p w len p' w') : Outcome o p w op p' w'
  | object {val : FlatObject} {nullMetaData : Bool} {st : Status} {p' : Parcel} {w' : World}
      (hw : ObjectWritten o p w val nullMetaData st p' w') :
      Outcome o p w (.writeObject val nullMetaData) p' w'
  | notDup {fd : ℕ} (h : 2 ^ 31 ≤ o.dup w.dups) :
      Outcome o p w (.writeDupFileDescriptor fd) p w.duped
  | dup {fd : ℕ} {p' : Parcel} {w' : World} (h : o.dup w.dups < 2 ^ 31)
      (hw : ObjectWritten o (p.record [.dup fd (o.dup w.dups)]) w.duped
        (ownedFd (o.dup w.dups)) true .noError p' w') :
      Outcome o p w (.writeDupFileDescriptor fd) p' w'
  | dupFailed {fd : ℕ} {st : Status} {p' : Parcel} {w' : World} (h : o.dup w.dups < 2 ^ 31)
      (hst : st ≠ .noError)
      (hw : ObjectWritten o (p.record [.dup fd (o.dup w.dups)]) w.duped
        (ownedFd (o.dup w.dups)) true st p' w') :
      Outcome o p w (.writeDupFileDescriptor fd) (p'.record [.close (o.dup w.dups)]) w'
  | append {parcel : Parcel} {offset len : ℕ} {p' : Parcel} {w' : World}
      (ha : Appended o p w parcel offset len p' w') :
      Outcome o p w (.appendFrom parcel offset len) p' w'
  | sameSize {size : ℕ} : Outcome o p w (.setDataSize size) p w
  | sizeFailed {size : ℕ} {st : Status} {p' : Parcel} {w' : World} (hst : st ≠ .noError)
      (hc : Continued o p w size st p' w') : Outcome o p w (.setDataSize size) p' w'
  | sized {size : ℕ} {q : Parcel} {w' : World} (hc : Continued o p w size .noError q w') :
      Outcome o p w (.setDataSize size) { q with mDataSize := size } w'
  | sameCapacity {size : ℕ} : Outcome o p w (.setDataCapacity size) p w
  | capacity {size : ℕ} {st : Status} {p' : Parcel} {w' : World}
      (hlt : p.mDataCapacity < size) (hc : Continued o p w size st p' w') :
      Outcome o p w (.setDataCapacity size) p' w'
  | position {pos : ℕ} (h : pos ≤ int32Max) :
      Outcome o p w (.setDataPosition pos) { p with mDataPos := pos, mNextObjectHint := 0 } w
  | sameData {buffer : List UInt8} : Outcome o p w (.setData buffer) p w
  | dataFailed {buffer : List UInt8} {st : Status} {p' : Parcel} {w' : World}
      (hst : st ≠ .noError) (hr : Restarted o p w buffer.length st p' w') :
      Outcome o p w (.setData buffer) p' w'
  | data {buffer : List UInt8} {q : Parcel} {w' : World}
      (hr : Restarted o p w buffer.length .noError q w') :
      Outcome o p w (.setData buffer)
        { q.store 0 buffer with mDataSize := buffer.length, mFdsKnown := false } w'
  | received {data : Data} {dataSize : ℕ} {objects : List ℕ} {q : Parcel} {w' : World}
      (hf : freeDataNoInit o p w = (q, w')) :
      Outcome o p w (.ipcSetDataReference data dataSize objects)
        (received q data dataSize objects) w'
  | freed {q : Parcel} {w' : World} (hf : freeDataNoInit o p w = (q, w')) :
      Outcome o p w .freeData (initState q) w'
  | allowFds {allow : Bool} : Outcome o p w (.allowFds allow) { p with mAllowFds := allow } w
  | setError {err : Status} : Outcome o p w (.setError err) { p with mError := err } w
  | reads {r : Reader} {p' : Parcel} (h : r.step p = some p') (hr : ReadOnly p p') :
      Outcome o p w (.reads r) p' w

theorem exists_status {r : Status × Parcel × World} (h : r.2 = (p', w')) :
    ∃ st, r = (st, p', w') := ⟨r.1, Prod.ext rfl h⟩

theorem outcome_dup {fd : ℕ} (h : writeDupFileDescriptor o p w fd = (st, p', w')) :
    Outcome o p w (.writeDupFileDescriptor fd) p' w' := by
  unfold writeDupFileDescriptor at h
  dsimp only at h
  split at h
  · rename_i hdup
    cases h
    exact .notDup hdup
  rename_i hdup
  have hdup' : o.dup w.dups < 2 ^ 31 := not_le.mp hdup
  split at h
  · rename_i q w₁ hq
    cases h
    exact .dup hdup' (objectWritten hq)
  · rename_i st' q w₁ hne hq
    cases h
    exact .dupFailed hdup' hne (objectWritten hq)

theorem outcome {op : Op} (h : step o (p, w) op = .ok (p', w')) : Outcome o p w op p' w' := by
  cases op with
  | writeAligned val =>
      obtain ⟨st, hr⟩ := exists_status (Except.ok.inj h)
      exact .plain rfl (written_writeAligned hr)
  | writeUnpadded data =>
      obtain ⟨st, hr⟩ := exists_status (Except.ok.inj h)
      exact .plain rfl (written_writeUnpadded hr)
  | writeInplace len =>
      have hr : writeInplace o p w len = ((writeInplace o p w len).1, p', w') :=
        Prod.ext rfl (Except.ok.inj h)
      exact .plain rfl (written_writeInplace hr)
  | write data =>
      obtain ⟨st, hr⟩ := exists_status (Except.ok.inj h)
      exact .plain rfl (written_write hr)
  | writeChars str =>
      obtain ⟨st, hr⟩ := exists_status (Except.ok.inj h)
      exact .plain rfl (written_writeChars hr)
  | writeObject val nullMetaData =>
      obtain ⟨st, hr⟩ := exists_status (Except.ok.inj h)
      exact .object (objectWritten hr)
  | writeDupFileDescriptor fd =>
      obtain ⟨st, hr⟩ := exists_status (Except.ok.inj h)
      exact outcome_dup hr
  | appendFrom parcel offset len =>
      obtain ⟨st, hr⟩ := exists_status (Except.ok.inj h)
      exact .append (appended hr)
  | setDataSize size =>
      obtain ⟨st, hr⟩ := exists_status (Except.ok.inj h)
      obtain ⟨rfl, rfl⟩ | ⟨hst, hc⟩ | ⟨q, hc, rfl⟩ := setDataSize_cases hr
      · exact .sameSize
      · exact .sizeFailed hst hc
      · exact .sized hc
  | setDataCapacity size =>
      obtain ⟨st, hr⟩ := exists_status (Except.ok.inj h)
      obtain ⟨rfl, rfl⟩ | ⟨hlt, hc⟩ := setDataCapacity_cases hr
      · exact .sameCapacity
      · exact .capacity hlt hc
  | setDataPosition pos =>
      simp only [step, setDataPosition] at h
      split at h
      · cases h
      · rename_i hle
        cases h
        exact .position (not_lt.mp hle)
  | setData buffer =>
      obtain ⟨st, hr⟩ := exists_status (Except.ok.inj h)
      obtain ⟨rfl, rfl⟩ | ⟨hst, hc⟩ | ⟨q, hc, rfl⟩ := setData_cases hr
      · exact .sameData
      · exact .dataFailed hst hc
      · exact .data hc
  | ipcSetDataReference data dataSize objects =>
      rcases hf : freeDataNoInit o p w with ⟨q, w₁⟩
      simp only [step, ipcSetDataReference, hf, Except.ok.injEq, Prod.mk.injEq] at h
      obtain ⟨rfl, rfl⟩ := h
      exact .received hf
  | freeData =>
      rcases hf : freeDataNoInit o p w with ⟨q, w₁⟩
      simp only [step, freeData, hf, Except.ok.injEq, Prod.mk.injEq] at h
      obtain ⟨rfl, rfl⟩ := h
      exact .freed hf
  | allowFds allow =>
      cases h
      exact .allowFds
  | setError err =>
      cases h
      exact .setError
  | reads r =>
      simp only [step] at h
      cases hr : r.step p with
      | none =>
          rw [hr] at h
          cases h
      | some q =>
          rw [hr] at h
          cases h
          exact .reads hr (readOnly_step hr)

end Parcel

end BinderForLinux
