import BinderForLinux.Parcel.Objects
import BinderForLinux.Parcel.Reports

/-!
# Appending a range

`appendFrom` goes from the first to the last object in the range. Where the objects of the source
come one behind the other, these are the objects in the range, and each is copied, acquired and
listed for itself.
-/

namespace BinderForLinux

namespace Parcel

open Library

variable {o : Oracle} {p p' q r parcel : Parcel} {w w' w₁ : World} {st : Status}
variable {offset len : ℕ}

/-! ### The objects in the range -/

theorem rdropWhile_eq_filter {α : Type*} (P : α → Bool) {l : List α}
    (h : l.Pairwise fun x y => P y = true → P x = true) :
    (l.rdropWhile fun x => !P x) = l.filter P := by
  induction l using List.reverseRecOn with
  | nil => rfl
  | append_singleton l x ih =>
      obtain ⟨hl, -, hlast⟩ := List.pairwise_append.mp h
      cases hx : P x with
      | false =>
          rw [List.rdropWhile_concat_pos _ _ _ (by simp [hx]), ih hl, List.filter_append]
          simp [hx]
      | true =>
          rw [List.rdropWhile_concat_neg _ _ _ (by simp [hx]), List.filter_append, eq_comm]
          have hall (y : α) (hy : y ∈ l) : P y = true := hlast y hy x (by simp) hx
          rw [List.filter_eq_self.mpr hall]
          simp [hx]

/-- The objects come one behind the other, and none wraps around. -/
structure OneByOne (objects : List ℕ) : Prop where
  spaced : objects.Pairwise fun a b => a + objectSize ≤ b
  below : ∀ off ∈ objects, off + objectSize < sizeT

instance (objects : List ℕ) : Decidable (OneByOne objects) :=
  decidable_of_iff (_ ∧ _) ⟨fun h => OneByOne.mk h.1 h.2, fun h => ⟨h.spaced, h.below⟩⟩

/-- The objects of the source that lie in the range. -/
def objectsIn (objects : List ℕ) (offset len : ℕ) : List ℕ :=
  objects.filter fun off => offset ≤ off && off + objectSize ≤ offset + len

theorem mem_objectsIn {objects : List ℕ} {off : ℕ} (h : off ∈ objectsIn objects offset len) :
    off ∈ objects ∧ offset ≤ off ∧ off + objectSize ≤ offset + len := by
  obtain ⟨hmem, hin⟩ := List.mem_filter.mp h
  rw [Bool.and_eq_true, decide_eq_true_eq, decide_eq_true_eq] at hin
  exact ⟨hmem, hin⟩

/-- From the first to the last are the objects in the range, and no others. -/
theorem rangeObjects_eq {objects : List ℕ} (h : OneByOne objects)
    (hrange : offset + len < sizeT) :
    rangeObjects objects offset len = objectsIn objects offset len := by
  have hin (off : ℕ) (hoff : off ∈ objects) :
      inRange offset len off = (offset ≤ off && off + objectSize ≤ offset + len) := by
    rw [inRange, Nat.mod_eq_of_lt (h.below off hoff), Nat.mod_eq_of_lt hrange]
  obtain ⟨hspaced, -⟩ := h
  unfold rangeObjects objectsIn
  induction objects with
  | nil => rfl
  | cons x l ih =>
      obtain ⟨hx, hl⟩ := List.pairwise_cons.mp hspaced
      have hinx := hin x List.mem_cons_self
      have hinl (off : ℕ) (hoff : off ∈ l) := hin off (List.mem_cons_of_mem x hoff)
      cases hfirst : inRange offset len x with
      | false =>
          rw [List.dropWhile_cons_of_pos (by simp [hfirst]), ih hinl hl,
            List.filter_cons_of_neg (by rw [← hinx, hfirst]; exact Bool.false_ne_true)]
      | true =>
          rw [List.dropWhile_cons_of_neg (by simp [hfirst]), rdropWhile_eq_filter]
          · exact List.filter_congr hin
          · refine hspaced.imp_of_mem fun {a b} ha hb hab hinb => ?_
            have hge : offset ≤ a := by
              rw [hinx, Bool.and_eq_true, decide_eq_true_eq] at hfirst
              rcases List.mem_cons.mp ha with rfl | ha
              · exact hfirst.1
              · exact le_trans hfirst.1 (le_trans (Nat.le_add_right _ _) (hx a ha))
            rw [hin b hb, Bool.and_eq_true, decide_eq_true_eq, decide_eq_true_eq] at hinb
            rw [hin a ha, Bool.and_eq_true, decide_eq_true_eq, decide_eq_true_eq]
            exact ⟨hge, by omega⟩

/-! ### The loop -/

/-- The objects with duplicates for their descriptors, after so many were made. -/
def adoptAll (o : Oracle) : ℕ → List FlatObject → List FlatObject
  | _, [] => []
  | n, f :: fs =>
      if f.type = binderTypeFd then f.adopt (o.dup n) :: adoptAll o (n + 1) fs
      else f :: adoptAll o n fs

def dupsOf (o : Oracle) : ℕ → List FlatObject → List (ℕ × ℕ)
  | _, [] => []
  | n, f :: fs =>
      if f.type = binderTypeFd then (f.handle, o.dup n) :: dupsOf o (n + 1) fs
      else dupsOf o n fs

/-- The calls of `dup` in a log, with what they returned. -/
def dupsIn (log : List Effect) : List (ℕ × ℕ) := log.filterMap fun e =>
  match e with
  | .dup fd new => some (fd, new)
  | _ => none

/-- The byte belongs to the number or the mark of a descriptor. -/
def Replaced (m : Data) (offs : List ℕ) (i : ℕ) : Prop :=
  ∃ off ∈ offs, (objectAt m off).type = binderTypeFd ∧
    (off + 8 ≤ i ∧ i < off + 12 ∨ off + 16 ≤ i ∧ i < off + 24)

/-- The objects were taken over. -/
structure TakenOver (o : Oracle) (q : Parcel) (w : World) (offs : List ℕ) (r : Parcel) : Prop where
  objects : r.objects = q.objects ++ offs
  bytes : ∀ i, ¬ Replaced q.bytes offs i → r.bytes i = q.bytes i
  held : offs.map (objectAt r.bytes) = adoptAll o w.dups (offs.map (objectAt q.bytes))
  acquired : acquiredIn r.log = acquiredIn q.log ++ offs.map (objectAt q.bytes)
  dups : dupsIn r.log = dupsIn q.log ++ dupsOf o w.dups (offs.map (objectAt q.bytes))

theorem TakenOver.nil (q : Parcel) (w : World) : TakenOver o q w [] q :=
  ⟨(List.append_nil _).symm, fun _ _ => rfl, rfl, (List.append_nil _).symm,
    (List.append_nil _).symm⟩

theorem TakenOver.head_eq {off : ℕ} {offs : List ℕ} (h : TakenOver o q w offs r)
    (hnext : ∀ x ∈ offs, off + objectSize ≤ x) : objectAt r.bytes off = objectAt q.bytes off := by
  refine objectAt_congr fun i _ hi => h.bytes i ?_
  rintro ⟨x, hx, -, hin⟩
  have hle := hnext x hx
  omega

theorem TakenOver.cons_listed {off : ℕ} {offs : List ℕ}
    (hnext : ∀ x ∈ offs, off + objectSize ≤ x) (hfd : (objectAt q.bytes off).type ≠ binderTypeFd)
    (h : TakenOver o (listed o (objectAt q.bytes off) off q) w offs r) :
    TakenOver o q w (off :: offs) r where
  objects := by
    rw [h.objects]
    exact List.append_assoc _ _ _
  bytes := fun i hi => h.bytes i fun ⟨x, hx, hin⟩ => hi ⟨x, List.mem_cons_of_mem off hx, hin⟩
  held := by
    rw [List.map_cons, List.map_cons, adoptAll, if_neg hfd, h.head_eq hnext, h.held]
    rfl
  acquired := by
    rw [h.acquired, List.map_cons]
    simp [acquiredIn, listed, Effect.acquired]
  dups := by
    rw [h.dups, List.map_cons, dupsOf, if_neg hfd]
    simp [dupsIn, listed]

theorem TakenOver.cons_adopted {off : ℕ} {offs : List ℕ}
    (hnext : ∀ x ∈ offs, off + objectSize ≤ x) (hfd : (objectAt q.bytes off).type = binderTypeFd)
    (h : TakenOver o (adopted o (o.dup w.dups) off q) { w with dups := w.dups + 1 } offs r) :
    TakenOver o q w (off :: offs) r := by
  have hbytes (i : ℕ) (hi : i < off + 8 ∨ off + 12 ≤ i ∧ i < off + 16 ∨ off + 24 ≤ i) :
      (adopted o (o.dup w.dups) off q).bytes i = q.bytes i := by
    change putBytes (putBytes q.bytes _ _) _ _ i = q.bytes i
    rw [putBytes_outside (by rw [length_bytesLE]; omega),
      putBytes_outside (by rw [length_bytesLE]; omega)]
  have hsame (x : ℕ) (hx : x ∈ offs) : objectAt (adopted o (o.dup w.dups) off q).bytes x =
      objectAt q.bytes x := by
    refine objectAt_congr fun i hi _ => hbytes i ?_
    have hle := hnext x hx
    unfold objectSize at hle
    omega
  have hrest : offs.map (objectAt (adopted o (o.dup w.dups) off q).bytes) =
      offs.map (objectAt q.bytes) := List.map_congr_left hsame
  have hheld := h.held
  have hacquired := h.acquired
  have hdups := h.dups
  rw [hrest] at hheld hacquired hdups
  refine ⟨?_, fun i hi => ?_, ?_, ?_, ?_⟩
  · rw [h.objects]
    exact List.append_assoc _ _ _
  · rw [h.bytes i fun ⟨x, hx, htype, hin⟩ => hi ⟨x, List.mem_cons_of_mem off hx,
      (congrArg FlatObject.type (hsame x hx)).symm.trans htype, hin⟩]
    refine hbytes i ?_
    by_contra hin
    exact hi ⟨off, List.mem_cons_self, hfd, by omega⟩
  · rw [List.map_cons, List.map_cons, adoptAll, if_pos hfd, h.head_eq hnext, hheld]
    exact congrArg (· :: _) (objectAt_adopt q.bytes off (o.dup w.dups))
  · rw [hacquired, List.map_cons]
    simp [acquiredIn, adopted, listed, Parcel.record, Parcel.store, Effect.acquired]
  · rw [hdups, List.map_cons, dupsOf, if_pos hfd]
    simp [dupsIn, adopted, listed, Parcel.record, Parcel.store]

theorem takenOver_appendObjects (q : Parcel) (w : World) {offs : List ℕ}
    (hspaced : offs.Pairwise fun a b => a + objectSize ≤ b) :
    TakenOver o q w offs (appendObjects o q w offs).2.1 := by
  unfold appendObjects
  suffices hfold : ∀ st : Status, TakenOver o q w offs
      (offs.foldl (appendObject o) (st, q, w)).2.1 from hfold .noError
  intro st
  induction offs generalizing q w st with
  | nil => exact .nil q w
  | cons off offs ih =>
      obtain ⟨hnext, hrest⟩ := List.pairwise_cons.mp hspaced
      rw [List.foldl_cons]
      obtain ⟨hfd, hr⟩ | ⟨hfd, st', hr⟩ :=
        appendObject_cases (rfl : appendObject o (st, q, w) off = _)
      · rw [hr]
        exact (ih _ w hrest st).cons_listed hnext hfd
      · rw [hr]
        exact (ih _ _ hrest st').cons_adopted hnext hfd

/-! ### Room -/

theorem acquiredIn_append (l l' : List Effect) :
    acquiredIn (l ++ l') = acquiredIn l ++ acquiredIn l' := List.flatMap_append

theorem acquiredIn_close (fs : List FlatObject) :
    acquiredIn (fs.flatMap closeEffects) = [] := by
  refine List.flatMap_eq_nil_iff.mpr fun e he => ?_
  obtain ⟨f, rfl⟩ := mem_closeEffects he
  rfl

theorem acquiredIn_acquire (fs : List FlatObject) : acquiredIn (fs.map .acquire) = fs := by
  induction fs with
  | nil => rfl
  | cons f fs ih => exact congrArg (f :: ·) ih

theorem dupsIn_append (l l' : List Effect) : dupsIn (l ++ l') = dupsIn l ++ dupsIn l' :=
  List.filterMap_append

theorem dupsIn_close (fs : List FlatObject) : dupsIn (fs.flatMap closeEffects) = [] := by
  refine List.filterMap_eq_nil_iff.mpr fun e he => ?_
  obtain ⟨f, rfl⟩ := mem_closeEffects he
  rfl

theorem dupsIn_acquire (fs : List FlatObject) : dupsIn (fs.map .acquire) = [] := by
  refine List.filterMap_eq_nil_iff.mpr fun e he => ?_
  obtain ⟨f, -, rfl⟩ := List.mem_map.mp he
  rfl

/-- What growing data acquire: the objects of data that were the driver's. -/
def takenBack (p : Parcel) : List FlatObject := if p.mOwner then (held p).reverse else []

/-- The same parcel, with more room. -/
structure Enlarged (p q : Parcel) : Prop where
  pos : q.mDataPos = p.mDataPos
  size : q.mDataSize = p.mDataSize
  bytes : ∀ i, i < p.mDataSize → q.bytes i = p.bytes i
  objects : q.objects = p.objects
  acquired : acquiredIn q.log = acquiredIn p.log ++ takenBack p
  dups : dupsIn q.log = dupsIn p.log

theorem Bounded.enlarged (h : Bounded p) (hend : p.mDataPos = p.mDataSize) (hlen : 0 < len)
    (hroom : AppendRoom o p w len q w') : Enlarged p q := by
  have hsize := h.size_le
  have hnone (hown : p.mOwner = false) : takenBack p = [] := by
    rw [takenBack, hown]
    rfl
  cases hroom with
  | enough hle =>
      have hown : p.mOwner = false := by
        by_contra hne
        have hrec := h.received (by simpa using hne)
        omega
      exact ⟨rfl, rfl, fun _ _ => rfl, rfl, by rw [hnone hown, List.append_nil], rfl⟩
  | grown hlt hg =>
      cases growData_cases hg with
      | failed _ err n l hst hl => exact absurd rfl hst
      | possessed n hown hgrow =>
          have hle : p.mDataSize ≤ growTo p len := le_of_lt hgrow.lt
          have hkept := keptObjects_of_le hle
          refine ⟨rfl, min_eq_left hle, fun i hi => if_pos (by omega), hkept, ?_, ?_⟩
          · change acquiredIn (p.log ++ _) = _
            rw [acquiredIn_append, acquiredIn_append, acquiredIn_append, acquiredIn_close,
              ← List.singleton_append, acquiredIn_append, acquiredIn_acquire, hkept, takenBack,
              if_pos hown, held, List.map_reverse]
            simp [acquiredIn, Effect.acquired]
          · change dupsIn (p.log ++ _) = _
            rw [dupsIn_append, dupsIn_append, dupsIn_append, dupsIn_close,
              ← List.singleton_append, dupsIn_append, dupsIn_acquire]
            simp [dupsIn]
      | reallocated n b hown hb hgrow hlt' =>
          refine ⟨rfl, rfl, fun i hi => if_pos (by omega), rfl, ?_, ?_⟩
          · rw [hnone hown]
            exact acquiredIn_append _ _
          · exact (dupsIn_append _ _).trans (List.append_nil _)
      | kept n b hown hb hgrow hle =>
          have hto := hgrow.growTo_eq
          omega
      | started hown hb hgrow =>
          have hzero := h.empty hown hb
          refine ⟨?_, ?_, fun i hi => ?_, rfl, ?_, ?_⟩
          · change 0 = p.mDataPos
            omega
          · change 0 = p.mDataSize
            omega
          · omega
          · rw [hnone hown]
            exact acquiredIn_append _ _
          · exact (dupsIn_append _ _).trans (List.append_nil _)

/-! ### `appendFrom` -/

/-- How `appendFrom` succeeds. -/
inductive AppendSucceeds (o : Oracle) (p : Parcel) (w : World) (parcel : Parcel)
    (offset len : ℕ) : Parcel → Prop
  | nothing (h : len = 0) : AppendSucceeds o p w parcel offset len p
  | plain {q : Parcel} {w₁ : World} (hsrc : InSource parcel offset len)
      (hroom : AppendRoom o p w len q w₁) (h : rangeObjects parcel.objects offset len = []) :
      AppendSucceeds o p w parcel offset len (appendData q parcel offset len)
  | listed {q : Parcel} {w₁ : World} (hsrc : InSource parcel offset len)
      (hroom : AppendRoom o p w len q w₁) (table : Table) (capacity room : ℕ)
      (given : List Table) (n : ℕ) :
      AppendSucceeds o p w parcel offset len
        (appendObjects o (withTable (appendData q parcel offset len) table capacity room given)
          (w₁.tried n) (shiftedObjects p parcel offset len)).2.1

theorem appendSucceeds (h : appendFrom o p w parcel offset len = (.noError, p', w')) :
    AppendSucceeds o p w parcel offset len p' := by
  unfold appendFrom at h
  dsimp only at h
  split at h
  · rename_i hzero
    cases h
    exact .nothing hzero
  rename_i hpos
  split at h
  · cases h
  rename_i hmax
  split at h
  · cases h
  rename_i hsrc
  have hsrc' : InSource parcel offset len := ⟨by omega, by omega, by omega⟩
  split at h
  · rename_i q w₁ hgrow
    have hroom : AppendRoom o p w len q w₁ := by
      split at hgrow
      · rename_i hcap
        exact .grown hcap hgrow
      · rename_i hcap
        cases hgrow
        exact .enough (by omega)
    split at h
    · rename_i hnone
      cases h
      exact .plain hsrc' hroom hnone
    split at h
    · rename_i q₂ w₂ htab
      unfold growObjects World.alloc at htab
      split at htab
      · by_cases ha : o.allocates w₁.allocs
        · rw [if_pos ha] at htab
          cases htab
          have hend := AppendSucceeds.listed hsrc' hroom .own
            ((q.objects.length + (rangeObjects parcel.objects offset len).length) * 3 / 2)
            ((q.objects.length + (rangeObjects parcel.objects offset len).length) * 3 / 2)
            (q.given ++ [q.mObjects]) 1
          have hfold : appendObjects o (tableGrown (appendData q parcel offset len)
              ((q.objects.length + (rangeObjects parcel.objects offset len).length) * 3 / 2))
              (w₁.tried 1) (shiftedObjects p parcel offset len) = (.noError, p', w') := h
          have hlast : _ = p' := congrArg (fun r => r.2.1) hfold
          subst hlast
          exact hend
        · rw [if_neg ha] at htab
          cases htab
      · cases htab
        have hend := AppendSucceeds.listed hsrc' hroom q.mObjects q.mObjectsCapacity q.room
          q.given 0
        have hfold : appendObjects o (appendData q parcel offset len) w₁
            (shiftedObjects p parcel offset len) = (.noError, p', w') := h
        have hlast : _ = p' := congrArg (fun r => r.2.1) hfold
        subst hlast
        exact hend
    · rename_i r hne
      exact absurd h fun heq => hne _ _ heq
  · rename_i r hne
    exact absurd h fun heq => hne _ _ heq

/-- The old contents are followed by the range, the old table by its objects. Each of them was
acquired once, and each descriptor is a duplicate that the parcel owns. Every store was into
the parcel's own data. -/
structure RangeAppended (o : Oracle) (p : Parcel) (w : World) (parcel : Parcel)
    (offset len : ℕ) (p' : Parcel) : Prop where
  pos : p'.mDataPos = p.mDataPos + len
  size : p'.mDataSize = p.mDataSize + len
  kept : ∀ i, i < p.mDataSize → p'.bytes i = p.bytes i
  copied : ∀ i, i < len →
    ¬ Replaced parcel.bytes (objectsIn parcel.objects offset len) (offset + i) →
    p'.bytes (p.mDataSize + i) = parcel.bytes (offset + i)
  objects : p'.objects = p.objects ++
    (objectsIn parcel.objects offset len).map fun x => x - offset + p.mDataSize
  held : ((objectsIn parcel.objects offset len).map fun x =>
      objectAt p'.bytes (x - offset + p.mDataSize)) =
    adoptAll o w.dups ((objectsIn parcel.objects offset len).map (objectAt parcel.bytes))
  acquired : acquiredIn p'.log = acquiredIn p.log ++ (if len = 0 then [] else takenBack p) ++
    (objectsIn parcel.objects offset len).map (objectAt parcel.bytes)
  dups : dupsIn p'.log = dupsIn p.log ++
    dupsOf o w.dups ((objectsIn parcel.objects offset len).map (objectAt parcel.bytes))
  bounded : Bounded p'

theorem objectsIn_zero (objects : List ℕ) (offset : ℕ) : objectsIn objects offset 0 = [] := by
  refine List.eq_nil_iff_forall_not_mem.mpr fun off hoff => ?_
  have hin := (mem_objectsIn hoff).2
  unfold objectSize at hin
  omega

theorem Bounded.appendLands (h : Bounded p) (hend : p.mDataPos = p.mDataSize)
    (hone : OneByOne parcel.objects) (hrange : offset + len < sizeT) :
    AppendLands o p w parcel offset len := by
  have hsize := h.size_le
  have hland : ObjectsLand p parcel offset len := by
    refine ⟨fun hown hnone => ?_, fun off hoff => ?_⟩
    · have := h.empty hown hnone
      omega
    · rw [rangeObjects_eq hone hrange] at hoff
      exact (mem_objectsIn hoff).2
  refine .inr ?_
  split
  · rename_i hle
    exact ⟨by omega, .inr hland⟩
  · rename_i hfull
    rcases hgrow : growData o p w len with ⟨st, q, w₁⟩
    by_cases hst : st = .noError
    · refine .inr ⟨?_, .inr hland⟩
      have hcan : CanGrow p len := by
        cases growData_cases hgrow with
        | failed _ err n l hne hl => exact absurd hst hne
        | possessed n hown hcan => exact hcan
        | reallocated n b hown hb hcan hlt => exact hcan
        | kept n b hown hb hcan hle => exact hcan
        | started hown hb hcan => exact hcan
      have hto := hcan.growTo_eq
      unfold FitsGrown
      split
      · trivial
      split
      · omega
      · rename_i hmore
        have := not_or.mp hmore
        omega
    · exact .inl hst

theorem Enlarged.appendData (h : Enlarged p q) (hend : p.mDataPos = p.mDataSize)
    (parcel : Parcel) (offset len : ℕ) :
    (∀ i, i < p.mDataSize → (appendData q parcel offset len).bytes i = p.bytes i) ∧
      ∀ i, i < len → (appendData q parcel offset len).bytes (p.mDataSize + i) =
        parcel.bytes (offset + i) := by
  have hpos : q.mDataPos = p.mDataSize := h.pos.trans hend
  refine ⟨fun i hi => ?_, fun i hi => ?_⟩
  · change putBytes q.bytes q.mDataPos _ i = _
    rw [putBytes_outside (.inl (by omega)), h.bytes i hi]
  · change putBytes q.bytes q.mDataPos (getBytes parcel.bytes offset len) _ = _
    rw [hpos, putBytes_inside (by rw [length_getBytes]; exact hi)]
    simp [getBytes]

theorem Enlarged.objectAt_eq (h : Enlarged p q) (hend : p.mDataPos = p.mDataSize) {x : ℕ}
    (hx : x ∈ objectsIn parcel.objects offset len) :
    objectAt (Parcel.appendData q parcel offset len).bytes (x - offset + p.mDataSize) =
      objectAt parcel.bytes x := by
  obtain ⟨-, hge, hle⟩ := mem_objectsIn hx
  rw [← hend, ← h.pos]
  exact objectAt_appended hge hle

theorem Enlarged.rangeAppended (h : Enlarged p q) (hend : p.mDataPos = p.mDataSize)
    (hlen : 0 < len) (table : Table) (capacity room : ℕ) (given : List Table)
    (hdups : w₁.dups = w.dups) (hbounded : Bounded r)
    (hsame : SamePlace (Parcel.appendData q parcel offset len) r)
    (htaken : TakenOver o
      (withTable (Parcel.appendData q parcel offset len) table capacity room given) w₁
      ((objectsIn parcel.objects offset len).map fun x => x - offset + p.mDataSize) r) :
    RangeAppended o p w parcel offset len r := by
  obtain ⟨hkept, hcopied⟩ := h.appendData hend parcel offset len
  have hobjects : ((objectsIn parcel.objects offset len).map fun x => x - offset + p.mDataSize).map
      (objectAt (Parcel.appendData q parcel offset len).bytes) =
        (objectsIn parcel.objects offset len).map (objectAt parcel.bytes) := by
    rw [List.map_map]
    exact List.map_congr_left fun x hx => h.objectAt_eq hend hx
  have hlog : (Parcel.appendData q parcel offset len).log = q.log ++
      [.store q.mDataPos (getBytes parcel.bytes offset len).length q.mDataCapacity] := rfl
  have hheld := htaken.held
  have hacquired := htaken.acquired
  have htdups := htaken.dups
  dsimp only [withTable] at hheld hacquired htdups
  rw [hobjects, hdups] at hheld htdups
  rw [hobjects, hlog, acquiredIn_append, h.acquired] at hacquired
  rw [hlog, dupsIn_append, h.dups] at htdups
  refine ⟨?_, ?_, fun i hi => ?_, fun i hi hnot => ?_, ?_, ?_, ?_, ?_, hbounded⟩
  · exact hsame.pos.trans (congrArg (· + len) h.pos)
  · exact hsame.size.trans (congrArg (· + len) h.size)
  · refine (htaken.bytes i ?_).trans (hkept i hi)
    rintro ⟨off, hoff, -, hin⟩
    obtain ⟨x, -, rfl⟩ := List.mem_map.mp hoff
    omega
  · refine (htaken.bytes _ ?_).trans (hcopied i hi)
    rintro ⟨off, hoff, htype, hin⟩
    obtain ⟨x, hx, rfl⟩ := List.mem_map.mp hoff
    have hge := (mem_objectsIn hx).2.1
    exact hnot ⟨x, hx, (congrArg FlatObject.type (h.objectAt_eq hend hx)).symm.trans htype,
      by omega⟩
  · rw [htaken.objects, ← h.objects]
    rfl
  · rw [List.map_map] at hheld
    exact hheld
  · rw [if_neg (Nat.ne_of_gt hlen), hacquired]
    simp [acquiredIn, Effect.acquired]
  · rw [htdups]
    simp [dupsIn]

/-- `appendFrom` copies a range with its objects. -/
theorem appendFrom_exact (o : Oracle) (w : World) (h : Bounded p)
    (hend : p.mDataPos = p.mDataSize) (hone : OneByOne parcel.objects)
    (hsize : parcel.mDataSize < sizeT)
    (hcall : appendFrom o p w parcel offset len = (.noError, p', w')) :
    RangeAppended o p w parcel offset len p' := by
  have hbounded (hsrc : InSource parcel offset len) : Bounded p' :=
    h.appended (h.appendLands hend hone (lt_of_le_of_lt hsrc.le_size hsize)) (appended hcall)
  have hspaced : ((objectsIn parcel.objects offset len).map fun x =>
      x - offset + p.mDataSize).Pairwise fun a b => a + objectSize ≤ b := by
    refine List.pairwise_map.mpr ((hone.spaced.sublist List.filter_sublist).imp_of_mem
      fun {a b} ha hb hab => ?_)
    have hge := (mem_objectsIn ha).2.1
    omega
  cases appendSucceeds hcall with
  | nothing hzero =>
      subst hzero
      have hnone := objectsIn_zero parcel.objects offset
      refine ⟨rfl, rfl, fun _ _ => rfl, fun i hi => absurd hi (Nat.not_lt_zero i), ?_, ?_, ?_, ?_,
        h⟩
      all_goals rw [hnone]
      · exact (List.append_nil _).symm
      · rfl
      · rw [if_pos rfl]
        simp
      · exact (List.append_nil _).symm
  | @plain q w₁ hsrc hroom hnone =>
      rw [rangeObjects_eq hone (lt_of_le_of_lt hsrc.le_size hsize)] at hnone
      refine (h.enlarged hend hsrc.pos hroom).rangeAppended hend hsrc.pos q.mObjects
        q.mObjectsCapacity q.room q.given hroom.dups (hbounded hsrc) (.refl _) ?_
      rw [hnone]
      exact .nil _ _
  | @listed q w₁ hsrc hroom table capacity room given n =>
      have hrange := lt_of_le_of_lt hsrc.le_size hsize
      have hen := h.enlarged hend hsrc.pos hroom
      obtain ⟨hq, hqroom⟩ := h.appendRoom hroom
      have hown : q.mOwner = false := by
        by_contra hne
        have hrec := hq.received (by simpa using hne)
        have hpos := hsrc.pos
        omega
      have hmax := hq.capacity_le hown
      have hqsize := hen.size
      have hshift : shiftedObjects p parcel offset len =
          (objectsIn parcel.objects offset len).map fun x => x - offset + p.mDataSize := by
        rw [shiftedObjects, rangeObjects_eq hone hrange]
        refine List.map_congr_left fun x hx => ?_
        have hin := (mem_objectsIn hx).2
        rw [intToSizeT_of_le (by omega), shifted_eq hin.1 (by omega), hend]
      have htable : SamePlace (Parcel.appendData q parcel offset len)
          (withTable (Parcel.appendData q parcel offset len) table capacity room given) :=
        ⟨rfl, rfl, rfl, rfl, rfl⟩
      have hdups : (w₁.tried n).dups = w.dups := hroom.dups
      refine hen.rangeAppended hend hsrc.pos table capacity room given hdups (hbounded hsrc)
        (htable.trans (samePlace_appendObjects o _ _ _)) ?_
      rw [hshift]
      exact takenOver_appendObjects _ _ hspaced

/-- The second of two objects, a descriptor, is appended behind a number. -/
theorem appendFrom_exact_sample : ∃ s s₁ : State, ∃ p',
    runActions (step plainOracle) (new, World.init) [.writeAligned (bytesLE 4 7)] = .ok s ∧
    runActions (step plainOracle) (new, World.init)
      [.writeObject (flattenBinder (.remoteBinder 5)) false,
        .writeObject ⟨binderTypeFd, 0x17f, 6, 0⟩ true] = .ok s₁ ∧
    RangeAppended plainOracle s.1 s.2 s₁.1 8 40 p' ∧
      p'.objects = [20] ∧ objectAt p'.bytes 20 = ⟨binderTypeFd, 0x17f, 100, 1⟩ := by
  have hlands : (Op.writeAligned (bytesLE 4 7)).Lands plainOracle (new, World.init) :=
    lands_of_plainLands (by decide +kernel)
  have hbounded := bounded_of_reach (.tail .refl hlands rfl)
  refine ⟨_, _, _, rfl, rfl, appendFrom_exact plainOracle _ hbounded (by decide +kernel)
    (by decide +kernel) (by decide +kernel) (Prod.ext (by decide +kernel) rfl),
    by decide +kernel, by decide +kernel⟩

/-- The end of an object may wrap, and then it is taken for one of the range. Objects may overlap,
and then the mark that is set in the first is the type of the second, a descriptor that is not
duplicated. -/
theorem appendFrom_not_exact :
    (∃ parcel p', parcel.objects.Pairwise (· < ·) ∧
      (∃ w', appendFrom plainOracle new World.init parcel 0 24 = (.noError, p', w')) ∧
      objectsIn parcel.objects 0 24 = [0] ∧ p'.objects = [0, 2 ^ 64 - 8]) ∧
    ∃ s p', runActions (step plainOracle) (new, World.init)
        [.writeObject ⟨binderTypeFd, 0x17f, 5, 0⟩ true, .setDataPosition 16,
          .writeObject ⟨binderTypeFd, 0x17f, 6, 0⟩ true] = .ok s ∧
      s.1.objects.Pairwise (· < ·) ∧
      (∃ w', appendFrom plainOracle new World.init s.1 0 40 = (.noError, p', w')) ∧
      (objectsIn s.1.objects 0 40).map (fun off => (objectAt s.1.bytes off).type) =
        [binderTypeFd, binderTypeFd] ∧
      dupsIn p'.log = [(5, 100)] := by
  refine ⟨⟨{ new with bytes := fun _ => 1, mDataSize := 24, objects := [0, 2 ^ 64 - 8] }, _,
    by decide +kernel, ⟨_, Prod.ext (by decide +kernel) rfl⟩, by decide +kernel,
    by decide +kernel⟩, _, _, rfl, by decide +kernel, ⟨_, Prod.ext (by decide +kernel) rfl⟩,
    by decide +kernel, by decide +kernel⟩

end Parcel

end BinderForLinux
