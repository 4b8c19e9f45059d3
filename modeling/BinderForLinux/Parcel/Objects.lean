import BinderForLinux.Parcel.Tables
import BinderForLinux.Parcel.Tidy

/-!
# What holds of the objects of a parcel

In runs of operations that keep the objects in order and come to no table that is gone, the
inventory decides: which references the parcel has, which descriptors it has to close, and how
much shared memory it counts. Each of the three can still go wrong in a place of its own, which
the condition of its theorem names: a descriptor is replaced after it was acquired, a buffer is
given back after its descriptors were taken over, a borrowed descriptor is counted as it was and
not as it becomes.
-/

namespace BinderForLinux

namespace Parcel

open Library

variable {o : Oracle} {p p' : Parcel} {w w' : World} {op : Op}

/-- The operation lands, keeps the objects in order, and comes to no table that is gone. -/
def Op.Careful (o : Oracle) (s : State) (op : Op) : Prop :=
  op.Lands o s ∧ op.Tidy o s ∧ op.SparesTable o s

/-- What is kept by careful operations. -/
structure CarefullyKept (p : Parcel) : Prop where
  bounded : Bounded p
  orderly : Orderly p
  tables : TableSound p

theorem CarefullyKept.start : CarefullyKept new := ⟨.init, orderly_new, .init⟩

theorem CarefullyKept.step (h : CarefullyKept p) (hcareful : op.Careful o (p, w))
    (hstep : step o (p, w) op = .ok (p', w')) :
    CarefullyKept p' ∧ ∃ es, Refined o p p' es ∧ Recorded o (p, w) op es := by
  obtain ⟨es, hrefined, hrecorded⟩ := h.orderly.step h.bounded hcareful.1 hcareful.2.1 hstep
  have hout := outcome hstep
  exact ⟨⟨h.bounded.outcome hcareful.1 hout, hrefined.orderly,
    h.tables.outcome hcareful.2.2 hout⟩, es, hrefined, hrecorded⟩

/-- What was acquired, released, duplicated and closed. -/
def acquiredIn (log : List Effect) : List FlatObject := log.flatMap Effect.acquired

def releasedIn (log : List Effect) : List FlatObject := log.flatMap Effect.released

def dupedIn (log : List Effect) : List ℕ := log.flatMap Effect.duped

def closedIn (log : List Effect) : List ℕ := log.flatMap Effect.closed

instance (f : FlatObject) : Decidable f.Ranged :=
  decidable_of_iff (f.type < 2 ^ 32 ∧ f.flags < 2 ^ 32 ∧ f.binder < 2 ^ 64 ∧ f.cookie < 2 ^ 64)
    ⟨fun h => ⟨h.1, h.2.1, h.2.2.1, h.2.2.2⟩, fun h => ⟨h.type, h.flags, h.binder, h.cookie⟩⟩

instance (p : Parcel) (len : ℕ) : Decidable (Clear p len) :=
  decidable_of_iff ((p.mOwner = true → fits p len = false) ∧
      ∀ off ∈ p.objects, p.mDataPos + len ≤ off ∨ off + objectSize ≤ p.mDataPos)
    ⟨fun h => ⟨h.1, h.2⟩, fun h => ⟨h.own, h.spares⟩⟩

instance (o : Oracle) (p : Parcel) (w : World) (len : ℕ) : Decidable (GetsRoom o p w len) :=
  inferInstanceAs (Decidable (_ ∨ _))

instance (p : Parcel) : Decidable (AtEnd p) :=
  inferInstanceAs (Decidable (∀ off ∈ p.objects, off + objectSize ≤ p.mDataPos))

instance (p : Parcel) : Decidable (HasEntry p) := inferInstanceAs (Decidable (_ → _ ∧ _))

instance (p : Parcel) (size : ℕ) : Decidable (CutsNone p size) :=
  inferInstanceAs (Decidable (size < p.mDataSize →
    ∀ off ∈ p.objects, off < size → off + objectSize ≤ size))

instance (dataSize : ℕ) (objects : List ℕ) : Decidable (WellFormed dataSize objects) :=
  decidable_of_iff (dataSize < sizeT ∧ (∀ off ∈ objects, off + objectSize ≤ dataSize) ∧
      offsetsOk 0 objects = true)
    ⟨fun h => ⟨h.1, h.2.1, h.2.2⟩, fun h => ⟨h.size, h.inside, h.ordered⟩⟩

instance (p : Parcel) (val : FlatObject) (nullMetaData : Bool) :
    Decidable (Lists p val nullMetaData) := inferInstanceAs (Decidable (_ ∧ _))

instance (o : Oracle) (p : Parcel) (w : World) (val : FlatObject) (nullMetaData : Bool) :
    Decidable (WriteSparesTable o p w val nullMetaData) :=
  inferInstanceAs (Decidable (GetsRoom o p w objectSize → _ ∨ _ → _ ∨ _))

/-- Some careful operations, which can be checked. -/
def Op.plainCareful (o : Oracle) (s : State) : Op → Bool
  | .writeAligned val => decide (Parcel.Lands o s.1 s.2 val.length) &&
      decide (GetsRoom o s.1 s.2 val.length → Clear s.1 val.length)
  | .writeObject val nullMetaData => decide (Parcel.Lands o s.1 s.2 objectSize) &&
      decide ((val.Ranged ∧ (GetsRoom o s.1 s.2 objectSize → Clear s.1 objectSize ∧
        (nullMetaData = true ∨ val.binder ≠ 0 → AtEnd s.1 ∧ HasEntry s.1))) ∧
          WriteSparesTable o s.1 s.2 val nullMetaData)
  | .setDataSize size => decide (CutsNone s.1 size)
  | .ipcSetDataReference _ dataSize objects =>
      decide (WellFormed dataSize objects ∧ (s.1.mOwner = true ∨ s.1.mObjects.usable = true))
  | .freeData => decide (s.1.mOwner = true ∨ s.1.mObjects.usable = true)
  | .setDataPosition _ => true
  | _ => false

theorem careful_of_plain {s : State} (h : op.plainCareful o s = true) :
    op.Careful o s ∧ ∀ parcel offset len, op ≠ .appendFrom parcel offset len := by
  cases op with
  | writeAligned =>
      simp only [Op.plainCareful, Bool.and_eq_true, decide_eq_true_eq] at h
      exact ⟨⟨h.1, h.2, trivial⟩, nofun⟩
  | writeObject =>
      simp only [Op.plainCareful, Bool.and_eq_true, decide_eq_true_eq] at h
      exact ⟨h, nofun⟩
  | setDataSize =>
      simp only [Op.plainCareful, decide_eq_true_eq] at h
      exact ⟨⟨trivial, h, trivial⟩, nofun⟩
  | ipcSetDataReference =>
      simp only [Op.plainCareful, decide_eq_true_eq] at h
      exact ⟨⟨trivial, h⟩, nofun⟩
  | freeData =>
      simp only [Op.plainCareful, decide_eq_true_eq] at h
      exact ⟨⟨trivial, trivial, h⟩, nofun⟩
  | setDataPosition => exact ⟨⟨trivial, trivial, trivial⟩, nofun⟩
  | _ => cases h

/-! ### References -/

def Op.AppendsNoFd : Op → Prop
  | .appendFrom parcel offset len => InSource parcel offset len →
      ∀ f ∈ appendedObjects parcel offset len, f.type ≠ binderTypeFd
  | _ => True

theorem adopts_mem_adoptions {n fd : ℕ} {f : FlatObject} {fs : List FlatObject}
    (h : .adopts f fd ∈ adoptions o n fs) : f ∈ fs ∧ f.type = binderTypeFd := by
  induction fs generalizing n with
  | nil => simp [adoptions] at h
  | cons x fs ih =>
      unfold adoptions at h
      split at h
      · rename_i hx
        rcases List.mem_cons.mp h with heq | h
        · obtain ⟨rfl, -⟩ := Entry.adopts.inj heq
          exact ⟨List.mem_cons_self, hx⟩
        · exact ⟨List.mem_cons_of_mem _ (ih h).1, (ih h).2⟩
      · rcases List.mem_cons.mp h with heq | h
        · cases heq
        · exact ⟨List.mem_cons_of_mem _ (ih h).1, (ih h).2⟩

/-- What is kept by an operation for the references of a parcel. -/
structure Referenced (p : Parcel) : Prop extends CarefullyKept p where
  balanced : (inventory p).Balanced

theorem Referenced.step (h : Referenced p) (hcareful : op.Careful o (p, w)) (hfds : op.AppendsNoFd)
    (hstep : step o (p, w) op = .ok (p', w')) : Referenced p' := by
  obtain ⟨hkept, es, hrefined, hrecorded⟩ := h.toCarefullyKept.step hcareful hstep
  refine ⟨hkept, h.balanced.trace hrefined.trace fun f fd hmem => ?_⟩
  have hadopts := hrecorded.adopts f fd hmem
  cases op with
  | appendFrom parcel offset len =>
      obtain ⟨hf, hfd⟩ := adopts_mem_adoptions hadopts.2
      exact hfds hadopts.1 f hf hfd
  | _ => exact hadopts

/-- A run with the descriptors that were handed to the parcel. -/
def custodyStep (o : Oracle) (s : State × List ℕ) (op : Op) : Except Abort (State × List ℕ) :=
  (step o s.1 op).map fun s' => (s', s.2 ++ op.gives o s.1)

/-- The parcel does not take possession of a descriptor of the driver's data. -/
def Op.TakesNoFd (o : Oracle) (s : State) (op : Op) : Prop :=
  s.1.mOwner = true → ∀ off ∈ op.takes o s, (objectAt s.1.bytes off).type ≠ binderTypeFd

def openFds (p : Parcel) : List ℕ :=
  (held p).flatMap (if p.mOwner then FlatObject.fds else FlatObject.closes)

/-- What is kept by an operation for the descriptors of a parcel. -/
structure InCustody (g : List ℕ) (p : Parcel) : Prop extends CarefullyKept p where
  custody : (inventory p).Custody g

theorem InCustody.step {g : List ℕ} (h : InCustody g p) (hcareful : op.Careful o (p, w))
    (hfds : op.TakesNoFd o (p, w)) (hstep : step o (p, w) op = .ok (p', w')) :
    InCustody (g ++ op.gives o (p, w)) p' := by
  obtain ⟨hkept, es, hrefined, hrecorded⟩ := h.toCarefullyKept.step hcareful hstep
  refine ⟨hkept, ?_⟩
  rw [← hrecorded.gains]
  refine h.custody.trace hrefined.trace fun kept hmem f hf => ?_
  obtain ⟨hown, rfl⟩ := hrecorded.possesses kept hmem
  obtain ⟨off, hoff, rfl⟩ := List.mem_map.mp hf
  exact hfds hown off hoff

theorem InCustody.perm {g : List ℕ} (h : InCustody g p) :
    (g ++ dupedIn p.log).Perm (closedIn p.log ++ openFds p) := h.custody

theorem custodyStep_eq_ok {s s' : State × List ℕ} (h : custodyStep o s op = .ok s') :
    step o s.1 op = .ok s'.1 ∧ s'.2 = s.2 ++ op.gives o s.1 := by
  unfold custodyStep at h
  cases hstep : step o s.1 op with
  | error e =>
      rw [hstep] at h
      cases h
  | ok s₁ =>
      rw [hstep] at h
      cases h
      exact ⟨rfl, rfl⟩

theorem openFds_freeData (o : Oracle) (p : Parcel) (w : World) :
    openFds (freeData o p w).1 = [] := rfl

theorem closedIn_of_mem {log : List Effect} {fd : ℕ} (hfd : fd < 2 ^ 31)
    (h : .close fd ∈ log) : fd ∈ closedIn log := by
  refine List.mem_flatMap.mpr ⟨_, h, ?_⟩
  rw [Effect.closed, validFd, if_pos hfd]
  exact List.mem_singleton_self fd

instance (o : Oracle) (s : State) (op : Op) : Decidable (op.TakesNoFd o s) :=
  inferInstanceAs (Decidable (s.1.mOwner = true → ∀ off ∈ op.takes o s,
    (objectAt s.1.bytes off).type ≠ binderTypeFd))

def fdBuffer (fd : ℕ) : Data := putBytes (fun _ => 0) 0 (ownedFd fd).bytes

/-- A descriptor that is appended is replaced by one for as much memory as was counted. -/
def Op.SharesAlike (o : Oracle) (s : State) : Op → Prop
  | .appendFrom parcel offset len => InSource parcel offset len →
      ∀ f fd, .adopts f fd ∈ adoptions o s.2.dups (appendedObjects parcel offset len) →
        (o.ashmemSize (fd % 2 ^ 32)).toNat = ashmemOf o f
  | _ => True

theorem ashmemOf_adopt {f : FlatObject} (hf : f.type = binderTypeFd) (fd : ℕ) :
    ashmemOf o (f.adopt fd) = (o.ashmemSize (fd % 2 ^ 32)).toNat := by
  have howned : (f.adopt fd).isOwnedFd = true := by
    simp [FlatObject.adopt, FlatObject.isOwnedFd, hf]
  rw [ashmemOf, if_pos howned, FlatObject.handle_adopt]

/-- What is kept by an operation for the total of shared memory. -/
structure Counted (o : Oracle) (p : Parcel) : Prop extends CarefullyKept p where
  exact : (inventory p).Exact o

theorem Counted.step (h : Counted o p) (hcareful : op.Careful o (p, w))
    (hshares : op.SharesAlike o (p, w)) (hstep : step o (p, w) op = .ok (p', w')) :
    Counted o p' := by
  obtain ⟨hkept, es, hrefined, hrecorded⟩ := h.toCarefullyKept.step hcareful hstep
  refine ⟨hkept, h.exact.trace hrefined.trace fun f fd hmem => ?_⟩
  have hadopts := hrecorded.adopts f fd hmem
  cases op with
  | appendFrom parcel offset len =>
      rw [ashmemOf_adopt (adopts_mem_adoptions hadopts.2).2]
      exact hshares hadopts.1 f fd hadopts.2
  | _ => exact hadopts.elim

theorem length_of_spaced {objects : List ℕ} {m n : ℕ} (hle : m ≤ n)
    (hspaced : objects.Pairwise fun a b => a + objectSize ≤ b)
    (hin : ∀ off ∈ objects, m ≤ off ∧ off + objectSize ≤ n) :
    m + objectSize * objects.length ≤ n := by
  induction objects generalizing m with
  | nil => simpa using hle
  | cons x objects ih =>
      have hx := hin x List.mem_cons_self
      have hrest := ih (m := x + objectSize) hx.2 (List.pairwise_cons.mp hspaced).2 fun y hy =>
        ⟨(List.pairwise_cons.mp hspaced).1 y hy, (hin y (List.mem_cons_of_mem x hy)).2⟩
      rw [List.length_cons, Nat.mul_succ]
      omega

theorem sum_ashmemOf_le (hsize : ∀ fd, o.ashmemSize fd < 2 ^ 31) (fs : List FlatObject) :
    (fs.map (ashmemOf o)).sum ≤ 2 ^ 31 * fs.length := by
  induction fs with
  | nil => simp
  | cons f fs ih =>
      have hf : ashmemOf o f ≤ 2 ^ 31 := by
        unfold ashmemOf
        split
        · have := hsize f.handle
          omega
        · omega
      rw [List.map_cons, List.sum_cons, List.length_cons, Nat.mul_succ]
      omega

/-- The objects that the parcel owns descriptors of. -/
def ownObjects (p : Parcel) : List FlatObject := if p.mOwner then [] else held p

theorem Counted.total_eq (h : Counted o p) (hsize : ∀ fd, o.ashmemSize fd < 2 ^ 31) :
    p.mOpenAshmemSize = ((ownObjects p).map (ashmemOf o)).sum := by
  have htotal : p.mOpenAshmemSize = ((ownObjects p).map (ashmemOf o)).sum % sizeT := h.exact
  rw [htotal]
  refine Nat.mod_eq_of_lt ?_
  unfold ownObjects
  split
  · simp [sizeT]
  · rename_i hown
    have hcap := h.bounded.capacity_le (by simpa using hown)
    have hle := h.bounded.size_le
    have hlen := length_of_spaced (Nat.zero_le p.mDataSize) h.orderly.spaced fun off hoff =>
      ⟨Nat.zero_le off, h.orderly.inside off hoff⟩
    have hsum := sum_ashmemOf_le hsize (held p)
    rw [held, List.length_map] at hsum
    unfold objectSize at hlen
    unfold int32Max at hcap
    unfold sizeT held
    omega

/-- Every descriptor is one of a page of shared memory. -/
def pageOracle : Oracle := { plainOracle with ashmemSize := fun _ => 4096 }

/-- A parcel that refers to a descriptor it does not own. -/
def borrowing : Parcel :=
  (writeObject pageOracle new World.init
    { type := binderTypeFd, flags := 0x17f, binder := 7, cookie := 0 } true).2.1

end Parcel

end BinderForLinux
