import BinderForLinux.Parcel.Writers
import BinderForLinux.Library.Trace
import Mathlib.Algebra.BigOperators.Group.List.Basic
import Mathlib.Data.List.Perm.Basic

/-!
# The objects of a parcel

What a parcel is for, as far as objects go: it lists them, it owns the references and the
descriptors they stand for, and it has to give up each of them once. The inventory forgets the
bytes and the places; an entry is one change of it. Whether the inventory stays in order is decided
by the entries alone.
-/

namespace BinderForLinux

namespace Parcel

open Library

def validFd (n : ℕ) : List ℕ := if n < 2 ^ 31 then [n] else []

namespace FlatObject

/-- The descriptor of an object, which is closed with a buffer of the driver. -/
def fds (f : FlatObject) : List ℕ := if f.type = binderTypeFd then validFd f.handle else []

def closes (f : FlatObject) : List ℕ := if f.isOwnedFd then validFd f.handle else []

/-- The object in which `appendFrom` has put a duplicate of its own. -/
def adopt (f : FlatObject) (fd : ℕ) : FlatObject :=
  { f with binder := f.binder / 2 ^ 32 * 2 ^ 32 + fd % 2 ^ 32, cookie := 1 }

theorem handle_adopt (f : FlatObject) (fd : ℕ) : (f.adopt fd).handle = fd % 2 ^ 32 := by
  simp only [adopt, handle]
  omega

theorem closes_adopt {f : FlatObject} (hf : f.type = binderTypeFd) (fd : ℕ) :
    (f.adopt fd).closes = validFd (fd % 2 ^ 32) := by
  have howned : (f.adopt fd).isOwnedFd = true := by simp [adopt, isOwnedFd, hf]
  rw [closes, if_pos howned, handle_adopt]

theorem closes_of_not_fd {f : FlatObject} (hf : f.type ≠ binderTypeFd) : f.closes = [] := by
  simp [closes, isOwnedFd, hf]

end FlatObject

/-- The objects a parcel lists, whether their buffer is the driver's, the total of shared
memory, and what was acquired, released, duplicated and closed on the parcel's behalf. -/
@[ext]
structure Inventory where
  received : Bool
  objects : List FlatObject
  total : ℕ
  acquired : List FlatObject
  released : List FlatObject
  duped : List ℕ
  closed : List ℕ

/-- A change of the inventory. -/
inductive Entry
  | lists (f : FlatObject)
  /-- A duplicate that the parcel owns is listed. -/
  | copies (fd : ℕ)
  /-- An object is listed, and its descriptor is replaced by a duplicate. -/
  | adopts (f : FlatObject) (fd : ℕ)
  /-- All but the first objects are released. -/
  | drops (n : ℕ)
  | clears
  /-- The first objects of a buffer of the driver become the parcel's own. -/
  | possesses (kept : List FlatObject)
  | givesBack
  | receives (fs : List FlatObject)
  | resets
  /-- A duplicate is made and closed. -/
  | passes (fd : ℕ)

/-- The descriptors that are handed to the parcel, which has to close them. -/
def Entry.gains : Entry → List ℕ
  | .lists f => f.closes
  | .receives fs => fs.flatMap FlatObject.fds
  | _ => []

def Entry.Sheds : Entry → Prop
  | .drops _ | .clears | .givesBack | .resets => True
  | _ => False

namespace Inventory

variable {o : Oracle}

/-- `n` objects stay and the others are released, in some order. -/
def release (o : Oracle) (l : Inventory) (kept gone : List FlatObject) : Inventory :=
  { l with
    objects := kept
    total := subAshmem o l.total gone
    released := l.released ++ gone
    closed := l.closed ++ gone.flatMap FlatObject.closes }

/-- The entry leads from one inventory to the other. -/
inductive Step (o : Oracle) : Inventory → Entry → Inventory → Prop
  | lists {l : Inventory} (f : FlatObject) (hown : l.received = false) :
      Step o l (.lists f)
        { l with
          objects := l.objects ++ [f]
          total := (l.total + ashmemOf o f) % sizeT
          acquired := l.acquired ++ [f] }
  | copies {l : Inventory} (fd : ℕ) (hown : l.received = false) :
      Step o l (.copies fd)
        { l with
          objects := l.objects ++ [ownedFd fd]
          total := (l.total + ashmemOf o (ownedFd fd)) % sizeT
          acquired := l.acquired ++ [ownedFd fd]
          duped := l.duped ++ validFd (fd % 2 ^ 32) }
  | adopts {l : Inventory} (f : FlatObject) (fd : ℕ) (hown : l.received = false)
      (hf : f.type = binderTypeFd) :
      Step o l (.adopts f fd)
        { l with
          objects := l.objects ++ [f.adopt fd]
          total := (l.total + ashmemOf o f) % sizeT
          acquired := l.acquired ++ [f]
          duped := l.duped ++ validFd (fd % 2 ^ 32) }
  | drops {l : Inventory} (n : ℕ) (hown : l.received = false) :
      Step o l (.drops n) (l.release o (l.objects.take n) (l.objects.drop n))
  | clears {l : Inventory} (hown : l.received = false) :
      Step o l .clears (l.release o [] l.objects.reverse)
  | possesses {l : Inventory} (kept : List FlatObject) (hown : l.received = true)
      (hkept : kept <+: l.objects) :
      Step o l (.possesses kept)
        { l with
          received := false
          objects := kept
          total := addAshmem o l.total kept.reverse
          acquired := l.acquired ++ kept.reverse
          closed := l.closed ++ l.objects.reverse.flatMap FlatObject.fds }
  | givesBack {l : Inventory} (hown : l.received = true) :
      Step o l .givesBack
        { l with
          received := false
          objects := []
          closed := l.closed ++ l.objects.reverse.flatMap FlatObject.fds }
  | receives {l : Inventory} (fs : List FlatObject) (hown : l.received = false)
      (hempty : l.objects = []) :
      Step o l (.receives fs) { l with received := true, objects := fs }
  | resets {l : Inventory} (hown : l.received = false) (hempty : l.objects = []) :
      Step o l .resets { l with total := 0 }
  | passes {l : Inventory} (fd : ℕ) :
      Step o l (.passes fd)
        { l with
          duped := l.duped ++ validFd (fd % 2 ^ 32)
          closed := l.closed ++ validFd (fd % 2 ^ 32) }

/-! ### References -/

/-- The objects that the parcel has references for. -/
def referenced (l : Inventory) : List FlatObject := if l.received then [] else l.objects

/-- Everything that was acquired was released or is listed, each as often as it was. -/
def Balanced (l : Inventory) : Prop := l.acquired.Perm (l.released ++ l.referenced)

variable {l l' : Inventory} {e : Entry} {es : List Entry}

theorem Balanced.release (h : l.Balanced) {kept gone : List FlatObject} (hown : l.received = false)
    (hsplit : (kept ++ gone).Perm l.objects) : (l.release o kept gone).Balanced := by
  unfold Balanced referenced at *
  simp only [hown, Bool.false_eq_true, if_false] at h
  simp only [Inventory.release, hown, Bool.false_eq_true, if_false, List.append_assoc]
  exact h.trans (((List.perm_append_comm.trans hsplit).symm).append_left _)

theorem Balanced.lists (h : l.Balanced) (hown : l.received = false) (f : FlatObject) (m : ℕ)
    (ds : List ℕ) :
    Balanced { l with
      objects := l.objects ++ [f], total := m, acquired := l.acquired ++ [f], duped := ds } := by
  unfold Balanced referenced at *
  simp only [hown, Bool.false_eq_true, if_false] at h ⊢
  rw [← List.append_assoc]
  exact h.append_right [f]

theorem Balanced.step (h : l.Balanced) (hs : Step o l e l')
    (hadopt : ∀ f fd, e ≠ .adopts f fd) : l'.Balanced := by
  cases hs with
  | lists f hown => exact h.lists hown f _ _
  | copies fd hown => exact h.lists hown (ownedFd fd) _ _
  | adopts f fd hown hf => exact absurd rfl (hadopt f fd)
  | drops n hown => exact h.release hown (by rw [List.take_append_drop])
  | clears hown => exact h.release hown (List.reverse_perm _)
  | possesses kept hown hkept =>
      unfold Balanced referenced at *
      simp only [hown, if_true, List.append_nil] at h
      simp only [Bool.false_eq_true, if_false]
      exact h.append (List.reverse_perm _)
  | givesBack hown =>
      unfold Balanced referenced at *
      simpa [hown] using h
  | receives fs hown hempty =>
      unfold Balanced referenced at *
      simpa [hown, hempty] using h
  | resets hown hempty => exact h
  | passes fd => exact h

theorem Balanced.trace (h : l.Balanced) (ht : Trace (Step o) l es l')
    (hadopt : ∀ f fd, .adopts f fd ∉ es) : l'.Balanced :=
  ht.invariant h fun _ _ _ he hb hs => hb.step hs fun f fd heq => hadopt f fd (heq ▸ he)

/-! ### Descriptors -/

/-- The descriptors that the parcel has to close. -/
def owned (l : Inventory) : List ℕ :=
  l.objects.flatMap (if l.received then FlatObject.fds else FlatObject.closes)

/-- Of the descriptors `g` that were handed to the parcel and of its duplicates, each was closed
or is to be closed, once. -/
def Custody (g : List ℕ) (l : Inventory) : Prop := (g ++ l.duped).Perm (l.closed ++ l.owned)

theorem closes_ownedFd (fd : ℕ) : (ownedFd fd).closes = validFd (fd % 2 ^ 32) :=
  if_pos (by simp [ownedFd, FlatObject.isOwnedFd])

/-- An object is listed whose descriptor the parcel was handed or has duplicated. -/
theorem Custody.lists {g : List ℕ} (h : Custody g l) (hown : l.received = false) {f : FlatObject}
    (m : ℕ) (fs : List FlatObject) {g' ds : List ℕ} (hf : g' ++ ds = f.closes) :
    Custody (g ++ g') { l with
      objects := l.objects ++ [f], total := m, acquired := fs, duped := l.duped ++ ds } := by
  unfold Custody owned at *
  simp only [hown, Bool.false_eq_true, if_false] at h
  simp only [hown, Bool.false_eq_true, if_false, List.flatMap_append, List.flatMap_singleton,
    ← hf]
  have hswap : (g ++ g' ++ (l.duped ++ ds)).Perm ((g ++ l.duped) ++ (g' ++ ds)) := by
    simp only [List.append_assoc]
    refine List.Perm.append_left g ?_
    rw [← List.append_assoc, ← List.append_assoc]
    exact List.perm_append_comm.append_right ds
  rw [← List.append_assoc l.closed]
  exact hswap.trans (h.append_right _)

theorem Custody.release {g : List ℕ} (h : Custody g l) {kept gone : List FlatObject}
    (hown : l.received = false) (hsplit : (kept ++ gone).Perm l.objects) :
    Custody g (l.release o kept gone) := by
  unfold Custody owned at *
  simp only [hown, Bool.false_eq_true, if_false] at h
  simp only [Inventory.release, hown, Bool.false_eq_true, if_false, List.append_assoc,
    ← List.flatMap_append]
  exact h.trans ((((List.perm_append_comm.trans hsplit).symm).flatMap_right _).append_left _)

theorem flatMap_closes_eq_nil {fs : List FlatObject} (h : ∀ f ∈ fs, f.type ≠ binderTypeFd) :
    fs.flatMap FlatObject.closes = [] :=
  List.flatMap_eq_nil_iff.mpr fun f hf => FlatObject.closes_of_not_fd (h f hf)

theorem Custody.step {g : List ℕ} (h : Custody g l) (hs : Step o l e l')
    (hfds : ∀ kept, e = .possesses kept → ∀ f ∈ kept, f.type ≠ binderTypeFd) :
    Custody (g ++ e.gains) l' := by
  cases hs with
  | lists f hown =>
      have hnext := h.lists hown ((l.total + ashmemOf o f) % sizeT) (l.acquired ++ [f])
        (List.append_nil f.closes)
      rw [List.append_nil] at hnext
      exact hnext
  | copies fd hown => exact h.lists hown _ _ (closes_ownedFd fd).symm
  | adopts f fd hown hf => exact h.lists hown _ _ (FlatObject.closes_adopt hf fd).symm
  | drops n hown =>
      simp only [Entry.gains, List.append_nil]
      exact h.release hown (by rw [List.take_append_drop])
  | clears hown =>
      simp only [Entry.gains, List.append_nil]
      exact h.release hown (List.reverse_perm _)
  | possesses kept hown hkept =>
      unfold Custody owned at *
      simp only [hown, if_true] at h
      simp only [Entry.gains, Bool.false_eq_true, if_false, List.append_nil,
        flatMap_closes_eq_nil (hfds kept rfl)]
      exact h.trans (((List.reverse_perm _).symm.flatMap_right _).append_left _)
  | givesBack hown =>
      unfold Custody owned at *
      simp only [hown, if_true] at h
      simp only [Entry.gains, List.append_nil, List.flatMap_nil]
      exact h.trans (((List.reverse_perm _).symm.flatMap_right _).append_left _)
  | receives fs hown hempty =>
      unfold Custody owned at *
      simp only [hempty, List.flatMap_nil, List.append_nil] at h
      simp only [Entry.gains, if_true]
      have hswap : (g ++ fs.flatMap FlatObject.fds ++ l.duped).Perm
          ((g ++ l.duped) ++ fs.flatMap FlatObject.fds) := by
        simp only [List.append_assoc]
        exact List.perm_append_comm.append_left g
      exact hswap.trans (h.append_right _)
  | resets hown hempty =>
      simp only [Entry.gains, List.append_nil]
      exact h
  | passes fd =>
      unfold Custody owned at *
      simp only [Entry.gains, List.append_nil]
      rw [← List.append_assoc]
      refine (h.append_right _).trans ?_
      rw [List.append_assoc, List.append_assoc]
      exact List.perm_append_comm.append_left _

theorem Custody.trace {g : List ℕ} (h : Custody g l) (ht : Trace (Step o) l es l')
    (hfds : ∀ kept, .possesses kept ∈ es → ∀ f ∈ kept, f.type ≠ binderTypeFd) :
    Custody (g ++ es.flatMap Entry.gains) l' := by
  induction ht generalizing g with
  | nil => simpa using h
  | cons hs _ ih =>
      have hnext := h.step hs fun kept heq => hfds kept (heq ▸ List.mem_cons_self)
      have hrest := ih hnext fun kept hmem => hfds kept (List.mem_cons_of_mem _ hmem)
      rw [List.append_assoc] at hrest
      exact hrest

/-! ### Shared memory -/

/-- The shared memory of the descriptors that the parcel owns. -/
def shared (o : Oracle) (l : Inventory) : ℕ := (l.referenced.map (ashmemOf o)).sum

/-- The total is that of the owned descriptors, as a `size_t`. -/
def Exact (o : Oracle) (l : Inventory) : Prop := l.total = l.shared o % sizeT

theorem addAshmem_eq {m a : ℕ} (h : m = a % sizeT) (fs : List FlatObject) :
    addAshmem o m fs = (a + (fs.map (ashmemOf o)).sum) % sizeT := by
  induction fs generalizing m a with
  | nil => simpa [addAshmem] using h
  | cons f fs ih =>
      have hstep : (m + ashmemOf o f) % sizeT = (a + ashmemOf o f) % sizeT := by
        rw [h, Nat.mod_add_mod]
      have hrest := ih hstep
      rw [Nat.add_assoc] at hrest
      simpa [addAshmem] using hrest

theorem subAshmem_eq {m a : ℕ} (fs : List FlatObject)
    (h : m = (a + (fs.map (ashmemOf o)).sum) % sizeT) : subAshmem o m fs = a % sizeT := by
  induction fs generalizing m with
  | nil => simpa [subAshmem] using h
  | cons f fs ih =>
      have hstep : (m + (sizeT - ashmemOf o f % sizeT)) % sizeT =
          (a + (fs.map (ashmemOf o)).sum) % sizeT := by
        rw [List.map_cons, List.sum_cons] at h
        unfold sizeT at *
        omega
      exact ih hstep

theorem Exact.lists (h : l.Exact o) (hown : l.received = false) {f f' : FlatObject}
    {fs : List FlatObject} {ds : List ℕ} (hf : ashmemOf o f' = ashmemOf o f) :
    Exact o { l with
      objects := l.objects ++ [f'], total := (l.total + ashmemOf o f) % sizeT, acquired := fs,
      duped := ds } := by
  unfold Exact shared referenced at *
  simp only [hown, Bool.false_eq_true, if_false] at h
  simp only [hown, Bool.false_eq_true, if_false, List.map_append, List.sum_append,
    List.map_singleton, List.sum_singleton, h, hf, Nat.mod_add_mod]

theorem Exact.release (h : l.Exact o) {kept gone : List FlatObject} (hown : l.received = false)
    (hsplit : (kept ++ gone).Perm l.objects) : (l.release o kept gone).Exact o := by
  unfold Exact shared referenced at *
  simp only [hown, Bool.false_eq_true, if_false] at h
  simp only [Inventory.release, hown, Bool.false_eq_true, if_false]
  have hsum := (hsplit.map (ashmemOf o)).sum_eq
  rw [List.map_append, List.sum_append] at hsum
  refine subAshmem_eq gone ?_
  rw [hsum]
  exact h

/-- A descriptor that is replaced by a duplicate stands for as much memory as was counted. -/
theorem Exact.step (h : l.Exact o) (hs : Step o l e l')
    (hadopt : ∀ f fd, e = .adopts f fd → ashmemOf o (f.adopt fd) = ashmemOf o f) : l'.Exact o := by
  cases hs with
  | lists f hown => exact h.lists hown rfl
  | copies fd hown => exact h.lists hown rfl
  | adopts f fd hown hf => exact h.lists hown (hadopt f fd rfl)
  | drops n hown => exact h.release hown (by rw [List.take_append_drop])
  | clears hown => exact h.release hown (List.reverse_perm _)
  | possesses kept hown hkept =>
      unfold Exact shared referenced at *
      simp only [hown, if_true, List.map_nil, List.sum_nil] at h
      have hsum := (kept.reverse_perm.map (ashmemOf o)).sum_eq
      simp only [Bool.false_eq_true, if_false]
      rw [addAshmem_eq h, Nat.zero_add, hsum]
  | givesBack hown =>
      unfold Exact shared referenced at *
      simpa [hown] using h
  | receives fs hown hempty =>
      unfold Exact shared referenced at *
      simpa [hown, hempty] using h
  | resets hown hempty =>
      unfold Exact shared referenced
      simp [hempty]
  | passes fd => exact h

theorem Exact.trace (h : l.Exact o) (ht : Trace (Step o) l es l')
    (hadopt : ∀ f fd, .adopts f fd ∈ es → ashmemOf o (f.adopt fd) = ashmemOf o f) : l'.Exact o :=
  ht.invariant h fun _ _ _ he hx hs => hx.step hs fun f fd heq => hadopt f fd (heq ▸ he)

end Inventory

end Parcel

end BinderForLinux
