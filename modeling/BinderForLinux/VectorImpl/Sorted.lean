import BinderForLinux.Library.SortedList
import BinderForLinux.VectorImpl.Impl
import Mathlib.Algebra.Order.Ring.Nat
import Mathlib.Data.Int.Notation
import Mathlib.Order.Basic

/-!
# Sorted vectors

`SortedVectorImpl` keeps the items of a vector in an order. Items are ordered by their keys; a type
that is ordered as a whole is its own key, and only the key of a `key_value_pair_t` counts.
-/

namespace BinderForLinux

namespace VectorImpl

namespace Sorted

open Library

variable {α κ : Type} [LinearOrder κ] (t : Traits) (dflt : α) (junk : ℕ → ℕ → α) (key : α → κ)
  (h : Heap α) (v vector : Vec) (item : α)

/-- `compare_type`, with the sign of its result. -/
def doCompare (lhs rhs : α) : Ordering := compare (key lhs) (key rhs)

/-- The item that is at `pos` behind `arrayImpl()`, which is null without a buffer. -/
def readItem (array : Option ℕ) (pos : ℕ) : Except Fault α :=
  match array with
  | none => .error .outOfBounds
  | some b => do
      let m ← h.block b
      m.read pos

/-- The item at `itemLocation(size()-1)`, which is null for an empty vector. -/
def readLast : Except Fault α :=
  if v.count = 0 then .error .outOfBounds else readItem h v.storage (v.count - 1)

/-- The loop of the binary search between `l` and `high`, of at most so many rounds. -/
def searchLoop : ℕ → ℤ → ℤ → Except Fault (Option ℕ × ℕ)
  | 0, l, _ => .ok (none, l.toNat)
  | n + 1, l, high =>
      if l ≤ high then do
        let mid := l + (high - l) / 2
        let curr ← readItem h v.storage mid.toNat
        match doCompare key curr item with
        | .eq => .ok (some mid.toNat, mid.toNat)
        | .lt => searchLoop n (mid + 1) high
        | .gt => searchLoop n l (mid - 1)
      else .ok (none, l.toNat)

/-- `SortedVectorImpl::_indexOrderOf`; no index is `NAME_NOT_FOUND`. -/
def indexOrderOf : Except Fault (Option ℕ × ℕ) :=
  if v.count = 0 then .ok (none, 0)
  else searchLoop key h v item v.count 0 ((v.count : ℤ) - 1)

def indexOf : Except Fault (Option ℕ) := (indexOrderOf key h v item).map Prod.fst

def orderOf : Except Fault ℕ := (indexOrderOf key h v item).map Prod.snd

def add : Except Fault (Heap α × Vec × Status) := do
  let r ← indexOrderOf key h v item
  match r.1 with
  | none => insertAt t dflt junk h v (some item) r.2 1
  | some index => replaceAt t dflt junk h v (some item) index

/-- The loop of `SortedVectorImpl::merge` over the items that are behind `buffer` from `i` on. An
item that is in the vector itself is replaced by its own value, where the code leaves it. -/
def mergeLoop (buffer : Option ℕ) :
    Heap α → Vec → ℕ → ℕ → Except Fault (Heap α × Vec × Status)
  | h, v, _, 0 => .ok (h, v, .ok 0)
  | h, v, i, n + 1 => do
      let item ← readItem h buffer i
      let r ← add t dflt junk key h v item
      match r.2.2 with
      | .ok _ => mergeLoop buffer r.1 r.2.1 (i + 1) n
      | err => .ok (r.1, r.2.1, err)

/-- `SortedVectorImpl::merge` of any vector. -/
def merge : Except Fault (Heap α × Vec × Status) :=
  mergeLoop t dflt junk key vector.storage h v 0 vector.count

/-- `SortedVectorImpl::merge` of a sorted vector. -/
def mergeSorted : Except Fault (Heap α × Vec × Status) :=
  if vector.count = 0 then .ok (h, v, .ok 0)
  else do
    let last ← readLast h vector
    let front ← readItem h v.storage 0
    if doCompare key last front ≠ .gt then
      insertArrayAt t junk h v vector.storage 0 vector.count
    else do
      let first ← readItem h vector.storage 0
      let back ← readLast h v
      if doCompare key first back ≠ .lt then
        insertArrayAt t junk h v vector.storage v.count vector.count
      else merge t dflt junk key h v vector

/-- `SortedVectorImpl::remove`, with the index of the item. -/
def remove : Except Fault (Heap α × Vec × Option ℕ) := do
  let i ← indexOf key h v item
  match i with
  | some index => (removeItemsAt t junk h v index 1).map fun r => (r.1, r.2.1, some index)
  | none => .ok (h, v, none)

/-! ### Any number of vectors -/

/-- Vectors of which some are sorted. -/
structure Vectors (α : Type) where
  world : World α
  sorted : ℕ → Bool

namespace Vectors

inductive Op (α : Type)
  /-- What all vectors have. -/
  | base (op : VectorImpl.Op α)
  /-- A new `SortedVector`. -/
  | construct
  | add (i : ℕ) (item : α)
  | merge (i vector : ℕ)
  | mergeSorted (i vector : ℕ)
  | remove (i : ℕ) (item : α)

variable (w : Vectors α)

def put (i : ℕ) (h : Heap α) (v : Vec) : Vectors α := { w with world := w.world.put i h (some v) }

def mark (sorted : Bool) : ℕ → Bool := Function.update w.sorted w.world.next sorted

/-- Which vectors are sorted ones after an operation; a copy of a sorted vector is. -/
def marks : VectorImpl.Op α → ℕ → Bool
  | .construct => w.mark false
  | .copy rhs => w.mark (w.sorted rhs)
  | _ => w.sorted

def step : Op α → Except Fault (Vectors α)
  | .base op => (VectorImpl.step t dflt junk w.world op).map fun world => ⟨world, w.marks op⟩
  | .construct => (VectorImpl.step t dflt junk w.world .construct).map fun world =>
      ⟨world, w.mark true⟩
  | .add i item => do
      let v ← w.world.get i
      (Sorted.add t dflt junk key w.world.heap v item).map fun r => w.put i r.1 r.2.1
  | .merge i vector => do
      let v ← w.world.get i
      let v' ← w.world.get vector
      (Sorted.merge t dflt junk key w.world.heap v v').map fun r => w.put i r.1 r.2.1
  | .mergeSorted i vector => do
      let v ← w.world.get i
      let v' ← w.world.get vector
      (Sorted.mergeSorted t dflt junk key w.world.heap v v').map fun r => w.put i r.1 r.2.1
  | .remove i item => do
      let v ← w.world.get i
      (Sorted.remove t junk key w.world.heap v item).map fun r => w.put i r.1 r.2.1

end Vectors

end Sorted

end VectorImpl

end BinderForLinux
