import BinderForLinux.Library.Run
import Mathlib.Algebra.BigOperators.Fin
import Mathlib.Algebra.Order.BigOperators.Group.Finset

/-!
# The reference counts of an object

The two counters of `RefBase::weakref_impl` for an object with the default lifetime, shared
by any number of threads. Every `android_atomic` operation and every load of `mStrong` or
`mWeak` is one step of one thread; what a thread does between two of them is local and goes
with the step before.
-/

namespace BinderForLinux

namespace RefBase

open Library

/-- `INITIAL_STRONG_VALUE`: the strong count of an object that never had a strong reference. -/
def initialStrongValue : ℤ := 2 ^ 28

def androidAtomicAdd (d v : ℤ) : ℤ := Int.bmod (v + d) (2 ^ 32)

/-! ### Threads -/

/-- What a thread executes next. A number is the local `curCount`. -/
inductive Pc
  | idle
  /-- `incStrong` at `android_atomic_inc(&refs->mStrong)`. -/
  | incStrong
  /-- `incStrong` at `android_atomic_add(-INITIAL_STRONG_VALUE, &refs->mStrong)`. -/
  | incStrongFirst
  /-- `decStrong` at `delete this`, the count having been `1`. -/
  | lastStrong
  /-- `~RefBase` at its look at `mStrong`; after it `decStrong` still calls `decWeak`. -/
  | destructor (decWeaks : Bool)
  /-- `decWeak` as the end of `decStrong` or of a failed `attemptIncStrong`. -/
  | decWeak
  /-- `decWeak` at its look at `mStrong`, the weak count having been `1`. -/
  | lastWeak
  /-- `attemptIncStrong` at `curCount = impl->mStrong`, before or in the first loop. -/
  | attemptLoad
  | attemptCas (curCount : ℤ)
  /-- The second loop of `attemptIncStrong`, for an object without a strong reference. -/
  | promoteCas (curCount : ℤ)
  | promoteLoad
  /-- The last loop of `attemptIncStrong`, which takes `INITIAL_STRONG_VALUE` away. -/
  | fixUpLoad
  | fixUpCas (curCount : ℤ)
  deriving DecidableEq, Repr

/-- A thread with the references it holds. -/
structure Thread where
  pc : Pc
  strong : ℕ
  weak : ℕ
  deriving DecidableEq, Repr

/-- The operations a thread may call. -/
inductive Op
  | incStrong
  | decStrong
  | attemptIncStrong
  | incWeak
  | decWeak
  deriving DecidableEq, Repr

/-- One object: its counters, the threads, how often the object and its `weakref_impl` were
deleted, and whether a strong or any reference was ever taken. -/
structure State (n : ℕ) where
  mStrong : ℤ
  mWeak : ℤ
  threads : Fin n → Thread
  destroyed : ℕ
  freed : ℕ
  everStrong : Bool
  everWeak : Bool

/-- A new object, on which no thread holds a reference. -/
def init (n : ℕ) : State n where
  mStrong := initialStrongValue
  mWeak := 0
  threads := fun _ => ⟨.idle, 0, 0⟩
  destroyed := 0
  freed := 0
  everStrong := false
  everWeak := false

/-- A thread calls an operation or executes its next step. -/
inductive Act (n : ℕ)
  | call (t : Fin n) (op : Op)
  | next (t : Fin n)
  deriving DecidableEq, Repr

inductive Refused
  | busy
  | idle
  deriving DecidableEq, Repr

section Steps

variable {n : ℕ}

def State.setThread (s : State n) (t : Fin n) (th : Thread) : State n :=
  { s with threads := Function.update s.threads t th }

def State.incWeak (s : State n) : State n :=
  { s with mWeak := androidAtomicAdd 1 s.mWeak, everWeak := true }

/-- `android_atomic_dec(&impl->mWeak)` and the test of its result. -/
def State.decWeak (s : State n) (t : Fin n) (th : Thread) : State n :=
  { s with mWeak := androidAtomicAdd (-1) s.mWeak }.setThread t
    { th with pc := if s.mWeak = 1 then .lastWeak else .idle }

def State.call (s : State n) (t : Fin n) : Op → State n
  | .incStrong => s.incWeak.setThread t { s.threads t with pc := .incStrong }
  | .decStrong =>
      { s with mStrong := androidAtomicAdd (-1) s.mStrong }.setThread t
        { s.threads t with
          strong := (s.threads t).strong - 1
          pc := if s.mStrong = 1 then .lastStrong else .decWeak }
  | .attemptIncStrong => s.incWeak.setThread t { s.threads t with pc := .attemptLoad }
  | .incWeak => s.incWeak.setThread t { s.threads t with weak := (s.threads t).weak + 1 }
  | .decWeak => s.decWeak t { s.threads t with weak := (s.threads t).weak - 1 }

/-- The thread returns from an operation with one more strong reference. -/
def State.gainStrong (s : State n) (t : Fin n) : State n :=
  s.setThread t { s.threads t with pc := .idle, strong := (s.threads t).strong + 1 }

def State.goTo (s : State n) (t : Fin n) (pc : Pc) : State n :=
  s.setThread t { s.threads t with pc := pc }

/-- Where `attemptIncStrong` goes from a look at the strong count. -/
def attemptBranch (curCount : ℤ) : Pc :=
  if 0 < curCount ∧ curCount ≠ initialStrongValue then .attemptCas curCount
  else if curCount ≤ 0 then .decWeak
  else .promoteCas curCount

/-- `android_atomic_cmpxchg` that adds one reference, with where to go when the count has
changed. -/
def State.incCas (s : State n) (t : Fin n) (curCount : ℤ) (retry : Pc) : State n :=
  if s.mStrong = curCount then
    { s with mStrong := curCount + 1, everStrong := true }.goTo t .fixUpLoad
  else s.goTo t retry

/-- The next step of a thread that is inside an operation. -/
def State.next (s : State n) (t : Fin n) : Except Refused (State n) :=
  match (s.threads t).pc with
  | .idle => .error .idle
  | .incStrong =>
      .ok <|
        if s.mStrong = initialStrongValue then
          { s with mStrong := androidAtomicAdd 1 s.mStrong, everStrong := true }.goTo t
            .incStrongFirst
        else
          { s with mStrong := androidAtomicAdd 1 s.mStrong, everStrong := true }.gainStrong t
  | .incStrongFirst =>
      .ok <| { s with mStrong := androidAtomicAdd (-initialStrongValue) s.mStrong }.gainStrong t
  | .lastStrong => .ok <| { s with destroyed := s.destroyed + 1 }.goTo t (.destructor true)
  | .destructor decWeaks =>
      .ok <|
        { s with freed := if s.mStrong = initialStrongValue then s.freed + 1 else s.freed }.goTo t
          (if decWeaks then .decWeak else .idle)
  | .decWeak => .ok <| s.decWeak t (s.threads t)
  | .lastWeak =>
      .ok <|
        if s.mStrong = initialStrongValue then
          { s with destroyed := s.destroyed + 1 }.goTo t (.destructor false)
        else { s with freed := s.freed + 1 }.goTo t .idle
  | .attemptLoad => .ok <| s.goTo t (attemptBranch s.mStrong)
  | .attemptCas curCount => .ok <| s.incCas t curCount .attemptLoad
  | .promoteCas curCount => .ok <| s.incCas t curCount .promoteLoad
  | .promoteLoad =>
      .ok <| s.goTo t (if 0 < s.mStrong then .promoteCas s.mStrong else .decWeak)
  | .fixUpLoad =>
      .ok <|
        if initialStrongValue ≤ s.mStrong then s.goTo t (.fixUpCas s.mStrong) else s.gainStrong t
  | .fixUpCas curCount =>
      .ok <|
        if s.mStrong = curCount then
          { s with mStrong := curCount - initialStrongValue }.gainStrong t
        else s.goTo t .fixUpLoad

def step (s : State n) : Act n → Except Refused (State n)
  | .call t op => if (s.threads t).pc = .idle then .ok (s.call t op) else .error .busy
  | .next t => s.next t

end Steps

/-! ### Counting over the threads -/

section Totals

variable {n : ℕ}

/-- The references an operation in progress has put into `mWeak`. -/
def Pc.weak : Pc → ℕ
  | .idle => 0
  | .lastWeak => 0
  | .destructor false => 0
  | _ => 1

def Pc.owes : Pc → ℕ
  | .incStrongFirst => 1
  | _ => 0

def Pc.fixes : Pc → ℕ
  | .fixUpLoad => 1
  | .fixUpCas _ => 1
  | _ => 0

def Pc.endsStrong : Pc → ℕ
  | .lastStrong => 1
  | _ => 0

def Pc.endsWeak : Pc → ℕ
  | .lastWeak => 1
  | _ => 0

def total (ths : Fin n → Thread) (f : Thread → ℕ) : ℕ := ∑ t, f (ths t)

def held (ths : Fin n → Thread) : ℕ := total ths Thread.strong

/-- The threads that have to take `INITIAL_STRONG_VALUE` away at the end of `incStrong`. -/
def owing (ths : Fin n → Thread) : ℕ := total ths fun th => th.pc.owes

/-- The threads in the last loop of `attemptIncStrong`. -/
def fixing (ths : Fin n → Thread) : ℕ := total ths fun th => th.pc.fixes

def endingStrong (ths : Fin n → Thread) : ℕ := total ths fun th => th.pc.endsStrong

def endingWeak (ths : Fin n → Thread) : ℕ := total ths fun th => th.pc.endsWeak

/-- The references of both kinds held, being taken or being given up. -/
def weakRefs (ths : Fin n → Thread) : ℕ :=
  total ths fun th => th.strong + th.weak + th.pc.weak

/-- The strong references held or being taken. -/
def strongRefs (ths : Fin n → Thread) : ℕ := held ths + owing ths + fixing ths

theorem total_update (ths : Fin n → Thread) (t : Fin n) (th : Thread) (f : Thread → ℕ) :
    total (Function.update ths t th) f + f (ths t) = total ths f + f th := by
  have hsum (g : Fin n → Thread) : ∑ u, f (g u) = f (g t) + ∑ u ∈ Finset.univ.erase t, f (g u) :=
    (Finset.add_sum_erase _ _ (Finset.mem_univ t)).symm
  have herase : ∑ u ∈ Finset.univ.erase t, f (Function.update ths t th u) =
      ∑ u ∈ Finset.univ.erase t, f (ths u) :=
    Finset.sum_congr rfl fun u hu => by
      rw [Function.update_of_ne (Finset.ne_of_mem_erase hu)]
  unfold total
  rw [hsum, hsum ths, herase, Function.update_self]
  omega

theorem le_total (ths : Fin n → Thread) (t : Fin n) (f : Thread → ℕ) :
    f (ths t) ≤ total ths f :=
  Finset.single_le_sum (f := fun u => f (ths u)) (fun _ _ => Nat.zero_le _) (Finset.mem_univ t)

theorem total_eq_zero {ths : Fin n → Thread} {f : Thread → ℕ} (h : ∀ t, f (ths t) = 0) :
    total ths f = 0 :=
  Finset.sum_eq_zero fun t _ => h t

theorem held_le_weakRefs (ths : Fin n → Thread) : held ths ≤ weakRefs ths := by
  unfold held weakRefs total
  refine Finset.sum_le_sum fun t _ => ?_
  dsimp only
  omega

end Totals

end RefBase

end BinderForLinux
