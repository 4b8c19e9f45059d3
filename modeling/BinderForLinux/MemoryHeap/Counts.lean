import BinderForLinux.Library.Counting
import BinderForLinux.MemoryHeap.Cache

/-!
# What an entry of the cache counts

The count of a binder is the number of its users, of the calls that have found its heap, and of the
calls that found it and did not leave a user. Such a call has the heap mapped and then cannot
record it: another thread did so for the same object in the meantime, `dup` has no descriptor to
give, or the object is a real heap itself.
-/

namespace BinderForLinux

namespace MemoryHeap

open Library

variable {s s' : State} {b b' o i n : ℕ} {x : Heap} {c c' : Call} {e : Option HeapInfo}

/-- A heap that has recorded the mapping of another one. -/
def Heap.isUser (x : Heap) (b : ℕ) : Bool :=
  x.live && x.binder == b && x.heapId.isSome && !x.realHeap

def users (s : State) (b : ℕ) : ℕ := (List.range s.next).countP fun o => (s.obj o).isUser b

def counted (s : State) (b : ℕ) (c : Call) : Bool :=
  decide (c.pc ≠ .findHeap) && (s.obj c.this).binder == b

def pending (s : State) (b : ℕ) : ℕ := s.calls.countP (counted s b)

/-- The count of the entry; without one it is zero. -/
def count (s : State) (b : ℕ) : ℕ := ((s.cache b).map HeapInfo.count).getD 0

/-- The binder whose count the call took for nothing, if this shows in its next step. -/
def wastedBy (s : State) (c : Call) (out : Outcome) : Option ℕ :=
  match c.pc with
  | .store _ => if (s.obj c.this).heapId ≠ none then some (s.obj c.this).binder else none
  | .stored heap =>
      if (s.obj c.this).realHeap = true ∨ (s.obj heap).heapId = none ∨ out.dup = none then
        some (s.obj c.this).binder
      else none
  | _ => none

def wasted (s : State) : Op → Option ℕ
  | .advance i out => s.calls[i]?.bind fun c => wastedBy s c out
  | _ => none

/-- A state, and how often the count of a binder was taken for nothing. -/
def historyStep (x : State × (ℕ → ℕ)) (op : Op) : Except Fault (State × (ℕ → ℕ)) :=
  (step x.1 op).map fun s' => (s', fun b => if wasted x.1 op = some b then x.2 b + 1 else x.2 b)

/-! ### Counts after a change -/

@[simp] theorem setObj_self : (s.setObj o x).obj o = x := Function.update_self ..

theorem setObj_of_ne (h : n ≠ o) : (s.setObj o x).obj n = s.obj n := Function.update_of_ne h ..

theorem users_setObj (ho : o < s.next) : (users (s.setObj o x) b : ℤ) =
    users s b - (if (s.obj o).isUser b then 1 else 0) + if x.isUser b then 1 else 0 := by
  have hchange := countP_change (f := fun o => (s.obj o).isUser b)
    (g := fun n => ((s.setObj o x).obj n).isUser b) List.nodup_range (List.mem_range.mpr ho)
    fun n _ hn => by rw [setObj_of_ne hn]
  rw [setObj_self] at hchange
  exact hchange

theorem users_setObj_eq (hx : x.isUser b = (s.obj o).isUser b) :
    users (s.setObj o x) b = users s b := by
  refine List.countP_congr fun n _ => ?_
  by_cases hn : n = o
  · rw [hn, setObj_self, hx]
  · rw [setObj_of_ne hn]

theorem users_newHeap {held : Bool} : users (newHeap s b held) b' = users s b' := by
  have hnew : (Heap.new b held).isUser b' = false := by simp [Heap.isUser, Heap.new]
  unfold users newHeap
  dsimp only
  rw [List.range_succ, List.countP_append, List.countP_singleton, setObj_self, hnew]
  refine List.countP_congr fun n hn => ?_
  rw [setObj_of_ne (Nat.ne_of_lt (List.mem_range.mp hn))]

theorem pending_setObj (hx : x.binder = (s.obj o).binder) :
    pending (s.setObj o x) b = pending s b := by
  refine List.countP_congr fun c _ => ?_
  unfold counted
  by_cases hc : c.this = o
  · rw [hc, setObj_self, hx]
  · rw [setObj_of_ne hc]

theorem pending_newHeap {held : Bool} (hcalls : ∀ c ∈ s.calls, c.this < s.next) :
    pending (newHeap s b held) b' = pending s b' := by
  refine List.countP_congr fun c hc => ?_
  have hne : c.this ≠ s.next := Nat.ne_of_lt (hcalls c hc)
  have hobj : (newHeap s b held).obj c.this = s.obj c.this := setObj_of_ne hne
  rw [counted, counted, hobj]

theorem pending_endCall (hi : s.calls[i]? = some c) :
    (pending (s.endCall i) b : ℤ) = pending s b - if counted s b c then 1 else 0 :=
  countP_eraseIdx hi

theorem pending_setCall (hi : s.calls[i]? = some c) :
    (pending (s.setCall i c') b : ℤ) = pending s b - (if counted s b c then 1 else 0) +
      if counted s b c' then 1 else 0 :=
  countP_set hi

@[simp] theorem users_setCache : users (s.setCache b e) b' = users s b' := rfl

@[simp] theorem users_setCall : users (s.setCall i c) b = users s b := rfl

@[simp] theorem users_endCall : users (s.endCall i) b = users s b := rfl

@[simp] theorem pending_setCache :
    pending (s.setCache b e) b' = pending s b' := rfl

theorem count_setCache : count (s.setCache b e) b' =
    if b' = b then (e.map HeapInfo.count).getD 0 else count s b' := by
  unfold count State.setCache
  dsimp only
  by_cases hb : b' = b
  · rw [hb, Function.update_self, if_pos rfl]
  · rw [Function.update_of_ne hb, if_neg hb]

/-! ### What is known of objects and calls -/

/-- Objects that are used are alive; the heap of an entry is one of its binder, and counted. -/
structure Known (s : State) : Prop where
  fresh : ∀ o, (s.obj o).live = true → o < s.next
  calls : ∀ c ∈ s.calls, ∀ o, c.Uses o → (s.obj o).live = true
  real : ∀ c ∈ s.calls, ∀ heap fd, c.pc = .mapped heap fd → (s.obj heap).realHeap = true
  cache : ∀ b e, s.cache b = some e → (s.obj e.heap).live = true ∧ (s.obj e.heap).binder = b ∧
    0 < e.count

theorem Call.uses_this (c : Call) : c.Uses c.this := .inl rfl

namespace Known

variable (h : Known s)
include h

theorem this_live (hi : s.calls[i]? = some c) : (s.obj c.this).live = true :=
  h.calls c (List.mem_of_getElem? hi) _ c.uses_this

theorem setObj (hlive : x.live = (s.obj o).live) (hbinder : x.binder = (s.obj o).binder)
    (hreal : (s.obj o).realHeap = true → x.realHeap = true) : Known (s.setObj o x) := by
  have hlive' (n : ℕ) : ((s.setObj o x).obj n).live = (s.obj n).live := by
    by_cases hn : n = o
    · rw [hn, setObj_self, hlive]
    · rw [setObj_of_ne hn]
  have hbinder' (n : ℕ) : ((s.setObj o x).obj n).binder = (s.obj n).binder := by
    by_cases hn : n = o
    · rw [hn, setObj_self, hbinder]
    · rw [setObj_of_ne hn]
  refine ⟨fun n hn => h.fresh n ((hlive' n).symm.trans hn), fun c hc n hn =>
    (hlive' n).trans (h.calls c hc n hn), fun c hc heap fd hpc => ?_, fun b e he => ?_⟩
  · have hold := h.real c hc heap fd hpc
    by_cases hn : heap = o
    · rw [hn, setObj_self]
      exact hreal (hn ▸ hold)
    · rw [setObj_of_ne hn]
      exact hold
  · rw [hlive', hbinder']
    exact h.cache b e he

theorem newHeap {held : Bool} : Known (newHeap s b held) := by
  have hold (n : ℕ) (hn : (s.obj n).live = true) :
      (MemoryHeap.newHeap s b held).obj n = s.obj n :=
    setObj_of_ne (Nat.ne_of_lt (h.fresh n hn))
  have hnew : (MemoryHeap.newHeap s b held).obj s.next = Heap.new b held := setObj_self
  refine ⟨fun n hn => ?_, fun c hc n hn => ?_, fun c hc heap fd hpc => ?_, fun b' e he => ?_⟩
  · change n < s.next + 1
    by_cases heq : n = s.next
    · omega
    · have hobj : (MemoryHeap.newHeap s b held).obj n = s.obj n := setObj_of_ne heq
      have := h.fresh n (hobj ▸ hn)
      omega
  · have hlive := h.calls c hc n hn
    rwa [hold n hlive]
  · have hlive := h.calls c hc heap (.inr (by rw [hpc]))
    rw [hold heap hlive]
    exact h.real c hc heap fd hpc
  · have hcached := h.cache b' e he
    rwa [hold e.heap hcached.1]

theorem setCache (he : ∀ e', e = some e' → (s.obj e'.heap).live = true ∧
    (s.obj e'.heap).binder = b ∧ 0 < e'.count) : Known (s.setCache b e) := by
  refine ⟨h.fresh, h.calls, h.real, fun b' e' he' => ?_⟩
  unfold State.setCache at he'
  dsimp only at he'
  by_cases hb : b' = b
  · rw [hb, Function.update_self] at he'
    rw [hb]
    exact he e' he'
  · rw [Function.update_of_ne hb] at he'
    exact h.cache b' e' he'

theorem setCall (huses : ∀ o, c.Uses o → (s.obj o).live = true)
    (hreal : ∀ heap fd, c.pc = .mapped heap fd → (s.obj heap).realHeap = true) :
    Known (s.setCall i c) := by
  refine ⟨h.fresh, fun d hd => ?_, fun d hd => ?_, h.cache⟩
  · rcases List.mem_or_eq_of_mem_set hd with hd | rfl
    · exact h.calls d hd
    · exact huses
  · rcases List.mem_or_eq_of_mem_set hd with hd | rfl
    · exact h.real d hd
    · exact hreal

theorem endCall : Known (s.endCall i) :=
  ⟨h.fresh, fun d hd => h.calls d (List.mem_of_mem_eraseIdx hd),
    fun d hd => h.real d (List.mem_of_mem_eraseIdx hd), h.cache⟩

end Known

/-! ### Locks -/

/-- The call is in a critical section of the object. -/
def Call.holds (o : ℕ) (c : Call) : Bool :=
  match c.pc with
  | .mapped heap _ => heap == o
  | .stored _ => c.this == o
  | _ => false

/-- One call at most has the lock of an object, and meanwhile there is no descriptor. -/
structure Locks (s : State) : Prop where
  one : ∀ o, s.calls.countP (Call.holds o) = if (s.obj o).locked = true then 1 else 0
  unset : ∀ o, (s.obj o).locked = true → (s.obj o).heapId = none

namespace Locks

variable (h : Locks s)
include h

theorem unset_of_holds (hi : s.calls[i]? = some c) (hc : c.holds o = true) :
    (s.obj o).heapId = none := by
  refine h.unset o ?_
  have hpos : 0 < s.calls.countP (Call.holds o) :=
    List.countP_pos_iff.mpr ⟨c, List.mem_of_getElem? hi, hc⟩
  rw [h.one o] at hpos
  by_contra hfree
  rw [if_neg hfree] at hpos
  cases hpos

theorem setObj (hlocked : x.locked = (s.obj o).locked)
    (hunset : x.locked = true → x.heapId = none) : Locks (s.setObj o x) := by
  refine ⟨fun n => (h.one n).trans ?_, fun n => ?_⟩
  · by_cases hn : n = o
    · rw [hn, setObj_self, hlocked]
    · rw [setObj_of_ne hn]
  · by_cases hn : n = o
    · rw [hn, setObj_self]
      exact hunset
    · rw [setObj_of_ne hn]
      exact h.unset n

theorem setCall (hi : s.calls[i]? = some c) (hc : ∀ o, c'.holds o = c.holds o) :
    Locks (s.setCall i c') := by
  refine ⟨fun n => ?_, h.unset⟩
  have hcount := countP_set (f := Call.holds n) (q := c') hi
  rw [hc n] at hcount
  have hone := h.one n
  change (s.calls.set i c').countP (Call.holds n) = if (s.obj n).locked = true then 1 else 0
  omega

theorem endCall (hi : s.calls[i]? = some c) (hc : ∀ o, c.holds o = false) :
    Locks (s.endCall i) := by
  refine ⟨fun n => ?_, h.unset⟩
  have hcount := countP_eraseIdx (f := Call.holds n) hi
  rw [hc n] at hcount
  have hone := h.one n
  change (s.calls.eraseIdx i).countP (Call.holds n) = if (s.obj n).locked = true then 1 else 0
  simp only [Bool.false_eq_true, if_false] at hcount
  omega

theorem acquire (hi : s.calls[i]? = some c) (hc : ∀ n, c.holds n = false)
    (hc' : ∀ n, c'.holds n = decide (n = o)) (hfree : ¬ (s.obj o).locked = true)
    (hlocked : x.locked = true) (hunset : x.heapId = none) :
    Locks ((s.setObj o x).setCall i c') := by
  refine ⟨fun n => ?_, fun n => ?_⟩
  · have hcount := countP_set (f := Call.holds n) (q := c') hi
    rw [hc n, hc' n] at hcount
    have hone := h.one n
    change (s.calls.set i c').countP (Call.holds n) =
      if ((s.setObj o x).obj n).locked = true then 1 else 0
    simp only [Bool.false_eq_true, if_false, decide_eq_true_eq] at hcount
    by_cases hn : n = o
    · rw [hn] at hcount hone ⊢
      rw [if_neg hfree] at hone
      rw [setObj_self, if_pos hlocked]
      simp only [if_true] at hcount
      omega
    · rw [setObj_of_ne hn]
      rw [if_neg hn] at hcount
      omega
  · change ((s.setObj o x).obj n).locked = true → ((s.setObj o x).obj n).heapId = none
    by_cases hn : n = o
    · rw [hn, setObj_self]
      exact fun _ => hunset
    · rw [setObj_of_ne hn]
      exact h.unset n

theorem release {calls : List Call} (hi : s.calls[i]? = some c)
    (hc : ∀ n, c.holds n = decide (n = o))
    (hcalls : ∀ n, (calls.countP (Call.holds n) : ℤ) =
      s.calls.countP (Call.holds n) - if c.holds n then 1 else 0)
    (hlocked : x.locked = false) : Locks { s.setObj o x with calls := calls } := by
  have hpos := List.countP_pos_iff.mpr ⟨c, List.mem_of_getElem? hi, (hc o).trans (by simp)⟩
  refine ⟨fun n => ?_, fun n => ?_⟩
  · have hcount := hcalls n
    have hone := h.one n
    rw [hc n] at hcount
    change calls.countP (Call.holds n) = if ((s.setObj o x).obj n).locked = true then 1 else 0
    simp only [decide_eq_true_eq] at hcount
    by_cases hn : n = o
    · rw [hn] at hcount hone ⊢
      rw [setObj_self, hlocked, if_neg Bool.false_ne_true]
      simp only [if_true] at hcount
      split at hone <;> omega
    · rw [setObj_of_ne hn]
      rw [if_neg hn] at hcount
      omega
  · change ((s.setObj o x).obj n).locked = true → ((s.setObj o x).obj n).heapId = none
    by_cases hn : n = o
    · rw [hn, setObj_self, hlocked]
      exact fun hfalse => absurd hfalse Bool.false_ne_true
    · rw [setObj_of_ne hn]
      exact h.unset n

end Locks

end MemoryHeap

end BinderForLinux
