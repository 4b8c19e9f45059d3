import BinderForLinux.MemoryHeap.Counts

/-!
# The count in every run

No step changes what is counted too much, but those at which a count was taken for nothing. When no
call is in progress the counts are the numbers of users if there was no such step.
-/

namespace BinderForLinux

namespace MemoryHeap

open Library

variable {s s' : State} {b b' o i : ℕ} {c c' : Call} {out : Outcome}

/-- What the entry counts beside the users and the calls in progress. -/
def surplus (s : State) (b : ℕ) : ℤ := count s b - users s b - pending s b

structure Sound (s : State) : Prop where
  known : Known s
  locks : Locks s

/-- What a step keeps, with what it adds to the surplus of each binder. -/
def Adds (s s' : State) (waste : Option ℕ) : Prop :=
  Sound s' ∧ ∀ b, surplus s' b = surplus s b + if waste = some b then 1 else 0

theorem adds_none (h : Sound s') (hsurplus : ∀ b, surplus s' b = surplus s b) :
    Adds s s' none := by
  refine ⟨h, fun b => ?_⟩
  rw [hsurplus, if_neg (fun heq => by cases heq), Int.add_zero]

/-! ### The cache -/

theorem count_of_cache {e : HeapInfo} (he : s.cache b = some e) : count s b = e.count := by
  rw [count, he]
  rfl

theorem count_of_none (he : s.cache b = none) : count s b = 0 := by
  rw [count, he]
  rfl

theorem Known.count_pos {e : HeapInfo} (h : Known s) (he : s.cache b = some e) :
    0 < count s b := by
  rw [count_of_cache he]
  exact (h.cache b e he).2.2

theorem freeHeap_calls : (freeHeap s b).calls = s.calls := by
  unfold freeHeap
  cases s.cache b <;> rfl

theorem freeHeap_obj : (freeHeap s b).obj = s.obj := by
  unfold freeHeap
  cases s.cache b <;> rfl

theorem freeHeap_next : (freeHeap s b).next = s.next := by
  unfold freeHeap
  cases s.cache b <;> rfl

theorem Sound.freeHeap (h : Sound s) : Sound (freeHeap s b) := by
  refine ⟨?_, ?_⟩
  · unfold MemoryHeap.freeHeap
    cases he : s.cache b with
    | none => exact h.known
    | some e =>
        obtain ⟨hlive, hbinder, hpos⟩ := h.known.cache b e he
        refine h.known.setCache fun e' he' => ?_
        split at he'
        · cases he'
        · rename_i hne
          cases he'
          exact ⟨hlive, hbinder, by dsimp only; omega⟩
  · refine ⟨fun n => ?_, fun n => ?_⟩
    · rw [freeHeap_calls, freeHeap_obj]
      exact h.locks.one n
    · rw [freeHeap_obj]
      exact h.locks.unset n

theorem count_freeHeap (hpos : 0 < count s b) :
    (count (freeHeap s b) b' : ℤ) = count s b' - if b = b' then 1 else 0 := by
  unfold freeHeap
  cases he : s.cache b with
  | none =>
      rw [count_of_none he] at hpos
      cases hpos
  | some e =>
      rw [count_of_cache he] at hpos
      dsimp only
      rw [count_setCache]
      by_cases hb : b' = b
      · rw [hb, if_pos rfl, if_pos rfl, count_of_cache he]
        split
        · rename_i hone
          rw [hone]
          rfl
        · dsimp only [Option.map_some, Option.getD_some]
          omega
      · rw [if_neg hb, if_neg (Ne.symm hb)]
        omega

theorem surplus_freeHeap (hpos : 0 < count s b) :
    surplus (freeHeap s b) b' = surplus s b' - if b = b' then 1 else 0 := by
  have husers : users (freeHeap s b) b' = users s b' := by
    unfold users
    rw [freeHeap_next, freeHeap_obj]
  have hpending : pending (freeHeap s b) b' = pending s b' := by
    unfold pending counted
    rw [freeHeap_calls, freeHeap_obj]
  unfold surplus
  rw [husers, hpending, count_freeHeap hpos]
  omega

/-! ### Making objects -/

theorem Call.uses_of_holds (hc : c.holds o = true) : c.Uses o := by
  unfold Call.holds at hc
  split at hc
  · rename_i heap fd hpc
    refine .inr ?_
    rw [hpc]
    exact beq_iff_eq.mp hc
  · exact .inl (beq_iff_eq.mp hc)
  · cases hc

theorem Sound.newHeap {held : Bool} (h : Sound s) : Sound (newHeap s b held) := by
  refine ⟨h.known.newHeap, fun n => ?_, fun n => ?_⟩
  · change s.calls.countP (Call.holds n) = _
    by_cases hn : n = s.next
    · have hobj : (MemoryHeap.newHeap s b held).obj n = Heap.new b held := by
        rw [hn]
        exact setObj_self
      rw [hobj]
      refine List.countP_eq_zero.mpr fun c hc hholds => ?_
      have := h.known.fresh n (h.known.calls c hc n (Call.uses_of_holds hholds))
      omega
    · have hobj : (MemoryHeap.newHeap s b held).obj n = s.obj n := setObj_of_ne hn
      rw [hobj]
      exact h.locks.one n
  · by_cases hn : n = s.next
    · have hobj : (MemoryHeap.newHeap s b held).obj n = Heap.new b held := by
        rw [hn]
        exact setObj_self
      rw [hobj]
      exact fun _ => rfl
    · have hobj : (MemoryHeap.newHeap s b held).obj n = s.obj n := setObj_of_ne hn
      rw [hobj]
      exact h.locks.unset n

theorem Sound.surplus_newHeap {held : Bool} (h : Sound s) :
    surplus (MemoryHeap.newHeap s b held) b' = surplus s b' := by
  have hcount : count (MemoryHeap.newHeap s b held) b' = count s b' := rfl
  rw [surplus, surplus, hcount, users_newHeap, pending_newHeap fun c hc =>
    h.known.fresh _ (h.known.calls c hc _ c.uses_this)]

theorem Sound.newHeap_obj {held : Bool} (h : Sound s) {n : ℕ} (hn : (s.obj n).live = true) :
    (MemoryHeap.newHeap s b held).obj n = s.obj n :=
  setObj_of_ne (Nat.ne_of_lt (h.known.fresh n hn))

theorem surplus_setCache {e : Option HeapInfo} : surplus (s.setCache b e) b' =
    surplus s b' + if b = b' then ((e.map HeapInfo.count).getD 0 : ℤ) - count s b else 0 := by
  unfold surplus
  rw [users_setCache, pending_setCache, count_setCache]
  by_cases hb : b' = b
  · rw [hb, if_pos rfl, if_pos rfl]
    omega
  · rw [if_neg hb, if_neg (Ne.symm hb)]
    omega

theorem Sound.findHeap (h : Sound s) (hc : (s.obj o).live = true) :
    Sound (findHeap s b).1 ∧ (findHeap s b).1.calls = s.calls ∧
      (findHeap s b).1.obj o = s.obj o ∧
      ((findHeap s b).1.obj (findHeap s b).2).live = true ∧
      ∀ b', surplus (findHeap s b).1 b' = surplus s b' + if b = b' then 1 else 0 := by
  unfold MemoryHeap.findHeap
  cases he : s.cache b with
  | some e =>
      obtain ⟨hlive, hbinder, hpos⟩ := h.known.cache b e he
      refine ⟨⟨h.known.setCache fun e' he' => ?_, h.locks.one, h.locks.unset⟩, rfl, rfl, hlive,
        fun b' => ?_⟩
      · cases he'
        exact ⟨hlive, hbinder, Nat.succ_pos _⟩
      · rw [surplus_setCache, count_of_cache he]
        dsimp only [Option.map_some, Option.getD_some]
        split <;> omega
  | none =>
      have hnew : Sound (MemoryHeap.newHeap s b false) := h.newHeap
      have hobj : (MemoryHeap.newHeap s b false).obj s.next = Heap.new b false := setObj_self
      refine ⟨⟨hnew.known.setCache fun e' he' => ?_, hnew.locks.one, hnew.locks.unset⟩, rfl,
        h.newHeap_obj hc, ?_, fun b' => ?_⟩
      · cases he'
        rw [hobj]
        exact ⟨rfl, rfl, Nat.zero_lt_one⟩
      · change ((MemoryHeap.newHeap s b false).obj s.next).live = true
        rw [hobj]
        rfl
      · have hcount : count (MemoryHeap.newHeap s b false) b = 0 := count_of_none he
        rw [surplus_setCache, h.surplus_newHeap, hcount]
        dsimp only [Option.map_some, Option.getD_some]
        split <;> omega

/-! ### Calls -/

theorem surplus_setObj (ho : o < s.next) {x : Heap} (hx : x.binder = (s.obj o).binder) :
    surplus (s.setObj o x) b = surplus s b + (if (s.obj o).isUser b then 1 else 0) -
      if x.isUser b then 1 else 0 := by
  have husers := users_setObj (b := b) (x := x) ho
  have hcount : count (s.setObj o x) b = count s b := rfl
  rw [surplus, surplus, husers, pending_setObj hx, hcount]
  omega

theorem surplus_setCall (hi : s.calls[i]? = some c) : surplus (s.setCall i c') b =
    surplus s b + (if counted s b c then 1 else 0) - if counted s b c' then 1 else 0 := by
  have hpending : (pending (s.setCall i c') b : ℤ) = _ := pending_setCall hi
  have hcount : count (s.setCall i c') b = count s b := rfl
  rw [surplus, surplus, hpending, users_setCall, hcount]
  omega

theorem surplus_endCall (hi : s.calls[i]? = some c) :
    surplus (s.endCall i) b = surplus s b + if counted s b c then 1 else 0 := by
  have hpending := pending_endCall (b := b) hi
  have hcount : count (s.endCall i) b = count s b := rfl
  rw [surplus, surplus, hpending, users_endCall, hcount]
  omega

theorem isUser_of_unset {x : Heap} (hx : x.heapId = none) : x.isUser b = false := by
  simp [Heap.isUser, hx]

theorem isUser_of_real {x : Heap} (hx : x.realHeap = true) : x.isUser b = false := by
  simp [Heap.isUser, hx]

theorem setObj_eq_self : s.setObj o (s.obj o) = s := by
  unfold State.setObj
  rw [Function.update_eq_self]

theorem counted_eq (hpc : c.pc ≠ .findHeap) : counted s b c = ((s.obj c.this).binder == b) := by
  simp [counted, hpc]

theorem setObj_binder {x : Heap} (hx : x.binder = (s.obj o).binder) (n : ℕ) :
    ((s.setObj o x).obj n).binder = (s.obj n).binder := by
  by_cases hn : n = o
  · rw [hn, setObj_self, hx]
  · rw [setObj_of_ne hn]

theorem setObj_live {x : Heap} (hx : x.live = (s.obj o).live) (n : ℕ) :
    ((s.setObj o x).obj n).live = (s.obj n).live := by
  by_cases hn : n = o
  · rw [hn, setObj_self, hx]
  · rw [setObj_of_ne hn]

theorem Sound.goWith {x : Heap} (h : Sound s) (hi : s.calls[i]? = some c)
    (hthis : c'.this = c.this) (hpc : c.pc ≠ .findHeap) (hpc' : c'.pc ≠ .findHeap)
    (ho : (s.obj o).live = true) (hlive : x.live = (s.obj o).live)
    (hbinder : x.binder = (s.obj o).binder)
    (hreal : (s.obj o).realHeap = true → x.realHeap = true)
    (huser : ∀ b, x.isUser b = (s.obj o).isUser b)
    (huses : ∀ n, c'.Uses n → (s.obj n).live = true)
    (hmapped : ∀ heap fd, c'.pc = .mapped heap fd →
      ((s.setObj o x).obj heap).realHeap = true)
    (hlocks : Locks ((s.setObj o x).setCall i c')) :
    Adds s ((s.setObj o x).setCall i c') none := by
  refine adds_none ⟨(h.known.setObj hlive hbinder hreal).setCall (fun n hn => ?_) hmapped, hlocks⟩
    fun b => ?_
  · rw [setObj_live hlive]
    exact huses n hn
  · have hi' : (s.setObj o x).calls[i]? = some c := hi
    rw [surplus_setCall hi', surplus_setObj (h.known.fresh o ho) hbinder, counted_eq hpc,
      counted_eq hpc', huser, hthis, setObj_binder hbinder]
    omega

theorem Sound.go (h : Sound s) (hi : s.calls[i]? = some c) (hthis : c'.this = c.this)
    (hpc : c.pc ≠ .findHeap) (hpc' : c'.pc ≠ .findHeap)
    (huses : ∀ n, c'.Uses n → (s.obj n).live = true)
    (hmapped : ∀ heap fd, c'.pc ≠ .mapped heap fd) (hholds : ∀ n, c'.holds n = c.holds n) :
    Adds s (s.setCall i c') none := by
  have hlocks := h.locks.setCall hi hholds
  rw [← setObj_eq_self (s := s) (o := c.this)] at hlocks
  have hadds := h.goWith (x := s.obj c.this) hi hthis hpc hpc' (h.known.this_live hi) rfl rfl id
    (fun _ => rfl) huses (fun heap fd heq => absurd heq (hmapped heap fd)) hlocks
  rwa [setObj_eq_self] at hadds

theorem adds_find (h : Sound s) (hi : s.calls[i]? = some c) (hpc : c.pc = .findHeap) :
    Adds s ((findHeap s (s.obj c.this).binder).1.setCall i
      { c with pc := .really (findHeap s (s.obj c.this).binder).2 }) none := by
  have hthis := h.known.this_live hi
  obtain ⟨hsound, hcalls, hobj, hlive, hsurplus⟩ := h.findHeap (b := (s.obj c.this).binder) hthis
  generalize findHeap s (s.obj c.this).binder = r at *
  have hi' : r.1.calls[i]? = some c := by rw [hcalls, hi]
  refine adds_none ⟨hsound.known.setCall (fun n hn => ?_) (fun _ _ heq => by cases heq),
    hsound.locks.setCall hi' fun n => ?_⟩ fun b => ?_
  · rcases hn with rfl | hn
    · rw [hobj]
      exact hthis
    · have hn : r.2 = n := hn
      rw [← hn]
      exact hlive
  · unfold Call.holds
    rw [hpc]
  · have hcounted : counted r.1 b c = false := by simp [counted, hpc]
    have hcounted' : counted r.1 b { c with pc := .really r.2 } =
        ((s.obj c.this).binder == b) := by
      rw [counted_eq (fun heq => by cases heq), hobj]
    rw [surplus_setCall hi', hsurplus, hcounted, hcounted', if_neg Bool.false_ne_true]
    simp only [beq_iff_eq]
    omega

theorem Sound.heap_live (h : Sound s) (hi : s.calls[i]? = some c) (hc : c.Uses o) :
    (s.obj o).live = true :=
  h.known.calls c (List.mem_of_getElem? hi) o hc

theorem uses_next {pc : Pc} {heap : ℕ} (h : Sound s) (hi : s.calls[i]? = some c)
    (hc : c.Uses heap) (hpc : ∀ n, Call.Uses ⟨c.this, pc⟩ n → n = c.this ∨ n = heap) :
    ∀ n, Call.Uses { c with pc := pc } n → (s.obj n).live = true := by
  intro n hn
  rcases hpc n hn with rfl | rfl
  · exact h.known.this_live hi
  · exact h.heap_live hi hc

theorem uses_cases {n heap : ℕ} {pc : Pc}
    (hpc : pc = .really heap ∨ pc = .map heap ∨ (∃ fd, pc = .mapped heap fd) ∨ pc = .test heap ∨
      pc = .store heap ∨ pc = .stored heap ∨ pc = .freeHeap heap)
    (hn : Call.Uses ⟨o, pc⟩ n) : n = o ∨ n = heap := by
  rcases hn with rfl | hn
  · exact .inl rfl
  · rcases hpc with rfl | rfl | ⟨fd, rfl⟩ | rfl | rfl | rfl | rfl <;> exact .inr (Eq.symm hn)

theorem beq_eq_decide_comm (m n : ℕ) : (m == n) = decide (n = m) := by
  rw [Bool.eq_iff_iff, beq_iff_eq, decide_eq_true_iff]
  exact ⟨Eq.symm, Eq.symm⟩

theorem adds_map {heap : ℕ} (h : Sound s) (hi : s.calls[i]? = some c) (hpc : c.pc = .map heap)
    (hstep : advance s i c out = .ok s') : Adds s s' none := by
  have hheap : c.Uses heap := .inr (by rw [hpc])
  have hlive := h.heap_live hi hheap
  have hholds (n : ℕ) : c.holds n = false := by
    unfold Call.holds
    rw [hpc]
  have hne : c.pc ≠ .findHeap := fun heq => by rw [hpc] at heq; cases heq
  have htest : ∀ n, Call.Uses { c with pc := .test heap } n → (s.obj n).live = true :=
    uses_next h hi hheap fun n hn => uses_cases (by simp) hn
  unfold advance at hstep
  rw [hpc] at hstep
  dsimp only at hstep
  split at hstep
  · cases hstep
  · rename_i hfree
    split at hstep
    · rename_i hunset
      split at hstep
      · rename_i r _
        cases hstep
        refine h.goWith hi rfl hne (fun heq => by cases heq) hlive rfl rfl (fun _ => rfl)
          (fun b => ?_) (uses_next h hi hheap fun n hn => uses_cases (by simp) hn)
          (fun heap' fd heq => ?_) (h.locks.acquire hi hholds (fun n => ?_) hfree rfl hunset)
        · rw [isUser_of_unset hunset, isUser_of_real rfl]
        · cases heq
          rw [setObj_self]
        · exact beq_eq_decide_comm heap n
      · cases hstep
        refine h.goWith hi rfl hne (fun heq => by cases heq) hlive rfl rfl (fun _ => rfl)
          (fun b => ?_) htest (fun heap' fd heq => by cases heq)
          (Locks.setCall (h.locks.setObj rfl fun _ => hunset) hi fun n => ?_)
        · rw [isUser_of_unset hunset, isUser_of_real rfl]
        · rw [hholds]
          rfl
    · cases hstep
      exact h.go hi rfl hne (fun heq => by cases heq) htest (fun _ _ heq => by cases heq)
        fun n => (hholds n).symm

theorem adds_mapped {heap fd : ℕ} (h : Sound s) (hi : s.calls[i]? = some c)
    (hpc : c.pc = .mapped heap fd) (hstep : advance s i c out = .ok s') : Adds s s' none := by
  have hheap : c.Uses heap := .inr (by rw [hpc])
  have hreal : (s.obj heap).realHeap = true :=
    h.known.real c (List.mem_of_getElem? hi) heap fd hpc
  have hholds (n : ℕ) : c.holds n = decide (n = heap) := by
    unfold Call.holds
    rw [hpc]
    exact beq_eq_decide_comm heap n
  unfold advance at hstep
  rw [hpc] at hstep
  cases hstep
  refine h.goWith hi rfl (fun heq => by rw [hpc] at heq; cases heq) (fun heq => by cases heq)
    (h.heap_live hi hheap) rfl rfl id (fun b => ?_)
    (uses_next h hi hheap fun n hn => uses_cases (by simp) hn) (fun _ _ heq => by cases heq)
    (h.locks.release hi hholds (fun n => ?_) rfl)
  · refine Eq.trans ?_ (isUser_of_real hreal).symm
    exact isUser_of_real hreal
  · have hcount := countP_set (f := Call.holds n) (q := { c with pc := .test heap }) hi
    exact hcount.trans (Int.add_zero _)

/-- A call that has the heap mapped may find that the object was given it meanwhile. -/
theorem adds_store {heap : ℕ} (h : Sound s) (hi : s.calls[i]? = some c) (hpc : c.pc = .store heap)
    (hstep : advance s i c out = .ok s') : Adds s s' (wastedBy s c out) := by
  have hheap : c.Uses heap := .inr (by rw [hpc])
  have hholds (n : ℕ) : c.holds n = false := by
    unfold Call.holds
    rw [hpc]
  have hne : c.pc ≠ .findHeap := fun heq => by rw [hpc] at heq; cases heq
  have hwasted : wastedBy s c out =
      if (s.obj c.this).heapId ≠ none then some (s.obj c.this).binder else none := by
    unfold wastedBy
    rw [hpc]
  unfold advance at hstep
  rw [hpc] at hstep
  dsimp only at hstep
  rw [hwasted]
  split at hstep
  · cases hstep
  · rename_i hfree
    split at hstep
    · rename_i hunset
      cases hstep
      rw [if_neg (not_not.mpr hunset)]
      refine h.goWith hi rfl hne (fun heq => by cases heq) (h.known.this_live hi) rfl rfl id
        (fun b => ?_) (uses_next h hi hheap fun n hn => uses_cases (by simp) hn)
        (fun _ _ heq => by cases heq) (h.locks.acquire hi hholds (fun n => ?_) hfree rfl hunset)
      · refine Eq.trans ?_ (isUser_of_unset hunset).symm
        exact isUser_of_unset hunset
      · exact beq_eq_decide_comm c.this n
    · rename_i hset
      cases hstep
      rw [if_pos hset]
      refine ⟨⟨h.known.endCall, h.locks.endCall hi hholds⟩, fun b => ?_⟩
      rw [surplus_endCall hi, counted_eq hne]
      simp only [beq_iff_eq, Option.some.injEq]

theorem adds_stored {heap : ℕ} (h : Sound s) (hi : s.calls[i]? = some c)
    (hpc : c.pc = .stored heap) (hstep : advance s i c out = .ok s') :
    Adds s s' (wastedBy s c out) := by
  have hthis := h.known.this_live hi
  have hholds (n : ℕ) : c.holds n = decide (n = c.this) := by
    unfold Call.holds
    rw [hpc]
    exact beq_eq_decide_comm c.this n
  have hunset : (s.obj c.this).heapId = none :=
    h.locks.unset_of_holds hi ((hholds c.this).trans (by simp))
  have hne : c.pc ≠ .findHeap := fun heq => by rw [hpc] at heq; cases heq
  have hwasted : wastedBy s c out = if (s.obj c.this).realHeap = true ∨
      (s.obj heap).heapId = none ∨ out.dup = none then some (s.obj c.this).binder else none := by
    unfold wastedBy
    rw [hpc]
  unfold advance at hstep
  rw [hpc] at hstep
  cases hstep
  rw [hwasted]
  generalize hfd : (if (s.obj heap).heapId = none then none else out.dup) = fd
  have hfd' : fd = none ↔ (s.obj heap).heapId = none ∨ out.dup = none := by
    rw [← hfd]
    split <;> simp_all
  generalize hx : ({ s.obj c.this with heapId := fd, locked := false } : Heap) = x
  have hbinder : x.binder = (s.obj c.this).binder := by rw [← hx]
  have hlocked : x.locked = false := by rw [← hx]
  have hset : Known (s.setObj c.this x) :=
    h.known.setObj (by rw [← hx]) hbinder fun hreal => by rw [← hx]; exact hreal
  have huser (b : ℕ) : x.isUser b =
      ((s.obj c.this).binder == b && fd.isSome && !(s.obj c.this).realHeap) := by
    rw [← hx]
    simp [Heap.isUser, hthis]
  refine ⟨⟨hset.endCall, h.locks.release hi hholds (fun n => countP_eraseIdx hi) hlocked⟩,
    fun b => ?_⟩
  have hi' : (s.setObj c.this x).calls[i]? = some c := hi
  rw [surplus_endCall hi', surplus_setObj (h.known.fresh _ hthis) hbinder, counted_eq hne,
    isUser_of_unset hunset, huser, setObj_self, hbinder]
  simp only [← hfd']
  cases fd with
  | none => cases (s.obj c.this).realHeap <;> simp
  | some f => cases (s.obj c.this).realHeap <;> simp

theorem adds_freeHeap {heap : ℕ} (h : Sound s) (hnonneg : ∀ b, 0 ≤ surplus s b)
    (hi : s.calls[i]? = some c) (hpc : c.pc = .freeHeap heap)
    (hstep : advance s i c out = .ok s') : Adds s s' none := by
  have hne : c.pc ≠ .findHeap := fun heq => by rw [hpc] at heq; cases heq
  have hcounted : counted s (s.obj c.this).binder c = true := by
    rw [counted_eq hne]
    exact beq_self_eq_true _
  have hpos : 0 < count s (s.obj c.this).binder := by
    have hpending : 0 < pending s (s.obj c.this).binder :=
      List.countP_pos_iff.mpr ⟨c, List.mem_of_getElem? hi, hcounted⟩
    have := hnonneg (s.obj c.this).binder
    unfold surplus at this
    omega
  unfold advance at hstep
  rw [hpc] at hstep
  cases hstep
  have hfreed := h.freeHeap (b := (s.obj c.this).binder)
  have hi' : (freeHeap s (s.obj c.this).binder).calls[i]? = some c := by rw [freeHeap_calls, hi]
  refine adds_none ⟨hfreed.known.endCall, hfreed.locks.endCall hi' fun n => ?_⟩ fun b => ?_
  · unfold Call.holds
    rw [hpc]
  · rw [surplus_endCall hi', surplus_freeHeap hpos, counted_eq hne, freeHeap_obj]
    simp only [beq_iff_eq]
    omega

theorem adds_advance (h : Sound s) (hnonneg : ∀ b, 0 ≤ surplus s b) (hi : s.calls[i]? = some c)
    (hstep : advance s i c out = .ok s') : Adds s s' (wastedBy s c out) := by
  have hnone (hw : wastedBy s c out = none) (hadds : Adds s s' none) :
      Adds s s' (wastedBy s c out) := by rwa [hw]
  cases hpc : c.pc with
  | findHeap =>
      refine hnone (by unfold wastedBy; rw [hpc]) ?_
      unfold advance at hstep
      rw [hpc] at hstep
      cases hstep
      exact adds_find h hi hpc
  | really heap =>
      refine hnone (by unfold wastedBy; rw [hpc]) ?_
      have hheap : c.Uses heap := .inr (by rw [hpc])
      have hne : c.pc ≠ .findHeap := fun heq => by rw [hpc] at heq; cases heq
      unfold advance at hstep
      rw [hpc] at hstep
      cases hstep
      split
      all_goals
        refine h.go hi rfl hne (fun heq => by cases heq)
          (uses_next h hi hheap fun n hn => uses_cases (by simp) hn)
          (fun _ _ heq => by cases heq) fun n => ?_
        unfold Call.holds
        rw [hpc]
  | map heap =>
      exact hnone (by unfold wastedBy; rw [hpc]) (adds_map h hi hpc hstep)
  | mapped heap fd =>
      exact hnone (by unfold wastedBy; rw [hpc]) (adds_mapped h hi hpc hstep)
  | test heap =>
      refine hnone (by unfold wastedBy; rw [hpc]) ?_
      have hheap : c.Uses heap := .inr (by rw [hpc])
      have hne : c.pc ≠ .findHeap := fun heq => by rw [hpc] at heq; cases heq
      unfold advance at hstep
      rw [hpc] at hstep
      cases hstep
      split
      all_goals
        refine h.go hi rfl hne (fun heq => by cases heq)
          (uses_next h hi hheap fun n hn => uses_cases (by simp) hn)
          (fun _ _ heq => by cases heq) fun n => ?_
        unfold Call.holds
        rw [hpc]
  | store heap => exact adds_store h hi hpc hstep
  | stored heap => exact adds_stored h hi hpc hstep
  | freeHeap heap =>
      exact hnone (by unfold wastedBy; rw [hpc]) (adds_freeHeap h hnonneg hi hpc hstep)

/-! ### Steps and runs -/

theorem adds_held (h : Sound s) {held : Bool} :
    Adds s (s.setObj o { s.obj o with held := held }) none := by
  generalize hx : ({ s.obj o with held := held } : Heap) = x
  have hunset : x.locked = true → x.heapId = none := by
    rw [← hx]
    exact h.locks.unset o
  have huser (b : ℕ) : x.isUser b = (s.obj o).isUser b := by
    rw [← hx]
    rfl
  refine adds_none ⟨h.known.setObj (by rw [← hx]) (by rw [← hx]) fun hreal => by rwa [← hx],
    h.locks.setObj (by rw [← hx]) hunset⟩ fun b => ?_
  have hcount : count (s.setObj o x) b = count s b := rfl
  rw [surplus, surplus, users_setObj_eq (huser b), pending_setObj (by rw [← hx]), hcount]

theorem Known.users_pos (h : Known s) (ho : (s.obj o).live = true)
    (huser : (s.obj o).isUser b = true) : 0 < users s b :=
  List.countP_pos_iff.mpr ⟨o, List.mem_range.mpr (h.fresh o ho), huser⟩

theorem Sound.die {x : Heap} (h : Sound s) (hfree : ¬ Referenced s o) (hlive : x.live = false)
    (hlocked : x.locked = (s.obj o).locked) (hunset : x.heapId = (s.obj o).heapId) :
    Sound (s.setObj o x) := by
  have hcalls (c : Call) (hc : c ∈ s.calls) (n : ℕ) (hn : c.Uses n) : n ≠ o := fun heq =>
    hfree (.inr (.inr ⟨c, hc, heq ▸ hn⟩))
  refine ⟨⟨fun n hn => ?_, fun c hc n hn => ?_, fun c hc heap fd hpc => ?_, fun b e he => ?_⟩,
    h.locks.setObj hlocked fun hlock => ?_⟩
  · by_cases heq : n = o
    · rw [heq, setObj_self, hlive] at hn
      cases hn
    · rw [setObj_of_ne heq] at hn
      exact h.known.fresh n hn
  · rw [setObj_of_ne (hcalls c hc n hn)]
    exact h.known.calls c hc n hn
  · rw [setObj_of_ne (hcalls c hc heap (.inr (by rw [hpc])))]
    exact h.known.real c hc heap fd hpc
  · have hcached := h.known.cache b e he
    have hne : e.heap ≠ o := by
      rintro rfl
      refine hfree (.inr (.inl ?_))
      have he' : s.cache (s.obj e.heap).binder = some e := by rw [hcached.2.1]; exact he
      rw [he']
      rfl
    rw [setObj_of_ne hne]
    exact hcached
  · rw [hunset]
    exact h.locks.unset o (hlocked.symm.trans hlock)

theorem adds_destroy (h : Sound s) (hnonneg : ∀ b, 0 ≤ surplus s b) (ho : (s.obj o).live = true)
    (hfree : ¬ Referenced s o) : Adds s (destroy s o) none := by
  have hdead : Sound (s.setObj o { s.obj o with live := false }) := h.die hfree rfl rfl rfl
  unfold destroy
  dsimp only
  generalize hx : ({ s.obj o with live := false } : Heap) = x at *
  have huser (b : ℕ) : x.isUser b = false := by
    rw [← hx]
    rfl
  have hsurplus (b : ℕ) : surplus (s.setObj o x) b =
      surplus s b + if (s.obj o).isUser b then 1 else 0 := by
    rw [surplus_setObj (h.known.fresh o ho) (by rw [← hx]), huser, if_neg Bool.false_ne_true,
      Int.sub_zero]
  split
  · rename_i hmapped
    have hold (b : ℕ) : (s.obj o).isUser b = ((s.obj o).binder == b) := by
      simp [Heap.isUser, ho, hmapped.2, Option.isSome_iff_ne_none.mpr hmapped.1]
    have hpos : 0 < count (s.setObj o x) (s.obj o).binder := by
      have husers := h.known.users_pos ho ((hold _).trans (beq_self_eq_true (s.obj o).binder))
      have hle := hnonneg (s.obj o).binder
      have hcount : count (s.setObj o x) (s.obj o).binder = count s (s.obj o).binder := rfl
      unfold surplus at hle
      omega
    refine adds_none hdead.freeHeap fun b => ?_
    rw [surplus_freeHeap hpos, hsurplus, hold]
    simp only [beq_iff_eq]
    omega
  · rename_i hmapped
    have hold (b : ℕ) : (s.obj o).isUser b = false := by
      cases hid : (s.obj o).heapId with
      | none => exact isUser_of_unset hid
      | some fd =>
          refine isUser_of_real ?_
          by_contra hreal
          exact hmapped ⟨by rw [hid]; exact Option.some_ne_none fd, Bool.not_eq_true _ ▸ hreal⟩
    refine adds_none hdead fun b => ?_
    rw [hsurplus, hold, if_neg Bool.false_ne_true, Int.add_zero]

theorem adds_call (h : Sound s) (ho : (s.obj o).live = true) :
    Adds s { s with calls := ⟨o, .findHeap⟩ :: s.calls } none := by
  refine adds_none ⟨⟨h.known.fresh, fun c hc n hn => ?_, fun c hc heap fd hpc => ?_,
    h.known.cache⟩, fun n => ?_, h.locks.unset⟩ fun b => ?_
  · rcases List.mem_cons.mp hc with rfl | hc
    · rcases hn with rfl | hn
      · exact ho
      · cases hn
    · exact h.known.calls c hc n hn
  · rcases List.mem_cons.mp hc with rfl | hc
    · cases hpc
    · exact h.known.real c hc heap fd hpc
  · exact (List.countP_cons_of_neg (by simp [Call.holds])).trans (h.locks.one n)
  · have hpending : pending { s with calls := ⟨o, .findHeap⟩ :: s.calls } b = pending s b :=
      List.countP_cons_of_neg (by simp [counted])
    rw [surplus, hpending]
    rfl

theorem adds_step {op : Op} (h : Sound s) (hnonneg : ∀ b, 0 ≤ surplus s b)
    (hstep : step s op = .ok s') : Adds s s' (wasted s op) := by
  cases op with
  | interfaceCast b =>
      cases hstep
      exact adds_none h.newHeap fun _ => h.surplus_newHeap
  | getHeap b =>
      cases hstep
      unfold getHeap
      cases s.cache b with
      | some e => exact adds_held h
      | none => exact adds_none h.newHeap fun _ => h.surplus_newHeap
  | assertMapped o =>
      simp only [step] at hstep
      split at hstep
      · rename_i hlive
        split at hstep
        · cases hstep
          exact adds_call h hlive.1
        · cases hstep
          exact adds_none h fun _ => rfl
      · cases hstep
  | advance i out =>
      simp only [step] at hstep
      cases hi : s.calls[i]? with
      | none =>
          rw [hi] at hstep
          cases hstep
      | some c =>
          rw [hi] at hstep
          have hwasted : wasted s (.advance i out) = wastedBy s c out := by
            rw [wasted, hi]
            rfl
          rw [hwasted]
          exact adds_advance h hnonneg hi hstep
  | drop o =>
      simp only [step] at hstep
      split at hstep
      · cases hstep
        exact adds_held h
      · cases hstep
  | destroy o =>
      simp only [step] at hstep
      split at hstep
      · rename_i hfree
        cases hstep
        exact adds_destroy h hnonneg hfree.1 hfree.2
      · cases hstep

/-- The state is sound, and the surplus of a binder is what was taken for nothing. -/
structure Tracked (x : State × (ℕ → ℕ)) : Prop where
  sound : Sound x.1
  surplus : ∀ b, surplus x.1 b = x.2 b

theorem sound_init : Sound State.init := by
  refine ⟨⟨fun o ho => ?_, fun c hc => ?_, fun c hc => ?_, fun b e he => ?_⟩,
    fun o => rfl, fun o ho => ?_⟩
  · cases ho
  · cases hc
  · cases hc
  · cases he
  · cases ho

theorem tracked_of_reach {x : State × (ℕ → ℕ)}
    (h : Reach historyStep (fun _ _ => True) (State.init, fun _ => 0) x) : Tracked x := by
  refine h.invariant ⟨sound_init, fun b => rfl⟩ fun x op x' ht _ hstep => ?_
  unfold historyStep at hstep
  cases hs : step x.1 op with
  | error e =>
      rw [hs] at hstep
      cases hstep
  | ok s' =>
      rw [hs] at hstep
      cases hstep
      have hnonneg (b : ℕ) : 0 ≤ MemoryHeap.surplus x.1 b := by
        rw [ht.surplus]
        exact Int.natCast_nonneg _
      obtain ⟨hsound, hadds⟩ := adds_step ht.sound hnonneg hs
      refine ⟨hsound, fun b => ?_⟩
      rw [hadds, ht.surplus]
      dsimp only
      split
      · rfl
      · exact Int.add_zero _

/-- No call is in progress, and what nobody refers to is destroyed. -/
def Quiet (s : State) : Prop :=
  s.calls = [] ∧ ∀ o, (s.obj o).live = true → Referenced s o

/-- The entry of the binder counts its users; there is none if it has none. -/
def Balanced (s : State) (b : ℕ) : Prop :=
  (s.cache b).map HeapInfo.count = if users s b = 0 then none else some (users s b)

theorem Tracked.count_eq {x : State × (ℕ → ℕ)} (h : Tracked x) (hquiet : Quiet x.1) (b : ℕ) :
    count x.1 b = users x.1 b + x.2 b := by
  have hpending : pending x.1 b = 0 := by
    unfold pending
    rw [hquiet.1]
    rfl
  have := h.surplus b
  unfold MemoryHeap.surplus at this
  omega

theorem Tracked.balanced_iff {x : State × (ℕ → ℕ)} (h : Tracked x) (hquiet : Quiet x.1) (b : ℕ) :
    Balanced x.1 b ↔ x.2 b = 0 := by
  have hcount := h.count_eq hquiet b
  unfold Balanced
  cases he : x.1.cache b with
  | none =>
      rw [count_of_none he] at hcount
      have hzero : users x.1 b = 0 := by omega
      rw [if_pos hzero]
      simp
      omega
  | some e =>
      have hpos := h.sound.known.count_pos he
      rw [count_of_cache he] at hcount hpos
      rw [Option.map_some]
      constructor
      · intro heq
        split at heq
        · cases heq
        · have := Option.some.inj heq
          omega
      · intro hzero
        rw [if_neg (by omega), hcount, hzero]
        rfl

/-- In every run, whenever no call is in progress: the entry of a binder counts its users, and is
gone without any, if and only if its count was never taken for nothing. What is alive and not used
from outside is the heap of the entry, and the heaps of entries are alive. -/
theorem counts_users {x : State × (ℕ → ℕ)}
    (h : Reach historyStep (fun _ _ => True) (State.init, fun _ => 0) x) (hquiet : Quiet x.1) :
    (∀ b, Balanced x.1 b ↔ x.2 b = 0) ∧
      (∀ o, (x.1.obj o).live = true → (x.1.obj o).held = false →
        (x.1.cache (x.1.obj o).binder).map HeapInfo.heap = some o) ∧
      ∀ b e, x.1.cache b = some e → (x.1.obj e.heap).live = true := by
  have ht := tracked_of_reach h
  refine ⟨ht.balanced_iff hquiet, fun o ho hheld => ?_, fun b e he =>
    (ht.sound.known.cache b e he).1⟩
  rcases hquiet.2 o ho with hheld' | hcached | ⟨c, hc, -⟩
  · rw [hheld] at hheld'
    cases hheld'
  · exact hcached
  · rw [hquiet.1] at hc
    cases hc

theorem quiet_of_sound (h : Sound s) (hcalls : s.calls = [])
    (hlive : ∀ o < s.next, (s.obj o).live = true → Referenced s o) : Quiet s :=
  ⟨hcalls, fun o ho => hlive o (h.known.fresh o ho) ho⟩

/-- A heap is mapped for an object, which becomes its only user. -/
theorem counts_users_one : ∃ x, Reach historyStep (fun _ _ => True) (State.init, fun _ => 0) x ∧
    Quiet x.1 ∧ Balanced x.1 7 := by
  obtain ⟨x, hx, hfinal⟩ := Option.map_eq_some_iff.mp
    (show (runChecked historyStep (fun _ _ => True) (State.init, fun _ => 0)
        ([.interfaceCast 7, .assertMapped 0] ++
          [⟨none, none⟩, ⟨none, none⟩, ⟨some (5, 3), none⟩, ⟨none, none⟩, ⟨none, none⟩,
            ⟨none, none⟩, ⟨none, some 4⟩].map (Op.advance 0))).map
          (fun x => (x.1.calls, decide (∀ o < x.1.next, (x.1.obj o).live = true →
            Referenced x.1 o), x.2 7)) = some ([], true, 0) by decide +kernel)
  simp only [Prod.mk.injEq, decide_eq_true_eq] at hfinal
  obtain ⟨hcalls, hlive, hzero⟩ := hfinal
  have hreach := reach_of_runChecked hx
  have hquiet := quiet_of_sound (tracked_of_reach hreach).sound hcalls hlive
  exact ⟨x, hreach, hquiet, ((counts_users hreach hquiet).1 7).mpr hzero⟩

/-- Two threads have the same object mapped, which is destroyed then: its heap is still counted,
and stays. -/
theorem heap_kept : ∃ x, Reach historyStep (fun _ _ => True) (State.init, fun _ => 0) x ∧
    Quiet x.1 ∧ users x.1 7 = 0 ∧ x.1.cache 7 = some ⟨1, 1⟩ ∧ (x.1.obj 1).live = true ∧
    (x.1.obj 1).held = false ∧ ¬ Balanced x.1 7 := by
  obtain ⟨x, hx, hfinal⟩ := Option.map_eq_some_iff.mp
    (show (runChecked historyStep (fun _ _ => True) (State.init, fun _ => 0)
        ([.interfaceCast 7, .assertMapped 0, .assertMapped 0] ++
          [(0, ⟨none, none⟩), (1, ⟨none, none⟩), (0, ⟨none, none⟩), (1, ⟨none, none⟩),
            (0, ⟨some (5, 3), none⟩), (0, ⟨none, none⟩), (0, ⟨none, none⟩), (0, ⟨none, none⟩),
            (0, ⟨none, some 4⟩), (0, ⟨none, none⟩), (0, ⟨none, none⟩), (0, ⟨none, none⟩)].map
            (fun a => Op.advance a.1 a.2) ++ [.drop 0, .destroy 0])).map
          (fun x => ((x.1.calls, decide (∀ o < x.1.next, (x.1.obj o).live = true →
            Referenced x.1 o), users x.1 7), x.1.cache 7,
            (x.1.obj 1).live && !(x.1.obj 1).held)) =
        some (([], true, 0), some ⟨1, 1⟩, true) by decide +kernel)
  simp only [Prod.mk.injEq, decide_eq_true_eq, Bool.and_eq_true, Bool.not_eq_true'] at hfinal
  obtain ⟨⟨hcalls, hlive, husers⟩, hentry, halive, hheld⟩ := hfinal
  have hreach := reach_of_runChecked hx
  refine ⟨x, hreach, quiet_of_sound (tracked_of_reach hreach).sound hcalls hlive, husers, hentry,
    halive, hheld, fun hbalanced => ?_⟩
  rw [Balanced, hentry, husers, if_pos rfl] at hbalanced
  cases hbalanced

end MemoryHeap

end BinderForLinux
