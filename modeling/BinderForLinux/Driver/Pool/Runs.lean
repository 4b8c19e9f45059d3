import BinderForLinux.Driver.Pool

/-!
# Thread pools over whole runs

What the counters of a thread pool are about: the requests for a looper that a
process reads, the loopers that are registered, and the threads that wait for
work of the process. `observePool` computes the first two along the code of an
act, like `observe` does for the rest.
-/

namespace BinderForLinux

namespace Driver

open Library

inductive PoolObs
  /-- `BR_SPAWN_LOOPER` was stored in the read buffer of a thread. -/
  | spawned (p : ProcId)
  /-- A `BC_REGISTER_LOOPER` was accepted. -/
  | registered (p : ProcId)
deriving DecidableEq, Repr

/-! ### What is observed -/

/-- The looper that the command registers was asked for. -/
def registers (s : State) (p : ProcId) (th : ThreadId) : Command → Bool
  | .registerLooper =>
      (s.threads th).any fun thr => (s.procs p).any fun pr =>
        !(thr.looper.entered || pr.requestedThreads = 0)
  | _ => false

def writePool (L : Layout) (p : ProcId) (th : ThreadId) : State → List Command → List PoolObs
  | _, [] => []
  | s, c :: cs =>
      if ((s.threads th).any fun thr => thr.returnError = .ok) && !c.isInvalid then
        match execCommand L s p th c with
        | .ok s' =>
            (if registers s p th c then [.registered p] else []) ++ writePool L p th s' cs
        | .error _ => []
      else []

def asksLooper (s : State) (p : ProcId) (th : ThreadId) : Bool :=
  (s.threads th).any fun thr => (s.procs p).any fun pr =>
    pr.requestedThreads + pr.readyThreads = 0 &&
      pr.requestedThreadsStarted < pr.maxThreads && (thr.looper.registered || thr.looper.entered)

def donePool (s : State) (p : ProcId) (th : ThreadId) (writable : ℕ → Bool) : List PoolObs :=
  if asksLooper s p th && writable 0 then [.spawned p] else []

/-- The label `retry`, when it ends the read with an error code. -/
def retryPool (s : State) (p : ProcId) (th : ThreadId) (size ptr : ℕ) (writable : ℕ → Bool) :
    List PoolObs :=
  if ((s.threads th).any fun thr => thr.returnError ≠ .ok &&
      (thr.returnError2 = .ok || ptr + 4 = size || writable (ptr + 4))) &&
      ptr < size && writable ptr then donePool s p th writable
  else []

def readPool (s : State) (p : ProcId) (th : ThreadId) (size consumed : ℕ) (writable : ℕ → Bool) :
    List PoolObs :=
  if consumed ≠ 0 then retryPool s p th size consumed writable
  else if writable 0 then retryPool s p th size 4 writable
  else []

def awakePool (L : Layout) (s : State) (p : ProcId) (th : ThreadId) (f : ReadFrame)
    (writable : ℕ → Bool) : List PoolObs :=
  match readLoop L p th f.size f.waitForProcWork writable (readFuel s p th) s f.ptr f.out with
  | .ok (.done _ _, s') => donePool s' p th writable
  | .ok (.retry ptr _, s') => retryPool s' p th f.size ptr writable
  | _ => []

def resumePool (L : Layout) (s : State) (th : ThreadId) (interrupted : Bool)
    (writable : ℕ → Bool) : List PoolObs :=
  match s.threads th with
  | none => []
  | some thr =>
      match thr.read, s.procs thr.proc with
      | some f, some pr =>
          if interrupted then []
          else awakePool L (wakeUp s thr.proc th thr f pr) thr.proc th f writable
      | _, _ => []

def ioctlPool (L : Layout) (s : State) (p : ProcId) (th : ThreadId) : IoctlOp → List PoolObs
  | .writeRead cmds readSize readConsumed writable =>
      writePool L p th s cmds ++
        match binderThreadWrite L p th s cmds with
        | .ok (true, s') =>
            if 0 < readSize then readPool s' p th readSize readConsumed writable else []
        | _ => []
  | _ => []

def observePool (L : Layout) (s : State) : Act → List PoolObs
  | .ioctl p pid alloc op =>
      if s.isOpen p then
        match binderGetThread s p pid alloc with
        | (none, _) => []
        | (some th, s) =>
            if (s.threads th).any fun thr => thr.read.isSome then [] else ioctlPool L s p th op
      else []
  | .resume th interrupted writable => resumePool L s th interrupted writable
  | _ => []

/-- The step function with the observations of pools collected. -/
def pooledStep (L : Layout) (x : State × List PoolObs) (a : Act) :
    Except Fault (State × List PoolObs) :=
  (step L x.1 a).map fun s => (s, x.2 ++ observePool L x.1 a)

/-- The requests for a looper that `p` has read, less the loopers it has registered. -/
def unanswered (p : ProcId) (h : List PoolObs) : ℤ :=
  h.count (.spawned p) - h.count (.registered p)

/-- The process `p` never allows more than `M` loopers. -/
def Act.caps (M : ℤ) (p : ProcId) : Act → Prop
  | .ioctl q _ _ (.setMaxThreads n) => q = p → n ≤ M
  | _ => True

/-! ### The invariant -/

/-- The threads of a process are those its tree holds, and the counters count. -/
structure PoolCounts (M : ℤ) (p : ProcId) (k : ℤ) (s : State) (pr : Proc) : Prop where
  nodup : (s.threadsOf p).Nodup
  mem_iff : ∀ th, th ∈ s.threadsOf p ↔ ∃ thr, s.threads th = some thr ∧ thr.proc = p
  maxThreads : pr.maxThreads ≤ M
  requested : pr.requestedThreads = 0 ∨ pr.requestedThreads = 1
  started : pr.requestedThreads + pr.requestedThreadsStarted ≤ M
  unanswered : k = pr.requestedThreads
  ready : pr.readyThreads = (s.threadsOf p).countP s.isReady

/-- The counters of `p` with `k` requests for a looper that are not answered. -/
structure Pooled (M : ℤ) (p : ProcId) (k : ℤ) (s : State) : Prop where
  fresh : s.nextId ≤ p → k = 0 ∧ s.procs p = none ∧ s.threadsOf p = [] ∧
    ∀ th thr, s.threads th = some thr → thr.proc ≠ p
  counts : ∀ pr, s.procs p = some pr → PoolCounts M p k s pr

section Pooled

variable {L : Layout} {M : ℤ} {p q : ProcId} {k k' : ℤ} {s s' : State} {th : ThreadId}
  {thr thr' : Thread} {pr pr' : Proc} {writable : ℕ → Bool}

theorem pooled_init (M : ℤ) (p : ProcId) : Pooled M p 0 State.init :=
  ⟨fun _ => ⟨rfl, rfl, rfl, by simp [State.init]⟩, by simp [State.init]⟩

theorem Pooled.lt (h : Pooled M p k s) (hpr : s.procs p = some pr) : p < s.nextId := by
  by_contra hle
  simp [(h.fresh (not_lt.mp hle)).2.1] at hpr

theorem isReady_of_pool (h : thr'.pool = thr.pool) : thr'.isReady = thr.isReady := by
  simp only [Thread.pool, Prod.mk.injEq] at h
  simp only [Thread.isReady, h.2]

theorem Pooled.kept (hs : Pooled M p k s) (h : PoolKeptFor p s s') : Pooled M p k s' := by
  refine ⟨fun hle => ?_, fun pr' hpr' => ?_⟩
  · obtain ⟨hk, hnone, hof, hthreads⟩ := hs.fresh (h.nextId.trans hle)
    refine ⟨hk, ?_, h.threadsOf.trans hof, fun th thr' hthr' => ?_⟩
    · have := h.procs
      rwa [hnone, Option.map_none, Option.map_eq_none_iff] at this
    · intro hproc
      obtain ⟨thr, hthr, hp⟩ := h.threadBack hthr' hproc
      exact hthreads th thr hthr hp
  · have hmap := h.procs
    rw [hpr'] at hmap
    obtain ⟨pr, hpr, hpool⟩ := Option.map_eq_some_iff.mp hmap.symm
    simp only [Proc.pool, Prod.mk.injEq] at hpool
    obtain ⟨hmax, hreq, hstarted, hready⟩ := hpool
    have hc := hs.counts pr hpr
    refine ⟨h.threadsOf ▸ hc.nodup, fun th => ?_, hmax ▸ hc.maxThreads, hreq ▸ hc.requested,
      hreq ▸ hstarted ▸ hc.started, hreq ▸ hc.unanswered, ?_⟩
    · rw [h.threadsOf, hc.mem_iff]
      constructor
      · rintro ⟨thr, hthr, hproc⟩
        obtain ⟨thr', hthr', hpool⟩ := h.threads hthr hproc
        exact ⟨thr', hthr', (congrArg Prod.fst hpool).trans hproc⟩
      · rintro ⟨thr', hthr', hproc⟩
        exact h.threadBack hthr' hproc
    · rw [← hready, hc.ready, h.threadsOf]
      refine congrArg _ (List.countP_congr fun th hth => ?_)
      obtain ⟨thr, hthr, hproc⟩ := (hc.mem_iff th).mp hth
      obtain ⟨thr', hthr', hpool⟩ := h.threads hthr hproc
      simp [State.isReady, hthr, hthr', isReady_of_pool hpool]

theorem Pooled.of_kept (hs : Pooled M p k s) (h : PoolKept s s') : Pooled M p k s' :=
  hs.kept (h.keptFor p)

/-! ### One thread and its process -/

theorem Pooled.update (hs : Pooled M p k s) (hthr : s.threads th = some thr)
    (hproc : thr.proc = q) (hpr : s.procs q = some pr) (hproc' : thr'.proc = q)
    (hmax : pr'.maxThreads = pr.maxThreads)
    (hready : pr'.readyThreads =
      pr.readyThreads - (if thr.isReady then 1 else 0) + (if thr'.isReady then 1 else 0))
    (hself : q = p → (pr'.requestedThreads = 0 ∨ pr'.requestedThreads = 1) ∧
      pr'.requestedThreads + pr'.requestedThreadsStarted ≤ M ∧ k' = pr'.requestedThreads)
    (hother : q ≠ p → k' = k) : Pooled M p k' ((s.setProc q pr').setThread th thr') := by
  by_cases hq : q = p
  · subst hq
    have hc := hs.counts pr hpr
    refine ⟨fun hle => absurd (hs.lt hpr) (not_lt.mpr hle), fun pr₁ hpr₁ => ?_⟩
    obtain rfl : pr' = pr₁ := by simpa [State.setThread, State.setProc] using hpr₁
    obtain ⟨hreq, hstarted, hk⟩ := hself rfl
    refine ⟨hc.nodup, fun th' => ?_, hmax.trans_le hc.maxThreads, hreq, hstarted, hk, ?_⟩
    · by_cases hth : th' = th
      · subst hth
        simp only [State.setThread, State.setProc, Function.update_self, Option.some.injEq,
          exists_eq_left', hproc', iff_true]
        exact (hc.mem_iff th').mpr ⟨thr, hthr, hproc⟩
      · simp only [State.setThread, State.setProc, Function.update_of_ne hth]
        exact hc.mem_iff th'
    · have hmem : th ∈ s.threadsOf q := (hc.mem_iff th).mpr ⟨thr, hthr, hproc⟩
      have hcount := countP_change (f := s.isReady)
        (g := ((s.setProc q pr').setThread th thr').isReady) hc.nodup hmem (by
          intro th' _ hth
          simp [State.isReady, State.setThread, State.setProc, Function.update_of_ne hth])
      have hnew : ((s.setProc q pr').setThread th thr').isReady th = thr'.isReady := by
        simp [State.isReady, State.setThread]
      have hold : s.isReady th = thr.isReady := by simp [State.isReady, hthr]
      rw [hnew, hold] at hcount
      rw [hready, hc.ready]
      exact hcount.symm
  · rw [hother hq]
    refine hs.kept ⟨le_rfl, ?_, rfl, ?_, ?_⟩
    · simp [State.setThread, State.setProc, Function.update_of_ne (Ne.symm hq)]
    · intro th' thr₁ hthr₁ hp
      have hne : th' ≠ th := by
        rintro rfl
        obtain rfl : thr = thr₁ := by simpa [hthr] using hthr₁
        exact hq (hproc.symm.trans hp)
      exact ⟨thr₁, by simpa [State.setThread, State.setProc, Function.update_of_ne hne] using hthr₁,
        rfl⟩
    · intro th' thr₁ hthr₁ hp
      have hth : th' ≠ th := by
        rintro rfl
        obtain rfl : thr' = thr₁ := by simpa [State.setThread] using hthr₁
        exact hq (hproc'.symm.trans hp)
      simp only [State.setThread, State.setProc, Function.update_of_ne hth] at hthr₁
      exact ⟨thr₁, hthr₁, hp⟩

theorem Pooled.counters (hs : Pooled M p k s) (hpr : s.procs q = some pr) (hq : q = p) :
    (pr.requestedThreads = 0 ∨ pr.requestedThreads = 1) ∧
      pr.requestedThreads + pr.requestedThreadsStarted ≤ M ∧ k = pr.requestedThreads := by
  subst hq
  have hc := hs.counts pr hpr
  exact ⟨hc.requested, hc.started, hc.unanswered⟩

theorem setProc_self (hpr : s.procs q = some pr) : s.setProc q pr = s := by
  unfold State.setProc
  rw [← hpr, Function.update_eq_self]

theorem Pooled.updateThread (hs : Pooled M p k s) (hthr : s.threads th = some thr)
    (hproc : thr.proc = q) (hpr : s.procs q = some pr) (hproc' : thr'.proc = q)
    (hready : thr'.isReady = thr.isReady) : Pooled M p k (s.setThread th thr') := by
  have h : Pooled M p k ((s.setProc q pr).setThread th thr') := by
    refine hs.update hthr hproc hpr hproc' rfl (by rw [hready]; omega) (hs.counters hpr)
      fun _ => rfl
  rwa [setProc_self hpr] at h

/-! ### Writes -/

@[simp] theorem unanswered_nil (p : ProcId) : unanswered p [] = 0 := rfl

theorem unanswered_append (p : ProcId) (h h' : List PoolObs) :
    unanswered p (h ++ h') = unanswered p h + unanswered p h' := by
  simp only [unanswered, List.count_append]
  push_cast
  omega

theorem unanswered_spawned (p q : ProcId) :
    unanswered p [.spawned q] = if q = p then 1 else 0 := by
  by_cases hq : q = p <;> simp [unanswered, hq]

theorem unanswered_registered (p q : ProcId) :
    unanswered p [.registered q] = if q = p then -1 else 0 := by
  by_cases hq : q = p <;> simp [unanswered, hq]

/-- A thread of `q` that is not in a read. -/
def State.Awake (s : State) (th : ThreadId) (q : ProcId) : Prop :=
  ∃ thr, s.threads th = some thr ∧ thr.proc = q ∧ thr.read = none

theorem State.Awake.of_kept (ha : s.Awake th q) (h : PoolKept s s') : s'.Awake th q := by
  obtain ⟨thr, hthr, hproc, hread⟩ := ha
  obtain ⟨thr', hthr', hpool⟩ := (h.keptFor q).threads hthr hproc
  simp only [Thread.pool, Prod.mk.injEq] at hpool
  exact ⟨thr', hthr', hpool.1.trans hproc, hpool.2.trans hread⟩

theorem registerLooperCommand_pooled (hs : Pooled M p k s) (ha : s.Awake th q)
    (hrun : registerLooperCommand s q th = .ok s') :
    Pooled M p (k + unanswered p (if registers s q th .registerLooper then [.registered q] else []))
      s' ∧ s'.Awake th q := by
  obtain ⟨thr, hthr, hproc, hread⟩ := ha
  simp only [registerLooperCommand, except_bind_eq_ok, deref_eq_ok] at hrun
  obtain ⟨thr₁, hthr₁, pr, hpr, hrun⟩ := hrun
  obtain rfl : thr = thr₁ := by simpa [hthr] using hthr₁
  have hreg : registers s q th .registerLooper =
      !(thr.looper.entered || decide (pr.requestedThreads = 0)) := by
    simp [registers, hthr, hpr]
  split at hrun
  · rename_i hrefused
    simp only [except_pure_eq_ok] at hrun
    subst hrun
    rw [hreg, hrefused]
    refine ⟨?_, _, Function.update_self .., hproc, hread⟩
    simp only [Bool.not_true, Bool.false_eq_true, ↓reduceIte, unanswered_nil, add_zero]
    exact hs.of_kept (.setThread hthr rfl)
  · rename_i haccepted
    simp only [except_pure_eq_ok] at hrun
    subst hrun
    simp only [Bool.not_eq_true] at haccepted
    rw [hreg, haccepted]
    refine ⟨hs.update hthr hproc hpr hproc rfl (by simp [Thread.isReady, hread]) ?_ fun hq => ?_,
      _, Function.update_self .., hproc, hread⟩
    · rintro rfl
      have hc := hs.counts pr hpr
      have hne : pr.requestedThreads ≠ 0 := by simp at haccepted; exact haccepted.2
      have hone : pr.requestedThreads = 1 := hc.requested.resolve_left hne
      have hstarted := hc.started
      have hk := hc.unanswered
      simp only [Bool.not_false, ↓reduceIte, unanswered_registered]
      omega
    · simp [unanswered_registered, hq]

theorem execCommand_pooled (hs : Pooled M p k s) (ha : s.Awake th q) {c : Command}
    (hrun : execCommand L s q th c = .ok s') :
    Pooled M p (k + unanswered p (if registers s q th c then [.registered q] else [])) s' ∧
      s'.Awake th q := by
  by_cases hc : c = .registerLooper
  · subst hc
    exact registerLooperCommand_pooled hs ha hrun
  · have hkept := execCommand_pool hc hrun
    have hreg : registers s q th c = false := by
      cases c with
      | registerLooper => exact absurd rfl hc
      | _ => rfl
    rw [hreg]
    refine ⟨?_, ha.of_kept hkept⟩
    simpa using hs.of_kept hkept

theorem binderThreadWrite_pooled {cmds : List Command} {ok : Bool} (hs : Pooled M p k s)
    (ha : s.Awake th q) (hrun : binderThreadWrite L q th s cmds = .ok (ok, s')) :
    Pooled M p (k + unanswered p (writePool L q th s cmds)) s' ∧ s'.Awake th q := by
  induction cmds generalizing s k with
  | nil =>
      simp only [binderThreadWrite, Except.ok.injEq, Prod.mk.injEq] at hrun
      obtain ⟨-, rfl⟩ := hrun
      exact ⟨by simpa [writePool] using hs, ha⟩
  | cons c cs ih =>
      simp only [binderThreadWrite, except_bind_eq_ok, deref_eq_ok] at hrun
      obtain ⟨thr, hthr, hrun⟩ := hrun
      simp only [writePool, hthr, Option.any_some]
      split at hrun
      · rename_i herr
        simp only [except_pure_eq_ok, Prod.mk.injEq] at hrun
        obtain ⟨-, rfl⟩ := hrun
        rw [if_neg (by simp [herr])]
        exact ⟨by simpa using hs, ha⟩
      · rename_i herr
        split at hrun
        · rename_i hinv
          simp only [except_pure_eq_ok, Prod.mk.injEq] at hrun
          obtain ⟨-, rfl⟩ := hrun
          rw [if_neg (by simp [hinv])]
          exact ⟨by simpa using hs, ha⟩
        · rename_i hvalid
          simp only [except_bind_eq_ok] at hrun
          obtain ⟨s₁, hexec, hrun⟩ := hrun
          rw [if_pos (by simpa [hvalid] using herr)]
          obtain ⟨hs₁, ha₁⟩ := execCommand_pooled hs ha hexec
          obtain ⟨hs₂, ha₂⟩ := ih hs₁ ha₁ hrun
          simp only [hexec, unanswered_append]
          exact ⟨by rwa [← add_assoc], ha₂⟩

/-! ### Reads -/

theorem readDone_pooled {out : List ReturnCommand} (hs : Pooled M p k s) (ha : s.Awake th q)
    (hw : writable 0 = true) (hrun : readDone s q th out writable = .ok s') :
    Pooled M p (k + unanswered p (donePool s q th writable)) s' := by
  obtain ⟨thr, hthr, hproc, hread⟩ := ha
  simp only [readDone, except_bind_eq_ok, deref_eq_ok] at hrun
  obtain ⟨thr₁, hthr₁, pr, hpr, hrun⟩ := hrun
  obtain rfl : thr = thr₁ := by simpa [hthr] using hthr₁
  refine Pooled.of_kept ?_ (ioctlReturn_pool hrun)
  simp only [donePool, asksLooper, hthr, hpr, Option.any_some, hw, Bool.and_true]
  split
  · rename_i hask
    refine hs.update hthr hproc hpr hproc rfl (by simp [Thread.isReady, hread]) ?_ fun hq => ?_
    · rintro rfl
      have hc := hs.counts pr hpr
      have hk := hc.unanswered
      have hmax := hc.maxThreads
      have hready := hc.ready
      have hreq := hc.requested
      simp only [Bool.and_eq_true, decide_eq_true_eq] at hask
      simp only [unanswered_spawned, ↓reduceIte]
      omega
    · simp [unanswered_spawned, hq]
  · simp only [unanswered_nil, add_zero]
    exact hs.of_kept (.setThread hthr rfl)

theorem ioctlReturn_pooled (hs : Pooled M p k s) (hrun : ioctlReturn s th = .ok s') :
    Pooled M p k s' := hs.of_kept (ioctlReturn_pool hrun)

theorem donePool_setThread {e e₂ : ReturnError} (hthr : s.threads th = some thr) :
    donePool (s.setThread th { thr with returnError := e, returnError2 := e₂ }) q th writable =
      donePool s q th writable := by
  simp [donePool, asksLooper, State.setThread, hthr]

theorem readRetry_pooled {size ptr : ℕ} {out : List ReturnCommand} (hs : Pooled M p k s)
    (ha : s.Awake th q) (hw : ∀ i, writable i = true)
    (hrun : readRetry s q th size ptr out writable = .ok s') :
    Pooled M p (k + unanswered p (retryPool s q th size ptr writable)) s' := by
  obtain ⟨thr, hthr, hproc, hread⟩ := ha
  have hdone : ∀ {e e₂ out}, readDone (s.setThread th
      { thr with returnError := e, returnError2 := e₂ }) q th out writable = .ok s' →
      Pooled M p (k + unanswered p (donePool s q th writable)) s' := by
    intro e e₂ out hrun
    have hkept : PoolKept s (s.setThread th { thr with returnError := e, returnError2 := e₂ }) :=
      .setThread hthr rfl
    have h := readDone_pooled (hs.of_kept hkept)
      (State.Awake.of_kept ⟨thr, hthr, hproc, hread⟩ hkept) (hw 0) hrun
    rwa [donePool_setThread hthr] at h
  simp only [readRetry, except_bind_eq_ok, deref_eq_ok] at hrun
  obtain ⟨thr₁, hthr₁, hrun⟩ := hrun
  obtain rfl : thr = thr₁ := by simpa [hthr] using hthr₁
  simp only [hw, Bool.not_true, Bool.false_eq_true, ↓reduceIte] at hrun
  split at hrun
  · rename_i herr
    have hlog : retryPool s q th size ptr writable = donePool s q th writable := by
      simp [retryPool, hthr, herr, hw]
    rw [hlog]
    split at hrun
    · split at hrun
      · exact readDone_pooled hs ⟨thr, hthr, hproc, hread⟩ (hw 0) hrun
      · simp only [State.setThread, Function.update_idem] at hrun
        exact hdone hrun
    · exact hdone hrun
  · rename_i herr
    have hlog : retryPool s q th size ptr writable = [] := by
      simp only [retryPool, hthr, Option.any_some]
      rw [if_neg]
      intro h
      simp only [Bool.and_eq_true, decide_eq_true_eq] at h
      exact herr ⟨h.1.1.1, h.1.2⟩
    simp only [hlog, unanswered_nil, add_zero]
    simp only [except_bind_eq_ok, deref_eq_ok, except_pure_eq_ok] at hrun
    obtain ⟨pr, hpr, rfl⟩ := hrun
    split
    · rename_i hwait
      exact hs.update hthr hproc hpr hproc rfl (by simp [Thread.isReady, hread, hwait])
        (fun hq => (hs.counters hpr hq :)) fun _ => rfl
    · rename_i hwait
      simp only [Bool.not_eq_true] at hwait
      exact hs.updateThread hthr hproc hpr hproc (by simp [Thread.isReady, hread, hwait])

theorem wakeUp_pooled {f : ReadFrame} (hs : Pooled M p k s) (hthr : s.threads th = some thr)
    (hproc : thr.proc = q) (hread : thr.read = some f) (hpr : s.procs q = some pr) :
    Pooled M p k (wakeUp s q th thr f pr) ∧ (wakeUp s q th thr f pr).Awake th q := by
  unfold wakeUp
  refine ⟨?_, _, Function.update_self .., hproc, rfl⟩
  split
  · rename_i hwait
    exact hs.update hthr hproc hpr hproc rfl (by simp [Thread.isReady, hread, hwait])
      (fun hq => (hs.counters hpr hq :)) fun _ => rfl
  · rename_i hwait
    simp only [Bool.not_eq_true] at hwait
    exact hs.updateThread hthr hproc hpr hproc (by simp [Thread.isReady, hread, hwait])

theorem readResume_pooled {interrupted : Bool} (hs : Pooled M p k s)
    (hthr : s.threads th = some thr) (hw : ∀ i, writable i = true)
    (hrun : readResume L s thr.proc th interrupted writable = .ok s') :
    Pooled M p (k + unanswered p (resumePool L s th interrupted writable)) s' := by
  simp only [readResume, except_bind_eq_ok, deref_eq_ok] at hrun
  obtain ⟨thr₁, hthr₁, hrun⟩ := hrun
  obtain rfl : thr = thr₁ := by simpa [hthr] using hthr₁
  cases hread : thr.read with
  | none =>
      simp only [hread, except_pure_eq_ok] at hrun
      simpa [resumePool, hthr, hread] using hrun ▸ hs
  | some f =>
      simp only [hread, except_bind_eq_ok, deref_eq_ok] at hrun
      obtain ⟨pr, hpr, hrun⟩ := hrun
      simp only [resumePool, hthr, hread, hpr]
      obtain ⟨hs₁, ha₁⟩ := wakeUp_pooled hs hthr rfl hread hpr
      change (if interrupted = true then ioctlReturn (wakeUp s thr.proc th thr f pr) th else _) = _
        at hrun
      split at hrun
      · rename_i hint
        simp only [if_pos hint, unanswered_nil, add_zero]
        exact ioctlReturn_pooled hs₁ hrun
      · rename_i hint
        rw [if_neg hint]
        simp only [except_bind_eq_ok] at hrun
        obtain ⟨⟨x, s₂⟩, hloop, hrun⟩ := hrun
        have hloop' : readLoop L thr.proc th f.size f.waitForProcWork writable
            (readFuel (wakeUp s thr.proc th thr f pr) thr.proc th)
            (wakeUp s thr.proc th thr f pr) f.ptr f.out = .ok (x, s₂) := hloop
        have hkept := readLoop_pool hloop'
        have hs₂ := hs₁.of_kept hkept
        have ha₂ := ha₁.of_kept hkept
        simp only [awakePool, hloop']
        cases x with
        | done ptr out => exact readDone_pooled hs₂ ha₂ (hw 0) hrun
        | fault =>
            simp only [unanswered_nil, add_zero]
            exact ioctlReturn_pooled hs₂ hrun
        | retry ptr out => exact readRetry_pooled hs₂ ha₂ hw hrun

/-! ### Steps -/

theorem binderOpen_pooled (hM : 0 ≤ M) (hs : Pooled M p k s) (pid : ℕ) :
    Pooled M p k (binderOpen s pid) := by
  by_cases hp : s.nextId = p
  · subst hp
    obtain ⟨hk, -, hof, hthreads⟩ := hs.fresh le_rfl
    refine ⟨fun hle => absurd hle (by simp [binderOpen, State.setProc]), fun pr hpr => ?_⟩
    simp only [binderOpen, State.setProc, Function.update_self, Option.some.injEq] at hpr
    have hof' : (binderOpen s pid).threadsOf s.nextId = [] := hof
    subst hpr
    refine ⟨by simp [hof'], fun th => ?_, hM, .inl rfl, hM, hk, by simp [hof']⟩
    simp only [hof', List.not_mem_nil, false_iff, not_exists, not_and]
    exact hthreads th
  · refine hs.kept ⟨Nat.le_succ _, ?_, rfl, fun hthr _ => ⟨_, hthr, rfl⟩,
      fun hthr hp => ⟨_, hthr, hp⟩⟩
    simp [binderOpen, State.setProc, Function.update_of_ne (Ne.symm hp)]

theorem countP_insertByKey {key : ℕ → ℕ} {f : ℕ → Bool} {x : ℕ} {l : List ℕ} (hx : f x = false) :
    (insertByKey key x l).countP f = l.countP f := by
  induction l with
  | nil => simp [insertByKey, hx]
  | cons y l ih =>
      simp only [insertByKey]
      split
      · simp [List.countP_cons, hx]
      · simp [List.countP_cons, ih]

theorem binderGetThread_pooled {pid : ℕ} {alloc : Bool} {x : Option ThreadId}
    (hco : Coherent L none s) (hs : Pooled M p k s) (hopen : s.isOpen q = true)
    (hrun : binderGetThread s q pid alloc = (x, s')) : Pooled M p k s' := by
  unfold binderGetThread at hrun
  split at hrun
  · cases hrun
    exact hs
  · split at hrun
    · cases hrun
      exact hs
    · cases hrun
      have hnew : ∀ {th thr}, s.threads th = some thr → th ≠ s.nextId :=
        fun hthr => (hco.threads_lt hthr).ne
      by_cases hq : q = p
      · subst hq
        obtain ⟨pr₀, hpr₀⟩ : ∃ pr, s.procs q = some pr := by
          unfold State.isOpen at hopen
          cases hpr : s.procs q with
          | none => simp [hpr] at hopen
          | some pr => exact ⟨pr, rfl⟩
        have hlt := hs.lt hpr₀
        refine ⟨fun hle => absurd hlt (not_lt.mpr ((Nat.le_succ _).trans hle)), fun pr hpr => ?_⟩
        have hpr : s.procs q = some pr := hpr
        have hc := hs.counts pr hpr
        have hnot : s.nextId ∉ s.threadsOf q := by
          intro hmem
          obtain ⟨thr, hthr, -⟩ := (hc.mem_iff _).mp hmem
          exact hnew hthr rfl
        refine ⟨?_, fun th => ?_, hc.maxThreads, hc.requested, hc.started, hc.unanswered, ?_⟩
        · simp only [Function.update_self]
          exact nodup_insertByKey hc.nodup hnot
        · simp only [Function.update_self, mem_insertByKey, State.setThread]
          by_cases hth : th = s.nextId
          · subst hth
            simp
          · simp only [hth, false_or, Function.update_of_ne hth]
            exact hc.mem_iff th
        · simp only [Function.update_self]
          rw [hc.ready, countP_insertByKey
            (by simp [State.isReady, State.setThread, Thread.isReady])]
          refine congrArg _ (List.countP_congr fun th hth => ?_)
          have hne : th ≠ s.nextId := fun h => hnot (h ▸ hth)
          simp [State.isReady, State.setThread, Function.update_of_ne hne]
      · refine hs.kept ⟨Nat.le_succ _, rfl, Function.update_of_ne (Ne.symm hq) .., ?_, ?_⟩
        · intro th thr hthr _
          exact ⟨thr, (Function.update_of_ne (hnew hthr) ..).trans hthr, rfl⟩
        · intro th thr' hthr' hp
          have hth : th ≠ s.nextId := by
            rintro rfl
            simp only [State.setThread, Function.update_self, Option.some.injEq] at hthr'
            exact hq (by rw [← hthr'] at hp; exact hp)
          simp only [State.setThread, Function.update_of_ne hth] at hthr'
          exact ⟨thr', hthr', hp⟩

theorem binderFreeThread_pooled (hs : Pooled M p k s) (ha : s.Awake th q)
    (hrun : binderFreeThread s q th = .ok s') : Pooled M p k s' := by
  obtain ⟨thr, hthr, hproc, hread⟩ := ha
  by_cases hq : q = p
  · subst hq
    have hback : ∀ {th' thr'}, s'.threads th' = some thr' → th' ≠ th ∧
        ∃ thr, s.threads th' = some thr ∧ thr'.proc = thr.proc := binderFreeThread_threads hrun
    obtain ⟨thr₁, s₁, hthr₁, h₁, rfl⟩ := binderFreeThread_pool hrun
    have hkept := h₁.keptFor q
    have hof : s₁.threadsOf q = (s.threadsOf q).filter (· ≠ th) := by
      simpa using hkept.threadsOf
    have hnone : s.nextId ≤ q → False := fun hle => (hs.fresh hle).2.2.2 th thr hthr hproc
    refine ⟨fun hle => (hnone (h₁.nextId.trans hle)).elim, fun pr' hpr' => ?_⟩
    have hmap := hkept.procs
    rw [show s₁.procs q = some pr' from hpr'] at hmap
    obtain ⟨pr, hpr, hpool⟩ := Option.map_eq_some_iff.mp hmap.symm
    simp only [Proc.pool, Prod.mk.injEq] at hpool
    obtain ⟨hmax, hreq, hstarted, hready⟩ := hpool
    have hc := hs.counts pr hpr
    refine ⟨?_, fun th' => ?_, hmax ▸ hc.maxThreads, hreq ▸ hc.requested,
      hreq ▸ hstarted ▸ hc.started, hreq ▸ hc.unanswered, ?_⟩
    · simp only [hof]
      exact hc.nodup.filter _
    · simp only [hof, List.mem_filter, hc.mem_iff, ne_eq, decide_eq_true_eq]
      constructor
      · rintro ⟨⟨thr', hthr', hproc'⟩, hne⟩
        obtain ⟨thr'', hthr'', hpool⟩ := hkept.threads hthr' hproc'
        refine ⟨thr'', ?_, (congrArg Prod.fst hpool).trans hproc'⟩
        simpa only [Function.update_of_ne hne] using hthr''
      · rintro ⟨thr', hthr', hproc'⟩
        obtain ⟨hne, thr'', hthr'', hp⟩ := hback hthr'
        exact ⟨⟨thr'', hthr'', hp.symm.trans hproc'⟩, hne⟩
    · rw [← hready, hc.ready]
      simp only [hof, List.countP_filter]
      refine congrArg _ (List.countP_congr fun th' hth' => ?_)
      by_cases hne : th' = th
      · subst hne
        simp [State.isReady, hthr, Thread.isReady, hread]
      · obtain ⟨thr', hthr', hproc'⟩ := (hc.mem_iff th').mp hth'
        obtain ⟨thr'', hthr'', hpool⟩ := hkept.threads hthr' hproc'
        simp [State.isReady, hthr', hthr'', isReady_of_pool hpool, hne]
  · refine hs.kept (binderFreeThread_keptFor hq (fun thr₁ hthr₁ => ?_) hrun)
    obtain rfl : thr = thr₁ := by simpa [hthr] using hthr₁
    exact hproc

theorem setContextMgr_pool {euid : ℕ} {security alloc : Bool}
    (hrun : setContextMgr s q euid security alloc = .ok s') : PoolKept s s' := by
  rcases setContextMgr_cases hrun with ⟨uid, rfl⟩ | ⟨-, -, uid, rfl⟩
  · exact .of_eq le_rfl rfl rfl rfl
  · exact .of_eq (Nat.le_succ _) rfl rfl rfl

theorem mmapProc_pool {base size : ℕ} {off : ℤ} {env : PageEnv} {files : ℕ → Option File}
    (hrun : mmapProc L s q base size off env files = .ok s') : PoolKept s s' := by
  unfold mmapProc at hrun
  split at hrun
  · simp only [except_pure_eq_ok] at hrun
    exact hrun ▸ .refl s
  · simp only [except_bind_eq_ok] at hrun
    obtain ⟨⟨ok, ar⟩, -, hrun⟩ := hrun
    cases ok with
    | false =>
        simp only [except_pure_eq_ok] at hrun
        exact hrun ▸ .refl s
    | true =>
        simp only [except_pure_eq_ok] at hrun
        exact hrun ▸ .of_eq le_rfl rfl rfl rfl

theorem deferredFlush_pool {ths : List ThreadId} (hrun : deferredFlush s ths = .ok s') :
    PoolKept s s' := by
  induction ths generalizing s with
  | nil =>
      obtain rfl : s = s' := by simpa [deferredFlush] using hrun
      exact .refl s
  | cons th ths ih =>
      simp only [deferredFlush, except_bind_eq_ok, deref_eq_ok] at hrun
      obtain ⟨thr, hthr, hrun⟩ := hrun
      have h₁ : PoolKept s (s.setThread th
          { thr with looper := { thr.looper with needReturn := true } }) := .setThread hthr rfl
      exact h₁.trans (ih hrun)

theorem binderDeferredRelease_pooled (hco : Coherent L none s) (hs : Pooled M p k s)
    (hpr : s.procs q = some pr) (hrun : binderDeferredRelease L s q = .ok s') :
    Pooled M p k s' := by
  by_cases hq : q = p
  · subst hq
    have hnext : s.nextId ≤ s'.nextId :=
      (binderDeferredRelease_keptFor hco (Nat.succ_ne_self q).symm hrun).nextId
    have hnone : s'.procs q = none := by
      simp only [binderDeferredRelease, except_bind_eq_ok, except_pure_eq_ok] at hrun
      obtain ⟨_, -, _, -, _, -, _, -, _, -, _, -, _, -, _, -, _, -, rfl⟩ := hrun
      exact Function.update_self ..
    refine ⟨fun hle => absurd (hs.lt hpr) (not_lt.mpr (hnext.trans hle)), fun pr' hpr' => ?_⟩
    simp [hnone] at hpr'
  · exact hs.kept (binderDeferredRelease_keptFor hco hq hrun)

theorem binderDeferredFunc_pooled (hco : Coherent L none s) (hs : Pooled M p k s)
    (hpr : s.procs q = some pr) (hrun : binderDeferredFunc L s q pr = .ok s') :
    Pooled M p k s' := by
  simp only [binderDeferredFunc, except_bind_eq_ok] at hrun
  obtain ⟨s₁, hflush, hrun⟩ := hrun
  let pr₁ : Proc :=
    { pr with deferredPutFiles := false, deferredFlush := false, deferredRelease := false }
  let s₀ : State :=
    if pr.deferredPutFiles then { s.setProc q pr₁ with files := Function.update s.files q none }
    else s.setProc q pr₁
  have h₀ : PoolKept s s₀ := by
    have hset : PoolKept s (s.setProc q pr₁) := .setProc hpr rfl
    simp only [s₀]
    split
    · exact hset.trans (.of_eq le_rfl rfl rfl rfl)
    · exact hset
  have hkept := h₀.trans (deferredFlush_pool hflush)
  have hs₁ := hs.of_kept hkept
  have hco₁ : Coherent L none s₁ := by
    have hparts : Parts L (fun _ _ _ _ => True) s [] s₁ :=
      deferredFunc_flush_parts hpr hflush
    exact hparts.coherent hco
  split at hrun
  · have hmap := hkept.procs q
    rw [hpr] at hmap
    obtain ⟨pr₂, hpr₂, -⟩ := Option.map_eq_some_iff.mp hmap
    exact binderDeferredRelease_pooled hco₁ hs₁ hpr₂ hrun
  · simp only [except_pure_eq_ok] at hrun
    exact hrun ▸ hs₁

theorem binderGetThread_awake {pid : ℕ} {alloc : Bool} (hco : Coherent L none s)
    (hrun : binderGetThread s q pid alloc = (some th, s'))
    (hread : ((s'.threads th).any fun thr => thr.read.isSome) = false) : s'.Awake th q := by
  have hth := binderGetThread_threadOf hco hrun
  obtain ⟨thr, hthr⟩ : ∃ thr, s'.threads th = some thr := by
    unfold binderGetThread at hrun
    split at hrun
    · rename_i hfind
      cases hrun
      have hpid := List.find?_some hfind
      exact Option.isSome_iff_exists.mp (Option.isSome_of_any hpid)
    · split at hrun
      · cases hrun
      · cases hrun
        exact ⟨_, Function.update_self ..⟩
  refine ⟨thr, hthr, hth.2 thr hthr, ?_⟩
  simpa [hthr] using hread

theorem binderIoctl_pooled {op : IoctlOp} (hs : Pooled M p k s) (ha : s.Awake th q)
    (hcopies : ∀ cmds n m w, op = .writeRead cmds n m w → ∀ i, w i = true)
    (hcaps : ∀ n, op = .setMaxThreads n → q = p → n ≤ M)
    (hrun : binderIoctl L s q th op = .ok s') :
    Pooled M p (k + unanswered p (ioctlPool L s q th op)) s' := by
  cases op with
  | writeRead cmds n m w =>
      simp only [binderIoctl, ioctlWriteRead, except_bind_eq_ok] at hrun
      obtain ⟨⟨ok, s₁⟩, hwrite, hrun⟩ := hrun
      obtain ⟨hs₁, ha₁⟩ := binderThreadWrite_pooled hs ha hwrite
      have hw := hcopies cmds n m w rfl
      simp only [ioctlPool, hwrite, unanswered_append, ← add_assoc]
      cases ok with
      | false =>
          simp only [Bool.false_and, Bool.false_eq_true, ↓reduceIte] at hrun
          simpa using ioctlReturn_pooled hs₁ hrun
      | true =>
          simp only [Bool.true_and, decide_eq_true_eq] at hrun
          split at hrun
          · rename_i hsize
            simp only [if_pos hsize, readPool, hw, ↓reduceIte]
            unfold binderThreadRead at hrun
            simp only [hw, ↓reduceIte] at hrun
            split at hrun
            · rename_i hzero
              rw [if_neg (by simpa using hzero)]
              exact readRetry_pooled hs₁ ha₁ hw hrun
            · rename_i hzero
              rw [if_pos hzero]
              exact readRetry_pooled hs₁ ha₁ hw hrun
          · rename_i hsize
            simpa [hsize] using ioctlReturn_pooled hs₁ hrun
  | setMaxThreads n =>
      simp only [binderIoctl, except_bind_eq_ok, deref_eq_ok] at hrun
      obtain ⟨pr, hpr, hrun⟩ := hrun
      have hset : Pooled M p k (s.setProc q { pr with maxThreads := n }) := by
        by_cases hq : q = p
        · subst hq
          have hc := hs.counts pr hpr
          refine ⟨fun hle => absurd (hs.lt hpr) (not_lt.mpr hle), fun pr' hpr' => ?_⟩
          simp only [State.setProc, Function.update_self, Option.some.injEq] at hpr'
          subst hpr'
          exact ⟨hc.nodup, hc.mem_iff, hcaps n rfl rfl, hc.requested, hc.started, hc.unanswered,
            hc.ready⟩
        · refine hs.kept ⟨le_rfl, ?_, rfl, fun hthr _ => ⟨_, hthr, rfl⟩,
            fun hthr hp => ⟨_, hthr, hp⟩⟩
          simp [State.setProc, Function.update_of_ne (Ne.symm hq)]
      simpa [ioctlPool] using ioctlReturn_pooled hset hrun
  | setContextMgr euid security alloc =>
      simp only [binderIoctl, except_bind_eq_ok] at hrun
      obtain ⟨s₁, hctx, hrun⟩ := hrun
      simpa [ioctlPool] using ioctlReturn_pooled (hs.of_kept (setContextMgr_pool hctx)) hrun
  | threadExit => simpa [ioctlPool] using binderFreeThread_pooled hs ha hrun

theorem step_pooled (hM : 0 ≤ M) (hco : Coherent L none s) (hs : Pooled M p k s) {a : Act}
    (hcopies : a.copies) (hcaps : a.caps M p) (hrun : step L s a = .ok s') :
    Pooled M p (k + unanswered p (observePool L s a)) s' := by
  have hquiet : observePool L s a = [] → Pooled M p k s' →
      Pooled M p (k + unanswered p (observePool L s a)) s' := by
    intro hlog h
    simpa [hlog] using h
  cases a with
  | «open» pid =>
      simp only [step, Except.ok.injEq] at hrun
      exact hquiet rfl (hrun ▸ binderOpen_pooled hM hs pid)
  | mmap q base size off env files =>
      simp only [step] at hrun
      refine hquiet rfl ?_
      split at hrun
      · exact hs.of_kept (mmapProc_pool hrun)
      · cases hrun
        exact hs
  | ioctl q pid alloc op =>
      simp only [step] at hrun
      split at hrun
      · rename_i hclosed
        cases hrun
        have hclosed' : s.isOpen q = false := by simpa using hclosed
        exact hquiet (by simp [observePool, hclosed']) hs
      · rename_i hopen
        have hopen' : s.isOpen q = true := by simpa using hopen
        simp only [observePool, hopen', ↓reduceIte]
        cases hget : binderGetThread s q pid alloc with
        | mk x s₁ =>
            have hs₁ := binderGetThread_pooled hco hs hopen' hget
            cases x with
            | none =>
                simp only [hget] at hrun
                cases hrun
                simpa using hs₁
            | some th =>
                simp only [hget] at hrun
                split at hrun
                · rename_i hread
                  cases hrun
                  simpa [hread] using hs₁
                · rename_i hread
                  simp only [if_neg hread]
                  refine binderIoctl_pooled hs₁
                    (binderGetThread_awake hco hget (by simpa using hread)) ?_ ?_ hrun
                  · rintro cmds n m w rfl
                    exact hcopies
                  · rintro n rfl
                    exact hcaps
  | resume th interrupted writable =>
      simp only [step] at hrun
      cases hthr : s.threads th with
      | none =>
          simp only [hthr] at hrun
          cases hrun
          simpa [observePool, resumePool, hthr] using hs
      | some thr =>
          simp only [hthr] at hrun
          exact readResume_pooled hs hthr hcopies hrun
  | poll q pid alloc =>
      simp only [step] at hrun
      refine hquiet rfl ?_
      split at hrun
      · cases hrun
        exact hs
      · rename_i hopen
        split at hrun
        · cases hrun
        · rename_i hget
          cases hrun
          exact binderGetThread_pooled hco hs (by simpa using hopen) hget
  | setFile q fd file =>
      simp only [step] at hrun
      refine hquiet rfl ?_
      split at hrun
      · cases hrun
        exact hs
      · cases hrun
        exact hs.of_kept (.of_eq le_rfl rfl rfl rfl)
  | vmaClose q =>
      simp only [step] at hrun
      refine hquiet rfl ?_
      split at hrun
      · cases hrun
        exact hs
      · rename_i pr hpr
        split at hrun
        · cases hrun
          exact hs
        · cases hrun
          have h₁ : PoolKept s (s.setProc q { pr with deferredPutFiles := true }) :=
            .setProc hpr rfl
          exact hs.of_kept (h₁.trans (.of_eq le_rfl rfl rfl rfl))
  | flush q =>
      simp only [step] at hrun
      refine hquiet rfl ?_
      split at hrun
      · cases hrun
        exact hs
      · rename_i pr hpr
        cases hrun
        exact hs.of_kept (.setProc hpr rfl)
  | release q =>
      simp only [step] at hrun
      refine hquiet rfl ?_
      split at hrun
      · cases hrun
        exact hs
      · rename_i pr hpr
        split at hrun
        · cases hrun
          exact hs
        · cases hrun
          exact hs.of_kept (.setProc hpr rfl)
  | deferred q =>
      simp only [step] at hrun
      refine hquiet rfl ?_
      split at hrun
      · cases hrun
        exact hs
      · rename_i pr hpr
        exact binderDeferredFunc_pooled hco hs hpr hrun

theorem pooled_of_reach (hM : 0 ≤ M) {h : List PoolObs}
    (hreach : Reach (pooledStep L) (fun _ a => a.copies ∧ a.caps M p) (State.init, []) (s, h)) :
    Coherent L none s ∧ Pooled M p (unanswered p h) s := by
  refine hreach.invariant
    (I := fun x : State × List PoolObs =>
      Coherent L none x.1 ∧ Pooled M p (unanswered p x.2) x.1)
    ⟨coherent_init L, pooled_init M p⟩ ?_
  rintro ⟨s₁, h₁⟩ a ⟨s₂, h₂⟩ ⟨hco, hs₁⟩ ⟨hcopies, hcaps⟩ hstep
  simp only [pooledStep] at hstep
  cases hrun : step L s₁ a with
  | error e => simp [hrun, Except.map] at hstep
  | ok s₂' =>
      simp only [hrun, Except.map, Except.ok.injEq, Prod.mk.injEq] at hstep
      obtain ⟨rfl, rfl⟩ := hstep
      refine ⟨(step_parts hco (actOk_of_forall (C := fun _ _ _ _ => True)
        (fun _ _ _ _ => trivial) L s₁ a) hrun).coherent hco, ?_⟩
      simp only [unanswered_append]
      exact step_pooled hM hco hs₁ hcopies hcaps hrun

/-- The counters of the thread pool of a process that never allows more than `M` loopers:
at most one request for a looper is open, requests and loopers do not exceed `M`, the open
requests are those read and not answered, and the threads that are ready are those that
wait for work of the process. -/
theorem pool_of_reach (hM : 0 ≤ M) {h : List PoolObs}
    (hreach : Reach (pooledStep L) (fun _ a => a.copies ∧ a.caps M p) (State.init, []) (s, h))
    (hpr : s.procs p = some pr) :
    (pr.requestedThreads = 0 ∨ pr.requestedThreads = 1) ∧
      pr.requestedThreads + pr.requestedThreadsStarted ≤ M ∧
      (h.count (.spawned p) : ℤ) - h.count (.registered p) = pr.requestedThreads ∧
      (s.threadsOf p).Nodup ∧
      (∀ th, th ∈ s.threadsOf p ↔ ∃ thr, s.threads th = some thr ∧ thr.proc = p) ∧
      pr.readyThreads = (s.threadsOf p).countP s.isReady := by
  have hc := (pooled_of_reach hM hreach).2.counts pr hpr
  exact ⟨hc.requested, hc.started, hc.unanswered, hc.nodup, hc.mem_iff, hc.ready⟩

end Pooled

/-- A process that allows two loopers: its main thread enters the loop, is asked for a
looper when it returns from a read, and the new looper registers and waits. -/
def poolActs : List Act :=
  [.open 100, .ioctl 0 10 true (.setMaxThreads 2), Act.write 0 10 [.enterLooper],
    Act.write 0 10 [.transaction (.plain 5 0 (fun _ => 0) []) TxnEnv.granted], Act.read 0 10,
    Act.write 0 11 [.registerLooper], Act.read 0 11]

theorem pool_of_reach_poolActs : ∃ s h pr,
    runChecked (pooledStep Layout.x86) (fun _ _ => True) (State.init, []) poolActs = some (s, h) ∧
      s.procs 0 = some pr ∧ h = [.spawned 0, .registered 0] ∧
      pr.requestedThreads + pr.requestedThreadsStarted ≤ 2 ∧
      pr.readyThreads = (s.threadsOf 0).countP s.isReady := by
  obtain ⟨⟨s, h⟩, hrun, hx⟩ := Option.map_eq_some_iff.mp
    (show (runChecked (pooledStep Layout.x86) (fun _ _ => True) (State.init, []) poolActs).map
      (fun x => (x.2, (x.1.procs 0).isSome)) =
        some ([PoolObs.spawned 0, PoolObs.registered 0], true) by decide +kernel)
  simp only [Prod.mk.injEq] at hx
  obtain ⟨pr, hpr⟩ := Option.isSome_iff_exists.mp hx.2
  have hall : ∀ a ∈ poolActs, a.copies ∧ a.caps 2 0 := by
    simp [poolActs, Act.copies, Act.caps, Act.write, Act.read]
  have hreach := (reach_of_runChecked_of_forall hrun hall).mono fun _ _ hok => hok.2
  obtain ⟨-, hstarted, -, -, -, hready⟩ := pool_of_reach (by decide) hreach hpr
  exact ⟨s, h, pr, hrun, hpr, hx.1, hstarted, hready⟩

end Driver

end BinderForLinux
