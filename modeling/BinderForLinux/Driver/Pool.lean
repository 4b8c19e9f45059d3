import BinderForLinux.Driver.Still
import BinderForLinux.Driver.Changes.Parts

/-!
# The thread pool

The counters of a process for its threads, and the waits they count. Everything
but the looper commands, the wait of a read and its end leaves them alone.
-/

namespace BinderForLinux

namespace Driver

open Library

/-- The counters `max_threads`, `requested_threads`, `requested_threads_started` and
`ready_threads`. -/
def Proc.pool (pr : Proc) : ℤ × ℤ × ℤ × ℤ :=
  (pr.maxThreads, pr.requestedThreads, pr.requestedThreadsStarted, pr.readyThreads)

def Thread.pool (thr : Thread) : ProcId × Option ReadFrame := (thr.proc, thr.read)

def Thread.isReady (thr : Thread) : Bool := thr.read.any ReadFrame.waitForProcWork

/-- The thread waits for work of its process, if it is there. -/
def State.isReady (s : State) (th : ThreadId) : Bool := (s.threads th).any Thread.isReady

/-- Counters, threads and waits are as before. -/
structure PoolKept (s s' : State) : Prop where
  nextId : s.nextId ≤ s'.nextId
  procs : ∀ q, (s'.procs q).map Proc.pool = (s.procs q).map Proc.pool
  threads : ∀ th, (s'.threads th).map Thread.pool = (s.threads th).map Thread.pool
  threadsOf : s'.threadsOf = s.threadsOf

section Kept

variable {L : Layout} {s s' s'' : State} {p : ProcId} {th : ThreadId} {thr : Thread} {t : TxnId}
  {e : ReturnError}

theorem PoolKept.refl (s : State) : PoolKept s s :=
  ⟨le_rfl, fun _ => rfl, fun _ => rfl, rfl⟩

theorem PoolKept.trans (h : PoolKept s s') (h' : PoolKept s' s'') : PoolKept s s'' :=
  ⟨h.nextId.trans h'.nextId, fun q => (h'.procs q).trans (h.procs q),
    fun th => (h'.threads th).trans (h.threads th), h'.threadsOf.trans h.threadsOf⟩

theorem PoolKept.of_eq (hnext : s.nextId ≤ s'.nextId) (hprocs : s'.procs = s.procs)
    (hthreads : s'.threads = s.threads) (hof : s'.threadsOf = s.threadsOf) : PoolKept s s' :=
  ⟨hnext, fun q => by rw [hprocs], fun th => by rw [hthreads], hof⟩

theorem PoolKept.of_first (h : PoolKept s' s'') (hnext : s.nextId ≤ s'.nextId)
    (hprocs : s'.procs = s.procs) (hthreads : s'.threads = s.threads)
    (hof : s'.threadsOf = s.threadsOf) : PoolKept s s'' :=
  (PoolKept.of_eq hnext hprocs hthreads hof).trans h

theorem PoolKept.setThread (hthr : s.threads th = some thr) {thr' : Thread}
    (hpool : thr'.pool = thr.pool) : PoolKept s (s.setThread th thr') := by
  refine ⟨le_rfl, fun _ => rfl, fun th' => ?_, rfl⟩
  by_cases hth : th' = th
  · subst hth
    simp [State.setThread, hthr, hpool]
  · simp [State.setThread, Function.update_of_ne hth]

theorem PoolKept.setProc {pr pr' : Proc} (hpr : s.procs p = some pr) (hpool : pr'.pool = pr.pool) :
    PoolKept s (s.setProc p pr') := by
  refine ⟨le_rfl, fun q => ?_, fun _ => rfl, rfl⟩
  by_cases hq : q = p
  · subst hq
    simp [State.setProc, hpr, hpool]
  · simp [State.setProc, Function.update_of_ne hq]

theorem Still.pool (h : Still s s') : PoolKept s s' :=
  .of_eq h.nextId (by rw [h.rest]) (by rw [h.rest]) (by rw [h.rest])

/-! ### Stacks and errors -/

theorem detachBuffer_pool {buffer : Option (ProcId × ℕ)} (hrun : detachBuffer s buffer = .ok s') :
    PoolKept s s' := by
  rcases buffer with _ | ⟨p, a⟩
  · obtain rfl : s = s' := by simpa [detachBuffer] using hrun
    exact .refl s
  · simp only [detachBuffer, except_bind_eq_ok, except_pure_eq_ok] at hrun
    obtain ⟨_, _, rfl⟩ := hrun
    exact .of_eq le_rfl rfl rfl rfl

theorem detachTransaction_pool {b : Buffer} (hrun : detachTransaction s p b = .ok s') :
    PoolKept s s' := by
  unfold detachTransaction at hrun
  split at hrun
  · cases hrun
    exact .refl s
  · simp only [except_bind_eq_ok, except_pure_eq_ok] at hrun
    obtain ⟨_, _, rfl⟩ := hrun
    exact .of_eq le_rfl rfl rfl rfl

theorem freeTxn_pool (hrun : freeTxn s t = .ok s') : PoolKept s s' := by
  simp only [freeTxn, except_bind_eq_ok, except_pure_eq_ok] at hrun
  obtain ⟨tx, _, s₁, hdetach, rfl⟩ := hrun
  exact (detachBuffer_pool hdetach).trans (.of_eq le_rfl rfl rfl rfl)

theorem binderPopTransaction_pool {target : Option ThreadId}
    (hrun : binderPopTransaction s target t = .ok s') : PoolKept s s' := by
  simp only [binderPopTransaction, except_bind_eq_ok] at hrun
  obtain ⟨s₁, hpop, hfree⟩ := hrun
  have h₁ : PoolKept s s₁ := by
    cases target with
    | none =>
        obtain rfl : s = s₁ := by simpa [popStack] using hpop
        exact .refl s
    | some th =>
        simp only [popStack, except_bind_eq_ok, deref_eq_ok, except_pure_eq_ok] at hpop
        obtain ⟨thr, hthr, _, _, tx, _, _, _, rfl⟩ := hpop
        exact .setThread hthr rfl
  exact h₁.trans (freeTxn_pool hfree)

theorem shiftError_pool (thr : Thread) : thr.shiftError.pool = thr.pool := by
  unfold Thread.shiftError
  split <;> rfl

theorem failReplyTo_pool (hrun : failReplyTo s th thr t e = .ok s') : PoolKept s s' := by
  unfold failReplyTo at hrun
  split at hrun
  · cases hrun
    exact .refl s
  · simp only [except_bind_eq_ok, deref_eq_ok, except_pure_eq_ok] at hrun
    obtain ⟨s₁, hpop, thr₁, hthr₁, rfl⟩ := hrun
    exact (binderPopTransaction_pool hpop).trans (.setThread hthr₁ rfl)

theorem failedReplyLoop_pool {fuel : ℕ} (hrun : failedReplyLoop fuel s t e = .ok s') :
    PoolKept s s' := by
  induction fuel generalizing s t with
  | zero => cases hrun
  | succ fuel ih =>
      simp only [failedReplyLoop, except_bind_eq_ok, deref_eq_ok] at hrun
      obtain ⟨tx, htx, hrun⟩ := hrun
      cases hfrom : tx.fromThread with
      | some th =>
          simp only [hfrom, except_bind_eq_ok, deref_eq_ok] at hrun
          obtain ⟨thr, hthr, hrun⟩ := hrun
          have h₁ : PoolKept s (s.setThread th thr.shiftError) :=
            .setThread hthr (shiftError_pool thr)
          exact h₁.trans (failReplyTo_pool hrun)
      | none =>
          simp only [hfrom, except_bind_eq_ok] at hrun
          obtain ⟨s₁, hpop, hrun⟩ := hrun
          have h₁ := binderPopTransaction_pool hpop
          cases hparent : tx.fromParent with
          | none =>
              obtain rfl : s₁ = s' := by simpa [hparent] using hrun
              exact h₁
          | some next =>
              simp only [hparent] at hrun
              exact h₁.trans (ih hrun)

theorem binderSendFailedReply_pool (hrun : binderSendFailedReply s t e = .ok s') :
    PoolKept s s' := by
  simp only [binderSendFailedReply, except_bind_eq_ok] at hrun
  obtain ⟨tx, _, _, _, hrun⟩ := hrun
  exact failedReplyLoop_pool hrun

/-! ### Transactions -/

theorem transactionFailed_pool {irt : Option TxnId} (hrun : transactionFailed s th e irt = .ok s') :
    PoolKept s s' := by
  simp only [transactionFailed, except_bind_eq_ok, deref_eq_ok] at hrun
  obtain ⟨thr, hthr, _, _, hrun⟩ := hrun
  cases irt with
  | some irt =>
      have h₁ : PoolKept s (s.setThread th { thr with returnError := .transactionComplete }) :=
        .setThread hthr rfl
      exact h₁.trans (binderSendFailedReply_pool hrun)
  | none =>
      simp only [except_pure_eq_ok] at hrun
      exact hrun ▸ .setThread hthr rfl

theorem selectTarget_pool {tr : TransactionData} {reply : Bool} {env : TxnEnv} {sel : Selection}
    (hrun : selectTarget s p th tr reply env = .ok (sel, s')) : PoolKept s s' := by
  rcases selectTarget_state hrun with rfl | ⟨thr, x, hthr, rfl⟩
  · exact .refl _
  · exact .setThread hthr rfl

theorem commitStacks_pool {tg : Target} {reply oneWay : Bool} {q : Queue} {parent : Option TxnId}
    (hrun : commitStacks s th t tg reply oneWay = .ok (q, parent, s')) : PoolKept s s' := by
  simp only [commitStacks] at hrun
  cases reply with
  | true =>
      simp only [↓reduceIte] at hrun
      split at hrun
      · cases hrun
      · simp only [except_bind_eq_ok, except_pure_eq_ok, Prod.mk.injEq] at hrun
        obtain ⟨s₁, hpop, -, -, rfl⟩ := hrun
        exact binderPopTransaction_pool hpop
  | false =>
      cases oneWay with
      | false =>
          simp only [Bool.false_eq_true, ↓reduceIte, Bool.not_false, except_bind_eq_ok,
            deref_eq_ok, except_pure_eq_ok, Prod.mk.injEq] at hrun
          obtain ⟨thr, hthr, -, -, rfl⟩ := hrun
          exact .setThread hthr rfl
      | true =>
          simp only [Bool.false_eq_true, ↓reduceIte, Bool.not_true] at hrun
          split at hrun
          · cases hrun
          · simp only [except_bind_eq_ok, except_pure_eq_ok, Prod.mk.injEq] at hrun
            obtain ⟨⟨q', s₁⟩, hasync, -, -, rfl⟩ := hrun
            simp only [asyncTarget, except_bind_eq_ok] at hasync
            obtain ⟨nd, -, hasync⟩ := hasync
            split at hasync
            · simp only [except_pure_eq_ok, Prod.mk.injEq] at hasync
              exact hasync.2 ▸ .refl s
            · simp only [except_pure_eq_ok, Prod.mk.injEq] at hasync
              exact hasync.2 ▸ .of_eq le_rfl rfl rfl rfl

theorem sendToTarget_pool {tg : Target} {tr : TransactionData} {reply : Bool} {env : TxnEnv}
    (hrun : sendToTarget L s p th t tg tr reply env = .ok s') : PoolKept s s' := by
  simp only [sendToTarget, except_bind_eq_ok] at hrun
  obtain ⟨⟨x, ar⟩, -, hrun⟩ := hrun
  cases x with
  | none =>
      have h₁ : PoolKept s (s.setArea tg.proc ar) := .of_eq le_rfl rfl rfl rfl
      exact h₁.trans (transactionFailed_pool hrun)
  | some a =>
      simp only [except_bind_eq_ok] at hrun
      obtain ⟨s₁, hhold, _, -, ⟨y, s₂, data⟩, hfill, hrun⟩ := hrun
      have h₀ : PoolKept s ((s.setArea tg.proc ar).updateBuffer tg.proc a Buffer.cleared) :=
        .of_eq le_rfl rfl rfl rfl
      have h₂ := (h₀.trans (holdTarget_still hhold).pool).trans (fillBuffer_still hfill).pool
      cases y with
      | none =>
          simp only [commitTransaction, except_bind_eq_ok, except_pure_eq_ok] at hrun
          obtain ⟨_, -, _, -, ⟨q, parent, s₃⟩, hstacks, rfl⟩ := hrun
          exact (h₂.trans (commitStacks_pool hstacks)).trans (.of_eq le_rfl rfl rfl rfl)
      | some k =>
          simp only [unwindBuffer, except_bind_eq_ok, except_pure_eq_ok] at hrun
          obtain ⟨s₃, ⟨_, -, s₄, hrel, ar', -, rfl⟩, hrun⟩ := hrun
          have h₃ : PoolKept s₄ (s₄.setArea tg.proc ar') := .of_eq le_rfl rfl rfl rfl
          exact ((h₂.trans (bufferRelease_still hrel).pool).trans h₃).trans
            (transactionFailed_pool hrun)

theorem binderTransaction_pool {tr : TransactionData} {reply : Bool} {env : TxnEnv}
    (hrun : binderTransaction L s p th tr reply env = .ok s') : PoolKept s s' := by
  simp only [binderTransaction, except_bind_eq_ok] at hrun
  obtain ⟨⟨sel, s₁⟩, hsel, hrun⟩ := hrun
  have h₁ := selectTarget_pool hsel
  cases sel with
  | refused e irt => exact h₁.trans (transactionFailed_pool hrun)
  | target tg =>
      simp only at hrun
      split at hrun
      · exact h₁.trans (transactionFailed_pool hrun)
      · have h₂ : PoolKept s₁ { s₁ with nextId := s₁.nextId + 1 } :=
          .of_eq (Nat.le_succ _) rfl rfl rfl
        exact (h₁.trans h₂).trans (sendToTarget_pool hrun)

/-! ### The other commands -/

theorem freeBufferCommand_pool {dataPtr : ℕ} (hrun : freeBufferCommand L s p th dataPtr = .ok s') :
    PoolKept s s' := by
  simp only [freeBufferCommand, except_bind_eq_ok] at hrun
  obtain ⟨x, -, hrun⟩ := hrun
  cases x with
  | none =>
      simp only [except_pure_eq_ok] at hrun
      exact hrun ▸ .refl s
  | some a =>
      simp only [except_bind_eq_ok] at hrun
      obtain ⟨b, -, hrun⟩ := hrun
      split at hrun
      · simp only [except_pure_eq_ok] at hrun
        exact hrun ▸ .refl s
      · simp only [except_bind_eq_ok, except_pure_eq_ok] at hrun
        obtain ⟨s₁, hdetach, s₂, hadv, s₃, hrel, ar, -, rfl⟩ := hrun
        have h₂ : PoolKept s₁ s₂ := by
          unfold advanceTarget at hadv
          split at hadv
          · simp only [advanceAsync, except_bind_eq_ok] at hadv
            obtain ⟨nd, -, _, -, hadv⟩ := hadv
            split at hadv
            · simp only [except_pure_eq_ok] at hadv
              exact hadv ▸ .of_eq le_rfl rfl rfl rfl
            · simp only [except_pure_eq_ok] at hadv
              exact hadv ▸ .of_eq le_rfl rfl rfl rfl
          · cases hadv
            exact .refl _
        have h₃ := ((detachTransaction_pool hdetach).trans h₂).trans (bufferRelease_still hrel).pool
        exact h₃.trans (.of_eq le_rfl rfl rfl rfl)

theorem requestDeathCommand_pool {handle cookie : ℕ} {alloc : Bool}
    (hrun : requestDeathCommand s p th handle cookie alloc = .ok s') : PoolKept s s' := by
  unfold requestDeathCommand at hrun
  split at hrun
  · simp only [except_pure_eq_ok] at hrun
    exact hrun ▸ .refl s
  · simp only [except_bind_eq_ok, deref_eq_ok] at hrun
    obtain ⟨rf, -, thr, hthr, hrun⟩ := hrun
    split at hrun
    · simp only [except_pure_eq_ok] at hrun
      exact hrun ▸ .refl s
    · split at hrun
      · simp only [except_pure_eq_ok] at hrun
        exact hrun ▸ .setThread hthr rfl
      · simp only [except_bind_eq_ok, deref_eq_ok] at hrun
        obtain ⟨nd, -, hrun⟩ := hrun
        split at hrun
        · simp only [except_pure_eq_ok] at hrun
          exact hrun ▸ .of_eq (Nat.le_succ _) rfl rfl rfl
        · simp only [except_pure_eq_ok] at hrun
          exact hrun ▸ .of_eq (Nat.le_succ _) rfl rfl rfl

theorem clearDeathCommand_pool {handle cookie : ℕ}
    (hrun : clearDeathCommand s p th handle cookie = .ok s') : PoolKept s s' := by
  unfold clearDeathCommand at hrun
  split at hrun
  · simp only [except_pure_eq_ok] at hrun
    exact hrun ▸ .refl s
  · simp only [except_bind_eq_ok] at hrun
    obtain ⟨rf, -, thr, -, hrun⟩ := hrun
    split at hrun
    · simp only [except_pure_eq_ok] at hrun
      exact hrun ▸ .refl s
    · simp only [except_bind_eq_ok] at hrun
      obtain ⟨de, -, hrun⟩ := hrun
      split at hrun
      · simp only [except_pure_eq_ok] at hrun
        exact hrun ▸ .refl s
      · split at hrun
        · simp only [except_pure_eq_ok] at hrun
          exact hrun ▸ .of_eq le_rfl rfl rfl rfl
        · simp only [except_bind_eq_ok, except_pure_eq_ok] at hrun
          obtain ⟨_, -, rfl⟩ := hrun
          exact .of_eq le_rfl rfl rfl rfl

theorem unlinkDeath_pool (s : State) (i : DeathId) (de : Death) :
    PoolKept s (unlinkDeath s i de) := by
  unfold unlinkDeath
  split
  · exact .of_eq le_rfl rfl rfl rfl
  · exact .refl s

theorem deadBinderDoneCommand_pool {cookie : ℕ}
    (hrun : deadBinderDoneCommand s p th cookie = .ok s') : PoolKept s s' := by
  simp only [deadBinderDoneCommand, except_bind_eq_ok] at hrun
  obtain ⟨thr, -, hrun⟩ := hrun
  split at hrun
  · simp only [except_pure_eq_ok] at hrun
    exact hrun ▸ .refl s
  · rename_i i _
    simp only [except_bind_eq_ok] at hrun
    obtain ⟨de, -, hrun⟩ := hrun
    split at hrun
    · simp only [except_pure_eq_ok] at hrun
      exact hrun ▸ (unlinkDeath_pool s i de).trans (.of_eq le_rfl rfl rfl rfl)
    · simp only [except_pure_eq_ok] at hrun
      exact hrun ▸ (unlinkDeath_pool s i de).trans (.of_eq le_rfl rfl rfl rfl)

theorem execCommand_pool {c : Command} (hc : c ≠ .registerLooper)
    (hrun : execCommand L s p th c = .ok s') : PoolKept s s' := by
  cases c with
  | increfs h alloc => exact (incCommand_still hrun).pool
  | acquire h alloc => exact (incCommand_still hrun).pool
  | release h => exact (decCommand_still hrun).pool
  | decrefs h => exact (decCommand_still hrun).pool
  | increfsDone ptr cookie => exact (doneCommand_still hrun).pool
  | acquireDone ptr cookie => exact (doneCommand_still hrun).pool
  | freeBuffer dataPtr => exact freeBufferCommand_pool hrun
  | transaction tr env => exact binderTransaction_pool hrun
  | reply tr env => exact binderTransaction_pool hrun
  | registerLooper => exact absurd rfl hc
  | enterLooper =>
      simp only [execCommand, enterLooperCommand, except_bind_eq_ok, deref_eq_ok,
        except_pure_eq_ok] at hrun
      obtain ⟨thr, hthr, rfl⟩ := hrun
      exact .setThread hthr rfl
  | exitLooper =>
      simp only [execCommand, exitLooperCommand, except_bind_eq_ok, deref_eq_ok,
        except_pure_eq_ok] at hrun
      obtain ⟨thr, hthr, rfl⟩ := hrun
      exact .setThread hthr rfl
  | requestDeathNotification h cookie alloc => exact requestDeathCommand_pool hrun
  | clearDeathNotification h cookie => exact clearDeathCommand_pool hrun
  | deadBinderDone cookie => exact deadBinderDoneCommand_pool hrun
  | invalid =>
      cases hrun
      exact .refl s

/-! ### Reads -/

theorem freeNode_pool (s : State) (n : NodeId) (nd : Node) : PoolKept s (freeNode s n nd) := by
  unfold freeNode unlinkNode
  split <;> split <;> exact .of_eq le_rfl rfl rfl rfl

theorem unlinkNode_pool (s : State) (n : NodeId) (nd : Node) : PoolKept s (unlinkNode s n nd) := by
  unfold unlinkNode
  split <;> exact .of_eq le_rfl rfl rfl rfl

theorem readItem_pool {q : Queue} {w : Work} {ptr : ℕ} {writable : ℕ → Bool}
    {x : Option (ℕ × List ReturnCommand)}
    (hrun : readItem L s p th q w ptr writable = .ok (x, s')) : PoolKept s s' := by
  cases w with
  | transactionComplete t =>
      simp only [readItem, Except.ok.injEq] at hrun
      split at hrun
      · cases hrun
        exact .of_eq le_rfl rfl rfl rfl
      · cases hrun
        exact .refl s
  | node n =>
      simp only [readItem, readNode, except_bind_eq_ok] at hrun
      obtain ⟨nd, -, hrun⟩ := hrun
      split at hrun
      · split at hrun
        · simp only [except_pure_eq_ok, Prod.mk.injEq] at hrun
          exact hrun.2 ▸ .of_eq le_rfl rfl rfl rfl
        · simp only [except_pure_eq_ok, Prod.mk.injEq] at hrun
          exact hrun.2 ▸ .of_eq le_rfl rfl rfl rfl
      · split at hrun
        · simp only [except_pure_eq_ok, Prod.mk.injEq] at hrun
          exact hrun.2 ▸ unlinkNode_pool s n nd
        · simp only [except_pure_eq_ok, Prod.mk.injEq] at hrun
          exact hrun.2 ▸ freeNode_pool s n _
  | death i =>
      simp only [readItem] at hrun
      cases hdeath : readDeath s p q i ptr writable with
      | error f => simp [hdeath, Except.map] at hrun
      | ok y =>
          simp only [hdeath, Except.map, Except.ok.injEq, Prod.mk.injEq] at hrun
          obtain ⟨-, rfl⟩ := hrun
          simp only [readDeath, except_bind_eq_ok] at hdeath
          obtain ⟨de, -, hdeath⟩ := hdeath
          split at hdeath
          · simp only [except_pure_eq_ok] at hdeath
            exact hdeath ▸ .refl s
          · split at hdeath
            · simp only [except_pure_eq_ok] at hdeath
              exact hdeath ▸ .of_eq le_rfl rfl rfl rfl
            · simp only [except_pure_eq_ok] at hdeath
              exact hdeath ▸ .of_eq le_rfl rfl rfl rfl
  | transaction t =>
      simp only [readItem, readTransaction, except_bind_eq_ok, deref_eq_ok] at hrun
      obtain ⟨tx, -, hrun⟩ := hrun
      split at hrun
      · cases hrun
      · rename_i bp a _
        simp only [except_bind_eq_ok] at hrun
        obtain ⟨b, -, tr, -, hrun⟩ := hrun
        split at hrun
        · simp only [except_pure_eq_ok, Prod.mk.injEq] at hrun
          exact hrun.2 ▸ .refl s
        · have h₁ : PoolKept s ((s.listDel q (.transaction t)).updateBuffer bp a
              fun b => { b with allowUserFree := true }) := .of_eq le_rfl rfl rfl rfl
          split at hrun
          · simp only [except_bind_eq_ok, deref_eq_ok, except_pure_eq_ok, Prod.mk.injEq] at hrun
            obtain ⟨thr, hthr, -, rfl⟩ := hrun
            have h₂ : PoolKept s (State.setThread _ th { thr with transactionStack := some t }) :=
              h₁.trans (.setThread hthr rfl)
            exact h₂.trans (.of_eq le_rfl rfl rfl rfl)
          · simp only [except_bind_eq_ok, except_pure_eq_ok, Prod.mk.injEq] at hrun
            obtain ⟨s₁, hfree, -, rfl⟩ := hrun
            exact h₁.trans (freeTxn_pool hfree)

theorem readLoop_pool {size : ℕ} {wait : Bool} {writable : ℕ → Bool} {fuel ptr : ℕ}
    {out : List ReturnCommand} {x : ReadResult}
    (hrun : readLoop L p th size wait writable fuel s ptr out = .ok (x, s')) : PoolKept s s' := by
  induction fuel generalizing s ptr out with
  | zero => cases hrun
  | succ fuel ih =>
      obtain ⟨thr, hthr, hcases⟩ := readLoop_cases hrun
      rcases hcases with ⟨-, rfl, -⟩ | ⟨q, w, -, ⟨-, rfl, -⟩ | ⟨-, ⟨hitem, -⟩ |
        ⟨ptr₁, cmds, s₁, hitem, ⟨-, rfl, -⟩ | ⟨-, hrest⟩⟩⟩⟩
      · exact .refl _
      · exact .refl _
      · exact readItem_pool hitem
      · exact readItem_pool hitem
      · exact (readItem_pool hitem).trans (ih hrest)

theorem ioctlReturn_pool (hrun : ioctlReturn s th = .ok s') : PoolKept s s' := by
  simp only [ioctlReturn, except_bind_eq_ok, deref_eq_ok, except_pure_eq_ok] at hrun
  obtain ⟨thr, hthr, rfl⟩ := hrun
  exact .setThread hthr rfl

/-! ### Threads and processes that go away -/

theorem releaseWork_pool {w : Work} (hrun : releaseWork s w = .ok s') : PoolKept s s' := by
  cases w with
  | transaction t =>
      simp only [releaseWork, except_bind_eq_ok] at hrun
      obtain ⟨tx, -, hrun⟩ := hrun
      split at hrun
      · cases hrun
      · simp only [except_bind_eq_ok] at hrun
        obtain ⟨b, -, hrun⟩ := hrun
        split at hrun
        · exact binderSendFailedReply_pool hrun
        · exact freeTxn_pool hrun
  | transactionComplete t =>
      cases hrun
      exact .refl s
  | death i =>
      simp only [releaseWork, except_bind_eq_ok] at hrun
      obtain ⟨de, -, hrun⟩ := hrun
      split at hrun
      · simp only [except_pure_eq_ok] at hrun
        exact hrun ▸ .of_eq le_rfl rfl rfl rfl
      · simp only [except_pure_eq_ok] at hrun
        exact hrun ▸ .of_eq le_rfl rfl rfl rfl
  | node n =>
      simp only [releaseWork, except_bind_eq_ok, except_pure_eq_ok] at hrun
      obtain ⟨nd, -, rfl⟩ := hrun
      exact .of_eq le_rfl rfl rfl rfl

theorem releaseWorks_pool {ws : List Work} (hrun : releaseWorks s ws = .ok s') :
    PoolKept s s' := by
  induction ws generalizing s with
  | nil =>
      obtain rfl : s = s' := by simpa [releaseWorks] using hrun
      exact .refl s
  | cons w ws ih =>
      simp only [releaseWorks, except_bind_eq_ok] at hrun
      obtain ⟨s₁, hw, hrun⟩ := hrun
      exact (releaseWork_pool hw).trans (ih hrun)

theorem binderReleaseWork_pool {q : Queue} (hrun : binderReleaseWork s q = .ok s') :
    PoolKept s s' := by
  have h₁ : PoolKept s (s.setTodo q []) := .of_eq le_rfl rfl rfl rfl
  exact h₁.trans (releaseWorks_pool hrun)

theorem freeThreadWalk_pool {fuel : ℕ} {stack : Option TxnId}
    (hrun : freeThreadWalk fuel s th stack = .ok s') : PoolKept s s' := by
  induction fuel generalizing s stack with
  | zero =>
      cases stack with
      | none =>
          obtain rfl : s = s' := by simpa [freeThreadWalk] using hrun
          exact .refl s
      | some t => cases hrun
  | succ fuel ih =>
      cases stack with
      | none =>
          obtain rfl : s = s' := by simpa [freeThreadWalk] using hrun
          exact .refl s
      | some t =>
          simp only [freeThreadWalk, except_bind_eq_ok] at hrun
          obtain ⟨tx, -, hrun⟩ := hrun
          split at hrun
          · simp only [except_bind_eq_ok] at hrun
            obtain ⟨s₁, hdetach, hrun⟩ := hrun
            have h₁ : PoolKept s (s₁.setTxn t
                { tx with toProc := none, toThread := none, buffer := none }) :=
              (detachBuffer_pool hdetach).trans (.of_eq le_rfl rfl rfl rfl)
            exact h₁.trans (ih hrun)
          · split at hrun
            · have h₁ : PoolKept s (s.setTxn t { tx with fromThread := none }) :=
                .of_eq le_rfl rfl rfl rfl
              exact h₁.trans (ih hrun)
            · cases hrun

end Kept

/-- The counters of the process `p`, its threads and their waits are as before. -/
structure PoolKeptFor (p : ProcId) (s s' : State) : Prop where
  nextId : s.nextId ≤ s'.nextId
  procs : (s'.procs p).map Proc.pool = (s.procs p).map Proc.pool
  threadsOf : s'.threadsOf p = s.threadsOf p
  threads : ∀ {th thr}, s.threads th = some thr → thr.proc = p →
    ∃ thr', s'.threads th = some thr' ∧ thr'.pool = thr.pool
  threadBack : ∀ {th thr'}, s'.threads th = some thr' → thr'.proc = p →
    ∃ thr, s.threads th = some thr ∧ thr.proc = p

section KeptFor

variable {L : Layout} {s s' s'' : State} {p q : ProcId} {th : ThreadId} {thr : Thread}

theorem PoolKept.threadBack (h : PoolKept s s') {thr' : Thread}
    (hthr' : s'.threads th = some thr') :
    ∃ thr, s.threads th = some thr ∧ thr'.proc = thr.proc := by
  have hmap := h.threads th
  rw [hthr'] at hmap
  obtain ⟨thr, hthr, hpool⟩ := Option.map_eq_some_iff.mp hmap.symm
  exact ⟨thr, hthr, (congrArg Prod.fst hpool).symm⟩

theorem PoolKept.keptFor (h : PoolKept s s') (p : ProcId) : PoolKeptFor p s s' where
  nextId := h.nextId
  procs := h.procs p
  threadsOf := by rw [h.threadsOf]
  threads := by
    intro th thr hthr _
    have hmap := h.threads th
    rw [hthr] at hmap
    exact Option.map_eq_some_iff.mp hmap
  threadBack := by
    intro th thr' hthr' hproc'
    obtain ⟨thr, hthr, hproc⟩ := h.threadBack hthr'
    exact ⟨thr, hthr, hproc.symm.trans hproc'⟩

theorem PoolKeptFor.trans (h : PoolKeptFor p s s') (h' : PoolKeptFor p s' s'') :
    PoolKeptFor p s s'' where
  nextId := h.nextId.trans h'.nextId
  procs := h'.procs.trans h.procs
  threadsOf := h'.threadsOf.trans h.threadsOf
  threads := by
    intro th thr hthr hproc
    obtain ⟨thr', hthr', hpool⟩ := h.threads hthr hproc
    have hproc' : thr'.proc = p := (congrArg Prod.fst hpool).trans hproc
    obtain ⟨thr'', hthr'', hpool'⟩ := h'.threads hthr' hproc'
    exact ⟨thr'', hthr'', hpool'.trans hpool⟩
  threadBack := by
    intro th thr'' hthr'' hproc''
    obtain ⟨thr', hthr', hproc'⟩ := h'.threadBack hthr'' hproc''
    exact h.threadBack hthr' hproc'

/-- What a thread that exits leaves alone: all up to the end keeps the pool. -/
theorem binderFreeThread_pool (hrun : binderFreeThread s q th = .ok s') :
    ∃ thr s₁, s.threads th = some thr ∧
      PoolKept { s with
        threadsOf := Function.update s.threadsOf q ((s.threadsOf q).filter (· ≠ th)) } s₁ ∧
      s' = { s₁ with threads := Function.update s₁.threads th none } := by
  simp only [binderFreeThread, except_bind_eq_ok, deref_eq_ok, except_pure_eq_ok] at hrun
  obtain ⟨thr, hthr, owed, -, s₁, hwalk, s₂, howed, s₃, hrel, rfl⟩ := hrun
  have h₂ : PoolKept s₁ s₂ := by
    unfold failOwed at howed
    split at howed
    · exact binderSendFailedReply_pool howed
    · cases howed
      exact .refl _
  exact ⟨thr, s₃, hthr, ((freeThreadWalk_pool hwalk).trans h₂).trans (binderReleaseWork_pool hrel),
    rfl⟩

theorem binderFreeThread_threads (hrun : binderFreeThread s q th = .ok s') {th' : ThreadId}
    {thr' : Thread} (hthr' : s'.threads th' = some thr') :
    th' ≠ th ∧ ∃ thr, s.threads th' = some thr ∧ thr'.proc = thr.proc := by
  obtain ⟨thr, s₁, hthr, h₁, rfl⟩ := binderFreeThread_pool hrun
  by_cases hne : th' = th
  · simp [hne] at hthr'
  · simp only [Function.update_of_ne hne] at hthr'
    exact ⟨hne, h₁.threadBack hthr'⟩

theorem binderFreeThread_keptFor (hq : q ≠ p)
    (hproc : ∀ thr, s.threads th = some thr → thr.proc = q)
    (hrun : binderFreeThread s q th = .ok s') : PoolKeptFor p s s' := by
  have hback : ∀ {th' thr'}, s'.threads th' = some thr' → th' ≠ th ∧
      ∃ thr, s.threads th' = some thr ∧ thr'.proc = thr.proc := binderFreeThread_threads hrun
  obtain ⟨thr, s₁, hthr, h₁, rfl⟩ := binderFreeThread_pool hrun
  have hkept := h₁.keptFor p
  refine ⟨h₁.nextId, hkept.procs, ?_, ?_, ?_⟩
  · have hof := hkept.threadsOf
    simpa only [Function.update_of_ne hq.symm] using hof
  · intro th' thr' hthr' hp
    have hne : th' ≠ th := by
      rintro rfl
      exact hq ((hproc thr' hthr').symm.trans hp)
    obtain ⟨thr₁, hthr₁, hpool⟩ := hkept.threads hthr' hp
    exact ⟨thr₁, by simpa only [Function.update_of_ne hne] using hthr₁, hpool⟩
  · intro th' thr' hthr' hp
    obtain ⟨-, thr₁, hthr₁, hproc₁⟩ := hback hthr'
    exact ⟨thr₁, hthr₁, hproc₁.symm.trans hp⟩

theorem freeThreads_keptFor (hq : q ≠ p) {ths : List ThreadId}
    (hproc : ∀ th ∈ ths, ∀ thr, s.threads th = some thr → thr.proc = q)
    (hrun : freeThreads q s ths = .ok s') : PoolKeptFor p s s' := by
  induction ths generalizing s with
  | nil =>
      obtain rfl : s = s' := by simpa [freeThreads] using hrun
      exact (PoolKept.refl s).keptFor p
  | cons th ths ih =>
      simp only [freeThreads, except_bind_eq_ok] at hrun
      obtain ⟨s₁, hfree, hrun⟩ := hrun
      have h₁ := binderFreeThread_keptFor hq (hproc th List.mem_cons_self) hfree
      refine h₁.trans (ih (fun th' hth' thr' hthr' => ?_) hrun)
      obtain ⟨-, thr, hthr, hp⟩ := binderFreeThread_threads hfree hthr'
      exact hp.trans (hproc th' (List.mem_cons_of_mem _ hth') thr hthr)

theorem notifyDeath_pool {rs : List RefId} (hrun : notifyDeath s rs = .ok s') : PoolKept s s' := by
  have hrest := (notifyDeath_rest hrun).1
  exact .of_eq (by rw [hrest]) (by rw [hrest]) (by rw [hrest]) (by rw [hrest])

theorem releaseNodes_pool {ns : List NodeId} (hrun : releaseNodes q s ns = .ok s') :
    PoolKept s s' := by
  induction ns generalizing s with
  | nil =>
      obtain rfl : s = s' := by simpa [releaseNodes] using hrun
      exact .refl s
  | cons n ns ih =>
      simp only [releaseNodes, binderNodeRelease, except_bind_eq_ok] at hrun
      obtain ⟨s₁, ⟨nd, -, s₂, hrel, nd₂, -, hnode⟩, hrun⟩ := hrun
      have h₁ : PoolKept s { s with
          nodesOf := Function.update s.nodesOf q ((s.nodesOf q).filter (· ≠ n)) } :=
        .of_eq le_rfl rfl rfl rfl
      have h₂ := (h₁.trans (unlinkNode_pool _ n nd)).trans (binderReleaseWork_pool hrel)
      have h₃ : PoolKept s₂ s₁ := by
        split at hnode
        · simp only [except_pure_eq_ok] at hnode
          exact hnode ▸ .of_eq le_rfl rfl rfl rfl
        · exact (notifyDeath_pool hnode).of_first le_rfl rfl rfl rfl
      exact (h₂.trans h₃).trans (ih hrun)

theorem deleteRefs_pool {rs : List RefId} (hrun : deleteRefs s rs = .ok s') : PoolKept s s' := by
  induction rs generalizing s with
  | nil =>
      obtain rfl : s = s' := by simpa [deleteRefs] using hrun
      exact .refl s
  | cons r rs ih =>
      simp only [deleteRefs, except_bind_eq_ok] at hrun
      obtain ⟨s₁, hdel, hrun⟩ := hrun
      exact (binderDeleteRef_still hdel).pool.trans (ih hrun)

theorem freeBuffers_pool {as : List ℕ} (hrun : freeBuffers L q s as = .ok s') : PoolKept s s' := by
  induction as generalizing s with
  | nil =>
      obtain rfl : s = s' := by simpa [freeBuffers] using hrun
      exact .refl s
  | cons a as ih =>
      simp only [freeBuffers, except_bind_eq_ok] at hrun
      obtain ⟨b, -, s₁, hdetach, ar, -, hrun⟩ := hrun
      have h₁ : PoolKept s (s₁.setArea q ar) :=
        (detachTransaction_pool hdetach).trans (.of_eq le_rfl rfl rfl rfl)
      exact h₁.trans (ih hrun)

/-- The release of a process: only the exit of its threads and the end touch the pool. -/
theorem binderDeferredRelease_pool (hrun : binderDeferredRelease L s q = .ok s') :
    ∃ s₁ s₂ s₃, s₁ = { s with contextMgrNode := s₁.contextMgrNode } ∧
      freeThreads q s₁ (s.threadsOf q) = .ok s₂ ∧ PoolKept s₂ s₃ ∧
      s' = { s₃.setArea q Area.unmapped with procs := Function.update s₃.procs q none } := by
  simp only [binderDeferredRelease, except_bind_eq_ok, except_pure_eq_ok] at hrun
  obtain ⟨_, -, _, -, s₁, hdrop, s₂, hthreads, s₃, hnodes, s₄, hrefs, s₅, hwork, s₆, hdelivered,
    s₇, hbuffers, rfl⟩ := hrun
  have h₁ : s₁ = { s with contextMgrNode := s₁.contextMgrNode } := by
    unfold dropContextMgr at hdrop
    split at hdrop
    · cases hdrop
      rfl
    · simp only [except_bind_eq_ok, except_pure_eq_ok] at hdrop
      obtain ⟨nd, -, rfl⟩ := hdrop
      split <;> rfl
  have hof : s₁.threadsOf q = s.threadsOf q := by rw [h₁]
  rw [hof] at hthreads
  have h₇ := ((((releaseNodes_pool hnodes).trans (deleteRefs_pool hrefs)).trans
    (binderReleaseWork_pool hwork)).trans (binderReleaseWork_pool hdelivered)).trans
      (freeBuffers_pool hbuffers)
  exact ⟨s₁, s₂, s₇, h₁, hthreads, h₇, rfl⟩

theorem binderDeferredRelease_keptFor (hs : Coherent L none s) (hq : q ≠ p)
    (hrun : binderDeferredRelease L s q = .ok s') : PoolKeptFor p s s' := by
  obtain ⟨s₁, s₂, s₃, h₁, hthreads, h₃, rfl⟩ := binderDeferredRelease_pool hrun
  have hkept₁ : PoolKept s s₁ := by
    rw [h₁]
    exact .of_eq le_rfl rfl rfl rfl
  have hkept₂ : PoolKeptFor p s₁ s₂ := by
    refine freeThreads_keptFor hq (fun th hth thr hthr => ?_) hthreads
    rw [h₁] at hthr
    exact (hs.threadsOf hth).2 thr hthr
  refine ((hkept₁.keptFor p).trans hkept₂).trans ((h₃.keptFor p).trans ?_)
  refine ⟨le_rfl, ?_, rfl, fun hthr _ => ⟨_, hthr, rfl⟩, fun hthr hp => ⟨_, hthr, hp⟩⟩
  simp only [Function.update_of_ne hq.symm]

end KeptFor

end Driver

end BinderForLinux
