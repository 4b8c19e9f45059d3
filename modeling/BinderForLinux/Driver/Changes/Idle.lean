import BinderForLinux.Driver.Changes
import BinderForLinux.Driver.Write

/-!
# The idle part of the driver

Stacks, error codes, work lists, death notifications and loopers: the functions
that leave the tables of nodes and references and the contents of all buffers as
they are.
-/

namespace BinderForLinux

namespace Driver

open Library

section Idle

variable {L : Layout} {s s' : State}

/-! ### Single updates -/

theorem Grounded.idle_misc (h : Grounded L s) {k : ℕ} {procs : ProcId → Option Proc}
    {deaths : DeathId → Option Death} {txns : TxnId → Option Transaction}
    {files : ProcId → Option (ℕ → Option File)} {td : Queue → List Work} {uid : Option ℕ}
    (hk : s.nextId ≤ k)
    (htd : ∀ n q, .node n ∈ td q → .node n ∈ s.todo q) :
    Idle L s { s with
      nextId := k
      procs := procs
      deaths := deaths
      txns := txns
      files := files
      todo := td
      contextMgrUid := uid } where
  nextId := hk
  nodes := rfl
  nodesOf := rfl
  refsByDesc := rfl
  refsByNode := rfl
  deadNodes := rfl
  contextMgrNode := rfl
  refs := fun _ => rfl
  nodeItems := fun n q hmem => ⟨htd n q hmem, by cases q <;> rfl⟩
  areas := h.areas
  threads_lt := fun hth => (h.threads_lt hth).trans_le hk
  threadProcs := fun _ hth => ⟨_, hth, rfl⟩
  threadsOf := .inl
  contents := rfl

theorem Grounded.idle_setTxn (h : Grounded L s) (t : TxnId) (tx : Transaction) :
    Idle L s (s.setTxn t tx) :=
  h.idle_misc le_rfl fun _ _ hmem => hmem

theorem Grounded.idle_setProc (h : Grounded L s) (p : ProcId) (pr : Proc) :
    Idle L s (s.setProc p pr) :=
  h.idle_misc le_rfl fun _ _ hmem => hmem

theorem Grounded.idle_setDeath (h : Grounded L s) (i : DeathId) (de : Death) :
    Idle L s (s.setDeath i de) :=
  h.idle_misc le_rfl fun _ _ hmem => hmem

theorem mem_update_todo {td : Queue → List Work} {q q' : Queue} {ws : List Work} {w : Work}
    (hmem : w ∈ Function.update td q ws q') (hws : w ∈ ws → w ∈ td q) : w ∈ td q' := by
  by_cases hq : q' = q
  · subst hq
    rw [Function.update_self] at hmem
    exact hws hmem
  · rwa [Function.update_of_ne hq] at hmem

theorem Grounded.idle_listAddTail (h : Grounded L s) (q : Queue) {w : Work}
    (hw : ∀ n, w ≠ .node n) : Idle L s (s.listAddTail q w) := by
  refine h.idle_misc le_rfl fun n q' hmem => mem_update_todo hmem fun hm => ?_
  rcases List.mem_append.mp hm with hm | hm
  · exact hm
  · exact absurd (List.mem_singleton.mp hm).symm (hw n)

theorem Grounded.idle_listDel (h : Grounded L s) (q : Queue) (w : Work) :
    Idle L s (s.listDel q w) :=
  h.idle_misc le_rfl fun _ _ hmem => mem_update_todo hmem List.mem_of_mem_filter

theorem Grounded.idle_setTodo (h : Grounded L s) {q : Queue} {ws : List Work}
    (hws : ∀ n, .node n ∈ ws → .node n ∈ s.todo q) : Idle L s (s.setTodo q ws) :=
  h.idle_misc le_rfl fun n _ hmem => mem_update_todo hmem (hws n)

theorem Grounded.idle_setThread (h : Grounded L s) {th : ThreadId} {thr thr' : Thread}
    (hth : s.threads th = some thr) (hproc : thr'.proc = thr.proc) :
    Idle L s (s.setThread th thr') where
  nextId := le_rfl
  nodes := rfl
  nodesOf := rfl
  refsByDesc := rfl
  refsByNode := rfl
  deadNodes := rfl
  contextMgrNode := rfl
  refs := fun _ => rfl
  nodeItems := by
    refine fun n q hmem => ⟨hmem, ?_⟩
    cases q with
    | thread th' =>
        by_cases heq : th' = th
        · subst heq
          simp [State.queueOwner, State.setThread, hth, hproc]
        · simp [State.queueOwner, State.setThread, heq]
    | _ => rfl
  areas := h.areas
  threads_lt := by
    intro th' thr₁ hth'
    by_cases heq : th' = th
    · subst heq
      exact h.threads_lt hth
    · simp only [State.setThread, Function.update_of_ne heq] at hth'
      exact h.threads_lt hth'
  threadProcs := by
    intro th' thr₁ _ hth'
    by_cases heq : th' = th
    · subst heq
      simp only [State.setThread, Function.update_self, Option.some.injEq] at hth'
      subst hth'
      exact ⟨thr, hth, hproc⟩
    · simp only [State.setThread, Function.update_of_ne heq] at hth'
      exact ⟨thr₁, hth', rfl⟩
  threadsOf := .inl
  contents := rfl

theorem Grounded.idle_setRefDeath (h : Grounded L s) {r : RefId} {rf : Ref}
    (hrf : s.refs r = some rf) (x : Option DeathId) :
    Idle L s (s.setRef r { rf with death := x }) where
  nextId := le_rfl
  nodes := rfl
  nodesOf := rfl
  refsByDesc := rfl
  refsByNode := rfl
  deadNodes := rfl
  contextMgrNode := rfl
  refs := map_update_of_eq hrf rfl
  nodeItems := fun n q hmem => ⟨hmem, by cases q <;> rfl⟩
  areas := h.areas
  threads_lt := h.threads_lt
  threadProcs := fun _ hth => ⟨_, hth, rfl⟩
  threadsOf := .inl
  contents := rfl

/-- What the list of buffers depends on. -/
structure KeepsBuffer (f : Buffer → Buffer) : Prop where
  addr : ∀ b, (f b).addr = b.addr
  free : ∀ b, (f b).free = b.free
  needed : ∀ b, (f b).needed = b.needed

theorem liveBuffers_modifyBuffer {f : Buffer → Buffer} (hf : KeepsBuffer f) (a : ℕ)
    (bs : List Buffer) :
    liveBuffers (modifyBuffer a f bs) = modifyBuffer a f (liveBuffers bs) := by
  simp only [liveBuffers, modifyBuffer, List.filter_map]
  congr 1
  refine List.filter_congr fun b _ => ?_
  simp only [Function.comp]
  split
  · rw [hf.free]
  · rfl

theorem AreaOk.modifyBuffer {ar : Area} (h : AreaOk L ar) (a : ℕ) {f : Buffer → Buffer}
    (hf : KeepsBuffer f) : AreaOk L { ar with buffers := modifyBuffer a f ar.buffers } := by
  rcases h with rfl | ⟨hsound, hpos⟩
  · exact .inl rfl
  · exact .inr ⟨hsound.modifyBuffer a hf.addr hf.free hf.needed, hpos⟩

theorem TablesKept.setArea (h : Grounded L s) {p : ProcId} {ar : Area} (har : AreaOk L ar) :
    TablesKept L s (s.setArea p ar) where
  nextId := le_rfl
  nodes := rfl
  nodesOf := rfl
  refsByDesc := rfl
  refsByNode := rfl
  deadNodes := rfl
  contextMgrNode := rfl
  refs := fun _ => rfl
  nodeItems := fun n q hmem => ⟨hmem, by cases q <;> rfl⟩
  areas := by
    intro q
    by_cases hq : q = p
    · subst hq
      simpa [State.setArea] using har
    · simpa [State.setArea, hq] using h.areas q
  threads_lt := h.threads_lt
  threadProcs := fun _ hth => ⟨_, hth, rfl⟩
  threadsOf := .inl

theorem contents_setArea_of_eq {p : ProcId} {ar : Area}
    (har : (liveBuffers ar.buffers).map Buffer.content = s.contents p) :
    (s.setArea p ar).contents = s.contents := by
  funext q
  by_cases hq : q = p
  · subst hq
    simpa [State.contents, State.setArea] using har
  · simp [State.contents, State.setArea, hq]

theorem Grounded.idle_updateBuffer (h : Grounded L s) (p : ProcId) (a : ℕ)
    {f : Buffer → Buffer} (hf : KeepsBuffer f) (hcontent : ∀ b, (f b).content = b.content) :
    Idle L s (s.updateBuffer p a f) := by
  refine ⟨TablesKept.setArea h ((h.areas p).modifyBuffer a hf), contents_setArea_of_eq ?_⟩
  rw [liveBuffers_modifyBuffer hf, State.contents, modifyBuffer, List.map_map]
  refine List.map_congr_left fun b _ => ?_
  simp only [Function.comp]
  split
  · exact hcontent b
  · rfl

theorem derefBuffer_eq_ok {p : ProcId} {a : ℕ} {b : Buffer} :
    derefBuffer s p a = .ok b ↔ findBuffer (s.area p).buffers a = some b ∧ b.free = false := by
  unfold derefBuffer
  cases hfind : findBuffer (s.area p).buffers a with
  | none => simp
  | some c =>
      cases hc : c.free with
      | false =>
          simp only [hc, Bool.false_eq_true, ↓reduceIte, Except.ok.injEq, Option.some.injEq]
          exact ⟨fun heq => ⟨heq, heq ▸ hc⟩, And.left⟩
      | true =>
          simp only [hc, ↓reduceIte, reduceCtorEq, Option.some.injEq, false_iff]
          rintro ⟨rfl, hfree⟩
          simp [hc] at hfree

/-! ### Stacks and errors -/

theorem keepsBuffer_transaction (x : Option TxnId) :
    KeepsBuffer fun b => { b with transaction := x } :=
  ⟨fun _ => rfl, fun _ => rfl, fun _ => rfl⟩

theorem detachBuffer_idle (h : Grounded L s) {buffer : Option (ProcId × ℕ)}
    (hrun : detachBuffer s buffer = .ok s') : Idle L s s' := by
  rcases buffer with _ | ⟨p, a⟩
  · obtain rfl : s = s' := by simpa [detachBuffer] using hrun
    exact Idle.refl h
  · simp only [detachBuffer, except_bind_eq_ok, except_pure_eq_ok] at hrun
    obtain ⟨_, _, rfl⟩ := hrun
    exact h.idle_updateBuffer p a (keepsBuffer_transaction none) fun _ => rfl

theorem freeTxn_idle (h : Grounded L s) {t : TxnId} (hrun : freeTxn s t = .ok s') :
    Idle L s s' := by
  simp only [freeTxn, except_bind_eq_ok, deref_eq_ok, except_pure_eq_ok] at hrun
  obtain ⟨tx, _, s₁, hdetach, rfl⟩ := hrun
  have h₁ := detachBuffer_idle h hdetach
  exact h₁.trans (h₁.grounded.idle_misc le_rfl fun _ _ hmem => hmem)

theorem popStack_idle (h : Grounded L s) {target : Option ThreadId} {t : TxnId}
    (hrun : popStack s target t = .ok s') : Idle L s s' := by
  cases target with
  | none =>
      obtain rfl : s = s' := by simpa [popStack] using hrun
      exact Idle.refl h
  | some th =>
      simp only [popStack, except_bind_eq_ok, deref_eq_ok, except_pure_eq_ok] at hrun
      obtain ⟨thr, hth, _, _, tx, _, _, _, rfl⟩ := hrun
      exact h.idle_setThread hth rfl

theorem binderPopTransaction_idle (h : Grounded L s) {target : Option ThreadId} {t : TxnId}
    (hrun : binderPopTransaction s target t = .ok s') : Idle L s s' := by
  simp only [binderPopTransaction, except_bind_eq_ok] at hrun
  obtain ⟨s₁, hpop, hfree⟩ := hrun
  have h₁ := popStack_idle h hpop
  exact h₁.trans (freeTxn_idle h₁.grounded hfree)

theorem failReplyTo_idle (h : Grounded L s) {th : ThreadId} {thr : Thread} {t : TxnId}
    {e : ReturnError} (hrun : failReplyTo s th thr t e = .ok s') : Idle L s s' := by
  unfold failReplyTo at hrun
  split at hrun
  · obtain rfl : s = s' := by simpa using hrun
    exact Idle.refl h
  · simp only [except_bind_eq_ok, deref_eq_ok, except_pure_eq_ok] at hrun
    obtain ⟨s₁, hpop, thr₁, hth₁, rfl⟩ := hrun
    have h₁ := binderPopTransaction_idle h hpop
    exact h₁.trans (h₁.grounded.idle_setThread hth₁ rfl)

@[simp] theorem Thread.shiftError_proc (thr : Thread) : thr.shiftError.proc = thr.proc := by
  unfold Thread.shiftError
  split <;> rfl

theorem failedReplyLoop_idle (h : Grounded L s) {fuel : ℕ} {t : TxnId} {e : ReturnError}
    (hrun : failedReplyLoop fuel s t e = .ok s') : Idle L s s' := by
  induction fuel generalizing s t with
  | zero => cases hrun
  | succ fuel ih =>
      simp only [failedReplyLoop, except_bind_eq_ok, deref_eq_ok] at hrun
      obtain ⟨tx, htx, hrun⟩ := hrun
      cases hfrom : tx.fromThread with
      | some th =>
          simp only [hfrom, except_bind_eq_ok, deref_eq_ok] at hrun
          obtain ⟨thr, hth, hrun⟩ := hrun
          have h₁ : Idle L s (s.setThread th thr.shiftError) := h.idle_setThread hth (by simp)
          exact h₁.trans (failReplyTo_idle h₁.grounded hrun)
      | none =>
          simp only [hfrom, except_bind_eq_ok] at hrun
          obtain ⟨s₁, hpop, hrun⟩ := hrun
          have h₁ := binderPopTransaction_idle h hpop
          cases hparent : tx.fromParent with
          | none =>
              obtain rfl : s₁ = s' := by simpa [hparent] using hrun
              exact h₁
          | some next =>
              simp only [hparent] at hrun
              exact h₁.trans (ih h₁.grounded hrun)

theorem binderSendFailedReply_idle (h : Grounded L s) {t : TxnId} {e : ReturnError}
    (hrun : binderSendFailedReply s t e = .ok s') : Idle L s s' := by
  simp only [binderSendFailedReply, except_bind_eq_ok, deref_eq_ok] at hrun
  obtain ⟨tx, _, _, _, hrun⟩ := hrun
  exact failedReplyLoop_idle h hrun

theorem transactionFailed_idle (h : Grounded L s) {th : ThreadId} {e : ReturnError}
    {irt : Option TxnId} (hrun : transactionFailed s th e irt = .ok s') : Idle L s s' := by
  simp only [transactionFailed, except_bind_eq_ok, deref_eq_ok] at hrun
  obtain ⟨thr, hth, _, _, hrun⟩ := hrun
  cases irt with
  | some irt =>
      have h₁ : Idle L s (s.setThread th { thr with returnError := .transactionComplete }) :=
        h.idle_setThread hth rfl
      exact h₁.trans (binderSendFailedReply_idle h₁.grounded hrun)
  | none =>
      simp only [except_pure_eq_ok] at hrun
      subst hrun
      exact h.idle_setThread hth rfl

theorem selectReplyTarget_idle (h : Grounded L s) {th : ThreadId} {sel : Selection}
    (hrun : selectReplyTarget s th = .ok (sel, s')) : Idle L s s' := by
  simp only [selectReplyTarget, except_bind_eq_ok, deref_eq_ok] at hrun
  obtain ⟨thr, hth, hrun⟩ := hrun
  cases hstack : thr.transactionStack with
  | none =>
      simp only [hstack, except_pure_eq_ok, Prod.mk.injEq] at hrun
      exact hrun.2 ▸ Idle.refl h
  | some irt =>
      simp only [hstack, except_bind_eq_ok, deref_eq_ok] at hrun
      obtain ⟨tx, htx, hrun⟩ := hrun
      split at hrun
      · simp only [except_pure_eq_ok, Prod.mk.injEq] at hrun
        exact hrun.2 ▸ Idle.refl h
      · have h₁ : Idle L s (s.setThread th { thr with transactionStack := tx.toParent }) :=
          h.idle_setThread hth rfl
        split at hrun
        · simp only [except_pure_eq_ok, Prod.mk.injEq] at hrun
          exact hrun.2 ▸ h₁
        · simp only [except_bind_eq_ok, deref_eq_ok] at hrun
          obtain ⟨tthr, htth, hrun⟩ := hrun
          split at hrun
          · simp only [except_pure_eq_ok, Prod.mk.injEq] at hrun
            exact hrun.2 ▸ h₁
          · simp only [except_pure_eq_ok, Prod.mk.injEq] at hrun
            exact hrun.2 ▸ h₁

theorem selectTarget_idle (h : Grounded L s) {p : ProcId} {th : ThreadId}
    {tr : TransactionData} {reply : Bool} {env : TxnEnv} {sel : Selection}
    (hrun : selectTarget s p th tr reply env = .ok (sel, s')) : Idle L s s' := by
  cases reply with
  | true => exact selectReplyTarget_idle h hrun
  | false =>
      simp only [selectTarget, Bool.false_eq_true, ↓reduceIte, except_bind_eq_ok,
        except_pure_eq_ok, Prod.mk.injEq] at hrun
      obtain ⟨_, _, -, rfl⟩ := hrun
      exact Idle.refl h

theorem detachTransaction_idle (h : Grounded L s) {p : ProcId} {b : Buffer}
    (hrun : detachTransaction s p b = .ok s') : Idle L s s' := by
  cases htxn : b.transaction with
  | none =>
      obtain rfl : s = s' := by simpa [detachTransaction, htxn] using hrun
      exact Idle.refl h
  | some t =>
      simp only [detachTransaction, htxn, except_bind_eq_ok, deref_eq_ok,
        except_pure_eq_ok] at hrun
      obtain ⟨tx, _, rfl⟩ := hrun
      have h₁ := h.idle_setTxn t { tx with buffer := none }
      exact h₁.trans (h₁.grounded.idle_updateBuffer p b.addr (keepsBuffer_transaction none)
        fun _ => rfl)

/-! ### Loopers and death notifications -/

theorem registerLooperCommand_idle (h : Grounded L s) {p : ProcId} {th : ThreadId}
    (hrun : registerLooperCommand s p th = .ok s') : Idle L s s' := by
  simp only [registerLooperCommand, except_bind_eq_ok, deref_eq_ok] at hrun
  obtain ⟨thr, hth, pr, hpr, hrun⟩ := hrun
  split at hrun
  · simp only [except_pure_eq_ok] at hrun
    subst hrun
    exact h.idle_setThread hth rfl
  · simp only [except_pure_eq_ok] at hrun
    subst hrun
    have h₁ := h.idle_setProc p { pr with
      requestedThreads := pr.requestedThreads - 1
      requestedThreadsStarted := pr.requestedThreadsStarted + 1 }
    exact h₁.trans (h₁.grounded.idle_setThread hth rfl)

theorem enterLooperCommand_idle (h : Grounded L s) {th : ThreadId}
    (hrun : enterLooperCommand s th = .ok s') : Idle L s s' := by
  simp only [enterLooperCommand, except_bind_eq_ok, deref_eq_ok, except_pure_eq_ok] at hrun
  obtain ⟨thr, hth, rfl⟩ := hrun
  exact h.idle_setThread hth rfl

theorem exitLooperCommand_idle (h : Grounded L s) {th : ThreadId}
    (hrun : exitLooperCommand s th = .ok s') : Idle L s s' := by
  simp only [exitLooperCommand, except_bind_eq_ok, deref_eq_ok, except_pure_eq_ok] at hrun
  obtain ⟨thr, hth, rfl⟩ := hrun
  exact h.idle_setThread hth rfl

theorem queueDeath_idle (h : Grounded L s) (i : DeathId) (de : Death) (ty : DeathWork)
    (q : Queue) : Idle L s (queueDeath s i de ty q) := by
  have h₁ := h.idle_setDeath i { de with workType := ty, entry := some q }
  exact h₁.trans (h₁.grounded.idle_listAddTail q (by simp))

theorem requestDeathCommand_idle (h : Grounded L s) {p : ProcId} {th : ThreadId}
    {handle cookie : ℕ} {alloc : Bool}
    (hrun : requestDeathCommand s p th handle cookie alloc = .ok s') : Idle L s s' := by
  simp only [requestDeathCommand] at hrun
  cases hget : binderGetRef s p handle with
  | none =>
      obtain rfl : s = s' := by simpa [hget] using hrun
      exact Idle.refl h
  | some r =>
      simp only [hget, except_bind_eq_ok, deref_eq_ok] at hrun
      obtain ⟨rf, hrf, thr, hth, hrun⟩ := hrun
      split at hrun
      · obtain rfl : s = s' := by simpa using hrun
        exact Idle.refl h
      · split at hrun
        · simp only [except_pure_eq_ok] at hrun
          subst hrun
          exact h.idle_setThread hth rfl
        · simp only [except_bind_eq_ok, deref_eq_ok] at hrun
          obtain ⟨nd, hnd, hrun⟩ := hrun
          have h₁ : Idle L s ({ s with nextId := s.nextId + 1 }.setDeath s.nextId
              { cookie := cookie, workType := .deadBinder, entry := none }) :=
            h.idle_misc (Nat.le_succ _) fun _ _ hmem => hmem
          have h₂ := h₁.trans (h₁.grounded.idle_setRefDeath (r := r) hrf (some s.nextId))
          split at hrun
          · simp only [except_pure_eq_ok] at hrun
            subst hrun
            exact h₂.trans (queueDeath_idle h₂.grounded _ _ _ _)
          · simp only [except_pure_eq_ok] at hrun
            subst hrun
            exact h₂

theorem clearDeathCommand_idle (h : Grounded L s) {p : ProcId} {th : ThreadId}
    {handle cookie : ℕ} (hrun : clearDeathCommand s p th handle cookie = .ok s') :
    Idle L s s' := by
  simp only [clearDeathCommand] at hrun
  cases hget : binderGetRef s p handle with
  | none =>
      obtain rfl : s = s' := by simpa [hget] using hrun
      exact Idle.refl h
  | some r =>
      simp only [hget, except_bind_eq_ok, deref_eq_ok] at hrun
      obtain ⟨rf, hrf, thr, hth, hrun⟩ := hrun
      cases hdeath : rf.death with
      | none =>
          obtain rfl : s = s' := by simpa [hdeath] using hrun
          exact Idle.refl h
      | some i =>
          simp only [hdeath, except_bind_eq_ok, deref_eq_ok] at hrun
          obtain ⟨de, hde, hrun⟩ := hrun
          split at hrun
          · obtain rfl : s = s' := by simpa using hrun
            exact Idle.refl h
          · have h₁ := h.idle_setRefDeath hrf none
            split at hrun
            · simp only [except_pure_eq_ok] at hrun
              subst hrun
              exact h₁.trans (queueDeath_idle h₁.grounded _ _ _ _)
            · simp only [except_bind_eq_ok, except_pure_eq_ok] at hrun
              obtain ⟨_, _, rfl⟩ := hrun
              exact h₁.trans (h₁.grounded.idle_setDeath _ _)

theorem unlinkDeath_idle (h : Grounded L s) (i : DeathId) (de : Death) :
    Idle L s (unlinkDeath s i de) := by
  unfold unlinkDeath
  split
  · exact h.idle_listDel _ _
  · exact Idle.refl h

theorem deadBinderDoneCommand_idle (h : Grounded L s) {p : ProcId} {th : ThreadId} {cookie : ℕ}
    (hrun : deadBinderDoneCommand s p th cookie = .ok s') : Idle L s s' := by
  simp only [deadBinderDoneCommand, except_bind_eq_ok, deref_eq_ok] at hrun
  obtain ⟨thr, hth, hrun⟩ := hrun
  cases hfind : findDelivered s p cookie with
  | none =>
      obtain rfl : s = s' := by simpa [hfind] using hrun
      exact Idle.refl h
  | some i =>
      simp only [hfind, except_bind_eq_ok, deref_eq_ok] at hrun
      obtain ⟨de, hde, hrun⟩ := hrun
      have h₁ := unlinkDeath_idle h i de
      have h₂ := h₁.trans (h₁.grounded.idle_setDeath i { de with entry := none })
      split at hrun
      · simp only [except_pure_eq_ok] at hrun
        subst hrun
        exact h₂
      · simp only [except_pure_eq_ok] at hrun
        subst hrun
        exact h₂.trans (queueDeath_idle h₂.grounded _ _ _ _)

theorem readDeath_idle (h : Grounded L s) {p : ProcId} {q : Queue} {i : DeathId} {ptr : ℕ}
    {writable : ℕ → Bool} {x : Option (ℕ × List ReturnCommand)} {done : Bool}
    (hrun : readDeath s p q i ptr writable = .ok (x, done, s')) : Idle L s s' := by
  simp only [readDeath, except_bind_eq_ok, deref_eq_ok] at hrun
  obtain ⟨de, hde, hrun⟩ := hrun
  split at hrun
  · simp only [except_pure_eq_ok, Prod.mk.injEq] at hrun
    exact hrun.2.2 ▸ Idle.refl h
  · have h₁ := h.idle_listDel q (.death i)
    split at hrun
    · simp only [except_pure_eq_ok, Prod.mk.injEq] at hrun
      obtain ⟨-, -, rfl⟩ := hrun
      exact h₁.trans (h₁.grounded.idle_misc le_rfl fun _ _ hmem => hmem)
    · simp only [except_pure_eq_ok, Prod.mk.injEq] at hrun
      obtain ⟨-, -, rfl⟩ := hrun
      have h₂ := h₁.trans (h₁.grounded.idle_setDeath i
        { de with entry := some (.deliveredDeath p) })
      refine h₂.trans (h₂.grounded.idle_setTodo fun n hmem => ?_)
      simpa using hmem

/-! ### Reading -/

theorem ioctlReturn_idle (h : Grounded L s) {th : ThreadId}
    (hrun : ioctlReturn s th = .ok s') : Idle L s s' := by
  simp only [ioctlReturn, except_bind_eq_ok, deref_eq_ok, except_pure_eq_ok] at hrun
  obtain ⟨thr, hth, rfl⟩ := hrun
  exact h.idle_setThread hth rfl

theorem readDone_idle (h : Grounded L s) {p : ProcId} {th : ThreadId} {out : List ReturnCommand}
    {writable : ℕ → Bool} (hrun : readDone s p th out writable = .ok s') : Idle L s s' := by
  simp only [readDone, except_bind_eq_ok, deref_eq_ok] at hrun
  obtain ⟨thr, hth, pr, hpr, hrun⟩ := hrun
  split at hrun
  · suffices hmid : Idle L s _ from hmid.trans (ioctlReturn_idle hmid.grounded hrun)
    have h₁ := h.idle_setProc p { pr with requestedThreads := pr.requestedThreads + 1 }
    exact h₁.trans (h₁.grounded.idle_setThread hth rfl)
  · suffices hmid : Idle L s _ from hmid.trans (ioctlReturn_idle hmid.grounded hrun)
    exact h.idle_setThread hth rfl

theorem readRetry_idle (h : Grounded L s) {p : ProcId} {th : ThreadId} {size ptr : ℕ}
    {out : List ReturnCommand} {writable : ℕ → Bool}
    (hrun : readRetry s p th size ptr out writable = .ok s') : Idle L s s' := by
  simp only [readRetry, except_bind_eq_ok, deref_eq_ok] at hrun
  obtain ⟨thr, hth, hrun⟩ := hrun
  split at hrun
  · split at hrun
    · split at hrun
      · exact ioctlReturn_idle h hrun
      · split at hrun
        · exact readDone_idle h hrun
        · have h₁ : Idle L s (s.setThread th { thr with returnError2 := .ok }) :=
            h.idle_setThread hth rfl
          split at hrun
          · exact h₁.trans (ioctlReturn_idle h₁.grounded hrun)
          · have h₂ : Idle L s ((s.setThread th { thr with returnError2 := .ok }).setThread th
                { thr with returnError2 := .ok, returnError := .ok }) :=
              h₁.trans (h₁.grounded.idle_setThread (Function.update_self ..) rfl)
            exact h₂.trans (readDone_idle h₂.grounded hrun)
    · split at hrun
      · exact ioctlReturn_idle h hrun
      · have h₁ : Idle L s (s.setThread th { thr with returnError := .ok }) :=
          h.idle_setThread hth rfl
        exact h₁.trans (readDone_idle h₁.grounded hrun)
  · simp only [except_bind_eq_ok, deref_eq_ok, except_pure_eq_ok] at hrun
    obtain ⟨pr, hpr, rfl⟩ := hrun
    split
    · have h₁ := h.idle_setProc p { pr with readyThreads := pr.readyThreads + 1 }
      exact h₁.trans (h₁.grounded.idle_setThread hth rfl)
    · exact h.idle_setThread hth rfl

theorem readTransaction_idle (h : Grounded L s) {p : ProcId} {th : ThreadId} {q : Queue}
    {t : TxnId} {ptr : ℕ} {writable : ℕ → Bool} {x : Option (ℕ × List ReturnCommand)}
    (hrun : readTransaction L s p th q t ptr writable = .ok (x, s')) : Idle L s s' := by
  simp only [readTransaction, except_bind_eq_ok, deref_eq_ok] at hrun
  obtain ⟨tx, htx, hrun⟩ := hrun
  split at hrun
  · cases hrun
  · rename_i bp a hbuf
    simp only [except_bind_eq_ok] at hrun
    obtain ⟨b, _, tr, _, hrun⟩ := hrun
    split at hrun
    · simp only [except_pure_eq_ok, Prod.mk.injEq] at hrun
      exact hrun.2 ▸ Idle.refl h
    · have h₁ := h.idle_listDel q (.transaction t)
      have h₂ := h₁.trans (h₁.grounded.idle_updateBuffer bp a
        (f := fun b => { b with allowUserFree := true })
        ⟨fun _ => rfl, fun _ => rfl, fun _ => rfl⟩ fun _ => rfl)
      split at hrun
      · simp only [except_bind_eq_ok, deref_eq_ok, except_pure_eq_ok, Prod.mk.injEq] at hrun
        obtain ⟨thr, hth, -, rfl⟩ := hrun
        have h₃ := h₂.trans (h₂.grounded.idle_setTxn t
          { tx with toParent := thr.transactionStack, toThread := some th })
        exact h₃.trans (h₃.grounded.idle_setThread hth rfl)
      · simp only [except_bind_eq_ok, except_pure_eq_ok, Prod.mk.injEq] at hrun
        obtain ⟨s₁, hfree, -, rfl⟩ := hrun
        exact h₂.trans (freeTxn_idle h₂.grounded hfree)

end Idle

end Driver

end BinderForLinux
