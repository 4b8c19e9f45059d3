import BinderForLinux.Driver.Calm

/-!
# What a transaction does

A transaction that fails is calm. One that succeeds takes a buffer, translates its
objects, and is then queued for its target together with its acknowledgement for
the sender; just before, a call is pushed on the stack of the sender, a one-way
transaction takes or waits for the turn of its node, and a reply ends the call that
it answers.
-/

namespace BinderForLinux

namespace Driver

open Library

def Target.queue (tg : Target) : Queue :=
  match tg.thread with
  | some th => .thread th
  | none => .proc tg.proc

/-- The transaction `tx` and its acknowledgement for the thread `th` are queued, and
its buffer `b` at `x` is filled. -/
structure Queued (s s' : State) (th : ThreadId) (t : TxnId) (tg : Target) (tx : Transaction)
    (b : Buffer) (x : ProcId × ℕ) (q : Queue) : Prop where
  fresh : s.txns t = none
  lt : t < s.nextId
  idle : ∃ b₀, s.live x = some b₀ ∧ b₀.idle
  rest : s' = { s with
    txns := Function.update s.txns t (some tx)
    area := s'.area
    todo := ((s.listAddTail q (.transaction t)).listAddTail (.thread th)
      (.transactionComplete t)).todo }
  live : s'.live = Function.update s.live x (some b)
  buffer : tx.buffer = some x
  transaction : b.transaction = some t
  agrees : tx.Matches b
  unread : b.allowUserFree = false
  node : b.targetNode = tg.node
  place : x.1 = tg.proc
  toProc : tx.toProc = some tg.proc
  toThread : tx.toThread = tg.thread
  toParent : tx.toParent = none

/-- The thread that is addressed belongs to the process that is. -/
def Target.Addressed (tg : Target) (s : State) : Prop :=
  ∀ th, tg.thread = some th → ∃ thr, s.threads th = some thr ∧ thr.proc = tg.proc

/-- What a transaction of the thread `th` of `p` does, with `t` as its number if it is
queued. -/
inductive Transacted (s : State) (p : ProcId) (th : ThreadId) (t : TxnId) : State → Prop
  | failed {s' : State} (h : Calm s s') : Transacted s p th t s'
  | call {s₁ s' : State} {thr : Thread} {tg : Target} {tx : Transaction} {b : Buffer}
      {x : ProcId × ℕ} {n : NodeId} (h : Calm s s₁) (haddr : tg.Addressed s₁)
      (hthr : s₁.threads th = some thr)
      (hq : Queued (s₁.setThread th { thr with transactionStack := some t }) s' th t tg tx b x
        tg.queue)
      (hnode : tg.node = some n) (hsender : tx.sender = p) (hfrom : tx.fromThread = some th)
      (hparent : tx.fromParent = thr.transactionStack) (hreply : tx.needReply = true) :
      Transacted s p th t s'
  /-- A one-way transaction to a node that has none. -/
  | oneWay {s₁ s' : State} {tg : Target} {tx : Transaction} {b : Buffer} {x : ProcId × ℕ}
      {n : NodeId} {nd : Node} (h : Calm s s₁) (hnode : tg.node = some n)
      (hnd : s₁.nodes n = some nd) (hlt : n < s₁.nextId) (hproc : nd.proc = some tg.proc)
      (hasync : nd.hasAsyncTransaction = false)
      (hq : Queued (s₁.setNode n { nd with hasAsyncTransaction := true }) s' th t tg tx b x
        (.proc tg.proc))
      (hsender : tx.sender = p) (hfrom : tx.fromThread = none) (hparent : tx.fromParent = none)
      (hflags : tfOneWay tx.flags = true) :
      Transacted s p th t s'
  /-- A one-way transaction that waits for the one before it. -/
  | waiting {s₁ s' : State} {tg : Target} {tx : Transaction} {b : Buffer} {x : ProcId × ℕ}
      {n : NodeId} {nd : Node} (h : Calm s s₁) (hnode : tg.node = some n)
      (hnd : s₁.nodes n = some nd) (hlt : n < s₁.nextId) (hproc : nd.proc = some tg.proc)
      (hasync : nd.hasAsyncTransaction = true)
      (hq : Queued s₁ s' th t tg tx b x (.async n)) (hsender : tx.sender = p)
      (hfrom : tx.fromThread = none) (hparent : tx.fromParent = none)
      (hflags : tfOneWay tx.flags = true) :
      Transacted s p th t s'
  | reply {s₁ s' : State} {tg : Target} {tx : Transaction} {b : Buffer} {x : ProcId × ℕ}
      {target : ThreadId} {irt : TxnId} (h : Calm s s₁) (haddr : tg.Addressed s₁)
      (hnode : tg.node = none) (hthread : tg.thread = some target)
      (hq : Queued s₁ s' th t tg tx b x (.thread target)) (hsender : tx.sender = p)
      (hfrom : tx.fromThread = none) (hparent : tx.fromParent = none)
      (hirt : s₁.txns irt = none) : Transacted s p th t s'

section Queued

variable {s s' : State} {th : ThreadId} {t : TxnId} {tg : Target} {tx : Transaction} {b : Buffer}
  {x : ProcId × ℕ} {q : Queue}

theorem Queued.linked (hq : Queued s s' th t tg tx b x q) (hs : Linked s)
    (hcall : ∀ u, s.Mentions u → tx.needReply = true ∨ u ≠ t)
    (hparent : ∀ u, tx.fromParent = some u → s.IsCall u ∧ tx.needReply = true) : Linked s' := by
  have htxns : s'.txns = Function.update s.txns t (some tx) := by rw [hq.rest]
  obtain ⟨b₀, hb₀, hidle⟩ := hq.idle
  have hcall' : ∀ {u}, s.IsCall u → tx.needReply = true ∨ u ≠ t → s'.IsCall u := by
    intro u hu hor
    refine ⟨by rw [hq.rest]; exact hu.1, fun ux hux => ?_⟩
    rw [htxns] at hux
    by_cases hut : u = t
    · subst hut
      simp only [Function.update_self, Option.some.injEq] at hux
      rcases hor with hreply | hne
      · exact hux ▸ hreply
      · exact absurd rfl hne
    · rw [Function.update_of_ne hut] at hux
      exact hu.2 ux hux
  refine ⟨?_, ?_, ?_, ?_, ?_⟩
  · intro u ux y hux hy
    rw [htxns] at hux
    by_cases hut : u = t
    · subst hut
      simp only [Function.update_self, Option.some.injEq] at hux
      subst hux
      rw [hq.buffer] at hy
      cases hy
      exact ⟨b, by rw [hq.live, Function.update_self], hq.transaction, hq.agrees⟩
    · rw [Function.update_of_ne hut] at hux
      obtain ⟨c, hc, hcu, hm⟩ := hs.buffer hux hy
      refine ⟨c, ?_, hcu, hm⟩
      rw [hq.live, Function.update_of_ne, hc]
      rintro rfl
      rw [hb₀] at hc
      cases hc
      rw [hidle.1] at hcu
      cases hcu
  · intro y c u hc hu
    rw [hq.live] at hc
    rw [htxns]
    by_cases hyx : y = x
    · subst hyx
      simp only [Function.update_self, Option.some.injEq] at hc
      subst hc
      rw [hq.transaction] at hu
      cases hu
      exact ⟨tx, Function.update_self .., hq.buffer⟩
    · rw [Function.update_of_ne hyx] at hc
      obtain ⟨ux, hux, huy⟩ := hs.transaction hc hu
      refine ⟨ux, ?_, huy⟩
      rw [Function.update_of_ne, hux]
      rintro rfl
      rw [hq.fresh] at hux
      cases hux
  · intro th' thr u hthr hu
    rw [hq.rest] at hthr
    exact hcall' (hs.stack hthr hu) (hcall u (.inl ⟨th', thr, hthr, hu⟩))
  · intro u ux v hux hv
    rw [htxns] at hux
    by_cases hut : u = t
    · subst hut
      simp only [Function.update_self, Option.some.injEq] at hux
      subst hux
      rcases hv with hv | hv
      · exact hcall' (hparent v hv).1 (.inl (hparent v hv).2)
      · rw [hq.toParent] at hv
        cases hv
    · rw [Function.update_of_ne hut] at hux
      exact hcall' (hs.parents hux hv) (hcall v (.inr ⟨u, ux, hux, hv⟩))
  · intro u ux hux
    rw [htxns] at hux
    rw [hq.rest]
    by_cases hut : u = t
    · exact hut ▸ hq.lt
    · rw [Function.update_of_ne hut] at hux
      exact hs.txns_lt hux

end Queued

section Send

variable {L : Layout} {d : Option ProcId} {s s' : State} {p : ProcId} {th : ThreadId} {t : TxnId}
  {tg : Target} {tr : TransactionData} {reply : Bool} {env : TxnEnv}

theorem UnwindStep.thread (h : UnwindStep s s') {th : ThreadId} {thr : Thread}
    (hthr : s.threads th = some thr) :
    ∃ thr', s'.threads th = some thr' ∧ thr'.proc = thr.proc := by
  have hset : ∀ {u ur ur'}, s.threads u = some ur → ur'.proc = ur.proc →
      ∃ thr', (s.setThread u ur').threads th = some thr' ∧ thr'.proc = thr.proc := by
    intro u ur ur' hur hp
    by_cases hth : th = u
    · subst hth
      obtain rfl : thr = ur := by simpa [hthr] using hur
      exact ⟨ur', Function.update_self .., hp⟩
    · exact ⟨thr, by simpa [State.setThread, Function.update_of_ne hth] using hthr, rfl⟩
  cases h with
  | slots hu => exact hset hu rfl
  | stack hu => exact hset hu rfl
  | orphan => exact ⟨thr, hthr, rfl⟩
  | cut _ _ hdetach =>
      refine ⟨thr, ?_, rfl⟩
      rw [(detachBuffer_live hdetach).1]
      exact hthr
  | free _ hrun =>
      obtain ⟨tx, s₁, -, hdetach, rfl⟩ := freeTxn_eq hrun
      refine ⟨thr, ?_, rfl⟩
      rw [(detachBuffer_live hdetach).1]
      exact hthr

theorem CalmStep.thread_proc (h : CalmStep s s') {th : ThreadId} {thr : Thread}
    (hthr : s.threads th = some thr) :
    ∃ thr', s'.threads th = some thr' ∧ thr'.proc = thr.proc := by
  have hsame : s'.threads = s.threads →
      ∃ thr', s'.threads th = some thr' ∧ thr'.proc = thr.proc := fun h => ⟨thr, h ▸ hthr, rfl⟩
  cases h with
  | still h => exact hsame (by rw [h.rest])
  | unwind h => exact h.thread hthr
  | @thread u ur ur' hur hp =>
      by_cases hth : th = u
      · subst hth
        obtain rfl : thr = ur := by simpa [hthr] using hur
        exact ⟨ur', Function.update_self .., congrArg Prod.fst hp⟩
      · exact ⟨thr, by simpa [State.setThread, Function.update_of_ne hth] using hthr, rfl⟩
  | fields _ hrest => exact hsame (by rw [hrest])
  | alloc _ _ hrest => exact hsame (by rw [hrest])
  | discard _ _ hrest => exact hsame (by rw [hrest])

theorem Calm.thread_proc (h : Calm s s') {th : ThreadId} {thr : Thread}
    (hthr : s.threads th = some thr) :
    ∃ thr', s'.threads th = some thr' ∧ thr'.proc = thr.proc := by
  induction h with
  | refl => exact ⟨thr, hthr, rfl⟩
  | tail _ hstep ih =>
      obtain ⟨thr₁, hthr₁, hp₁⟩ := ih
      obtain ⟨thr₂, hthr₂, hp₂⟩ := hstep.thread_proc hthr₁
      exact ⟨thr₂, hthr₂, hp₂.trans hp₁⟩

theorem Target.Addressed.calm (h : tg.Addressed s) (hc : Calm s s') : tg.Addressed s' := by
  intro th hth
  obtain ⟨thr, hthr, hp⟩ := h th hth
  obtain ⟨thr', hthr', hp'⟩ := hc.thread_proc hthr
  exact ⟨thr', hthr', hp'.trans hp⟩

theorem findCaller_eq {fuel : ℕ} {target : ProcId} {x : Option TxnId}
    {found y : Option ThreadId} (hfound : ∀ th, found = some th →
      ∃ thr, s.threads th = some thr ∧ thr.proc = target)
    (hrun : findCaller fuel s target x found = .ok y) :
    ∀ th, y = some th → ∃ thr, s.threads th = some thr ∧ thr.proc = target := by
  induction fuel generalizing x found with
  | zero =>
      cases x with
      | none =>
          obtain rfl : found = y := by simpa [findCaller] using hrun
          exact hfound
      | some t => cases hrun
  | succ fuel ih =>
      cases x with
      | none =>
          obtain rfl : found = y := by simpa [findCaller] using hrun
          exact hfound
      | some t =>
          simp only [findCaller, except_bind_eq_ok, deref_eq_ok] at hrun
          obtain ⟨tx, htx, found₁, hcaller, hrun⟩ := hrun
          refine ih ?_ hrun
          unfold callerIn at hcaller
          cases hfrom : tx.fromThread with
          | none =>
              simp only [hfrom, Except.ok.injEq] at hcaller
              exact hcaller ▸ hfound
          | some c =>
              simp only [hfrom, except_bind_eq_ok, deref_eq_ok, except_pure_eq_ok] at hcaller
              obtain ⟨cr, hcr, hcaller⟩ := hcaller
              split at hcaller
              · rename_i hproc
                rintro th rfl
                cases hcaller
                exact ⟨cr, hcr, hproc⟩
              · exact hcaller ▸ hfound

/-- The thread that a transaction is for belongs to its target process, and none is
picked for a one-way transaction. -/
theorem selectTarget_addressed {s₁ : State}
    (hrun : selectTarget s p th tr reply env = .ok (.target tg, s₁)) :
    tg.Addressed s₁ ∧ (reply = false → tfOneWay tr.flags = true → tg.thread = none) ∧
      (reply = true → ∃ target irt, tg.thread = some target ∧ tg.inReplyTo = some irt ∧
        tg.node = none) ∧
      (reply = false → tg.inReplyTo = none ∧ ∃ n, tg.node = some n ∧ ∃ nd, s₁.nodes n = some nd ∧
        nd.proc = some tg.proc) := by
  cases reply with
  | false =>
      simp only [selectTarget, Bool.false_eq_true, ↓reduceIte, except_bind_eq_ok,
        except_pure_eq_ok, Prod.mk.injEq] at hrun
      obtain ⟨_, hsel, rfl, rfl⟩ := hrun
      obtain ⟨n, nd, -, hnode, hirt, hnd, hproc, hthread⟩ := selectCallTarget_eq hsel
      refine ⟨?_, ?_, by simp, fun _ => ⟨hirt, n, hnode, nd, hnd, hproc⟩⟩
      · simp only [targetThreadOf, except_bind_eq_ok, deref_eq_ok] at hthread
        obtain ⟨thr, hthr, hthread⟩ := hthread
        cases hstack : thr.transactionStack with
        | none =>
            simp only [hstack, except_pure_eq_ok, Except.ok.injEq] at hthread
            intro th' hth'
            simp [← hthread] at hth'
        | some top =>
            simp only [hstack] at hthread
            split at hthread
            · simp only [except_pure_eq_ok, Except.ok.injEq] at hthread
              intro th' hth'
              simp [← hthread] at hth'
            · simp only [except_bind_eq_ok, deref_eq_ok] at hthread
              obtain ⟨tx, htx, hthread⟩ := hthread
              split at hthread
              · simp at hthread
              · simp only [except_bind_eq_ok, except_pure_eq_ok, Except.ok.injEq] at hthread
                obtain ⟨found, hfound, rfl⟩ := hthread
                exact findCaller_eq (by simp) hfound
      · intro _ hflags
        simp only [targetThreadOf, except_bind_eq_ok, deref_eq_ok] at hthread
        obtain ⟨thr, hthr, hthread⟩ := hthread
        cases hstack : thr.transactionStack with
        | none =>
            simp only [hstack, except_pure_eq_ok, Except.ok.injEq] at hthread
            exact hthread.symm
        | some top =>
            simp only [hstack, hflags, ↓reduceIte, except_pure_eq_ok, Except.ok.injEq] at hthread
            exact hthread.symm
  | true =>
      obtain ⟨thr, irt, tx, target, tthr, -, -, -, -, -, htthr, -, -, rfl⟩ :=
        selectReplyTarget_eq hrun
      refine ⟨?_, by simp, fun _ => ⟨target, irt, rfl, rfl, rfl⟩, by simp⟩
      rintro th' ⟨⟩
      exact ⟨tthr, htthr, rfl⟩

theorem asyncTarget_eq {n : NodeId} {q q' : Queue} (hrun : asyncTarget s n q = .ok (q', s')) :
    ∃ nd, s.nodes n = some nd ∧
      ((nd.hasAsyncTransaction = true ∧ q' = .async n ∧ s' = s) ∨
        (nd.hasAsyncTransaction = false ∧ q' = q ∧
          s' = s.setNode n { nd with hasAsyncTransaction := true })) := by
  simp only [asyncTarget, except_bind_eq_ok, deref_eq_ok] at hrun
  obtain ⟨nd, hnd, hrun⟩ := hrun
  refine ⟨nd, hnd, ?_⟩
  split at hrun
  · rename_i hasync
    simp only [except_pure_eq_ok, Prod.mk.injEq] at hrun
    exact .inl ⟨hasync, hrun.1.symm, hrun.2.symm⟩
  · rename_i hasync
    simp only [except_pure_eq_ok, Prod.mk.injEq] at hrun
    exact .inr ⟨by simpa using hasync, hrun.1.symm, hrun.2.symm⟩

theorem binderPopTransaction_gone {target : Option ThreadId}
    (hrun : binderPopTransaction s target t = .ok s') : s'.txns t = none := by
  simp only [binderPopTransaction, except_bind_eq_ok] at hrun
  obtain ⟨s₁, -, hfree⟩ := hrun
  obtain ⟨tx, s₂, -, -, rfl⟩ := freeTxn_eq hfree
  exact Function.update_self ..

def newTransaction (p : ProcId) (th : ThreadId) (tg : Target) (tr : TransactionData)
    (reply : Bool) (env : TxnEnv) (a : ℕ) (fromParent : Option TxnId) : Transaction where
  sender := p
  fromThread := if !reply && !tfOneWay tr.flags then some th else none
  fromParent := fromParent
  toProc := some tg.proc
  toThread := tg.thread
  toParent := none
  needReply := !reply && !tfOneWay tr.flags
  buffer := some (tg.proc, a)
  code := tr.code
  flags := tr.flags
  senderEuid := env.senderEuid

/-- The end of `commitTransaction`. -/
def queueTransaction (s : State) (th : ThreadId) (t : TxnId) (tg : Target) (tr : TransactionData)
    (a : ℕ) (data : Data) (tx : Transaction) (q : Queue) : State :=
  (((s.setTxn t tx).updateBuffer tg.proc a
    (Buffer.filled t tg.node data tr.offsetList)).listAddTail q
    (.transaction t)).listAddTail (.thread th) (.transactionComplete t)

theorem queueTransaction_queued {a : ℕ} {b₀ : Buffer} {data : Data} {parent : Option TxnId}
    (hfresh : s.txns t = none) (hlt : t < s.nextId) (hlive : s.live (tg.proc, a) = some b₀)
    (hidle : b₀.idle) (hasync : b₀.asyncTransaction = (!reply && tfOneWay tr.flags))
    (hnode : tg.node.isSome = !reply) (q : Queue) :
    Queued s (queueTransaction s th t tg tr a data (newTransaction p th tg tr reply env a parent) q)
      th t tg (newTransaction p th tg tr reply env a parent)
      (b₀.filled t tg.node data tr.offsetList) (tg.proc, a) q := by
  refine ⟨hfresh, hlt, ⟨b₀, hlive, hidle⟩, rfl, ?_, rfl, rfl, ⟨?_, ?_⟩, rfl, rfl, rfl, rfl, rfl,
    rfl⟩
  · have h₁ := live_updateBuffer (s := s.setTxn t (newTransaction p th tg tr reply env a parent))
      (p := tg.proc) (a := a)
      (keepsBuffer_filled t tg.node data tr.offsetList)
    have h₂ : (s.setTxn t (newTransaction p th tg tr reply env a parent)).live = s.live :=
      live_congr rfl
    rw [h₂, hlive] at h₁
    exact (live_congr rfl).trans h₁
  · simp [newTransaction, Buffer.filled, hnode]
  · change b₀.asyncTransaction = (tg.node.isSome && tfOneWay tr.flags)
    rw [hasync, hnode]

theorem commitTransaction_transacted {s₀ : State} {a : ℕ} {b₀ : Buffer} {data : Data}
    (hcalm : Calm s₀ s) (hs : Linked s) (hb₀ : s.live (tg.proc, a) = some b₀) (hidle : b₀.idle)
    (hfresh : s.txns t = none) (hlt : t < s.nextId) (haddr : tg.Addressed s)
    (honeWay : reply = false → tfOneWay tr.flags = true → tg.thread = none)
    (hreply : reply = true → ∃ target irt, tg.thread = some target ∧ tg.inReplyTo = some irt ∧
      tg.node = none)
    (hirt : ∀ u, tg.inReplyTo = some u → s.IsCall u)
    (hcall : reply = false → ∃ n, tg.node = some n ∧ n < s.nextId ∧ ∀ nd, s.nodes n = some nd →
      nd.proc = some tg.proc)
    (hrun : commitTransaction s p th t tg tr reply env a data = .ok s') :
    Transacted s₀ p th t s' := by
  simp only [commitTransaction, except_bind_eq_ok, bugOn_eq_ok, except_pure_eq_ok] at hrun
  obtain ⟨b, hb, _, hasync, ⟨q, parent, s₁⟩, hstacks, hend⟩ := hrun
  have hqueue : queueTransaction s₁ th t tg tr a data
      (newTransaction p th tg tr reply env a parent) q = s' := hend
  clear hend
  subst hqueue
  obtain rfl : b₀ = b := by
    rw [live_eq_some] at hb₀
    rw [hb₀] at hb
    exact Except.ok.inj hb
  have hasync : b₀.asyncTransaction = (!reply && tfOneWay tr.flags) := by simpa using hasync
  unfold commitStacks at hstacks
  cases reply with
  | true =>
      obtain ⟨target, irt, hthread, hirt', hnode⟩ := hreply rfl
      simp only [↓reduceIte, hthread, hirt', except_bind_eq_ok, except_pure_eq_ok,
        Prod.mk.injEq] at hstacks
      obtain ⟨s₂, hpop, rfl, rfl, rfl⟩ := hstacks
      have hun := binderPopTransaction_unwound (hirt irt hirt') hpop
      exact .reply (hcalm.trans hun.calm) (haddr.calm hun.calm) hnode hthread
        (queueTransaction_queued ((Unwound.calm hun).txns_none hfresh) (by rw [hun.rest]; exact hlt)
          (hun.live_of_none hs hb₀ hidle.1) hidle hasync (by simp [hnode]) _)
        rfl rfl rfl (binderPopTransaction_gone hpop)
  | false =>
      obtain ⟨n, hnode, hnlt, hproc⟩ := hcall rfl
      simp only [Bool.false_eq_true, ↓reduceIte] at hstacks
      cases honeway : tfOneWay tr.flags with
      | false =>
          simp only [honeway, Bool.not_false, ↓reduceIte, except_bind_eq_ok, deref_eq_ok,
            except_pure_eq_ok, Prod.mk.injEq] at hstacks
          obtain ⟨thr, hthr, rfl, rfl, rfl⟩ := hstacks
          refine .call hcalm haddr hthr
            (queueTransaction_queued (s := s.setThread th { thr with transactionStack := some t })
              hfresh hlt ((congrFun (live_congr rfl) _).trans hb₀) hidle hasync (by simp [hnode]) _)
            hnode rfl ?_ rfl ?_
          all_goals simp [newTransaction, honeway]
      | true =>
          simp only [honeway, Bool.not_true, Bool.false_eq_true, ↓reduceIte, hnode,
            except_bind_eq_ok, except_pure_eq_ok, Prod.mk.injEq] at hstacks
          obtain ⟨⟨q', s₂⟩, hasync', rfl, rfl, rfl⟩ := hstacks
          simp only [honeWay rfl honeway] at hasync'
          obtain ⟨nd, hnd, ⟨hflag, rfl, rfl⟩ | ⟨hflag, rfl, rfl⟩⟩ := asyncTarget_eq hasync'
          · refine .waiting hcalm hnode hnd hnlt (hproc nd hnd) hflag
              (queueTransaction_queued hfresh hlt hb₀ hidle hasync (by simp [hnode]) _)
              rfl ?_ rfl honeway
            simp [newTransaction, honeway]
          · refine .oneWay hcalm hnode hnd hnlt (hproc nd hnd) hflag
              (queueTransaction_queued
                (s := s.setNode n { nd with hasAsyncTransaction := true })
                hfresh hlt ((congrFun (live_congr rfl) _).trans hb₀) hidle hasync
                (by simp [hnode]) _)
              rfl ?_ rfl honeway
            simp [newTransaction, honeway]

theorem unwindBuffer_calm {a : ℕ} {b₀ : Buffer} {data : Data} {k : ℕ}
    (harea : AreaOk L (s.area tg.proc)) (hb₀ : s.live (tg.proc, a) = some b₀) (hidle : b₀.idle)
    (hrun : unwindBuffer L s tg tr a data k = .ok s') : Calm s s' := by
  simp only [unwindBuffer, except_bind_eq_ok, except_pure_eq_ok] at hrun
  obtain ⟨b, hb, s₁, hrelease, ar, hfree, rfl⟩ := hrun
  have h₁ := bufferRelease_still hrelease
  have harea₁ : s₁.area = s.area := by rw [h₁.rest]
  have hb₁ : derefBuffer s₁ tg.proc a = .ok b₀ :=
    live_eq_some.mp ((congrFun h₁.live _).trans hb₀)
  obtain ⟨-, hlive⟩ := live_freeBuf (L := L) (harea₁ ▸ harea) hb₁ hfree
  exact h₁.calm.tail (.discard (live_eq_some.mpr hb₁) hidle rfl hlive)

theorem sendToTarget_transacted {s₀ : State} (hcalm : Calm s₀ s) (hs : Linked s)
    (hareas : ∀ q, AreaOk L (s.area q)) (hfresh : s.txns t = none) (hlt : t < s.nextId)
    (haddr : tg.Addressed s)
    (honeWay : reply = false → tfOneWay tr.flags = true → tg.thread = none)
    (hreply : reply = true → ∃ target irt, tg.thread = some target ∧ tg.inReplyTo = some irt ∧
      tg.node = none)
    (hirt : ∀ u, tg.inReplyTo = some u → s.IsCall u)
    (hcall : reply = false → ∃ n, tg.node = some n ∧ n < s.nextId ∧ ∀ nd, s.nodes n = some nd →
      nd.proc = some tg.proc)
    (hrun : sendToTarget L s p th t tg tr reply env = .ok s') : Transacted s₀ p th t s' := by
  simp only [sendToTarget, except_bind_eq_ok] at hrun
  obtain ⟨⟨x, ar⟩, halloc, hrun⟩ := hrun
  cases x with
  | none =>
      simp only at hrun
      rw [allocBuf_none (hareas tg.proc) halloc] at hrun
      have h := transactionFailed_unwound hs hirt (by simp) hrun
      exact .failed (hcalm.trans h.calm)
  | some a =>
      simp only [except_bind_eq_ok] at hrun
      obtain ⟨s₂, hhold, acceptFds, -, ⟨y, s₃, data⟩, hfill, hrun⟩ := hrun
      obtain ⟨hnone, b₀, -, -, htxn, hnode, huser, hlive⟩ := live_allocBuf (hareas tg.proc) halloc
      obtain ⟨harea, -⟩ := contents_allocBuf (hareas tg.proc) halloc
      generalize hs₁ : (s.setArea tg.proc ar).updateBuffer tg.proc a Buffer.cleared = s₁ at *
      have hidle : b₀.idle := ⟨htxn, hnode, huser⟩
      have hrest₁ : s₁ = { s with area := s₁.area } := by
        rw [← hs₁]
        rfl
      have h₁ : Calm s s₁ := .single (.alloc hnone hidle hrest₁ hlive)
      have h₂ : Still s₁ s₃ := (holdTarget_still hhold).trans (fillBuffer_still hfill)
      have h₁₃ : Calm s s₃ := h₁.trans h₂.calm
      have hlinked := h₁₃.linked hs
      have hb₀ : s₃.live (tg.proc, a) = some b₀ := by
        rw [h₂.live, hlive, Function.update_self]
      have harea₃ : AreaOk L (s₃.area tg.proc) := by
        rw [h₂.rest]
        exact harea
      have hirt₃ : ∀ u, tg.inReplyTo = some u → s₃.IsCall u := fun u hu => h₁₃.isCall (hirt u hu)
      have hnext : s.nextId ≤ s₃.nextId := by
        have := h₂.nextId
        rwa [hrest₁] at this
      cases y with
      | none =>
          refine commitTransaction_transacted (hcalm.trans h₁₃) hlinked hb₀ hidle
            (h₁₃.txns_none hfresh) (hlt.trans_le hnext)
            (haddr.calm h₁₃) honeWay hreply hirt₃ ?_ hrun
          intro hr
          obtain ⟨n, hn, hnlt, hproc⟩ := hcall hr
          refine ⟨n, hn, hnlt.trans_le hnext, fun nd hnd => ?_⟩
          rcases h₂.nodes hnd with ⟨nd₁, hnd₁, hid⟩ | ⟨hge, -⟩
          · rw [hrest₁] at hnd₁
            exact (congrArg Prod.fst hid).trans (hproc nd₁ hnd₁)
          · rw [hrest₁] at hge
            exact absurd hnlt (not_lt.mpr hge)
      | some k =>
          simp only [except_bind_eq_ok] at hrun
          obtain ⟨s₄, hunwind, hfail⟩ := hrun
          have h₄ := unwindBuffer_calm harea₃ hb₀ hidle hunwind
          refine .failed (hcalm.trans ((h₁₃.trans h₄).trans ?_))
          exact (transactionFailed_unwound (h₄.linked hlinked)
            (fun u hu => h₄.isCall (hirt₃ u hu)) (by simp) hfail).calm

theorem binderTransaction_transacted (hs : Coherent L d s) (hlinked : Linked s)
    (hrun : binderTransaction L s p th tr reply env = .ok s') :
    Transacted s p th s.nextId s' := by
  simp only [binderTransaction, except_bind_eq_ok] at hrun
  obtain ⟨⟨sel, s₁⟩, hsel, hrun⟩ := hrun
  obtain ⟨h₁, hsound⟩ := selectTarget_unwound hlinked hsel
  have hlinked₁ := h₁.linked hlinked
  have hnext₁ : s₁.nextId = s.nextId := by rw [h₁.rest]
  cases sel with
  | refused e irt =>
      have h₂ := transactionFailed_unwound hlinked₁ hsound.2 hsound.1 hrun
      exact .failed (h₁.calm.trans h₂.calm)
  | target tg =>
      simp only at hrun
      split at hrun
      · have h₂ := transactionFailed_unwound hlinked₁ hsound (by simp) hrun
        exact .failed (h₁.calm.trans h₂.calm)
      · obtain ⟨haddr, honeWay, hreply, hcall⟩ := selectTarget_addressed hsel
        have hs₁ := hs.idle (selectTarget_idle hs.grounded hsel)
        have h₂ : Calm s₁ { s₁ with nextId := s₁.nextId + 1 } := calm_nextId (Nat.le_succ _)
        have hfresh : s.txns s.nextId = none := by
          cases htx : s.txns s.nextId with
          | none => rfl
          | some tx => exact absurd (hlinked.txns_lt htx) (lt_irrefl _)
        rw [← hnext₁]
        refine sendToTarget_transacted (h₁.calm.trans h₂) (h₂.linked hlinked₁) hs₁.areas ?_
          (Nat.lt_succ_self _) (haddr.calm h₂) honeWay hreply
          (fun u hu => h₂.isCall (hsound u hu)) ?_ hrun
        · rw [hnext₁]
          exact h₁.calm.txns_none hfresh
        · intro hr
          obtain ⟨-, n, hn, nd, hnd, hproc⟩ := hcall hr
          refine ⟨n, hn, Nat.lt_succ_of_lt (hs₁.tables.node_lt hnd), fun nd' hnd' => ?_⟩
          obtain rfl : nd = nd' := by simpa [hnd] using hnd'
          exact hproc

end Send

end Driver

end BinderForLinux
