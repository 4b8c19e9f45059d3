import BinderForLinux.Driver.Send

/-!
# Work in motion

The steps in which transactions, acknowledgements and death notifications are
made, move from one list to another and go away, each with what is observed of it.
All the rest is calm. A part of a step of the driver is a sequence of them. The
process `d`, if there is one, is being taken apart.
-/

namespace BinderForLinux

namespace Driver

open Library

/-- Observations that no transaction, acknowledgement or death notification is
behind. -/
def Obs.isPlain : Obs → Bool
  | .wrote _ _ _ => true
  | .delivered _ _ none _ => true
  | .delivered _ _ (some (.node _)) _ => true
  | .managed _ => true
  | .released _ => true
  | _ => false

/-- `buffer->transaction->buffer = NULL`, on the map of transactions. -/
def detachedTxns (s : State) (b : Buffer) : TxnId → Option Transaction :=
  match b.transaction with
  | none => s.txns
  | some t => Function.update s.txns t ((s.txns t).map fun tx => { tx with buffer := none })

/-- What freeing the buffer `b` does to the one-way transactions of its node. -/
inductive Advanced (s : State) (th : ThreadId) (b : Buffer) : State → Prop
  | idle (h : b.asyncTransaction = true → b.targetNode = none) : Advanced s th b s
  | last {n : NodeId} {nd : Node} (hasync : b.asyncTransaction = true)
      (hnode : b.targetNode = some n) (hnd : s.nodes n = some nd)
      (hflag : nd.hasAsyncTransaction = true) (hq : s.todo (.async n) = []) :
      Advanced s th b (s.setNode n { nd with hasAsyncTransaction := false })
  | next {n : NodeId} {nd : Node} {w : Work} {ws : List Work} (hasync : b.asyncTransaction = true)
      (hnode : b.targetNode = some n) (hnd : s.nodes n = some nd)
      (hflag : nd.hasAsyncTransaction = true) (hq : s.todo (.async n) = w :: ws) :
      Advanced s th b ((s.setTodo (.async n) ws).listAddTail (.thread th) w)

/-- The new death notification `s.nextId` of the reference `rf` at `r`. -/
def registerDeath (s : State) (r : RefId) (rf : Ref) (cookie : ℕ) : State :=
  ({ s with nextId := s.nextId + 1 }.setDeath s.nextId
    { cookie := cookie, workType := .deadBinder, entry := none }).setRef r
      { rf with death := some s.nextId }

/-- What `binder_release_work` does with an item that it has taken off its list. -/
inductive Dropped (s : State) : Work → State → Prop
  | call {t : TxnId} {s' : State} (hcall : s.IsCall t) (h : Unwound s s') :
      Dropped s (.transaction t) s'
  | transaction {t : TxnId} {tx : Transaction} {s' : State} (htx : s.txns t = some tx)
      (hcall : tx.needReply = false) (hrun : freeTxn s t = .ok s') :
      Dropped s (.transaction t) s'
  | complete {t : TxnId} : Dropped s (.transactionComplete t) s
  | deadBinder {e : DeathId} {de : Death} (hde : s.deaths e = some de)
      (hty : de.workType = .deadBinder) :
      Dropped s (.death e) (s.setDeath e { de with entry := none })
  | death {e : DeathId} {de : Death} (hde : s.deaths e = some de)
      (hty : de.workType ≠ .deadBinder) :
      Dropped s (.death e) { s with deaths := Function.update s.deaths e none }
  | node {n : NodeId} {nd : Node} (hnd : s.nodes n = some nd) :
      Dropped s (.node n) (s.setNode n { nd with entry := none })

/-- What threads, nodes, transactions and buffers keep while a thread goes away. -/
structure Earlier (s s' : State) : Prop where
  thread : ∀ {th thr}, s.threads th = some thr →
    ∃ thr', s'.threads th = some thr' ∧ thr'.proc = thr.proc
  threadBack : ∀ {th thr'}, s'.threads th = some thr' →
    ∃ thr, s.threads th = some thr ∧ thr'.proc = thr.proc
  node : ∀ {n nd}, s.nodes n = some nd →
    ∃ nd', s'.nodes n = some nd' ∧ nd'.proc = nd.proc ∧ nd'.refs = nd.refs
  refs : s'.refs = s.refs
  txn : ∀ {t tx'}, s'.txns t = some tx' →
    ∃ tx, s.txns t = some tx ∧ tx.needReply = tx'.needReply ∧ tx.flags = tx'.flags ∧
      (tx.needReply = false → tx' = tx)
  buffer : ∀ {x b t}, s'.live x = some b → b.transaction = some t → s.live x = some b

/-- Why the item `w` of the list `q` may be dropped: its process is taken apart, or
its thread exits, in which case the item was on the list when the exit began. -/
inductive MayDrop (C : Condition) (d : Option ProcId) (s : State) : Queue → Work → Prop
  | proc {p : ProcId} {w : Work} (hd : d = some p) : MayDrop C d s (.proc p) w
  | deliveredDeath {p : ProcId} {w : Work} (hd : d = some p) : MayDrop C d s (.deliveredDeath p) w
  | thread {p : ProcId} {th : ThreadId} {thr : Thread} {w : Work} (hd : d = some p)
      (hthr : s.threads th = some thr) (hproc : thr.proc = p) : MayDrop C d s (.thread th) w
  | async {p : ProcId} {n : NodeId} {nd : Node} {w : Work} (hd : d = some p)
      (hnd : s.nodes n = some nd) (hproc : nd.proc = some p) : MayDrop C d s (.async n) w
  | exit {s₀ : State} {p : ProcId} {th : ThreadId} {w : Work} (hC : C s₀ p th .exit)
      (hw : w ∈ s₀.todo (.thread th)) (h : Earlier s₀ s) : MayDrop C d s (.thread th) w

inductive WorkStep (C : Condition) (d : Option ProcId) (s : State) : List Obs → State → Prop
  | calm {o : List Obs} {s' : State} (h : Calm s s') (ho : ∀ x ∈ o, x.isPlain = true) :
      WorkStep C d s o s'
  | sent {p : ProcId} {th : ThreadId} {thr : Thread} {t : TxnId} {s' : State} (hd : d = none)
      (ht : t = s.nextId) (hthr : s.threads th = some thr) (hproc : thr.proc = p)
      (h : Transacted s p th t s') :
      WorkStep C d s (acceptedLog s s' p th) s'
  | freed {p : ProcId} {th : ThreadId} {thr : Thread} {a : ℕ} {b : Buffer} {s₁ s' : State}
      (hd : d = none) (hthr : s.threads th = some thr) (hproc : thr.proc = p)
      (hclean : ∀ n m, .node m ∉ s.todo (.async n))
      (hb : s.live (p, a) = some b) (huser : b.allowUserFree = true) (hadv : Advanced s th b s₁)
      (hrest : s' = { s₁ with txns := detachedTxns s b, area := s'.area })
      (hlive : s'.live = Function.update s.live (p, a) none) : WorkStep C d s [] s'
  /-- There is no memory for a death notification. -/
  | noMemory {p : ProcId} {th : ThreadId} {thr : Thread} {handle cookie : ℕ} (hd : d = none)
      (hthr : s.threads th = some thr) (hproc : thr.proc = p)
      (hC : C s p th (.command (.requestDeathNotification handle cookie false))) :
      WorkStep C d s [] (s.setThread th { thr with returnError := .error })
  | requested {p : ProcId} {r : RefId} {rf : Ref} {nd : Node} {cookie : ℕ}
      (hd : d = none) (hr : r < s.nextId) (hrf : s.refs r = some rf) (hproc : rf.proc = p)
      (hnone : rf.death = none) (hn : rf.node < s.nextId) (hnd : s.nodes rf.node = some nd)
      (halive : nd.proc ≠ none) :
      WorkStep C d s [.requested p s.nextId rf.node cookie] (registerDeath s r rf cookie)
  /-- The notification is requested when the node is already dead. -/
  | requestedDead {p : ProcId} {th : ThreadId} {thr : Thread} {r : RefId} {rf : Ref} {nd : Node}
      {cookie : ℕ} (hd : d = none) (hthr : s.threads th = some thr) (hproc : thr.proc = p)
      (hr : r < s.nextId) (hrf : s.refs r = some rf) (hrproc : rf.proc = p)
      (hnone : rf.death = none) (hn : rf.node < s.nextId) (hnd : s.nodes rf.node = some nd)
      (hdead : nd.proc = none) :
      WorkStep C d s [.requested p s.nextId rf.node cookie]
        (queueDeath (registerDeath s r rf cookie) s.nextId
          { cookie := cookie, workType := .deadBinder, entry := none } .deadBinder
          (deathQueue p th thr))
  | cleared {p : ProcId} {th : ThreadId} {thr : Thread} {r : RefId} {rf : Ref} {e : DeathId}
      {de : Death} (hd : d = none) (hthr : s.threads th = some thr) (hproc : thr.proc = p)
      (hrf : s.refs r = some rf) (hrproc : rf.proc = p) (hdeath : rf.death = some e)
      (hde : s.deaths e = some de) (hentry : de.entry = none) :
      WorkStep C d s [.cleared p e]
        (queueDeath (s.setRef r { rf with death := none }) e de .clearDeathNotification
          (deathQueue p th thr))
  /-- The notification is cleared while it is queued or not acknowledged. -/
  | clearedQueued {p : ProcId} {r : RefId} {rf : Ref} {e : DeathId} {de : Death} (hd : d = none)
      (hrf : s.refs r = some rf) (hrproc : rf.proc = p) (hdeath : rf.death = some e)
      (hde : s.deaths e = some de) (hentry : de.entry ≠ none) (hty : de.workType = .deadBinder) :
      WorkStep C d s [.cleared p e]
        ((s.setRef r { rf with death := none }).setDeath e
          { de with workType := .deadBinderAndClear })
  | acked {p : ProcId} {e : DeathId} {de : Death} (hd : d = none)
      (he : .death e ∈ s.todo (.deliveredDeath p))
      (hde : s.deaths e = some de) (hty : de.workType ≠ .deadBinderAndClear) :
      WorkStep C d s [.acked p e] ((unlinkDeath s e de).setDeath e { de with entry := none })
  /-- The acknowledged notification was cleared meanwhile. -/
  | ackedClear {p : ProcId} {th : ThreadId} {thr : Thread} {e : DeathId} {de : Death}
      (hd : d = none)
      (hthr : s.threads th = some thr) (hproc : thr.proc = p)
      (he : .death e ∈ s.todo (.deliveredDeath p)) (hde : s.deaths e = some de)
      (hty : de.workType = .deadBinderAndClear) :
      WorkStep C d s [.acked p e]
        (queueDeath ((unlinkDeath s e de).setDeath e { de with entry := none }) e de
          .clearDeathNotification (deathQueue p th thr))
  | complete {p : ProcId} {th : ThreadId} {q : Queue} {t : TxnId} {ws : List Work} (hd : d = none)
      (howner : s.queueOwner q = some p) (hq : s.todo q = .transactionComplete t :: ws) :
      WorkStep C d s [.delivered p th (some (.transactionComplete t)) .transactionComplete]
        (s.setTodo q ws)
  | clearDone {p : ProcId} {th : ThreadId} {q : Queue} {e : DeathId} {de : Death} {ws : List Work}
      (hd : d = none) (howner : s.queueOwner q = some p) (hq : s.todo q = .death e :: ws)
      (hde : s.deaths e = some de) (hty : de.workType = .clearDeathNotification) :
      WorkStep C d s
        [.delivered p th (some (.death e)) (.clearDeathNotificationDone de.cookie)]
        { s with
          todo := (s.listDel q (.death e)).todo
          deaths := Function.update s.deaths e none }
  | deadBinder {p : ProcId} {th : ThreadId} {q : Queue} {e : DeathId} {de : Death} {ws : List Work}
      (hd : d = none) (howner : s.queueOwner q = some p) (hq : s.todo q = .death e :: ws)
      (hde : s.deaths e = some de) (hty : de.workType ≠ .clearDeathNotification) :
      WorkStep C d s [.delivered p th (some (.death e)) (.deadBinder de.cookie)]
        (((s.listDel q (.death e)).setDeath e { de with entry := some (.deliveredDeath p) }).setTodo
          (.deliveredDeath p) (.death e :: (s.listDel q (.death e)).todo (.deliveredDeath p)))
  /-- A call is delivered: it goes on the stack of the reader. -/
  | receivedCall {p : ProcId} {th : ThreadId} {thr : Thread} {q : Queue} {t : TxnId}
      {ws : List Work} {tx : Transaction} {b : Buffer} {x : ProcId × ℕ} {tr : TransactionInfo}
      {s' : State} (hd : d = none) (howner : s.queueOwner q = some p)
      (hq : s.todo q = .transaction t :: ws) (hthr : s.threads th = some thr) (hproc : thr.proc = p)
      (htx : s.txns t = some tx)
      (hx : tx.buffer = some x) (hb : s.live x = some b) (hcall : tx.needReply = true)
      (hrest : s' = { s with
        todo := (s.listDel q (.transaction t)).todo
        txns := Function.update s.txns t
          (some { tx with toParent := thr.transactionStack, toThread := some th })
        threads := Function.update s.threads th (some { thr with transactionStack := some t })
        area := s'.area })
      (hlive : s'.live = Function.update s.live x (some { b with allowUserFree := true })) :
      WorkStep C d s [.delivered p th (some (.transaction t)) (.transaction tr)] s'
  /-- A one-way transaction or a reply is delivered. -/
  | received {p : ProcId} {th : ThreadId} {q : Queue} {t : TxnId} {ws : List Work}
      {tx : Transaction} {b : Buffer} {x : ProcId × ℕ} {cmd : ReturnCommand} {s' : State}
      (hd : d = none) (howner : s.queueOwner q = some p) (hq : s.todo q = .transaction t :: ws)
      (htx : s.txns t = some tx) (hx : tx.buffer = some x) (hb : s.live x = some b)
      (hcall : tx.needReply = false)
      (hcmd : ∃ tr, cmd = if b.targetNode.isSome then .transaction tr else .reply tr)
      (hrest : s' = { s with
        todo := (s.listDel q (.transaction t)).todo
        txns := Function.update s.txns t none
        area := s'.area })
      (hlive : s'.live = Function.update s.live x
        (some { b with allowUserFree := true, transaction := none })) :
      WorkStep C d s [.delivered p th (some (.transaction t)) cmd] s'
  | dropped {q : Queue} {w : Work} {ws : List Work} {s' : State} (hq : s.todo q = w :: ws)
      (h : Dropped (s.setTodo q ws) w s') (hmay : MayDrop C d s q w) : WorkStep C d s [] s'
  | threadGone {th : ThreadId} {thr : Thread} (hthr : s.threads th = some thr)
      (hq : s.todo (.thread th) = []) (hd : ∀ p, d = some p → thr.proc = p) :
      WorkStep C d s [] { s with threads := Function.update s.threads th none }
  | threadNew {thr : Thread} (hd : d = none) (hstack : thr.transactionStack = none)
      (he : thr.returnError = .ok) (he₂ : thr.returnError2 = .ok)
      (hfresh : s.threads s.nextId = none) :
      WorkStep C d s [] ({ s with nextId := s.nextId + 1 }.setThread s.nextId thr)
  | nodeGone {p : ProcId} {n : NodeId} {nd : Node} (hd : d = some p) (hnd : s.nodes n = some nd)
      (hproc : nd.proc = some p) (hrefs : ∀ r rf, s.refs r = some rf → rf.node ≠ n)
      (hq : s.todo (.async n) = []) :
      WorkStep C d s [] { s with nodes := Function.update s.nodes n none }
  | nodeDies {p : ProcId} {n : NodeId} {nd nd' : Node} {s' : State} (hd : d = some p)
      (hnd : s.nodes n = some nd) (hproc : nd.proc = some p)
      (hrefs : ∀ r rf, s.refs r = some rf → (rf.node = n ↔ r ∈ nd.refs))
      (hq : s.todo (.async n) = []) (hdead : nd'.proc = none)
      (hasync : nd'.hasAsyncTransaction = nd.hasAsyncTransaction)
      (hrun : notifyDeath { s with
        nodes := Function.update s.nodes n (some nd')
        deadNodes := n :: s.deadNodes } nd.refs = .ok s') :
      WorkStep C d s [] s'
  /-- A buffer of the process that is taken apart. -/
  | bufferGone {p : ProcId} {a : ℕ} {b : Buffer} {s' : State} (hd : d = some p)
      (hb : s.live (p, a) = some b)
      (hrest : s' = { s with txns := detachedTxns s b, area := s'.area })
      (hlive : s'.live = Function.update s.live (p, a) none) : WorkStep C d s [] s'

/-- A sequence of steps, with all that is observed of it. -/
def WorkSteps (C : Condition) (d : Option ProcId) (s : State) (o : List Obs) (s' : State) : Prop :=
  ∃ es, Trace (WorkStep C d) s es s' ∧ o = es.flatten

section WorkSteps

variable {L : Layout} {C : Condition} {d : Option ProcId} {s s' s'' : State} {o o' : List Obs}
  {p : ProcId} {th : ThreadId} {t : TxnId}

theorem WorkSteps.refl (s : State) : WorkSteps C d s [] s := ⟨[], .nil s, rfl⟩

theorem WorkStep.steps (h : WorkStep C d s o s') : WorkSteps C d s o s' :=
  ⟨[o], .single h, by simp⟩

theorem WorkSteps.trans (h : WorkSteps C d s o s') (h' : WorkSteps C d s' o' s'') :
    WorkSteps C d s (o ++ o') s'' := by
  obtain ⟨es, hes, rfl⟩ := h
  obtain ⟨es', hes', rfl⟩ := h'
  exact ⟨es ++ es', hes.append hes', by simp⟩

theorem WorkSteps.after (h : WorkSteps C d s [] s') (h' : WorkSteps C d s' o s'') :
    WorkSteps C d s o s'' := h.trans h'

theorem Calm.steps (h : Calm s s') : WorkSteps C d s [] s' :=
  WorkStep.steps (.calm h (by simp))

theorem Calm.observed (h : Calm s s') (ho : ∀ x ∈ o, x.isPlain = true) : WorkSteps C d s o s' :=
  WorkStep.steps (.calm h ho)

theorem Still.steps (h : Still s s') : WorkSteps C d s [] s' := h.calm.steps

end WorkSteps

end Driver

end BinderForLinux
