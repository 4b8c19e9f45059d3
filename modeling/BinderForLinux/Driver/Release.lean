import BinderForLinux.Driver.Transaction

/-!
# Threads and processes that go away

`binder_get_thread`, `binder_release_work`, `binder_free_thread`,
`binder_node_release` and `binder_deferred_release`. The loops that run until a
list or tree is empty are run over the list as it is at the start: nothing in
their bodies adds to it.
-/

namespace BinderForLinux

namespace Driver

open Library

/-! ### Threads -/

/-- `binder_get_thread` for the task with number `pid`; `alloc` tells whether
`kzalloc` succeeds. -/
def binderGetThread (s : State) (p : ProcId) (pid : ℕ) (alloc : Bool) : Option ThreadId × State :=
  match (s.threadsOf p).find? fun th => (s.threads th).any fun thr => thr.pid = pid with
  | some th => (some th, s)
  | none =>
      if !alloc then (none, s)
      else
        let th := s.nextId
        let thr : Thread :=
          { proc := p, pid := pid
            looper := { registered := false, entered := false, exited := false, invalid := false,
                        waiting := false, needReturn := true }
            transactionStack := none, returnError := .ok, returnError2 := .ok, read := none
            readBuffer := [] }
        let s := { s with nextId := th + 1 }.setThread th thr
        let key q := ((s.threads q).map Thread.pid).getD 0
        (some th,
          { s with
            threadsOf := Function.update s.threadsOf p (insertByKey key th (s.threadsOf p)) })

/-- One item of `binder_release_work`, already taken off its list. -/
def releaseWork (s : State) : Work → Except Fault State
  | .transaction t => do
      let tx ← deref s.txns t
      match tx.buffer with
      | none => .error .badPointer
      | some (p, a) =>
          let b ← derefBuffer s p a
          if b.targetNode.isSome && !tfOneWay tx.flags then binderSendFailedReply s t .deadReply
          else freeTxn s t
  | .transactionComplete _ => .ok s
  | .death d => do
      let de ← deref s.deaths d
      match de.workType with
      | .deadBinder => return s.setDeath d { de with entry := none }
      | _ => return { s with deaths := Function.update s.deaths d none }
  | .node n => do
      let nd ← deref s.nodes n
      return s.setNode n { nd with entry := none }

def releaseWorks (s : State) : List Work → Except Fault State
  | [] => .ok s
  | w :: ws => do
      let s ← releaseWork s w
      releaseWorks s ws

def binderReleaseWork (s : State) (q : Queue) : Except Fault State :=
  releaseWorks (s.setTodo q []) (s.todo q)

/-- The walk of `binder_free_thread` over the stack of the thread. -/
def freeThreadWalk : ℕ → State → ThreadId → Option TxnId → Except Fault State
  | _, s, _, none => .ok s
  | 0, _, _, some _ => .error .endless
  | fuel + 1, s, th, some t => do
      let tx ← deref s.txns t
      if tx.toThread = some th then
        let s ← detachBuffer s tx.buffer
        freeThreadWalk fuel
          (s.setTxn t { tx with toProc := none, toThread := none, buffer := none }) th tx.toParent
      else if tx.fromThread = some th then
        freeThreadWalk fuel (s.setTxn t { tx with fromThread := none }) th tx.fromParent
      else .error (.bug .freeThread)

/-- The call that a dying thread still owes a reply to. -/
def owedReply (s : State) (th : ThreadId) (stack : Option TxnId) : Except Fault (Option TxnId) :=
  match stack with
  | none => .ok none
  | some t => do
      let tx ← deref s.txns t
      return if tx.toThread = some th then some t else none

def failOwed (s : State) (owed : Option TxnId) : Except Fault State :=
  match owed with
  | some t => binderSendFailedReply s t .deadReply
  | none => .ok s

def binderFreeThread (s : State) (p : ProcId) (th : ThreadId) : Except Fault State := do
  let thr ← deref s.threads th
  let s := { s with
    threadsOf := Function.update s.threadsOf p ((s.threadsOf p).filter (· ≠ th)) }
  let sendReply ← owedReply s th thr.transactionStack
  let s ← freeThreadWalk (s.nextId + 1) s th thr.transactionStack
  let s ← failOwed s sendReply
  let s ← binderReleaseWork s (.thread th)
  return { s with threads := Function.update s.threads th none }

def freeThreads (p : ProcId) : State → List ThreadId → Except Fault State
  | s, [] => .ok s
  | s, th :: ths => do
      let s ← binderFreeThread s p th
      freeThreads p s ths

/-! ### Nodes -/

/-- Tell the holders of references to a dead node that asked for it. -/
def notifyDeath (s : State) : List RefId → Except Fault State
  | [] => .ok s
  | r :: rs => do
      let rf ← deref s.refs r
      match rf.death with
      | none => notifyDeath s rs
      | some d =>
          let de ← deref s.deaths d
          bugOn .nodeRelease de.entry.isSome
          let s := s.setDeath d { de with workType := .deadBinder, entry := some (.proc rf.proc) }
          notifyDeath (s.listAddTail (.proc rf.proc) (.death d)) rs

/-- `binder_node_release` for a node that `binder_deferred_release` has taken out
of the tree of its process. -/
def binderNodeRelease (s : State) (n : NodeId) : Except Fault State := do
  let nd ← deref s.nodes n
  let s ← binderReleaseWork (unlinkNode s n nd) (.async n)
  let nd ← deref s.nodes n
  if nd.refs.isEmpty then return { s with nodes := Function.update s.nodes n none }
  let s := s.setNode n { nd with proc := none, localStrongRefs := 0, localWeakRefs := 0 }
  notifyDeath { s with deadNodes := n :: s.deadNodes } nd.refs

def releaseNodes (p : ProcId) : State → List NodeId → Except Fault State
  | s, [] => .ok s
  | s, n :: ns => do
      let s := { s with
        nodesOf := Function.update s.nodesOf p ((s.nodesOf p).filter (· ≠ n)) }
      let s ← binderNodeRelease s n
      releaseNodes p s ns

/-! ### Processes -/

def deleteRefs : State → List RefId → Except Fault State
  | s, [] => .ok s
  | s, r :: rs => do
      let s ← binderDeleteRef s r
      deleteRefs s rs

/-- The loop over the allocated buffers: their objects are not released. -/
def freeBuffers (L : Layout) (p : ProcId) : State → List ℕ → Except Fault State
  | s, [] => .ok s
  | s, a :: as => do
      let b ← derefBuffer s p a
      let s ← detachTransaction s p b
      let ar ← binderFreeBuf L (s.area p) a
      freeBuffers L p (s.setArea p ar) as

/-- The context manager is gone when its process is. -/
def dropContextMgr (s : State) (p : ProcId) : Except Fault State :=
  match s.contextMgrNode with
  | none => .ok s
  | some n => do
      let nd ← deref s.nodes n
      return if nd.proc = some p then { s with contextMgrNode := none } else s

def binderDeferredRelease (L : Layout) (s : State) (p : ProcId) : Except Fault State := do
  bugOn .deferredRelease (s.area p).vma
  bugOn .deferredRelease (s.files p).isSome
  let s ← dropContextMgr s p
  let s ← freeThreads p s (s.threadsOf p)
  let s ← releaseNodes p s (s.nodesOf p)
  let s ← deleteRefs s (s.refsByDesc p)
  let s ← binderReleaseWork s (.proc p)
  let s ← binderReleaseWork s (.deliveredDeath p)
  let s ← freeBuffers L p s (s.area p).allocatedBuffers.toList
  return { s.setArea p Area.unmapped with procs := Function.update s.procs p none }

end Driver

end BinderForLinux
