import BinderForLinux.Driver.Alloc
import BinderForLinux.Driver.Object
import BinderForLinux.Driver.Refs

/-!
# Transactions

`binder_pop_transaction`, `binder_send_failed_reply`,
`binder_transaction_buffer_release` and `binder_transaction`. The last is cut at
the labels of the source: selecting the target, filling and translating the
buffer, queueing the transaction, and the unwinding that all failures share.

The buffer and the transaction under construction are local values until the
transaction is queued: between the allocation and that point no one else can
reach them. Everything the kernel decides on the way (allocations, copies from
user space, security hooks, file descriptors) is a field of `TxnEnv`; for the
objects it is indexed by the position of the object.
-/

namespace BinderForLinux

namespace Driver

open Library

/-! ### Following `t->buffer` -/

/-- The buffer at `a` in the area of `p`; a buffer given back to the allocator is
not there any more. -/
def derefBuffer (s : State) (p : ProcId) (a : ℕ) : Except Fault Buffer :=
  match findBuffer (s.area p).buffers a with
  | some b => if b.free then .error .badPointer else .ok b
  | none => .error .badPointer

def State.updateBuffer (s : State) (p : ProcId) (a : ℕ) (f : Buffer → Buffer) : State :=
  s.setArea p { s.area p with buffers := modifyBuffer a f (s.area p).buffers }

/-- `if (t->buffer) t->buffer->transaction = NULL`. -/
def detachBuffer (s : State) (buffer : Option (ProcId × ℕ)) : Except Fault State :=
  match buffer with
  | none => .ok s
  | some (p, a) => do
      let _ ← derefBuffer s p a
      return s.updateBuffer p a fun b => { b with transaction := none }

/-- `buffer->transaction->buffer = NULL` and `buffer->transaction = NULL`. -/
def detachTransaction (s : State) (p : ProcId) (b : Buffer) : Except Fault State :=
  match b.transaction with
  | none => .ok s
  | some t => do
      let tx ← deref s.txns t
      let s := s.setTxn t { tx with buffer := none }
      return s.updateBuffer p b.addr fun b => { b with transaction := none }

def freeTxn (s : State) (t : TxnId) : Except Fault State := do
  let tx ← deref s.txns t
  let s ← detachBuffer s tx.buffer
  return { s with txns := Function.update s.txns t none }

/-- Take the call `t` off the stack of the thread it comes from. -/
def popStack (s : State) (target : Option ThreadId) (t : TxnId) : Except Fault State :=
  match target with
  | none => .ok s
  | some th => do
      let thr ← deref s.threads th
      bugOn .popTransaction (thr.transactionStack ≠ some t)
      let tx ← deref s.txns t
      bugOn .popTransaction (tx.fromThread ≠ some th)
      return s.setThread th { thr with transactionStack := tx.fromParent }

def binderPopTransaction (s : State) (target : Option ThreadId) (t : TxnId) :
    Except Fault State := do
  let s ← popStack s target t
  freeTxn s t

/-- Make room for one more error code of a thread. -/
def Thread.shiftError (thr : Thread) : Thread :=
  if thr.returnError ≠ .ok ∧ thr.returnError2 = .ok then
    { thr with returnError2 := thr.returnError, returnError := .ok }
  else thr

/-- Hand the error code to the caller of `t`, unless it has two already. -/
def failReplyTo (s : State) (th : ThreadId) (thr : Thread) (t : TxnId) (e : ReturnError) :
    Except Fault State :=
  if thr.returnError ≠ .ok then .ok s
  else do
    let s ← binderPopTransaction s (some th) t
    let thr ← deref s.threads th
    return s.setThread th { thr with returnError := e }

def failedReplyLoop : ℕ → State → TxnId → ReturnError → Except Fault State
  | 0, _, _, _ => .error .endless
  | fuel + 1, s, t, e => do
      let tx ← deref s.txns t
      match tx.fromThread with
      | some th =>
          let thr ← deref s.threads th
          failReplyTo (s.setThread th thr.shiftError) th thr.shiftError t e
      | none =>
          let s ← binderPopTransaction s none t
          match tx.fromParent with
          | none => return s
          | some next => failedReplyLoop fuel s next e

/-- `binder_send_failed_reply`. A chain of callers is never longer than the
number of transactions ever made. -/
def binderSendFailedReply (s : State) (t : TxnId) (e : ReturnError) : Except Fault State := do
  let tx ← deref s.txns t
  bugOn .sendFailedReply (tfOneWay tx.flags)
  failedReplyLoop (s.nextId + 1) s t e

/-! ### Releasing the objects of a buffer -/

def taskCloseFd (s : State) (p : ProcId) (fd : ℕ) : State :=
  match s.files p with
  | none => s
  | some tbl => { s with files := Function.update s.files p (some (Function.update tbl fd none)) }

/-- One object of `binder_transaction_buffer_release`; `failed` tells whether
`failed_at` is set. -/
def releaseObject (s : State) (p : ProcId) (dataSize : ℕ) (data : Data) (failed : Bool)
    (off : ℕ) : Except Fault State :=
  if !validOffset dataSize off then .ok s
  else
    match data.type off with
    | some (.binder strong) =>
        match binderGetNode s p (data.binder off) with
        | none => .ok s
        | some n => binderDecNode s n strong false
    | some (.handle strong) =>
        match binderGetRef s p (data.handle off) with
        | none => .ok s
        | some r => binderDecRef s r strong
    | some .fd => .ok (if failed then taskCloseFd s p (data.handle off) else s)
    | none => .ok s

def releaseObjects (s : State) (p : ProcId) (dataSize : ℕ) (data : Data) (failed : Bool) :
    List ℕ → Except Fault State
  | [] => .ok s
  | off :: offs => do
      let s ← releaseObject s p dataSize data failed off
      releaseObjects s p dataSize data failed offs

/-- Give back the count that a buffer holds on its target node. -/
def releaseTarget (s : State) (node : Option NodeId) : Except Fault State :=
  match node with
  | some n => binderDecNode s n true false
  | none => .ok s

/-- `binder_transaction_buffer_release`; `failedAt` is the number of offsets
before `failed_at`. -/
def binderTransactionBufferRelease (s : State) (p : ProcId) (b : Buffer)
    (failedAt : Option ℕ) : Except Fault State := do
  let s ← releaseTarget s b.targetNode
  releaseObjects s p b.dataSize b.data failedAt.isSome
    (b.offsets.take (failedAt.getD b.offsets.length))

/-! ### The request and what the kernel decides -/

/-- `struct binder_transaction_data` as the caller passes it, with the memory its
two pointers point to. -/
structure TransactionData where
  handle : ℕ
  code : ℕ
  flags : ℕ
  dataSize : ℕ
  offsetsSize : ℕ
  data : Data
  offsets : ℕ → ℕ

structure TxnEnv where
  senderEuid : ℕ
  securityTransaction : Bool
  allocTransaction : Bool
  allocComplete : Bool
  pages : PageEnv
  copyData : Bool
  copyOffsets : Bool
  newNode : ℕ → Bool
  transferBinder : ℕ → Bool
  newRef : ℕ → Bool
  fget : ℕ → Option File
  transferFile : ℕ → Bool
  unusedFd : ℕ → Option ℕ

/-! ### Selecting the target -/

/-- The local variables `target_proc`, `target_thread`, `target_node` and
`in_reply_to` of `binder_transaction`. -/
structure Target where
  proc : ProcId
  thread : Option ThreadId
  node : Option NodeId
  inReplyTo : Option TxnId

inductive Selection
  | target (tg : Target)
  | refused (e : ReturnError) (inReplyTo : Option TxnId)

/-- The caller, when it belongs to the target process, else what was found
before. -/
def callerIn (s : State) (target : ProcId) (caller found : Option ThreadId) :
    Except Fault (Option ThreadId) :=
  match caller with
  | none => .ok found
  | some th => do
      let thr ← deref s.threads th
      return if thr.proc = target then some th else found

/-- The walk over the callers of `tmp` for a thread of the target process; the
last one found wins. -/
def findCaller : ℕ → State → ProcId → Option TxnId → Option ThreadId →
    Except Fault (Option ThreadId)
  | _, _, _, none, found => .ok found
  | 0, _, _, some _, _ => .error .endless
  | fuel + 1, s, target, some tmp, found => do
      let tx ← deref s.txns tmp
      let found ← callerIn s target tx.fromThread found
      findCaller fuel s target tx.fromParent found

/-- The part of `binder_transaction` for `reply`, up to the choice of the
target. The stack of the replying thread is popped here already. -/
def selectReplyTarget (s : State) (th : ThreadId) : Except Fault (Selection × State) := do
  let thr ← deref s.threads th
  match thr.transactionStack with
  | none => return (.refused .failedReply none, s)
  | some irt =>
      let tx ← deref s.txns irt
      if tx.toThread ≠ some th then return (.refused .failedReply none, s)
      let s := s.setThread th { thr with transactionStack := tx.toParent }
      match tx.fromThread with
      | none => return (.refused .deadReply (some irt), s)
      | some target =>
          let tthr ← deref s.threads target
          if tthr.transactionStack ≠ some irt then return (.refused .failedReply none, s)
          return (.target ⟨tthr.proc, some target, none, some irt⟩, s)

def targetNodeOf (s : State) (p : ProcId) (handle : ℕ) : Except Fault (Except ReturnError NodeId) :=
  if handle ≠ 0 then
    match binderGetRef s p handle with
    | none => .ok (.error .failedReply)
    | some r => do
        let rf ← deref s.refs r
        return .ok rf.node
  else
    match s.contextMgrNode with
    | none => .ok (.error .deadReply)
    | some n => .ok (.ok n)

/-- The thread of the target process that a two-way call of `th` goes to. -/
def targetThreadOf (s : State) (th : ThreadId) (target : ProcId) (oneWay : Bool) :
    Except Fault (Except ReturnError (Option ThreadId)) := do
  let thr ← deref s.threads th
  match thr.transactionStack with
  | none => return .ok none
  | some top =>
      if oneWay then return .ok none
      let tx ← deref s.txns top
      if tx.toThread ≠ some th then return .error .failedReply
      let found ← findCaller (s.nextId + 1) s target (some top) none
      return .ok found

def selectCallTarget (s : State) (p : ProcId) (th : ThreadId) (tr : TransactionData)
    (env : TxnEnv) : Except Fault Selection := do
  match ← targetNodeOf s p tr.handle with
  | .error e => return .refused e none
  | .ok n =>
      let nd ← deref s.nodes n
      match nd.proc with
      | none => return .refused .deadReply none
      | some target =>
          if !env.securityTransaction then return .refused .failedReply none
          match ← targetThreadOf s th target (tfOneWay tr.flags) with
          | .error e => return .refused e none
          | .ok thread => return .target ⟨target, thread, some n, none⟩

def selectTarget (s : State) (p : ProcId) (th : ThreadId) (tr : TransactionData) (reply : Bool)
    (env : TxnEnv) : Except Fault (Selection × State) :=
  if reply then selectReplyTarget s th
  else do
    let sel ← selectCallTarget s p th tr env
    return (sel, s)

/-! ### Translating the objects -/

/-- What stays fixed while the objects are translated. -/
structure TranslateCtx where
  proc : ProcId
  thread : ThreadId
  target : ProcId
  dataSize : ℕ
  acceptFds : Bool
  env : TxnEnv

/-- The node of a binder object in the sender, made when it is not there; `none`
when it cannot be made. -/
def objectNode (c : TranslateCtx) (k : ℕ) (s : State) (data : Data) (off : ℕ) :
    Except Fault (Option NodeId × State) :=
  match binderGetNode s c.proc (data.binder off) with
  | some n => .ok (some n, s)
  | none =>
      match binderNewNode s c.proc (data.binder off) (data.cookie off) (c.env.newNode k) with
      | (none, s) => .ok (none, s)
      | (some n, s) => do
          let nd ← deref s.nodes n
          return (some n, s.setNode n { nd with acceptFds := (data.flags off).testBit 8 })

def translateBinder (c : TranslateCtx) (k : ℕ) (s : State) (data : Data) (off : ℕ)
    (strong : Bool) : Except Fault (Bool × State × Data) := do
  match ← objectNode c k s data off with
  | (none, s) => return (false, s, data)
  | (some n, s) =>
      let nd ← deref s.nodes n
      if data.cookie off ≠ nd.cookie then return (false, s, data)
      if !c.env.transferBinder k then return (false, s, data)
      match ← binderGetRefForNode s c.target n (c.env.newRef k) with
      | (none, s) => return (false, s, data)
      | (some r, s) =>
          let rf ← deref s.refs r
          let data := (data.setType off (.handle strong)).setHandle off rf.desc
          let (_, s) ← binderIncRef s r strong (some (.thread c.thread))
          return (true, s, data)

def translateHandle (c : TranslateCtx) (k : ℕ) (s : State) (data : Data) (off : ℕ)
    (strong : Bool) : Except Fault (Bool × State × Data) := do
  match binderGetRef s c.proc (data.handle off) with
  | none => return (false, s, data)
  | some r =>
      if !c.env.transferBinder k then return (false, s, data)
      let rf ← deref s.refs r
      let nd ← deref s.nodes rf.node
      if nd.proc = some c.target then
        let data := (data.setType off (.binder strong)).setBinder off nd.ptr nd.cookie
        let (_, s) ← binderIncNode s rf.node strong false none
        return (true, s, data)
      match ← binderGetRefForNode s c.target rf.node (c.env.newRef k) with
      | (none, s) => return (false, s, data)
      | (some r', s) =>
          let rf' ← deref s.refs r'
          let (_, s) ← binderIncRef s r' strong none
          return (true, s, data.setHandle off rf'.desc)

/-- `task_get_unused_fd_flags`: a descriptor that is free in the table. -/
def taskGetUnusedFd (s : State) (p : ProcId) (fd : Option ℕ) : Option (ℕ × (ℕ → Option File)) :=
  match s.files p, fd with
  | some tbl, some fd => if (tbl fd).isNone && fd < 2 ^ 31 then some (fd, tbl) else none
  | _, _ => none

def translateFd (c : TranslateCtx) (k : ℕ) (s : State) (data : Data) (off : ℕ) :
    Bool × State × Data :=
  if !c.acceptFds then (false, s, data)
  else
    match c.env.fget (data.handle off) with
    | none => (false, s, data)
    | some file =>
        if !c.env.transferFile k then (false, s, data)
        else
          match taskGetUnusedFd s c.target (c.env.unusedFd k) with
          | none => (false, s, data)
          | some (fd, tbl) =>
              (true,
                { s with
                  files := Function.update s.files c.target
                    (some (Function.update tbl fd (some file))) },
                data.setHandle off fd)

/-- One object of the translation loop; the flag is false when it fails. -/
def translateObject (c : TranslateCtx) (k : ℕ) (s : State) (data : Data) (off : ℕ) :
    Except Fault (Bool × State × Data) :=
  if !validOffset c.dataSize off then .ok (false, s, data)
  else
    match data.type off with
    | some (.binder strong) => translateBinder c k s data off strong
    | some (.handle strong) => translateHandle c k s data off strong
    | some .fd => .ok (translateFd c k s data off)
    | none => .ok (false, s, data)

/-- The translation loop, with `k` objects done; returns the position of the
object that failed, if one did. -/
def translateObjects (c : TranslateCtx) :
    ℕ → State → Data → List ℕ → Except Fault (Option ℕ × State × Data)
  | _, s, data, [] => .ok (none, s, data)
  | k, s, data, off :: offs => do
      let (ok, s, data) ← translateObject c k s data off
      if ok then translateObjects c (k + 1) s data offs else return (some k, s, data)

def TransactionData.offsetList (tr : TransactionData) : List ℕ :=
  (List.range (tr.offsetsSize / 8)).map tr.offsets

/-- From the first copy to the end of the translation loop. -/
def fillBuffer (c : TranslateCtx) (s : State) (tr : TransactionData) :
    Except Fault (Option ℕ × State × Data) :=
  if !c.env.copyData || !c.env.copyOffsets || tr.offsetsSize % 8 ≠ 0 then .ok (some 0, s, tr.data)
  else translateObjects c 0 s tr.data tr.offsetList

/-! ### The end of a transaction -/

def transactionFailed (s : State) (th : ThreadId) (e : ReturnError) (inReplyTo : Option TxnId) :
    Except Fault State := do
  let thr ← deref s.threads th
  bugOn .transaction (thr.returnError ≠ .ok)
  match inReplyTo with
  | some irt =>
      binderSendFailedReply (s.setThread th { thr with returnError := .transactionComplete }) irt e
  | none => return s.setThread th { thr with returnError := e }

/-- The list a transaction goes to, and the update of the target node for a
one-way one. -/
def asyncTarget (s : State) (n : NodeId) (q : Queue) : Except Fault (Queue × State) := do
  let nd ← deref s.nodes n
  if nd.hasAsyncTransaction then return (.async n, s)
  return (q, s.setNode n { nd with hasAsyncTransaction := true })

/-- The stack changes of a successful transaction: a reply pops the call it
answers, a call is pushed; returns the list for the transaction and its
`from_parent`. -/
def commitStacks (s : State) (th : ThreadId) (t : TxnId) (tg : Target) (reply oneWay : Bool) :
    Except Fault (Queue × Option TxnId × State) := do
  let q : Queue := match tg.thread with
    | some target => .thread target
    | none => .proc tg.proc
  if reply then
    match tg.inReplyTo with
    | none => .error .badPointer
    | some irt =>
        let s ← binderPopTransaction s tg.thread irt
        return (q, none, s)
  else if !oneWay then
    let thr ← deref s.threads th
    return (q, thr.transactionStack, s.setThread th { thr with transactionStack := some t })
  else
    match tg.node with
    | none => .error (.bug .transaction)
    | some n =>
        let (q, s) ← asyncTarget s n q
        return (q, none, s)

/-- Queue the transaction and its acknowledgement. -/
def commitTransaction (s : State) (p : ProcId) (th : ThreadId) (t : TxnId) (tg : Target)
    (tr : TransactionData) (reply : Bool) (env : TxnEnv) (a : ℕ) (data : Data) :
    Except Fault State := do
  let oneWay := tfOneWay tr.flags
  let b ← derefBuffer s tg.proc a
  bugOn .transaction (b.asyncTransaction ≠ (!reply && oneWay))
  let (q, fromParent, s) ← commitStacks s th t tg reply oneWay
  let tx : Transaction :=
    { sender := p
      fromThread := if !reply && !oneWay then some th else none
      fromParent := fromParent
      toProc := some tg.proc
      toThread := tg.thread
      toParent := none
      needReply := !reply && !oneWay
      buffer := some (tg.proc, a)
      code := tr.code
      flags := tr.flags
      senderEuid := env.senderEuid }
  let s := (s.setTxn t tx).updateBuffer tg.proc a fun b => { b with
    allowUserFree := false
    transaction := some t
    targetNode := tg.node
    data := data
    offsets := tr.offsetList }
  return (s.listAddTail q (.transaction t)).listAddTail (.thread th) (.transactionComplete t)

/-- The unwinding from `err_copy_data_failed` on: release what was translated and
give the buffer back. -/
def unwindBuffer (L : Layout) (s : State) (tg : Target) (tr : TransactionData) (a : ℕ)
    (data : Data) (failedAt : ℕ) : Except Fault State := do
  let b ← derefBuffer s tg.proc a
  let s ← binderTransactionBufferRelease s tg.proc
    { b with targetNode := tg.node, data := data, offsets := tr.offsetList } (some failedAt)
  let ar ← binderFreeBuf L (s.area tg.proc) a
  return s.setArea tg.proc ar

def targetAcceptFds (s : State) (tg : Target) : Except Fault Bool :=
  match tg.inReplyTo, tg.node with
  | some irt, _ => do
      let tx ← deref s.txns irt
      return tfAcceptFds tx.flags
  | none, some n => do
      let nd ← deref s.nodes n
      return nd.acceptFds
  | none, none => .ok false

/-- The fields of a new buffer before the transaction is queued. -/
def Buffer.cleared (b : Buffer) : Buffer :=
  { b with
    allowUserFree := false
    transaction := none
    targetNode := none
    data := fun _ => 0
    offsets := [] }

def holdTarget (s : State) (node : Option NodeId) : Except Fault State :=
  match node with
  | some n => (binderIncNode s n true false none).map Prod.snd
  | none => .ok s

/-- From the allocation of the buffer on; `t` is the new transaction. -/
def sendToTarget (L : Layout) (s : State) (p : ProcId) (th : ThreadId) (t : TxnId) (tg : Target)
    (tr : TransactionData) (reply : Bool) (env : TxnEnv) : Except Fault State := do
  match ← binderAllocBuf L (s.area tg.proc) tr.dataSize tr.offsetsSize
      (!reply && tfOneWay tr.flags) env.pages with
  | (none, ar) => transactionFailed (s.setArea tg.proc ar) th .failedReply tg.inReplyTo
  | (some a, ar) =>
      let s := (s.setArea tg.proc ar).updateBuffer tg.proc a Buffer.cleared
      let s ← holdTarget s tg.node
      let acceptFds ← targetAcceptFds s tg
      let c : TranslateCtx := ⟨p, th, tg.proc, tr.dataSize, acceptFds, env⟩
      match ← fillBuffer c s tr with
      | (none, s, data) => commitTransaction s p th t tg tr reply env a data
      | (some k, s, data) =>
          let s ← unwindBuffer L s tg tr a data k
          transactionFailed s th .failedReply tg.inReplyTo

def binderTransaction (L : Layout) (s : State) (p : ProcId) (th : ThreadId)
    (tr : TransactionData) (reply : Bool) (env : TxnEnv) : Except Fault State := do
  match ← selectTarget s p th tr reply env with
  | (.refused e inReplyTo, s) => transactionFailed s th e inReplyTo
  | (.target tg, s) =>
      if !env.allocTransaction || !env.allocComplete then
        transactionFailed s th .failedReply tg.inReplyTo
      else sendToTarget L { s with nextId := s.nextId + 1 } p th s.nextId tg tr reply env

end Driver

end BinderForLinux
