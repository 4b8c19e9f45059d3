import Mathlib.Algebra.Order.Ring.Nat
import Mathlib.Logic.Function.Basic
import BinderForLinux.Library.SearchTree

/-!
# The data of the binder driver

The structures of `binder.c` under the source's field names. A pointer to a
kernel object is the object's number, and `State` maps numbers to the objects
that are allocated: a number is given out once and never again, so a pointer to
a freed object is a number the map no longer knows. The list heads and tree
roots that the source embeds in its structures (`proc->todo`,
`proc->refs_by_desc`, …) are maps of their own from the object that owns them,
so that an update of one of them is visibly no update of the others.

Trees keyed by a field that never changes while the element is in the tree
(threads by `pid`, nodes by `ptr`, refs by `desc` and by `node`) are kept as
ordered lists. The two trees of buffers are search trees: the key of a free
buffer is recomputed from its neighbours at every visit.

Left out because no modelled function reads it: debug ids, the statistics and
the transaction log, the wait queues and the scheduling priorities.
-/

namespace BinderForLinux

namespace Driver

open Library

abbrev ProcId := ℕ

abbrev ThreadId := ℕ

abbrev NodeId := ℕ

abbrev RefId := ℕ

abbrev DeathId := ℕ

abbrev TxnId := ℕ

abbrev File := ℕ

/-- The functions that hold a `BUG()` or a `BUG_ON`; `threadWriteFreed` is the `BUG_ON` of
`BC_FREE_BUFFER`, where it reads the flag of a node that is freed. -/
inductive BugSite
  | insertFreeBuffer
  | insertAllocatedBuffer
  | bufferLookup
  | updatePageRange
  | allocBuf
  | deleteFreeBuffer
  | freeBuf
  | getRefForNode
  | popTransaction
  | sendFailedReply
  | transaction
  | threadWrite
  | threadWriteFreed
  | threadRead
  | freeThread
  | nodeRelease
  | deferredRelease
deriving DecidableEq, Repr

/-- How a run of the driver ends: a failed assertion, a dereference of a null
pointer or of a freed object, or a loop that does not end. -/
inductive Fault
  | bug (site : BugSite)
  | badPointer
  | endless
deriving DecidableEq, Repr

/-- The values `thread->return_error` takes. -/
inductive ReturnError
  | ok
  | error
  | deadReply
  | failedReply
  | transactionComplete
deriving DecidableEq, Repr

/-- The list a `binder_work` may be linked on. -/
inductive Queue
  | proc (p : ProcId)
  | thread (t : ThreadId)
  | async (n : NodeId)
  | deliveredDeath (p : ProcId)
deriving DecidableEq, Repr

/-- A `binder_work`, with the object it is embedded in. A transaction-complete
item is an allocation of its own; the transaction it acknowledges is recorded
beside it, the driver does not keep it. -/
inductive Work
  | transaction (t : TxnId)
  | transactionComplete (t : TxnId)
  | node (n : NodeId)
  | death (d : DeathId)
deriving DecidableEq, Repr

/-- `struct binder_node`; `entry` is the list `work.entry` is linked on. -/
structure Node where
  proc : Option ProcId
  refs : List RefId
  internalStrongRefs : ℤ
  localWeakRefs : ℤ
  localStrongRefs : ℤ
  ptr : ℕ
  cookie : ℕ
  hasStrongRef : Bool
  pendingStrongRef : Bool
  hasWeakRef : Bool
  pendingWeakRef : Bool
  hasAsyncTransaction : Bool
  acceptFds : Bool
  entry : Option Queue

/-- The type of the work of a `binder_ref_death`. -/
inductive DeathWork
  | deadBinder
  | deadBinderAndClear
  | clearDeathNotification
deriving DecidableEq, Repr

/-- `struct binder_ref_death`; `entry` is the list `work.entry` is linked on. -/
structure Death where
  cookie : ℕ
  workType : DeathWork
  entry : Option Queue

/-- `struct binder_ref`. -/
structure Ref where
  proc : ProcId
  node : NodeId
  desc : ℕ
  strong : ℕ
  weak : ℕ
  death : Option DeathId

/-- `struct binder_transaction`. `sender` is the process that issued it: the
driver itself keeps only `from`, and that only for a two-way call. `buffer` is
the target process together with the address in its area. -/
structure Transaction where
  sender : ProcId
  fromThread : Option ThreadId
  fromParent : Option TxnId
  toProc : Option ProcId
  toThread : Option ThreadId
  toParent : Option TxnId
  needReply : Bool
  buffer : Option (ProcId × ℕ)
  code : ℕ
  flags : ℕ
  senderEuid : ℕ

def tfOneWay (flags : ℕ) : Bool := flags.testBit 0

def tfAcceptFds (flags : ℕ) : Bool := flags.testBit 4

/-- `struct binder_buffer` at address `addr`, with the bytes and the offsets it
holds. -/
structure Buffer where
  addr : ℕ
  free : Bool
  allowUserFree : Bool
  asyncTransaction : Bool
  transaction : Option TxnId
  targetNode : Option NodeId
  dataSize : ℕ
  offsetsSize : ℕ
  data : ℕ → UInt8
  offsets : List ℕ

/-- The buffer space of a `binder_proc`: the fields `vma`, `buffer`,
`user_buffer_offset`, `buffers`, `free_buffers`, `allocated_buffers`,
`free_async_space`, `pages` and `buffer_size`. -/
structure Area where
  vma : Bool
  buffer : ℕ
  bufferSize : ℕ
  userBufferOffset : ℤ
  buffers : List Buffer
  freeBuffers : SearchTree ℕ
  allocatedBuffers : SearchTree ℕ
  freeAsyncSpace : ℕ
  pages : ℕ → Bool

/-- The area of a process that has not called `mmap`. -/
def Area.unmapped : Area where
  vma := false
  buffer := 0
  bufferSize := 0
  userBufferOffset := 0
  buffers := []
  freeBuffers := .nil
  allocatedBuffers := .nil
  freeAsyncSpace := 0
  pages := fun _ => false

/-- The `looper` flags of a thread. -/
structure Looper where
  registered : Bool
  entered : Bool
  exited : Bool
  invalid : Bool
  waiting : Bool
  needReturn : Bool
deriving DecidableEq, Repr

/-- `struct binder_transaction_data` as `binder_thread_read` fills it in. -/
structure TransactionInfo where
  target : ℕ
  cookie : ℕ
  code : ℕ
  flags : ℕ
  senderPid : ℕ
  senderEuid : ℕ
  dataSize : ℕ
  offsetsSize : ℕ
  buffer : ℤ
  offsets : ℤ
deriving DecidableEq, Repr

/-- The return commands of `binder_driver_return_protocol`. -/
inductive ReturnCommand
  | noop
  | spawnLooper
  | errorCode (e : ReturnError)
  | transactionComplete
  | transaction (tr : TransactionInfo)
  | reply (tr : TransactionInfo)
  | increfs (ptr cookie : ℕ)
  | acquire (ptr cookie : ℕ)
  | release (ptr cookie : ℕ)
  | decrefs (ptr cookie : ℕ)
  | deadBinder (cookie : ℕ)
  | clearDeathNotificationDone (cookie : ℕ)
deriving DecidableEq, Repr

/-- The local variables of a `binder_thread_read` that has released the lock to
wait: the size of the read buffer, the position in it, the flag
`wait_for_proc_work` and the commands written so far. -/
structure ReadFrame where
  size : ℕ
  ptr : ℕ
  waitForProcWork : Bool
  out : List ReturnCommand
deriving DecidableEq, Repr

/-- `struct binder_thread`. `read` is the frame of a read that waits, and
`readBuffer` is what the last completed read left in the user's buffer. -/
structure Thread where
  proc : ProcId
  pid : ℕ
  looper : Looper
  transactionStack : Option TxnId
  returnError : ReturnError
  returnError2 : ReturnError
  read : Option ReadFrame
  readBuffer : List ReturnCommand

/-- The scalar fields of `struct binder_proc`, and the three bits of
`deferred_work`. -/
structure Proc where
  pid : ℕ
  maxThreads : ℤ
  requestedThreads : ℤ
  requestedThreadsStarted : ℤ
  readyThreads : ℤ
  deferredPutFiles : Bool
  deferredFlush : Bool
  deferredRelease : Bool

/-- The whole state of the driver. -/
structure State where
  nextId : ℕ
  procs : ProcId → Option Proc
  threads : ThreadId → Option Thread
  nodes : NodeId → Option Node
  refs : RefId → Option Ref
  deaths : DeathId → Option Death
  txns : TxnId → Option Transaction
  area : ProcId → Area
  files : ProcId → Option (ℕ → Option File)
  threadsOf : ProcId → List ThreadId
  nodesOf : ProcId → List NodeId
  refsByDesc : ProcId → List RefId
  refsByNode : ProcId → List RefId
  todo : Queue → List Work
  deadNodes : List NodeId
  contextMgrNode : Option NodeId
  contextMgrUid : Option ℕ

def State.init : State where
  nextId := 0
  procs := fun _ => none
  threads := fun _ => none
  nodes := fun _ => none
  refs := fun _ => none
  deaths := fun _ => none
  txns := fun _ => none
  area := fun _ => Area.unmapped
  files := fun _ => none
  threadsOf := fun _ => []
  nodesOf := fun _ => []
  refsByDesc := fun _ => []
  refsByNode := fun _ => []
  todo := fun _ => []
  deadNodes := []
  contextMgrNode := none
  contextMgrUid := none

/-! ### Dereferencing

Following a pointer to an object that is not allocated ends the run. -/

def deref {α : Type} (heap : ℕ → Option α) (i : ℕ) : Except Fault α :=
  match heap i with
  | some a => .ok a
  | none => .error .badPointer

/-- The object whose field `BUG_ON` reads. If it is freed, the field may be anything, and the
assertion fails or not. -/
def derefAsserted {α : Type} (site : BugSite) (heap : ℕ → Option α) (i : ℕ) : Except Fault α :=
  match heap i with
  | some a => .ok a
  | none => .error (.bug site)

def bugOn (site : BugSite) (c : Bool) : Except Fault Unit :=
  if c then .error (.bug site) else .ok ()

@[simp] theorem deref_eq_ok {α : Type} {heap : ℕ → Option α} {i : ℕ} {a : α} :
    deref heap i = .ok a ↔ heap i = some a := by
  unfold deref
  split <;> simp_all

@[simp] theorem derefAsserted_eq_ok {α : Type} {site : BugSite} {heap : ℕ → Option α} {i : ℕ}
    {a : α} : derefAsserted site heap i = .ok a ↔ heap i = some a := by
  unfold derefAsserted
  split <;> simp_all

@[simp] theorem bugOn_eq_ok {site : BugSite} {c : Bool} {u : Unit} :
    bugOn site c = .ok u ↔ c = false := by
  unfold bugOn
  split <;> simp_all

namespace State

def setThread (s : State) (t : ThreadId) (th : Thread) : State :=
  { s with threads := Function.update s.threads t (some th) }

def setNode (s : State) (n : NodeId) (nd : Node) : State :=
  { s with nodes := Function.update s.nodes n (some nd) }

def setRef (s : State) (r : RefId) (rf : Ref) : State :=
  { s with refs := Function.update s.refs r (some rf) }

def setDeath (s : State) (d : DeathId) (de : Death) : State :=
  { s with deaths := Function.update s.deaths d (some de) }

def setTxn (s : State) (t : TxnId) (tx : Transaction) : State :=
  { s with txns := Function.update s.txns t (some tx) }

def setArea (s : State) (p : ProcId) (ar : Area) : State :=
  { s with area := Function.update s.area p ar }

def setProc (s : State) (p : ProcId) (pr : Proc) : State :=
  { s with procs := Function.update s.procs p (some pr) }

def setTodo (s : State) (q : Queue) (ws : List Work) : State :=
  { s with todo := Function.update s.todo q ws }

def listAddTail (s : State) (q : Queue) (w : Work) : State :=
  s.setTodo q (s.todo q ++ [w])

/-- `list_del(w)` for a work known to be on `q`. -/
def listDel (s : State) (q : Queue) (w : Work) : State :=
  s.setTodo q ((s.todo q).filter (· ≠ w))

end State

end Driver

end BinderForLinux
