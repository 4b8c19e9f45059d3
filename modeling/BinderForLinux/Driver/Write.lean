import BinderForLinux.Driver.Transaction

/-!
# Commands of a thread

`binder_thread_write`, on commands that are already decoded. A command that the
driver does not know or cannot copy from user space is `invalid`: it ends the
write with an error.
-/

namespace BinderForLinux

namespace Driver

open Library

/-- The commands of `binder_driver_command_protocol`. The flag `alloc` of a
command tells whether the `kzalloc` it may need succeeds. -/
inductive Command
  | increfs (handle : ℕ) (alloc : Bool)
  | acquire (handle : ℕ) (alloc : Bool)
  | release (handle : ℕ)
  | decrefs (handle : ℕ)
  | increfsDone (ptr cookie : ℕ)
  | acquireDone (ptr cookie : ℕ)
  | freeBuffer (dataPtr : ℕ)
  | transaction (tr : TransactionData) (env : TxnEnv)
  | reply (tr : TransactionData) (env : TxnEnv)
  | registerLooper
  | enterLooper
  | exitLooper
  | requestDeathNotification (handle cookie : ℕ) (alloc : Bool)
  | clearDeathNotification (handle cookie : ℕ)
  | deadBinderDone (cookie : ℕ)
  | invalid

/-! ### Reference counts -/

/-- The reference that `BC_INCREFS` and `BC_ACQUIRE` act on: handle 0 makes a
reference to the context manager. A failed allocation is not checked for. -/
def incCommandRef (s : State) (p : ProcId) (handle : ℕ) (alloc : Bool) :
    Except Fault (Option RefId × State) :=
  match handle, s.contextMgrNode with
  | 0, some n => do
      match ← binderGetRefForNode s p n alloc with
      | (none, _) => .error .badPointer
      | (some r, s) => return (some r, s)
  | _, _ => .ok (binderGetRef s p handle, s)

def incCommand (s : State) (p : ProcId) (handle : ℕ) (strong alloc : Bool) :
    Except Fault State := do
  match ← incCommandRef s p handle alloc with
  | (none, s) => return s
  | (some r, s) =>
      let (_, s) ← binderIncRef s r strong none
      return s

def decCommand (s : State) (p : ProcId) (handle : ℕ) (strong : Bool) : Except Fault State :=
  match binderGetRef s p handle with
  | none => .ok s
  | some r => binderDecRef s r strong

/-- `BC_ACQUIRE_DONE` when `strong`, else `BC_INCREFS_DONE`. -/
def doneCommand (s : State) (p : ProcId) (ptr cookie : ℕ) (strong : Bool) :
    Except Fault State := do
  match binderGetNode s p ptr with
  | none => return s
  | some n =>
      let nd ← deref s.nodes n
      if cookie ≠ nd.cookie then return s
      if strong then
        if !nd.pendingStrongRef then return s
        binderDecNode (s.setNode n { nd with pendingStrongRef := false }) n true false
      else
        if !nd.pendingWeakRef then return s
        binderDecNode (s.setNode n { nd with pendingWeakRef := false }) n false false

/-! ### Freeing a buffer -/

/-- The next one-way transaction of a node, when one of its buffers is freed. -/
def advanceAsync (s : State) (th : ThreadId) (n : NodeId) : Except Fault State := do
  let nd ← derefAsserted .threadWriteFreed s.nodes n
  bugOn .threadWrite (!nd.hasAsyncTransaction)
  match s.todo (.async n) with
  | [] => return s.setNode n { nd with hasAsyncTransaction := false }
  | w :: ws => return (s.setTodo (.async n) ws).listAddTail (.thread th) w

/-- What freeing a one-way buffer does to the queue of its node. -/
def advanceTarget (s : State) (th : ThreadId) (b : Buffer) : Except Fault State :=
  match b.asyncTransaction, b.targetNode with
  | true, some n => advanceAsync s th n
  | _, _ => .ok s

def freeBufferCommand (L : Layout) (s : State) (p : ProcId) (th : ThreadId) (dataPtr : ℕ) :
    Except Fault State := do
  match ← binderBufferLookup L (s.area p) dataPtr with
  | none => return s
  | some a =>
      let b ← derefBuffer s p a
      if !b.allowUserFree then return s
      let s ← detachTransaction s p b
      let s ← advanceTarget s th b
      let s ← binderTransactionBufferRelease s p b none
      let ar ← binderFreeBuf L (s.area p) a
      return s.setArea p ar

/-! ### Loopers -/

def registerLooperCommand (s : State) (p : ProcId) (th : ThreadId) : Except Fault State := do
  let thr ← deref s.threads th
  let pr ← deref s.procs p
  if thr.looper.entered || pr.requestedThreads = 0 then
    return s.setThread th
      { thr with looper := { thr.looper with invalid := true, registered := true } }
  let s := s.setProc p { pr with
    requestedThreads := pr.requestedThreads - 1
    requestedThreadsStarted := pr.requestedThreadsStarted + 1 }
  return s.setThread th { thr with looper := { thr.looper with registered := true } }

def enterLooperCommand (s : State) (th : ThreadId) : Except Fault State := do
  let thr ← deref s.threads th
  return s.setThread th { thr with looper := { thr.looper with
    invalid := thr.looper.invalid || thr.looper.registered, entered := true } }

def exitLooperCommand (s : State) (th : ThreadId) : Except Fault State := do
  let thr ← deref s.threads th
  return s.setThread th { thr with looper := { thr.looper with exited := true } }

/-! ### Death notifications -/

/-- The list a death notification is put on: that of a looper, else that of the
process. -/
def deathQueue (p : ProcId) (th : ThreadId) (thr : Thread) : Queue :=
  if thr.looper.registered || thr.looper.entered then .thread th else .proc p

/-- Set the type of a death notification and queue it. -/
def queueDeath (s : State) (d : DeathId) (de : Death) (ty : DeathWork) (q : Queue) : State :=
  (s.setDeath d { de with workType := ty, entry := some q }).listAddTail q (.death d)

def requestDeathCommand (s : State) (p : ProcId) (th : ThreadId) (handle cookie : ℕ)
    (alloc : Bool) : Except Fault State := do
  match binderGetRef s p handle with
  | none => return s
  | some r =>
      let rf ← deref s.refs r
      let thr ← deref s.threads th
      if rf.death.isSome then return s
      if !alloc then return s.setThread th { thr with returnError := .error }
      let d := s.nextId
      let de : Death := { cookie := cookie, workType := .deadBinder, entry := none }
      let s := ({ s with nextId := d + 1 }.setDeath d de).setRef r { rf with death := some d }
      let nd ← deref s.nodes rf.node
      if nd.proc.isNone then return queueDeath s d de .deadBinder (deathQueue p th thr)
      return s

def clearDeathCommand (s : State) (p : ProcId) (th : ThreadId) (handle cookie : ℕ) :
    Except Fault State := do
  match binderGetRef s p handle with
  | none => return s
  | some r =>
      let rf ← deref s.refs r
      let thr ← deref s.threads th
      match rf.death with
      | none => return s
      | some d =>
          let de ← deref s.deaths d
          if de.cookie ≠ cookie then return s
          let s := s.setRef r { rf with death := none }
          if de.entry.isNone then
            return queueDeath s d de .clearDeathNotification (deathQueue p th thr)
          bugOn .threadWrite (de.workType ≠ .deadBinder)
          return s.setDeath d { de with workType := .deadBinderAndClear }

/-- The first delivered death notification with the cookie. -/
def findDelivered (s : State) (p : ProcId) (cookie : ℕ) : Option DeathId :=
  (s.todo (.deliveredDeath p)).findSome? fun
    | .death d => if (s.deaths d).any fun de => de.cookie = cookie then some d else none
    | _ => none

def deadBinderDoneCommand (s : State) (p : ProcId) (th : ThreadId) (cookie : ℕ) :
    Except Fault State := do
  let thr ← deref s.threads th
  match findDelivered s p cookie with
  | none => return s
  | some d =>
      let de ← deref s.deaths d
      let s := (unlinkDeath s d de).setDeath d { de with entry := none }
      if de.workType ≠ .deadBinderAndClear then return s
      return queueDeath s d de .clearDeathNotification (deathQueue p th thr)

/-! ### The loop -/

/-- One command that is not `invalid`. -/
def execCommand (L : Layout) (s : State) (p : ProcId) (th : ThreadId) :
    Command → Except Fault State
  | .increfs h alloc => incCommand s p h false alloc
  | .acquire h alloc => incCommand s p h true alloc
  | .release h => decCommand s p h true
  | .decrefs h => decCommand s p h false
  | .increfsDone ptr cookie => doneCommand s p ptr cookie false
  | .acquireDone ptr cookie => doneCommand s p ptr cookie true
  | .freeBuffer dataPtr => freeBufferCommand L s p th dataPtr
  | .transaction tr env => binderTransaction L s p th tr false env
  | .reply tr env => binderTransaction L s p th tr true env
  | .registerLooper => registerLooperCommand s p th
  | .enterLooper => enterLooperCommand s th
  | .exitLooper => exitLooperCommand s th
  | .requestDeathNotification h cookie alloc => requestDeathCommand s p th h cookie alloc
  | .clearDeathNotification h cookie => clearDeathCommand s p th h cookie
  | .deadBinderDone cookie => deadBinderDoneCommand s p th cookie
  | .invalid => .ok s

def Command.isInvalid : Command → Bool
  | .invalid => true
  | _ => false

/-- `binder_thread_write`: stops early when the thread gets an error code. The
flag is false when the write ends with an error. -/
def binderThreadWrite (L : Layout) (p : ProcId) (th : ThreadId) :
    State → List Command → Except Fault (Bool × State)
  | s, [] => .ok (true, s)
  | s, c :: cs => do
      let thr ← deref s.threads th
      if thr.returnError ≠ .ok then return (true, s)
      if c.isInvalid then return (false, s)
      let s ← execCommand L s p th c
      binderThreadWrite L p th s cs

end Driver

end BinderForLinux
