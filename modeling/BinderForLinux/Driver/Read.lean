import BinderForLinux.Driver.Transaction

/-!
# Reading

`binder_thread_read` in the two parts between which the driver lock is released.
`readRetry` is the code from the label `retry` to the wait; it either ends the
read with an error code or leaves a `ReadFrame` in the thread. `readResume` is
the code after the wait. Positions in the read buffer are counted from its
start, and `writable` tells at which positions a store to user space succeeds.
-/

namespace BinderForLinux

namespace Driver

open Library

def transactionDataSize : ℕ := 64

/-- How a part of the read ends. -/
inductive ReadResult
  /-- The label `done`, with the position reached and the commands written. -/
  | done (ptr : ℕ) (out : List ReturnCommand)
  /-- A return of `-EFAULT`. -/
  | fault
  /-- The label `retry`. -/
  | retry (ptr : ℕ) (out : List ReturnCommand)

/-- `end - ptr < sizeof(tr) + 4` in unsigned arithmetic: a position beyond the
end does not count as full. -/
def readFull (size ptr : ℕ) : Bool := ptr ≤ size && size - ptr < transactionDataSize + 4

/-! ### One work item -/

/-- The command for the owner of a node, and the node after it was sent; `none`
when the owner knows all. -/
def nodeCommand (nd : Node) : Option (ReturnCommand × Node) :=
  let strong := nd.internalStrongRefs ≠ 0 || nd.localStrongRefs ≠ 0
  let weak := !nd.refs.isEmpty || nd.localWeakRefs ≠ 0 || strong
  if weak && !nd.hasWeakRef then
    some (.increfs nd.ptr nd.cookie, { nd with
      hasWeakRef := true, pendingWeakRef := true, localWeakRefs := nd.localWeakRefs + 1 })
  else if strong && !nd.hasStrongRef then
    some (.acquire nd.ptr nd.cookie, { nd with
      hasStrongRef := true, pendingStrongRef := true, localStrongRefs := nd.localStrongRefs + 1 })
  else if !strong && nd.hasStrongRef then
    some (.release nd.ptr nd.cookie, { nd with hasStrongRef := false })
  else if !weak && nd.hasWeakRef then
    some (.decrefs nd.ptr nd.cookie, { nd with hasWeakRef := false })
  else none

def Node.inUse (nd : Node) : Bool :=
  nd.internalStrongRefs ≠ 0 || nd.localStrongRefs ≠ 0 || !nd.refs.isEmpty || nd.localWeakRefs ≠ 0

/-- `BINDER_WORK_NODE`; `none` is `-EFAULT`, after which the owner counts as told
all the same. A node that nothing keeps is erased from the tree of the reading
process. -/
def readNode (s : State) (p : ProcId) (n : NodeId) (ptr : ℕ) (writable : ℕ → Bool) :
    Except Fault (Option (ℕ × List ReturnCommand) × State) := do
  let nd ← deref s.nodes n
  match nodeCommand nd with
  | some (cmd, nd) =>
      let s := s.setNode n nd
      if writable ptr && writable (ptr + 4) && writable (ptr + 12) then
        return (some (ptr + 20, [cmd]), s)
      return (none, s)
  | none =>
      if nd.inUse then return (some (ptr, []), unlinkNode s n nd)
      return (some (ptr, []), freeNode s n { nd with proc := some p })

/-- The death branches, for a notification found on `q`; the second component
tells whether the read is done. -/
def readDeath (s : State) (p : ProcId) (q : Queue) (d : DeathId) (ptr : ℕ)
    (writable : ℕ → Bool) : Except Fault (Option (ℕ × List ReturnCommand) × Bool × State) := do
  let de ← deref s.deaths d
  if !(writable ptr && writable (ptr + 4)) then return (none, false, s)
  let s := s.listDel q (.death d)
  match de.workType with
  | .clearDeathNotification =>
      return (some (ptr + 12, [.clearDeathNotificationDone de.cookie]), false,
        { s with deaths := Function.update s.deaths d none })
  | _ =>
      let s := s.setDeath d { de with entry := some (.deliveredDeath p) }
      return (some (ptr + 12, [.deadBinder de.cookie]), true,
        s.setTodo (.deliveredDeath p) (.death d :: s.todo (.deliveredDeath p)))

def targetInfo (s : State) (node : Option NodeId) : Except Fault (ℕ × ℕ) :=
  match node with
  | some n => do
      let nd ← deref s.nodes n
      return (nd.ptr, nd.cookie)
  | none => .ok (0, 0)

def senderPidOf (s : State) (caller : Option ThreadId) : Except Fault ℕ :=
  match caller with
  | some th => do
      let thr ← deref s.threads th
      let pr ← deref s.procs thr.proc
      return pr.pid
  | none => .ok 0

def transactionInfo (L : Layout) (s : State) (p : ProcId) (tx : Transaction) (b : Buffer) :
    Except Fault TransactionInfo := do
  let (target, cookie) ← targetInfo s b.targetNode
  let senderPid ← senderPidOf s tx.fromThread
  let buffer : ℤ := b.addr + L.headerSize + (s.area p).userBufferOffset
  return { target := target, cookie := cookie, code := tx.code, flags := tx.flags,
           senderPid := senderPid, senderEuid := tx.senderEuid, dataSize := b.dataSize,
           offsetsSize := b.offsetsSize, buffer := buffer,
           offsets := buffer + ptrAlign b.dataSize }

/-- `BINDER_WORK_TRANSACTION`, for a transaction found on `q`: deliver it and, when
it is a call that wants a reply, push it on the stack of the reader. -/
def readTransaction (L : Layout) (s : State) (p : ProcId) (th : ThreadId) (q : Queue) (t : TxnId)
    (ptr : ℕ) (writable : ℕ → Bool) :
    Except Fault (Option (ℕ × List ReturnCommand) × State) := do
  let tx ← deref s.txns t
  match tx.buffer with
  | none => .error (.bug .threadRead)
  | some (bp, a) =>
      let b ← derefBuffer s bp a
      let tr ← transactionInfo L s p tx b
      if !(writable ptr && writable (ptr + 4)) then return (none, s)
      let s := s.listDel q (.transaction t)
      let s := s.updateBuffer bp a fun b => { b with allowUserFree := true }
      if b.targetNode.isSome && !tfOneWay tx.flags then
        let thr ← deref s.threads th
        let s := s.setTxn t { tx with toParent := thr.transactionStack, toThread := some th }
        return (some (ptr + 4 + transactionDataSize, [.transaction tr]),
          s.setThread th { thr with transactionStack := some t })
      let s ← freeTxn s t
      return (some (ptr + 4 + transactionDataSize,
        [if b.targetNode.isSome then .transaction tr else .reply tr]), s)

/-! ### The loop -/

/-- The loop of `binder_thread_read`. Each item is visited at most three times,
and none is added, so the fuel that `readResume` gives is enough. -/
def readLoop (L : Layout) (p : ProcId) (th : ThreadId) (size : ℕ) (waitForProcWork : Bool)
    (writable : ℕ → Bool) : ℕ → State → ℕ → List ReturnCommand → Except Fault (ReadResult × State)
  | 0, _, _, _ => .error .endless
  | fuel + 1, s, ptr, out => do
      let thr ← deref s.threads th
      let next : Option (Queue × Work) :=
        match s.todo (.thread th), s.todo (.proc p), waitForProcWork with
        | w :: _, _, _ => some (.thread th, w)
        | [], w :: _, true => some (.proc p, w)
        | [], _, _ => none
      match next with
      | none =>
          if ptr = 4 && !thr.looper.needReturn then return (.retry ptr out, s)
          return (.done ptr out, s)
      | some (q, w) =>
          if readFull size ptr then return (.done ptr out, s)
          match w with
          | .transactionComplete _ =>
              if !writable ptr then return (.fault, s)
              readLoop L p th size waitForProcWork writable fuel (s.setTodo q (s.todo q).tail)
                (ptr + 4) (out ++ [.transactionComplete])
          | .node n =>
              match ← readNode s p n ptr writable with
              | (none, s) => return (.fault, s)
              | (some (ptr, cmds), s) =>
                  readLoop L p th size waitForProcWork writable fuel s ptr (out ++ cmds)
          | .death d =>
              match ← readDeath s p q d ptr writable with
              | (none, _, s) => return (.fault, s)
              | (some (ptr, cmds), true, s) => return (.done ptr (out ++ cmds), s)
              | (some (ptr, cmds), false, s) =>
                  readLoop L p th size waitForProcWork writable fuel s ptr (out ++ cmds)
          | .transaction t =>
              match ← readTransaction L s p th q t ptr writable with
              | (none, s) => return (.fault, s)
              | (some (ptr, cmds), s) => return (.done ptr (out ++ cmds), s)

/-! ### Ending the read -/

/-- The end of `binder_ioctl`: `looper &= ~NEED_RETURN`. -/
def ioctlReturn (s : State) (th : ThreadId) : Except Fault State := do
  let thr ← deref s.threads th
  return s.setThread th { thr with looper := { thr.looper with needReturn := false } }

/-- The label `done`: ask for one more looper when none is free, and return. -/
def readDone (s : State) (p : ProcId) (th : ThreadId) (out : List ReturnCommand)
    (writable : ℕ → Bool) : Except Fault State := do
  let thr ← deref s.threads th
  let pr ← deref s.procs p
  let spawn := pr.requestedThreads + pr.readyThreads = 0 &&
    pr.requestedThreadsStarted < pr.maxThreads && (thr.looper.registered || thr.looper.entered)
  let s := if spawn then s.setProc p { pr with requestedThreads := pr.requestedThreads + 1 } else s
  let out := match out, spawn && writable 0 with
    | .noop :: rest, true => .spawnLooper :: rest
    | out, _ => out
  let s := s.setThread th { thr with readBuffer := out }
  ioctlReturn s th

/-- From the label `retry` to the wait. -/
def readRetry (s : State) (p : ProcId) (th : ThreadId) (size ptr : ℕ) (out : List ReturnCommand)
    (writable : ℕ → Bool) : Except Fault State := do
  let thr ← deref s.threads th
  if thr.returnError ≠ .ok ∧ ptr < size then
    if thr.returnError2 ≠ .ok then
      if !writable ptr then ioctlReturn s th
      else if ptr + 4 = size then readDone s p th (out ++ [.errorCode thr.returnError2]) writable
      else
        let s := s.setThread th { thr with returnError2 := .ok }
        if !writable (ptr + 4) then ioctlReturn s th
        else
          readDone (s.setThread th { thr with returnError2 := .ok, returnError := .ok }) p th
            (out ++ [.errorCode thr.returnError2, .errorCode thr.returnError]) writable
    else if !writable ptr then ioctlReturn s th
    else
      readDone (s.setThread th { thr with returnError := .ok }) p th
        (out ++ [.errorCode thr.returnError]) writable
  else
    let wait := thr.transactionStack.isNone && (s.todo (.thread th)).isEmpty
    let pr ← deref s.procs p
    let s := if wait then s.setProc p { pr with readyThreads := pr.readyThreads + 1 } else s
    return s.setThread th { thr with
      looper := { thr.looper with waiting := true }
      read := some { size := size, ptr := ptr, waitForProcWork := wait, out := out } }

/-- The start of `binder_thread_read`. -/
def binderThreadRead (s : State) (p : ProcId) (th : ThreadId) (size consumed : ℕ)
    (writable : ℕ → Bool) : Except Fault State :=
  if consumed = 0 then
    if writable 0 then readRetry s p th size 4 [.noop] writable else ioctlReturn s th
  else readRetry s p th size consumed [] writable

/-- The code after the wait. When `interrupted`, the wait returned an error. -/
def readResume (L : Layout) (s : State) (p : ProcId) (th : ThreadId) (interrupted : Bool)
    (writable : ℕ → Bool) : Except Fault State := do
  let thr ← deref s.threads th
  match thr.read with
  | none => return s
  | some f =>
      let pr ← deref s.procs p
      let s := if f.waitForProcWork then
          s.setProc p { pr with readyThreads := pr.readyThreads - 1 } else s
      let s := s.setThread th
        { thr with read := none, looper := { thr.looper with waiting := false } }
      if interrupted then ioctlReturn s th
      else
        let items := (s.todo (.thread th)).length + (s.todo (.proc p)).length
        match ← readLoop L p th f.size f.waitForProcWork writable (3 * items + 1) s f.ptr f.out with
        | (.done _ out, s) => readDone s p th out writable
        | (.fault, s) => ioctlReturn s th
        | (.retry ptr out, s) => readRetry s p th f.size ptr out writable

end Driver

end BinderForLinux
