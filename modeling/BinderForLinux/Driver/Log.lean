import BinderForLinux.Driver.Step

/-!
# What processes see of the driver

A step of the driver is observed by what it takes from the processes and what it
hands to them: the commands it executes, and the return commands it stores in a
read buffer, each with the work item it comes from. `observe` computes the
observations of an act in the state before it, along the code of the act, and
`loggedStep` is the step function with the observations collected. The words
`BR_NOOP` and `BR_SPAWN_LOOPER` carry no news and are not logged.
-/

namespace BinderForLinux

namespace Driver

open Library

inductive Obs
  /-- A command was executed. -/
  | wrote (p : ProcId) (th : ThreadId) (c : Command)
  /-- A transaction was accepted, for a node or in reply to a call. -/
  | accepted (p : ProcId) (th : ThreadId) (t : TxnId) (node : Option NodeId) (oneWay : Bool)
  /-- A death notification was registered for a node. -/
  | requested (p : ProcId) (d : DeathId) (n : NodeId) (cookie : ℕ)
  /-- A registered death notification was cleared. -/
  | cleared (p : ProcId) (d : DeathId)
  /-- A delivered death notification was acknowledged. -/
  | acked (p : ProcId) (d : DeathId)
  /-- A return command was stored in a read buffer. -/
  | delivered (p : ProcId) (th : ThreadId) (w : Option Work) (cmd : ReturnCommand)
  /-- A process became the context manager. -/
  | managed (p : ProcId)
  /-- A process was taken apart. -/
  | released (p : ProcId)

def Obs.releasedProc : Obs → Option ProcId
  | .released p => some p
  | _ => none

/-! ### Commands -/

/-- The node a transaction is for, and whether it is one-way, when it is queued. -/
def acceptedLog (s s' : State) (p : ProcId) (th : ThreadId) : List Obs :=
  match s'.txns s.nextId with
  | none => []
  | some tx =>
      match tx.buffer with
      | none => []
      | some (bp, a) =>
          [.accepted p th s.nextId ((findBuffer (s'.area bp).buffers a).bind Buffer.targetNode)
            (tx.fromThread.isNone && tfOneWay tx.flags)]

/-- What a command does to the death notification of a reference. -/
def deathLog (s : State) (p : ProcId) : Command → List Obs
  | .requestDeathNotification handle cookie alloc =>
      match (binderGetRef s p handle).bind s.refs with
      | none => []
      | some rf =>
          if rf.death.isNone && alloc then [.requested p s.nextId rf.node cookie] else []
  | .clearDeathNotification handle cookie =>
      match (binderGetRef s p handle).bind s.refs with
      | none => []
      | some rf =>
          match rf.death with
          | none => []
          | some d =>
              if (s.deaths d).any fun de => de.cookie = cookie then [.cleared p d] else []
  | .deadBinderDone cookie =>
      match findDelivered s p cookie with
      | none => []
      | some d => [.acked p d]
  | _ => []

def commandLog (s s' : State) (p : ProcId) (th : ThreadId) (c : Command) : List Obs :=
  .wrote p th c :: (acceptedLog s s' p th ++ deathLog s p c)

def writeLog (L : Layout) (p : ProcId) (th : ThreadId) : State → List Command → List Obs
  | _, [] => []
  | s, c :: cs =>
      if ((s.threads th).any fun thr => thr.returnError = .ok) && !c.isInvalid then
        match execCommand L s p th c with
        | .ok s' => commandLog s s' p th c ++ writeLog L p th s' cs
        | .error _ => []
      else []

/-! ### Reads -/

/-- The work that a read turns to next, with the list it is on. -/
def nextWork (s : State) (p : ProcId) (th : ThreadId) (waitForProcWork : Bool) :
    Option (Queue × Work) :=
  match s.todo (.thread th), s.todo (.proc p), waitForProcWork with
  | w :: _, _, _ => some (.thread th, w)
  | [], w :: _, true => some (.proc p, w)
  | [], _, _ => none

/-- One work item of the loop of `binder_thread_read`. -/
def readItem (L : Layout) (s : State) (p : ProcId) (th : ThreadId) (q : Queue) (w : Work)
    (ptr : ℕ) (writable : ℕ → Bool) : Except Fault (Option (ℕ × List ReturnCommand) × State) :=
  match w with
  | .transactionComplete _ =>
      .ok (if writable ptr then
          (some (ptr + 4, [.transactionComplete]), s.setTodo q (s.todo q).tail)
        else (none, s))
  | .node n => readNode s p n ptr writable
  | .death d => (readDeath s p q d ptr writable).map fun x => (x.1, x.2.2)
  | .transaction t => readTransaction L s p th q t ptr writable

def endsRead (s : State) : Work → Bool
  | .transaction _ => true
  | .death d => (s.deaths d).any fun de => de.workType ≠ .clearDeathNotification
  | _ => false

def loopLog (L : Layout) (p : ProcId) (th : ThreadId) (size : ℕ) (waitForProcWork : Bool)
    (writable : ℕ → Bool) : ℕ → State → ℕ → List Obs
  | 0, _, _ => []
  | fuel + 1, s, ptr =>
      match nextWork s p th waitForProcWork with
      | none => []
      | some (q, w) =>
          if readFull size ptr then []
          else
            match readItem L s p th q w ptr writable with
            | .ok (some (ptr', cmds), s') =>
                cmds.map (.delivered p th (some w)) ++
                  if endsRead s w then []
                  else loopLog L p th size waitForProcWork writable fuel s' ptr'
            | _ => []

/-- The error codes that a read delivers at the label `retry`. -/
def retryLog (s : State) (p : ProcId) (th : ThreadId) (size ptr : ℕ) (writable : ℕ → Bool) :
    List Obs :=
  match s.threads th with
  | none => []
  | some thr =>
      if thr.returnError ≠ .ok ∧ ptr < size ∧ writable ptr = true then
        if thr.returnError2 ≠ .ok then
          .delivered p th none (.errorCode thr.returnError2) ::
            if ptr + 4 = size ∨ writable (ptr + 4) = false then []
            else [.delivered p th none (.errorCode thr.returnError)]
        else [.delivered p th none (.errorCode thr.returnError)]
      else []

def readLog (s : State) (p : ProcId) (th : ThreadId) (size consumed : ℕ) (writable : ℕ → Bool) :
    List Obs :=
  if consumed ≠ 0 then retryLog s p th size consumed writable
  else if writable 0 then retryLog s p th size 4 writable
  else []

def wakeUp (s : State) (p : ProcId) (th : ThreadId) (thr : Thread) (f : ReadFrame) (pr : Proc) :
    State :=
  let s := if f.waitForProcWork then
      s.setProc p { pr with readyThreads := pr.readyThreads - 1 } else s
  s.setThread th { thr with read := none, looper := { thr.looper with waiting := false } }

/-- The number of rounds that the loop of a read may take. -/
def readFuel (s : State) (p : ProcId) (th : ThreadId) : ℕ :=
  3 * ((s.todo (.thread th)).length + (s.todo (.proc p)).length) + 1

/-- The observations of the loop, and of the label `retry` when the loop goes back to it. -/
def awakeLog (L : Layout) (s : State) (p : ProcId) (th : ThreadId) (f : ReadFrame)
    (writable : ℕ → Bool) : List Obs :=
  loopLog L p th f.size f.waitForProcWork writable (readFuel s p th) s f.ptr ++
    match readLoop L p th f.size f.waitForProcWork writable (readFuel s p th) s f.ptr f.out with
    | .ok (.retry ptr _, s') => retryLog s' p th f.size ptr writable
    | _ => []

def resumeLog (L : Layout) (s : State) (th : ThreadId) (interrupted : Bool)
    (writable : ℕ → Bool) : List Obs :=
  match s.threads th with
  | none => []
  | some thr =>
      match thr.read, s.procs thr.proc with
      | some f, some pr =>
          if interrupted then []
          else awakeLog L (wakeUp s thr.proc th thr f pr) thr.proc th f writable
      | _, _ => []

/-! ### Acts -/

def ioctlLog (L : Layout) (s : State) (p : ProcId) (th : ThreadId) : IoctlOp → List Obs
  | .writeRead cmds readSize readConsumed writable =>
      writeLog L p th s cmds ++
        match binderThreadWrite L p th s cmds with
        | .ok (true, s') =>
            if 0 < readSize then readLog s' p th readSize readConsumed writable else []
        | _ => []
  | .setContextMgr euid security alloc =>
      match setContextMgr s p euid security alloc with
      | .ok s' => if s'.contextMgrNode = s.contextMgrNode then [] else [.managed p]
      | .error _ => []
  | _ => []

def observe (L : Layout) (s : State) : Act → List Obs
  | .ioctl p pid alloc op =>
      if s.isOpen p then
        match binderGetThread s p pid alloc with
        | (none, _) => []
        | (some th, s) =>
            if (s.threads th).any fun thr => thr.read.isSome then [] else ioctlLog L s p th op
      else []
  | .resume th interrupted writable => resumeLog L s th interrupted writable
  | .deferred p => if (s.procs p).any fun pr => pr.deferredRelease then [.released p] else []
  | _ => []

/-- The step function with the observations collected. -/
def loggedStep (L : Layout) (x : State × List Obs) (a : Act) : Except Fault (State × List Obs) :=
  (step L x.1 a).map fun s => (s, x.2 ++ observe L x.1 a)

end Driver

end BinderForLinux
