import BinderForLinux.Driver.Read
import BinderForLinux.Driver.Release
import BinderForLinux.Driver.Write

/-!
# The driver as a whole

Everything that can happen to the driver is an `Act`, taken as a whole under the
driver lock: a system call of a thread up to its end or to the wait of its read,
the continuation of a read, the death of a mapping, the deferred work of a
process, and a change that a process makes to its own file descriptors. An act
that cannot happen in a state (a call on a closed file, a call of a thread that
waits in a read) leaves it as it is.
-/

namespace BinderForLinux

namespace Driver

open Library

inductive IoctlOp
  /-- `BINDER_WRITE_READ` with a read buffer of `readSize` bytes. -/
  | writeRead (cmds : List Command) (readSize readConsumed : ℕ) (writable : ℕ → Bool)
  | setMaxThreads (n : ℤ)
  | setContextMgr (euid : ℕ) (security alloc : Bool)
  | threadExit

inductive Act
  | open (pid : ℕ)
  | mmap (p : ProcId) (base size : ℕ) (off : ℤ) (env : PageEnv) (files : ℕ → Option File)
  | ioctl (p : ProcId) (pid : ℕ) (alloc : Bool) (op : IoctlOp)
  | resume (th : ThreadId) (interrupted : Bool) (writable : ℕ → Bool)
  | poll (p : ProcId) (pid : ℕ) (alloc : Bool)
  | setFile (p : ProcId) (fd : ℕ) (file : Option File)
  | vmaClose (p : ProcId)
  | flush (p : ProcId)
  | release (p : ProcId)
  | deferred (p : ProcId)

/-! ### Opening and mapping -/

def binderOpen (s : State) (pid : ℕ) : State :=
  let pr : Proc :=
    { pid := pid, maxThreads := 0, requestedThreads := 0, requestedThreadsStarted := 0,
      readyThreads := 0, deferredPutFiles := false, deferredFlush := false,
      deferredRelease := false }
  { s with nextId := s.nextId + 1 }.setProc s.nextId pr

/-- `binder_mmap` on the state; a mapping larger than 4M is cut. -/
def mmapProc (L : Layout) (s : State) (p : ProcId) (base size : ℕ) (off : ℤ) (env : PageEnv)
    (files : ℕ → Option File) : Except Fault State := do
  if (s.area p).buffer ≠ 0 then return s
  match ← binderMmap L base (min size 0x400000) off env with
  | (false, _) => return s
  | (true, ar) => return { s.setArea p ar with files := Function.update s.files p (some files) }

/-- The kernel maps whole pages, at an address that is not null. -/
def mmapPossible (L : Layout) (base size : ℕ) : Prop :=
  L.pageSize ∣ base ∧ 0 < base ∧ L.pageSize ∣ min size 0x400000 ∧ 0 < size

instance (L : Layout) (base size : ℕ) : Decidable (mmapPossible L base size) := by
  unfold mmapPossible
  infer_instance

/-! ### Ioctls -/

/-- `binder_ioctl_set_ctx_mgr` for a caller with the effective user `euid`. -/
def setContextMgr (s : State) (p : ProcId) (euid : ℕ) (security alloc : Bool) :
    Except Fault State := do
  if s.contextMgrNode.isSome then return s
  if !security then return s
  if s.contextMgrUid.any (· ≠ euid) then return s
  let s := { s with contextMgrUid := some (s.contextMgrUid.getD euid) }
  match binderNewNode s p 0 0 alloc with
  | (none, s) => return s
  | (some n, s) =>
      let nd ← deref s.nodes n
      return { s.setNode n { nd with
          localWeakRefs := nd.localWeakRefs + 1
          localStrongRefs := nd.localStrongRefs + 1
          hasStrongRef := true
          hasWeakRef := true } with contextMgrNode := some n }

/-- `binder_ioctl_write_read`, up to the wait of the read. -/
def ioctlWriteRead (L : Layout) (s : State) (p : ProcId) (th : ThreadId) (cmds : List Command)
    (readSize readConsumed : ℕ) (writable : ℕ → Bool) : Except Fault State := do
  let (ok, s) ← binderThreadWrite L p th s cmds
  if ok && 0 < readSize then binderThreadRead s p th readSize readConsumed writable
  else ioctlReturn s th

def binderIoctl (L : Layout) (s : State) (p : ProcId) (th : ThreadId) :
    IoctlOp → Except Fault State
  | .writeRead cmds readSize readConsumed writable =>
      ioctlWriteRead L s p th cmds readSize readConsumed writable
  | .setMaxThreads n => do
      let pr ← deref s.procs p
      ioctlReturn (s.setProc p { pr with maxThreads := n }) th
  | .setContextMgr euid security alloc => do
      let s ← setContextMgr s p euid security alloc
      ioctlReturn s th
  | .threadExit => binderFreeThread s p th

/-! ### Deferred work -/

def deferredFlush (s : State) : List ThreadId → Except Fault State
  | [] => .ok s
  | th :: ths => do
      let thr ← deref s.threads th
      deferredFlush
        (s.setThread th { thr with looper := { thr.looper with needReturn := true } }) ths

/-- One round of `binder_deferred_func`. -/
def binderDeferredFunc (L : Layout) (s : State) (p : ProcId) (pr : Proc) : Except Fault State := do
  let s := s.setProc p
    { pr with deferredPutFiles := false, deferredFlush := false, deferredRelease := false }
  let s := if pr.deferredPutFiles then { s with files := Function.update s.files p none } else s
  let s ← deferredFlush s (if pr.deferredFlush then s.threadsOf p else [])
  if pr.deferredRelease then binderDeferredRelease L s p else return s

/-! ### The step function -/

def State.isOpen (s : State) (p : ProcId) : Bool :=
  (s.procs p).any fun pr => !pr.deferredRelease

def State.isReading (s : State) (p : ProcId) : Bool :=
  (s.threadsOf p).any fun th => (s.threads th).any fun thr => thr.read.isSome

def step (L : Layout) (s : State) : Act → Except Fault State
  | .open pid => .ok (binderOpen s pid)
  | .mmap p base size off env files =>
      if s.isOpen p ∧ mmapPossible L base size then mmapProc L s p base size off env files
      else .ok s
  | .ioctl p pid alloc op =>
      if !s.isOpen p then .ok s
      else
        match binderGetThread s p pid alloc with
        | (none, s) => .ok s
        | (some th, s) =>
            if (s.threads th).any fun thr => thr.read.isSome then .ok s
            else binderIoctl L s p th op
  | .resume th interrupted writable =>
      match s.threads th with
      | none => .ok s
      | some thr => readResume L s thr.proc th interrupted writable
  | .poll p pid alloc =>
      if !s.isOpen p then .ok s
      else
        match binderGetThread s p pid alloc with
        | (none, _) => .error .badPointer
        | (some _, s) => .ok s
  | .setFile p fd file =>
      match s.files p with
      | none => .ok s
      | some tbl => .ok { s with
          files := Function.update s.files p (some (Function.update tbl fd file)) }
  | .vmaClose p =>
      match s.procs p with
      | none => .ok s
      | some pr =>
          if !(s.area p).vma then .ok s
          else .ok ((s.setArea p { s.area p with vma := false }).setProc p
            { pr with deferredPutFiles := true })
  | .flush p =>
      match s.procs p with
      | none => .ok s
      | some pr => .ok (s.setProc p { pr with deferredFlush := true })
  | .release p =>
      match s.procs p with
      | none => .ok s
      | some pr =>
          if (s.area p).vma || s.isReading p then .ok s
          else .ok (s.setProc p { pr with deferredRelease := true })
  | .deferred p =>
      match s.procs p with
      | none => .ok s
      | some pr => binderDeferredFunc L s p pr

end Driver

end BinderForLinux
