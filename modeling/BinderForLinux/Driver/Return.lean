import BinderForLinux.Driver.Pool.Runs
import BinderForLinux.Driver.Wire
import BinderForLinux.Driver.Async.Runs

/-!
# The return stream

`binder_thread_read` stores return commands in the read buffer, each a word and its
arguments, and tells how many bytes it has stored. A read that begins at the start of
the buffer stores `BR_NOOP` first, for which `BR_SPAWN_LOOPER` may be put in its place
at the end.
-/

namespace BinderForLinux

namespace Driver

open Library

/-! ### Return commands as bytes -/

/-- `enum binder_driver_return_protocol`. -/
inductive BrKind
  | error
  | ok
  | transaction
  | reply
  | acquireResult
  | deadReply
  | transactionComplete
  | increfs
  | acquire
  | release
  | decrefs
  | attemptAcquire
  | noop
  | spawnLooper
  | finished
  | deadBinder
  | clearDeathNotificationDone
  | failedReply
  deriving DecidableEq, Repr

def iorR (nr size : ℕ) : ℕ := ioc 2 'r'.toNat nr size

def ioR (nr : ℕ) : ℕ := ioc 0 'r'.toNat nr 0

def BrKind.word : BrKind → ℕ
  | .error => iorR 0 4
  | .ok => ioR 1
  | .transaction => iorR 2 64
  | .reply => iorR 3 64
  | .acquireResult => iorR 4 4
  | .deadReply => ioR 5
  | .transactionComplete => ioR 6
  | .increfs => iorR 7 16
  | .acquire => iorR 8 16
  | .release => iorR 9 16
  | .decrefs => iorR 10 16
  | .attemptAcquire => iorR 11 24
  | .noop => ioR 12
  | .spawnLooper => ioR 13
  | .finished => ioR 14
  | .deadBinder => iorR 15 8
  | .clearDeathNotificationDone => iorR 16 8
  | .failedReply => ioR 17

def BrKind.all : List BrKind :=
  [.error, .ok, .transaction, .reply, .acquireResult, .deadReply, .transactionComplete, .increfs,
    .acquire, .release, .decrefs, .attemptAcquire, .noop, .spawnLooper, .finished, .deadBinder,
    .clearDeathNotificationDone, .failedReply]

def iocSize (cmd : ℕ) : ℕ := cmd / 2 ^ 16 % 2 ^ 14

def ReturnError.kind : ReturnError → BrKind
  | .ok => .ok
  | .error => .error
  | .deadReply => .deadReply
  | .failedReply => .failedReply
  | .transactionComplete => .transactionComplete

def ReturnCommand.kind : ReturnCommand → BrKind
  | .noop => .noop
  | .spawnLooper => .spawnLooper
  | .errorCode e => e.kind
  | .transactionComplete => .transactionComplete
  | .transaction _ => .transaction
  | .reply _ => .reply
  | .increfs _ _ => .increfs
  | .acquire _ _ => .acquire
  | .release _ _ => .release
  | .decrefs _ _ => .decrefs
  | .deadBinder _ => .deadBinder
  | .clearDeathNotificationDone _ => .clearDeathNotificationDone

/-- The data of a transaction in the types of `struct binder_transaction_data`. -/
def TransactionInfo.raw (tr : TransactionInfo) : RawTransaction where
  target := UInt64.ofNat tr.target
  cookie := UInt64.ofNat tr.cookie
  code := UInt32.ofNat tr.code
  flags := UInt32.ofNat tr.flags
  senderPid := UInt32.ofNat tr.senderPid
  senderEuid := UInt32.ofNat tr.senderEuid
  dataSize := UInt64.ofNat tr.dataSize
  offsetsSize := UInt64.ofNat tr.offsetsSize
  buffer := UInt64.ofInt tr.buffer
  offsets := UInt64.ofInt tr.offsets

/-- What is stored after the word. No argument is stored for an error code. -/
def ReturnCommand.args : ReturnCommand → List UInt8
  | .transaction tr | .reply tr => tr.raw.bytes
  | .increfs ptr cookie | .acquire ptr cookie | .release ptr cookie | .decrefs ptr cookie =>
      bytesLE 8 (UInt64.ofNat ptr).toNat ++ bytesLE 8 (UInt64.ofNat cookie).toNat
  | .deadBinder cookie | .clearDeathNotificationDone cookie =>
      bytesLE 8 (UInt64.ofNat cookie).toNat
  | .noop | .spawnLooper | .errorCode _ | .transactionComplete => []

def ReturnCommand.bytes (c : ReturnCommand) : List UInt8 := bytesLE 4 c.kind.word ++ c.args

def returnBytes (out : List ReturnCommand) : List UInt8 := out.flatMap ReturnCommand.bytes

/-- The word is followed by as many bytes as it says. -/
def ReturnCommand.complete (c : ReturnCommand) : Prop := c.args.length = iocSize c.kind.word

theorem ReturnCommand.complete_iff (c : ReturnCommand) : c.complete ↔ c ≠ .errorCode .error := by
  cases c with
  | errorCode e =>
      cases e <;> simp [complete, args, kind, ReturnError.kind, iocSize] <;> decide
  | transaction tr | reply tr =>
      simp [complete, args, kind, RawTransaction.bytes, iocSize]
      decide
  | noop | spawnLooper | transactionComplete | increfs | acquire | release | decrefs | deadBinder
  | clearDeathNotificationDone =>
      simp [complete, args, kind, iocSize]
      decide

theorem returnBytes_append (out out' : List ReturnCommand) :
    returnBytes (out ++ out') = returnBytes out ++ returnBytes out' := List.flatMap_append

/-! ### Reads that return -/

/-- A read that begins at the start of its buffer and returns 0: the bytes it has
stored, counted and as commands. -/
structure ReadReturn where
  thread : ThreadId
  consumed : ℕ
  out : List ReturnCommand
deriving DecidableEq, Repr

def doneBuffer (s : State) (p : ProcId) (th : ThreadId) (out : List ReturnCommand) :
    List ReturnCommand :=
  match out, asksLooper s p th with
  | .noop :: rest, true => .spawnLooper :: rest
  | out, _ => out

/-- The label `done`. -/
def doneReturn (s : State) (p : ProcId) (th : ThreadId) (ptr : ℕ) (out : List ReturnCommand)
    (writable : ℕ → Bool) : List ReadReturn :=
  if out.head? = some .noop ∧ (asksLooper s p th = true → writable 0 = true) then
    [⟨th, ptr, doneBuffer s p th out⟩]
  else []

/-- The label `retry`, when it ends the read. -/
def retryReturn (s : State) (p : ProcId) (th : ThreadId) (size ptr : ℕ) (out : List ReturnCommand)
    (writable : ℕ → Bool) : List ReadReturn :=
  match s.threads th with
  | none => []
  | some thr =>
      if thr.returnError ≠ .ok ∧ ptr < size ∧ writable ptr = true then
        if thr.returnError2 ≠ .ok then
          if ptr + 4 = size then
            doneReturn s p th (ptr + 4) (out ++ [.errorCode thr.returnError2]) writable
          else if writable (ptr + 4) then
            doneReturn s p th (ptr + 8)
              (out ++ [.errorCode thr.returnError2, .errorCode thr.returnError]) writable
          else []
        else doneReturn s p th (ptr + 4) (out ++ [.errorCode thr.returnError]) writable
      else []

def awakeReturn (L : Layout) (s : State) (p : ProcId) (th : ThreadId) (f : ReadFrame)
    (writable : ℕ → Bool) : List ReadReturn :=
  match readLoop L p th f.size f.waitForProcWork writable (readFuel s p th) s f.ptr f.out with
  | .ok (.done ptr out, s') => doneReturn s' p th ptr out writable
  | .ok (.retry ptr out, s') => retryReturn s' p th f.size ptr out writable
  | _ => []

def resumeReturn (L : Layout) (s : State) (th : ThreadId) (interrupted : Bool)
    (writable : ℕ → Bool) : List ReadReturn :=
  match s.threads th with
  | none => []
  | some thr =>
      match thr.read, s.procs thr.proc with
      | some f, some pr =>
          if interrupted then []
          else awakeReturn L (wakeUp s thr.proc th thr f pr) thr.proc th f writable
      | _, _ => []

def ioctlReturns (L : Layout) (s : State) (p : ProcId) (th : ThreadId) : IoctlOp → List ReadReturn
  | .writeRead cmds readSize readConsumed writable =>
      match binderThreadWrite L p th s cmds with
      | .ok (true, s') =>
          if 0 < readSize ∧ readConsumed = 0 ∧ writable 0 = true then
            retryReturn s' p th readSize 4 [.noop] writable
          else []
      | _ => []
  | _ => []

def actReturns (L : Layout) (s : State) : Act → List ReadReturn
  | .ioctl p pid alloc op =>
      if s.isOpen p then
        match binderGetThread s p pid alloc with
        | (none, _) => []
        | (some th, s) =>
            if (s.threads th).any fun thr => thr.read.isSome then [] else ioctlReturns L s p th op
      else []
  | .resume th interrupted writable => resumeReturn L s th interrupted writable
  | _ => []

/-- The step function with the reads that return collected. -/
def readStep (L : Layout) (x : State × List ReadReturn) (a : Act) :
    Except Fault (State × List ReadReturn) :=
  (step L x.1 a).map fun s => (s, x.2 ++ actReturns L x.1 a)

/-! ### No `BR_ERROR` -/

def deathsAllocated : Condition
  | _, _, _, .command (.requestDeathNotification _ _ alloc) => alloc = true
  | _, _, _, _ => True

instance : ∀ s p th r, Decidable (deathsAllocated s p th r) := by
  intro s p th r
  unfold deathsAllocated
  split <;> infer_instance

def NoErrors (s : State) : Prop :=
  ∀ th thr, s.threads th = some thr → thr.returnError ≠ .error ∧ thr.returnError2 ≠ .error

section NoErrors

variable {L : Layout} {C : Condition} {d : Option ProcId} {s s' : State} {o : List Obs}
  {p : ProcId} {th : ThreadId} {thr : Thread} {t : TxnId}

theorem NoErrors.of_threads (hs : NoErrors s) (h : s'.threads = s.threads) : NoErrors s' :=
  fun th thr hthr => hs th thr (h ▸ hthr)

theorem NoErrors.setThread (hs : NoErrors s)
    (he : thr.returnError ≠ .error ∧ thr.returnError2 ≠ .error) :
    NoErrors (s.setThread th thr) := by
  intro th' thr' hthr'
  by_cases hth : th' = th
  · subst hth
    obtain rfl : thr = thr' := by simpa [State.setThread] using hthr'
    exact he
  · simp only [State.setThread, Function.update_of_ne hth] at hthr'
    exact hs th' thr' hthr'

theorem UnwindStep.noErrors (hstep : UnwindStep s s') (hs : NoErrors s) : NoErrors s' := by
  cases hstep with
  | slots hthr he he₂ =>
      obtain ⟨h₁, h₂⟩ := hs _ _ hthr
      exact hs.setThread ⟨fun h => h₁ (he h), fun h => (he₂ h).elim h₁ h₂⟩
  | @stack th thr x hthr =>
      have he := hs th thr hthr
      exact hs.setThread ⟨he.1, he.2⟩
  | orphan => exact hs
  | cut _ _ hdetach =>
      rw [(detachBuffer_live hdetach).1]
      exact hs
  | free _ hrun =>
      obtain ⟨tx, s₁, -, hdetach, rfl⟩ := freeTxn_eq hrun
      rw [(detachBuffer_live hdetach).1]
      exact hs

theorem CalmStep.noErrors (hstep : CalmStep s s') (hs : NoErrors s) : NoErrors s' := by
  cases hstep with
  | still h => exact hs.of_threads (by rw [h.rest])
  | unwind h => exact h.noErrors hs
  | @thread th thr thr' hthr hsame =>
      simp only [Thread.duties, Prod.mk.injEq] at hsame
      refine hs.setThread ?_
      rw [hsame.2.2.1, hsame.2.2.2]
      exact hs th thr hthr
  | fields _ hrest => exact hs.of_threads (by rw [hrest])
  | alloc _ _ hrest => exact hs.of_threads (by rw [hrest])
  | discard _ _ hrest => exact hs.of_threads (by rw [hrest])

theorem Calm.noErrors (hcalm : Calm s s') (hs : NoErrors s) : NoErrors s' := by
  induction hcalm with
  | refl => exact hs
  | tail _ hstep ih => exact hstep.noErrors ih

theorem Transacted.noErrors (hsent : Transacted s p th t s') (hs : NoErrors s) : NoErrors s' := by
  cases hsent with
  | failed h => exact h.noErrors hs
  | @call s₁ _ thr _ _ _ _ _ h _ hthr hq =>
      have hs₁ := h.noErrors hs
      have hs₂ : NoErrors (s₁.setThread th { thr with transactionStack := some t }) :=
        hs₁.setThread (hs₁ th thr hthr)
      exact hs₂.of_threads (by rw [hq.rest])
  | oneWay h _ _ _ _ _ hq => exact (h.noErrors hs).of_threads (by rw [hq.rest]; rfl)
  | waiting h _ _ _ _ _ hq => exact (h.noErrors hs).of_threads (by rw [hq.rest])
  | reply h _ _ _ hq => exact (h.noErrors hs).of_threads (by rw [hq.rest])

theorem Dropped.noErrors {w : Work} (hdrop : Dropped s w s') (hs : NoErrors s) : NoErrors s' := by
  cases hdrop with
  | call _ h => exact Calm.noErrors (Unwound.calm h) hs
  | transaction _ _ hrun =>
      obtain ⟨tx, s₁, -, hdetach, rfl⟩ := freeTxn_eq hrun
      rw [(detachBuffer_live hdetach).1]
      exact hs
  | complete => exact hs
  | deadBinder => exact hs
  | death => exact hs
  | node => exact hs

theorem unlinkDeath_threads (s : State) (i : DeathId) (de : Death) :
    (unlinkDeath s i de).threads = s.threads := by
  unfold unlinkDeath
  split <;> rfl

theorem Advanced.threads {b : Buffer} (hadv : Advanced s th b s') : s'.threads = s.threads := by
  cases hadv <;> rfl

theorem WorkStep.noErrors (hstep : WorkStep deathsAllocated d s o s') (hs : NoErrors s) :
    NoErrors s' := by
  cases hstep with
  | calm h => exact h.noErrors hs
  | sent _ _ _ _ h => exact h.noErrors hs
  | freed _ _ _ _ _ _ hadv hrest =>
      refine hs.of_threads ?_
      rw [hrest]
      exact hadv.threads
  | noMemory _ _ _ hC => simp [deathsAllocated] at hC
  | requested => exact hs
  | requestedDead => exact hs
  | cleared => exact hs
  | clearedQueued => exact hs
  | @acked p e de =>
      exact hs.of_threads (unlinkDeath_threads s e de)
  | @ackedClear p th thr e de =>
      exact hs.of_threads (unlinkDeath_threads s e de)
  | complete => exact hs
  | clearDone => exact hs
  | deadBinder => exact hs
  | @receivedCall p th thr q t _ _ _ _ _ _ _ _ _ hthr _ _ _ _ _ hrest =>
      have hs₁ : NoErrors (s.setThread th { thr with transactionStack := some t }) :=
        hs.setThread (hs th thr hthr)
      exact hs₁.of_threads (by rw [hrest]; rfl)
  | received _ _ _ _ _ _ _ _ hrest => exact hs.of_threads (by rw [hrest])
  | dropped _ h => exact h.noErrors hs
  | threadGone hthr =>
      intro th' thr' hthr'
      simp only [Function.update_apply] at hthr'
      split at hthr'
      · cases hthr'
      · exact hs th' thr' hthr'
  | threadNew _ _ he he₂ => exact hs.setThread ⟨by simp [he], by simp [he₂]⟩
  | nodeGone => exact hs
  | nodeDies _ _ _ _ _ _ _ hrun => exact hs.of_threads (by rw [(notifyDeath_rest hrun).1])
  | bufferGone _ _ hrest => exact hs.of_threads (by rw [hrest])

theorem noErrors_init : NoErrors State.init := by
  intro th thr hthr
  simp [State.init] at hthr

theorem noErrors_steady : Steady L deathsAllocated fun _ _ s => NoErrors s where
  step := fun _ hs hstep => hstep.noErrors hs
  exempt := fun hs => hs
  gone := fun _ _ hs => hs

end NoErrors

/-! ### Frames -/

/-- The commands of a read that has come to `ptr`: none is `BR_ERROR`, and their bytes
end at `ptr` when the read began at the start of its buffer. -/
def Framed (ptr : ℕ) (out : List ReturnCommand) : Prop :=
  (out.head? = some .noop → ptr = (returnBytes out).length) ∧ ∀ c ∈ out, c ≠ .errorCode .error

def FramesOk (s : State) : Prop :=
  ∀ th thr f, s.threads th = some thr → thr.read = some f → Framed f.ptr f.out

section Frames

variable {L : Layout} {s s' : State} {p : ProcId} {th : ThreadId} {thr : Thread} {ptr ptr' : ℕ}
  {out cmds : List ReturnCommand} {writable : ℕ → Bool}

theorem framed_start : Framed 4 [.noop] := by
  refine ⟨fun _ => by simp [returnBytes, ReturnCommand.bytes, ReturnCommand.args], by simp⟩

theorem Framed.append (h : Framed ptr out) (hptr : ptr' = ptr + (returnBytes cmds).length)
    (hcmds : ∀ c ∈ cmds, c ≠ .errorCode .error ∧ c ≠ .noop) : Framed ptr' (out ++ cmds) := by
  refine ⟨fun hhead => ?_, fun c hc => ?_⟩
  · cases hout : out with
    | nil =>
        simp only [hout, List.nil_append] at hhead
        exact absurd rfl (hcmds .noop (List.mem_of_mem_head? hhead)).2
    | cons c rest =>
        have hfirst : out.head? = some .noop := by simpa [hout] using hhead
        rw [← hout, returnBytes_append, List.length_append, ← h.1 hfirst, hptr]
  · rcases List.mem_append.mp hc with hc | hc
    · exact h.2 c hc
    · exact (hcmds c hc).1

theorem nodeCommand_returns {nd nd' : Node} {c : ReturnCommand}
    (h : nodeCommand nd = some (c, nd')) :
    c.bytes.length = 20 ∧ (∀ e, c ≠ .errorCode e) ∧ c ≠ .noop := by
  simp only [nodeCommand] at h
  split at h
  · cases h
    simp [ReturnCommand.bytes, ReturnCommand.args]
  · split at h
    · cases h
      simp [ReturnCommand.bytes, ReturnCommand.args]
    · split at h
      · cases h
        simp [ReturnCommand.bytes, ReturnCommand.args]
      · split at h
        · cases h
          simp [ReturnCommand.bytes, ReturnCommand.args]
        · cases h

theorem readItem_returns {q : Queue} {w : Work}
    (hrun : readItem L s p th q w ptr writable = .ok (some (ptr', cmds), s')) :
    ptr' = ptr + (returnBytes cmds).length ∧
      ∀ c ∈ cmds, (∀ e, c ≠ .errorCode e) ∧ c ≠ .noop := by
  have hone : ∀ {c : ReturnCommand} {n : ℕ}, c.bytes.length = n → (∀ e, c ≠ .errorCode e) →
      c ≠ .noop → ptr + n = ptr + (returnBytes [c]).length ∧
        ∀ c' ∈ [c], (∀ e, c' ≠ .errorCode e) ∧ c' ≠ .noop := by
    intro c n hn he hne
    refine ⟨by simp [returnBytes, hn], fun c' hc' => ?_⟩
    rw [List.mem_singleton.mp hc']
    exact ⟨he, hne⟩
  cases w with
  | transactionComplete t =>
      simp only [readItem, Except.ok.injEq] at hrun
      split at hrun
      · cases hrun
        exact hone rfl (by simp) (by simp)
      · cases hrun
  | node n =>
      simp only [readItem, readNode, except_bind_eq_ok] at hrun
      obtain ⟨nd, -, hrun⟩ := hrun
      split at hrun
      · rename_i c nd' hcmd
        split at hrun
        · simp only [except_pure_eq_ok, Prod.mk.injEq, Option.some.injEq] at hrun
          obtain ⟨⟨rfl, rfl⟩, -⟩ := hrun
          obtain ⟨hlen, he, hne⟩ := nodeCommand_returns hcmd
          exact hone hlen he hne
        · simp at hrun
      · split at hrun
        · simp only [except_pure_eq_ok, Prod.mk.injEq, Option.some.injEq] at hrun
          obtain ⟨⟨rfl, rfl⟩, -⟩ := hrun
          simp [returnBytes]
        · simp only [except_pure_eq_ok, Prod.mk.injEq, Option.some.injEq] at hrun
          obtain ⟨⟨rfl, rfl⟩, -⟩ := hrun
          simp [returnBytes]
  | death i =>
      simp only [readItem] at hrun
      cases hdeath : readDeath s p q i ptr writable with
      | error f => simp [hdeath, Except.map] at hrun
      | ok y =>
          simp only [hdeath, Except.map, Except.ok.injEq, Prod.mk.injEq] at hrun
          simp only [readDeath, except_bind_eq_ok] at hdeath
          obtain ⟨de, -, hdeath⟩ := hdeath
          split at hdeath
          · simp only [except_pure_eq_ok] at hdeath
            simp [← hdeath] at hrun
          · split at hdeath
            · simp only [except_pure_eq_ok] at hdeath
              simp only [← hdeath, Option.some.injEq, Prod.mk.injEq] at hrun
              obtain ⟨⟨rfl, rfl⟩, -⟩ := hrun
              exact hone (by simp [ReturnCommand.bytes, ReturnCommand.args]) (by simp) (by simp)
            · simp only [except_pure_eq_ok] at hdeath
              simp only [← hdeath, Option.some.injEq, Prod.mk.injEq] at hrun
              obtain ⟨⟨rfl, rfl⟩, -⟩ := hrun
              exact hone (by simp [ReturnCommand.bytes, ReturnCommand.args]) (by simp) (by simp)
  | transaction t =>
      have hlen : ∀ {c : ReturnCommand} {tr}, c = .transaction tr ∨ c = .reply tr →
          c.bytes.length = 4 + transactionDataSize ∧ (∀ e, c ≠ .errorCode e) ∧ c ≠ .noop := by
        rintro c tr (rfl | rfl) <;>
          simp [ReturnCommand.bytes, ReturnCommand.args, RawTransaction.bytes, transactionDataSize]
      simp only [readItem, readTransaction, except_bind_eq_ok] at hrun
      obtain ⟨tx, -, hrun⟩ := hrun
      split at hrun
      · cases hrun
      · simp only [except_bind_eq_ok] at hrun
        obtain ⟨b, -, tr, -, hrun⟩ := hrun
        split at hrun
        · simp at hrun
        · split at hrun
          · simp only [except_bind_eq_ok, except_pure_eq_ok, Prod.mk.injEq,
              Option.some.injEq] at hrun
            obtain ⟨_, -, ⟨rfl, rfl⟩, -⟩ := hrun
            obtain ⟨hn, he, hne⟩ := hlen (.inl (Eq.refl (ReturnCommand.transaction tr)))
            exact hone hn he hne
          · simp only [except_bind_eq_ok, except_pure_eq_ok, Prod.mk.injEq,
              Option.some.injEq] at hrun
            obtain ⟨_, -, ⟨rfl, rfl⟩, -⟩ := hrun
            have hcmd : ∀ c : ReturnCommand,
                c = (if b.targetNode.isSome then .transaction tr else .reply tr) →
                c = .transaction tr ∨ c = .reply tr := by
              rintro c rfl
              split
              · exact .inl rfl
              · exact .inr rfl
            obtain ⟨hn, he, hne⟩ := hlen (hcmd _ rfl)
            exact hone hn he hne

theorem readLoop_framed {size : ℕ} {wait : Bool} {fuel : ℕ} {x : ReadResult}
    (hf : Framed ptr out) (hrun : readLoop L p th size wait writable fuel s ptr out = .ok (x, s')) :
    ∀ ptr' out', x = .done ptr' out' ∨ x = .retry ptr' out' → Framed ptr' out' := by
  induction fuel generalizing s ptr out with
  | zero => cases hrun
  | succ fuel ih =>
      obtain ⟨thr, -, hcases⟩ := readLoop_cases hrun
      rcases hcases with ⟨-, -, rfl⟩ | ⟨q, w, -, ⟨-, -, rfl⟩ | ⟨-, ⟨-, rfl⟩ |
        ⟨ptr₁, cmds, s₁, hitem, hend⟩⟩⟩
      · intro ptr' out' hx
        split at hx
        · obtain ⟨rfl, rfl⟩ : ptr = ptr' ∧ out = out' := by simpa using hx
          exact hf
        · obtain ⟨rfl, rfl⟩ : ptr = ptr' ∧ out = out' := by simpa using hx
          exact hf
      · intro ptr' out' hx
        obtain ⟨rfl, rfl⟩ : ptr = ptr' ∧ out = out' := by simpa using hx
        exact hf
      · simp
      · obtain ⟨hptr, hcmds⟩ := readItem_returns hitem
        have hf₁ := hf.append hptr fun c hc => ⟨(hcmds c hc).1 .error, (hcmds c hc).2⟩
        rcases hend with ⟨-, -, rfl⟩ | ⟨-, hrest⟩
        · intro ptr' out' hx
          obtain ⟨rfl, rfl⟩ : ptr₁ = ptr' ∧ out ++ cmds = out' := by simpa using hx
          exact hf₁
        · exact ih hf₁ hrest

/-! ### Steps -/

theorem FramesOk.of_kept (hs : FramesOk s) (h : PoolKept s s') : FramesOk s' := by
  intro th thr' f hthr' hread'
  have hmap := h.threads th
  rw [hthr'] at hmap
  obtain ⟨thr, hthr, hpool⟩ := Option.map_eq_some_iff.mp hmap.symm
  simp only [Thread.pool, Prod.mk.injEq] at hpool
  exact hs th thr f hthr (hpool.2.trans hread')

theorem FramesOk.of_threads (hs : FramesOk s) (h : s'.threads = s.threads) : FramesOk s' :=
  fun th thr f hthr => hs th thr f (h ▸ hthr)

theorem FramesOk.setThread (hs : FramesOk s) (hf : ∀ f, thr.read = some f → Framed f.ptr f.out) :
    FramesOk (s.setThread th thr) := by
  intro th' thr' f hthr' hread'
  by_cases hth : th' = th
  · subst hth
    obtain rfl : thr = thr' := by simpa [State.setThread] using hthr'
    exact hf f hread'
  · simp only [State.setThread, Function.update_of_ne hth] at hthr'
    exact hs th' thr' f hthr' hread'

/-- The bytes that are recorded for a read are those that are left in the reader's buffer. -/
theorem readDone_returns (hrun : readDone s p th out writable = .ok s') :
    ∀ r ∈ doneReturn s p th ptr out writable,
      ∃ thr', s'.threads th = some thr' ∧ thr'.readBuffer = r.out := by
  intro r hr
  simp only [readDone, except_bind_eq_ok, deref_eq_ok] at hrun
  obtain ⟨thr, hthr, pr, hpr, hrun⟩ := hrun
  simp only [ioctlReturn, except_bind_eq_ok, deref_eq_ok, except_pure_eq_ok] at hrun
  obtain ⟨thr₁, hthr₁, rfl⟩ := hrun
  refine ⟨_, Function.update_self .., ?_⟩
  simp only [State.setThread, Function.update_self, Option.some.injEq] at hthr₁
  rw [← hthr₁]
  unfold doneReturn at hr
  split at hr
  · rename_i hcond
    rw [List.mem_singleton.mp hr]
    simp only [asksLooper, hthr, hpr, Option.any_some] at hcond
    simp only [doneBuffer, asksLooper, hthr, hpr, Option.any_some]
    congr 1
    cases hask : (decide (pr.requestedThreads + pr.readyThreads = 0) &&
        decide (pr.requestedThreadsStarted < pr.maxThreads) &&
        (thr.looper.registered || thr.looper.entered)) with
    | true => simp [hcond.2 hask]
    | false => simp
  · cases hr

/-- What a read returns: no command is `BR_ERROR`, and the bytes are counted. -/
def ReadReturn.Whole (r : ReadReturn) : Prop :=
  r.consumed = (returnBytes r.out).length ∧ ∀ c ∈ r.out, c ≠ .errorCode .error

theorem doneReturn_whole (hf : Framed ptr out) :
    ∀ r ∈ doneReturn s p th ptr out writable, r.Whole := by
  intro r hr
  unfold doneReturn at hr
  split at hr
  · rename_i hcond
    rw [List.mem_singleton.mp hr]
    have hptr := hf.1 hcond.1
    cases out with
    | nil => simp at hcond
    | cons c rest =>
        obtain rfl : c = .noop := by simpa using hcond.1
        cases hask : asksLooper s p th with
        | true =>
            simp only [doneBuffer, hask]
            refine ⟨?_, fun c hc => ?_⟩
            · rw [hptr]
              simp [returnBytes, ReturnCommand.bytes, ReturnCommand.args]
            · rcases List.mem_cons.mp hc with rfl | hc
              · simp
              · exact hf.2 c (List.mem_cons_of_mem _ hc)
        | false =>
            simp only [doneBuffer, hask]
            exact ⟨hptr, hf.2⟩
  · cases hr

theorem retryReturn_whole {size : ℕ} (hf : Framed ptr out) (hs : NoErrors s) :
    ∀ r ∈ retryReturn s p th size ptr out writable, r.Whole := by
  intro r hr
  unfold retryReturn at hr
  have hcode : ∀ {e : ReturnError}, e ≠ .error → ∀ c ∈ [ReturnCommand.errorCode e],
      c ≠ .errorCode .error ∧ c ≠ .noop := by
    intro e he c hc
    rw [List.mem_singleton.mp hc]
    simpa using he
  cases hthr : s.threads th with
  | none => simp [hthr] at hr
  | some thr =>
      obtain ⟨he, he₂⟩ := hs th thr hthr
      simp only [hthr] at hr
      split at hr
      · split at hr
        · have hf₁ : Framed (ptr + 4) (out ++ [.errorCode thr.returnError2]) := hf.append (by
            simp [returnBytes, ReturnCommand.bytes, ReturnCommand.args]) (hcode he₂)
          split at hr
          · exact doneReturn_whole hf₁ r hr
          · split at hr
            · have hf₂ : Framed (ptr + 8) (out ++ [.errorCode thr.returnError2] ++
                  [.errorCode thr.returnError]) := hf₁.append (by
                simp [returnBytes, ReturnCommand.bytes, ReturnCommand.args]) (hcode he)
              rw [List.append_assoc] at hf₂
              exact doneReturn_whole hf₂ r hr
            · cases hr
        · exact doneReturn_whole (hf.append (by
            simp [returnBytes, ReturnCommand.bytes, ReturnCommand.args]) (hcode he)) r hr
      · cases hr

theorem ioctlReturn_frames (hs : FramesOk s) (hrun : ioctlReturn s th = .ok s') : FramesOk s' :=
  hs.of_kept (ioctlReturn_pool hrun)

theorem readDone_frames (hs : FramesOk s) (hrun : readDone s p th out writable = .ok s') :
    FramesOk s' := by
  simp only [readDone, except_bind_eq_ok, deref_eq_ok] at hrun
  obtain ⟨thr, hthr, pr, -, hrun⟩ := hrun
  refine ioctlReturn_frames ?_ hrun
  have hset : ∀ {s₁ : State} {buf}, s₁.threads = s.threads →
      FramesOk (s₁.setThread th { thr with readBuffer := buf }) := by
    intro s₁ buf hthreads
    have hs₁ : FramesOk s₁ := hs.of_threads hthreads
    exact hs₁.setThread fun f hf => hs th thr f hthr hf
  split
  · exact hset rfl
  · exact hset rfl

theorem readRetry_frames {size : ℕ} (hs : FramesOk s) (hf : Framed ptr out)
    (hrun : readRetry s p th size ptr out writable = .ok s') : FramesOk s' := by
  simp only [readRetry, except_bind_eq_ok, deref_eq_ok] at hrun
  obtain ⟨thr, hthr, hrun⟩ := hrun
  have hslots : ∀ e e₂,
      FramesOk (s.setThread th { thr with returnError := e, returnError2 := e₂ }) :=
    fun e e₂ => hs.setThread fun f h => hs th thr f hthr h
  split at hrun
  · split at hrun
    · split at hrun
      · exact ioctlReturn_frames hs hrun
      · split at hrun
        · exact readDone_frames hs hrun
        · split at hrun
          · exact ioctlReturn_frames (hslots _ .ok) hrun
          · simp only [State.setThread, Function.update_idem] at hrun
            exact readDone_frames (hslots .ok .ok) hrun
    · split at hrun
      · exact ioctlReturn_frames hs hrun
      · exact readDone_frames (hslots .ok _) hrun
  · simp only [except_bind_eq_ok, except_pure_eq_ok] at hrun
    obtain ⟨pr, -, rfl⟩ := hrun
    have hset : ∀ {s₁ : State} {f looper}, s₁.threads = s.threads → Framed f.ptr f.out →
        FramesOk (s₁.setThread th { thr with looper := looper, read := some f }) := by
      intro s₁ f looper hthreads hf
      have hs₁ : FramesOk s₁ := hs.of_threads hthreads
      refine hs₁.setThread fun f' hf' => ?_
      obtain rfl : f = f' := by simpa using hf'
      exact hf
    split
    · exact hset rfl hf
    · exact hset rfl hf

theorem wakeUp_frames {f : ReadFrame} {pr : Proc} (hs : FramesOk s) :
    FramesOk (wakeUp s p th thr f pr) := by
  have hset : ∀ {s₁ : State} {looper}, s₁.threads = s.threads →
      FramesOk (s₁.setThread th { thr with read := none, looper := looper }) := by
    intro s₁ looper hthreads
    have hs₁ : FramesOk s₁ := hs.of_threads hthreads
    exact hs₁.setThread fun f hf => by cases hf
  unfold wakeUp
  split
  · exact hset rfl
  · exact hset rfl

theorem binderGetThread_frames {pid : ℕ} {alloc : Bool} {x : Option ThreadId} (hs : FramesOk s)
    (hrun : binderGetThread s p pid alloc = (x, s')) : FramesOk s' := by
  unfold binderGetThread at hrun
  split at hrun
  · cases hrun
    exact hs
  · split at hrun
    · cases hrun
      exact hs
    · cases hrun
      intro th thr f hthr hread
      by_cases hth : th = s.nextId
      · subst hth
        simp only [State.setThread, Function.update_self, Option.some.injEq] at hthr
        simp [← hthr] at hread
      · simp only [State.setThread, Function.update_of_ne hth] at hthr
        exact hs th thr f hthr hread

theorem binderFreeThread_frames (hs : FramesOk s) (hrun : binderFreeThread s p th = .ok s') :
    FramesOk s' := by
  obtain ⟨thr, s₁, -, h₁, rfl⟩ := binderFreeThread_pool hrun
  have hs₁ : FramesOk s₁ := by
    refine FramesOk.of_kept ?_ h₁
    exact hs.of_threads rfl
  intro th' thr' f hthr' hread'
  simp only [Function.update_apply] at hthr'
  split at hthr'
  · cases hthr'
  · exact hs₁ th' thr' f hthr' hread'

theorem freeThreads_frames {ths : List ThreadId} (hs : FramesOk s)
    (hrun : freeThreads p s ths = .ok s') : FramesOk s' := by
  induction ths generalizing s with
  | nil =>
      obtain rfl : s = s' := by simpa [freeThreads] using hrun
      exact hs
  | cons th ths ih =>
      simp only [freeThreads, except_bind_eq_ok] at hrun
      obtain ⟨s₁, hfree, hrun⟩ := hrun
      exact ih (binderFreeThread_frames hs hfree) hrun

theorem binderDeferredRelease_frames (hs : FramesOk s)
    (hrun : binderDeferredRelease L s p = .ok s') : FramesOk s' := by
  obtain ⟨s₁, s₂, s₃, h₁, hthreads, h₃, rfl⟩ := binderDeferredRelease_pool hrun
  have hs₁ : FramesOk s₁ := hs.of_threads (by rw [h₁])
  exact ((freeThreads_frames hs₁ hthreads).of_kept h₃).of_threads rfl

theorem binderThreadWrite_frames {cmds : List Command} {ok : Bool} (hs : FramesOk s)
    (hrun : binderThreadWrite L p th s cmds = .ok (ok, s')) : FramesOk s' := by
  induction cmds generalizing s with
  | nil =>
      simp only [binderThreadWrite, Except.ok.injEq, Prod.mk.injEq] at hrun
      exact hrun.2 ▸ hs
  | cons c cs ih =>
      simp only [binderThreadWrite, except_bind_eq_ok, deref_eq_ok] at hrun
      obtain ⟨thr, hthr, hrun⟩ := hrun
      split at hrun
      · simp only [except_pure_eq_ok, Prod.mk.injEq] at hrun
        exact hrun.2 ▸ hs
      · split at hrun
        · simp only [except_pure_eq_ok, Prod.mk.injEq] at hrun
          exact hrun.2 ▸ hs
        · simp only [except_bind_eq_ok] at hrun
          obtain ⟨s₁, hexec, hrun⟩ := hrun
          refine ih ?_ hrun
          by_cases hc : c = .registerLooper
          · subst hc
            simp only [execCommand, registerLooperCommand, except_bind_eq_ok, deref_eq_ok] at hexec
            obtain ⟨thr₁, hthr₁, pr, -, hexec⟩ := hexec
            split at hexec
            · simp only [except_pure_eq_ok] at hexec
              exact hexec ▸ hs.setThread fun f hf => hs th thr₁ f hthr₁ hf
            · simp only [except_pure_eq_ok] at hexec
              have hs₁ : FramesOk (s.setProc p { pr with
                  requestedThreads := pr.requestedThreads - 1
                  requestedThreadsStarted := pr.requestedThreadsStarted + 1 }) := hs.of_threads rfl
              exact hexec ▸ hs₁.setThread fun f hf => hs th thr₁ f hthr₁ hf
          · exact hs.of_kept (execCommand_pool hc hexec)

theorem readResume_frames {interrupted : Bool} (hs : FramesOk s)
    (hrun : readResume L s p th interrupted writable = .ok s') : FramesOk s' := by
  simp only [readResume, except_bind_eq_ok, deref_eq_ok] at hrun
  obtain ⟨thr, hthr, hrun⟩ := hrun
  cases hread : thr.read with
  | none =>
      simp only [hread, except_pure_eq_ok] at hrun
      exact hrun ▸ hs
  | some f =>
      simp only [hread, except_bind_eq_ok, deref_eq_ok] at hrun
      obtain ⟨pr, hpr, hrun⟩ := hrun
      have hs₁ : FramesOk (wakeUp s p th thr f pr) := wakeUp_frames hs
      change (if interrupted = true then ioctlReturn (wakeUp s p th thr f pr) th else _) = _ at hrun
      split at hrun
      · exact ioctlReturn_frames hs₁ hrun
      · simp only [except_bind_eq_ok] at hrun
        obtain ⟨⟨x, s₂⟩, hloop, hrun⟩ := hrun
        have hs₂ : FramesOk s₂ := hs₁.of_kept (readLoop_pool hloop)
        have hf := readLoop_framed (hs th thr f hthr hread) hloop
        cases x with
        | done ptr out => exact readDone_frames hs₂ hrun
        | fault => exact ioctlReturn_frames hs₂ hrun
        | retry ptr out => exact readRetry_frames hs₂ (hf ptr out (.inr rfl)) hrun

theorem binderIoctl_frames {op : IoctlOp} (hs : FramesOk s)
    (hrun : binderIoctl L s p th op = .ok s') : FramesOk s' := by
  cases op with
  | writeRead cmds n m w =>
      simp only [binderIoctl, ioctlWriteRead, except_bind_eq_ok] at hrun
      obtain ⟨⟨ok, s₁⟩, hwrite, hrun⟩ := hrun
      have hs₁ : FramesOk s₁ := binderThreadWrite_frames hs hwrite
      split at hrun
      · unfold binderThreadRead at hrun
        split at hrun
        · split at hrun
          · exact readRetry_frames hs₁ framed_start hrun
          · exact ioctlReturn_frames hs₁ hrun
        · exact readRetry_frames hs₁ ⟨by simp, by simp⟩ hrun
      · exact ioctlReturn_frames hs₁ hrun
  | setMaxThreads n =>
      simp only [binderIoctl, except_bind_eq_ok, deref_eq_ok] at hrun
      obtain ⟨pr, hpr, hrun⟩ := hrun
      have hs₁ : FramesOk (s.setProc p { pr with maxThreads := n }) := hs.of_threads rfl
      exact ioctlReturn_frames hs₁ hrun
  | setContextMgr euid security alloc =>
      simp only [binderIoctl, except_bind_eq_ok] at hrun
      obtain ⟨s₁, hctx, hrun⟩ := hrun
      exact ioctlReturn_frames (hs.of_kept (setContextMgr_pool hctx)) hrun
  | threadExit => exact binderFreeThread_frames hs hrun

theorem binderDeferredFunc_frames {pr : Proc} (hs : FramesOk s)
    (hrun : binderDeferredFunc L s p pr = .ok s') : FramesOk s' := by
  simp only [binderDeferredFunc, except_bind_eq_ok] at hrun
  obtain ⟨s₁, hflush, hrun⟩ := hrun
  have hs₁ : FramesOk s₁ := by
    refine FramesOk.of_kept ?_ (deferredFlush_pool hflush)
    split <;> exact hs.of_threads rfl
  split at hrun
  · exact binderDeferredRelease_frames hs₁ hrun
  · simp only [except_pure_eq_ok] at hrun
    exact hrun ▸ hs₁

theorem step_frames {a : Act} (hs : FramesOk s) (hrun : step L s a = .ok s') : FramesOk s' := by
  cases a with
  | «open» pid =>
      simp only [step, Except.ok.injEq] at hrun
      exact hrun ▸ hs.of_threads rfl
  | mmap q base size off env files =>
      simp only [step] at hrun
      split at hrun
      · exact hs.of_kept (mmapProc_pool hrun)
      · cases hrun
        exact hs
  | ioctl q pid alloc op =>
      simp only [step] at hrun
      split at hrun
      · cases hrun
        exact hs
      · split at hrun
        · rename_i hget
          cases hrun
          exact binderGetThread_frames hs hget
        · rename_i th s₁ hget
          have hs₁ := binderGetThread_frames hs hget
          split at hrun
          · cases hrun
            exact hs₁
          · exact binderIoctl_frames hs₁ hrun
  | resume th interrupted writable =>
      simp only [step] at hrun
      split at hrun
      · cases hrun
        exact hs
      · exact readResume_frames hs hrun
  | poll q pid alloc =>
      simp only [step] at hrun
      split at hrun
      · cases hrun
        exact hs
      · split at hrun
        · cases hrun
        · rename_i hget
          cases hrun
          exact binderGetThread_frames hs hget
  | setFile q fd file =>
      simp only [step] at hrun
      split at hrun
      · cases hrun
        exact hs
      · cases hrun
        exact hs
  | vmaClose q =>
      simp only [step] at hrun
      split at hrun
      · cases hrun
        exact hs
      · split at hrun
        · cases hrun
          exact hs
        · cases hrun
          exact hs.of_threads rfl
  | flush q =>
      simp only [step] at hrun
      split at hrun
      · cases hrun
        exact hs
      · cases hrun
        exact hs.of_threads rfl
  | release q =>
      simp only [step] at hrun
      split at hrun
      · cases hrun
        exact hs
      · split at hrun
        · cases hrun
          exact hs
        · cases hrun
          exact hs.of_threads rfl
  | deferred q =>
      simp only [step] at hrun
      split at hrun
      · cases hrun
        exact hs
      · exact binderDeferredFunc_frames hs hrun

/-! ### Runs -/

theorem ioctlReturns_whole (hco : Coherent L none s) (hlinked : Linked s) (hs : NoErrors s)
    (hth : s.ThreadOf th p) {op : IoctlOp} (hok : IoctlOk deathsAllocated L p th s op) :
    ∀ r ∈ ioctlReturns L s p th op, r.Whole := by
  intro r hr
  cases op with
  | writeRead cmds n m w =>
      simp only [ioctlReturns] at hr
      split at hr
      · rename_i s₁ hwrite
        have hs₁ := ((binderThreadWrite_parts hco hth hok.1 hwrite).keeps (h := [])
          noErrors_steady hco hlinked hs).2.2
        split at hr
        · exact retryReturn_whole framed_start hs₁ r hr
        · cases hr
      · cases hr
  | setMaxThreads n => cases hr
  | setContextMgr euid security alloc => cases hr
  | threadExit => cases hr

theorem resumeReturn_whole {interrupted : Bool} (hco : Coherent L none s) (hlinked : Linked s)
    (hs : NoErrors s) (hf : FramesOk s) :
    ∀ r ∈ resumeReturn L s th interrupted writable, r.Whole := by
  intro r hr
  cases hthr : s.threads th with
  | none => simp [resumeReturn, hthr] at hr
  | some thr =>
      simp only [resumeReturn, hthr] at hr
      split at hr
      · rename_i f pr hread hpr
        split at hr
        · cases hr
        · have hwake : Parts L deathsAllocated s [] (wakeUp s thr.proc th thr f pr) :=
            .single (.wakeUp hthr rfl hread hpr)
          obtain ⟨hco₁, hlinked₁, hs₁⟩ := hwake.keeps (h := []) noErrors_steady hco hlinked hs
          have hth₁ := hwake.threadOf hco (threadOf_of_thread hco hthr rfl)
          unfold awakeReturn at hr
          have hloop : ∀ {x s₂}, readLoop L thr.proc th f.size f.waitForProcWork writable
              (readFuel (wakeUp s thr.proc th thr f pr) thr.proc th)
              (wakeUp s thr.proc th thr f pr) f.ptr f.out = .ok (x, s₂) → NoErrors s₂ :=
            fun hrun => ((readLoop_parts hco₁ hth₁ ⟨s, trivial⟩ hrun).keeps (h := [])
              noErrors_steady hco₁ hlinked₁ hs₁).2.2
          have hframed := hf th thr f hthr hread
          split at hr
          · rename_i ptr out s₂ hrun
            exact doneReturn_whole (readLoop_framed hframed hrun ptr out (.inl rfl)) r hr
          · rename_i ptr out s₂ hrun
            exact retryReturn_whole (readLoop_framed hframed hrun ptr out (.inr rfl)) (hloop hrun)
              r hr
          · cases hr
      · cases hr

theorem actReturns_whole {a : Act} (hco : Coherent L none s) (hlinked : Linked s)
    (hs : NoErrors s) (hf : FramesOk s) (hok : ActOk deathsAllocated L s a) :
    ∀ r ∈ actReturns L s a, r.Whole := by
  intro r hr
  cases a with
  | ioctl q pid alloc op =>
      simp only [actReturns] at hr
      split at hr
      · rename_i hopen
        have hop := hok hopen
        split at hr
        · cases hr
        · rename_i th s₁ hget
          simp only [hget] at hop
          split at hr
          · cases hr
          · rename_i hread
            have hpart : Parts L deathsAllocated s [] s₁ := .single (.getThread hopen hget)
            obtain ⟨hco₁, hlinked₁, hs₁⟩ := hpart.keeps (h := []) noErrors_steady hco hlinked hs
            exact ioctlReturns_whole hco₁ hlinked₁ hs₁ (binderGetThread_threadOf hco hget)
              (hop (by simpa using hread)) r hr
      · cases hr
  | resume th interrupted writable => exact resumeReturn_whole hco hlinked hs hf r hr
  | _ => cases hr

/-- When there is memory for every death notification, no read returns `BR_ERROR`, and
the bytes of what it returns are as many as it says. -/
theorem whole_of_reach {h : List ReadReturn}
    (hreach : Reach (readStep L) (fun x a => ActOk deathsAllocated L x.1 a) (State.init, [])
      (s, h)) : ∀ r ∈ h, r.Whole := by
  have hinv := hreach.invariant
    (I := fun x : State × List ReadReturn => Coherent L none x.1 ∧ Linked x.1 ∧ NoErrors x.1 ∧
      FramesOk x.1 ∧ ∀ r ∈ x.2, r.Whole)
    ⟨coherent_init L, linked_init, noErrors_init, by
      intro th thr f hthr
      simp [State.init] at hthr, by simp⟩ (by
    rintro ⟨s₁, h₁⟩ a ⟨s₂, h₂⟩ ⟨hco, hlinked, hs, hf, hall⟩ hok hstep
    simp only [readStep] at hstep
    cases hrun : step L s₁ a with
    | error e => simp [hrun, Except.map] at hstep
    | ok s₂' =>
        simp only [hrun, Except.map, Except.ok.injEq, Prod.mk.injEq] at hstep
        obtain ⟨rfl, rfl⟩ := hstep
        obtain ⟨hco', hlinked', hs'⟩ :=
          (step_parts hco hok hrun).keeps (h := []) noErrors_steady hco hlinked hs
        refine ⟨hco', hlinked', hs', step_frames hf hrun, fun r hr => ?_⟩
        rcases List.mem_append.mp hr with hr | hr
        · exact hall r hr
        · exact actReturns_whole hco hlinked hs hf hok r hr)
  exact hinv.2.2.2.2

end Frames

end Driver

end BinderForLinux
