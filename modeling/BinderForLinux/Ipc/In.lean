import BinderForLinux.Driver.Return

/-!
# What a thread reads from the driver

`IPCThreadState` takes the return commands one after the other out of the parcel `mIn`,
in `waitForResponse` and, for all commands that do not end a wait, in `executeCommand`.
What it does with a command is left out here.
-/

namespace BinderForLinux

namespace Ipc

open Library
open Driver (BrKind RawTransaction ReturnCommand ReturnError ReadReturn Act Command State
  TransactionData TxnEnv)

/-- The commands with the arguments that are read for them. -/
inductive InCommand
  | error (result : UInt32)
  | ok
  | transaction (tr : RawTransaction)
  | reply (tr : RawTransaction)
  /-- The data of a transaction ends too early. -/
  | notEnoughData
  | acquireResult (result : UInt32)
  | deadReply
  | transactionComplete
  | increfs (refs obj : UInt64)
  | acquire (refs obj : UInt64)
  | release (refs obj : UInt64)
  | decrefs (refs obj : UInt64)
  | attemptAcquire (refs obj : UInt64)
  | noop
  | spawnLooper
  | finished
  | deadBinder (proxy : UInt64)
  | clearDeathNotificationDone (proxy : UInt64)
  | failedReply
  | badCommand (cmd : UInt32)
  deriving DecidableEq, Repr

/-! ### Reading a parcel -/

def byteAt (data : List UInt8) : ℕ → Option UInt8 := fun i => data[i]?

/-- `Parcel::readAligned` of `n` bytes: when they are not there, the result is 0 and the
position stays. -/
def readAligned (data : List UInt8) (pos n : ℕ) : ℕ × ℕ :=
  match fetchLE (byteAt data) pos n with
  | some v => (v, pos + n)
  | none => (0, pos)

def readInt32 (data : List UInt8) (pos : ℕ) : UInt32 × ℕ :=
  let (v, pos) := readAligned data pos 4
  (UInt32.ofNat v, pos)

def readPointer (data : List UInt8) (pos : ℕ) : UInt64 × ℕ :=
  let (v, pos) := readAligned data pos 8
  (UInt64.ofNat v, pos)

def readTransactionData (data : List UInt8) (pos : ℕ) : Option (RawTransaction × ℕ) :=
  match Driver.getTransaction (byteAt data) pos with
  | .ok tr => some (tr, pos + 64)
  | .error _ => none

def int32Command (data : List UInt8) (pos : ℕ) (c : UInt32 → InCommand) : InCommand × ℕ :=
  let (v, pos) := readInt32 data pos
  (c v, pos)

def pointerCommand (data : List UInt8) (pos : ℕ) (c : UInt64 → InCommand) : InCommand × ℕ :=
  let (x, pos) := readPointer data pos
  (c x, pos)

def objectCommand (data : List UInt8) (pos : ℕ) (c : UInt64 → UInt64 → InCommand) :
    InCommand × ℕ :=
  let (refs, pos) := readPointer data pos
  let (obj, pos) := readPointer data pos
  (c refs obj, pos)

def transactionCommand (data : List UInt8) (pos : ℕ) (c : RawTransaction → InCommand) :
    InCommand × ℕ :=
  match readTransactionData data pos with
  | some (tr, pos) => (c tr, pos)
  | none => (.notEnoughData, pos)

/-- The `switch` of `waitForResponse`, and that of `executeCommand` for the rest. -/
def readInArgs (data : List UInt8) (pos : ℕ) : BrKind → InCommand × ℕ
  | .transactionComplete => (.transactionComplete, pos)
  | .deadReply => (.deadReply, pos)
  | .failedReply => (.failedReply, pos)
  | .acquireResult => int32Command data pos .acquireResult
  | .reply => transactionCommand data pos .reply
  | .error => int32Command data pos .error
  | .ok => (.ok, pos)
  | .acquire => objectCommand data pos .acquire
  | .release => objectCommand data pos .release
  | .increfs => objectCommand data pos .increfs
  | .decrefs => objectCommand data pos .decrefs
  | .attemptAcquire => objectCommand data pos .attemptAcquire
  | .transaction => transactionCommand data pos .transaction
  | .deadBinder => pointerCommand data pos .deadBinder
  | .clearDeathNotificationDone => pointerCommand data pos .clearDeathNotificationDone
  | .finished => (.finished, pos)
  | .noop => (.noop, pos)
  | .spawnLooper => (.spawnLooper, pos)

def brKind (cmd : ℕ) : Option BrKind := BrKind.all.find? fun k => k.word = cmd

def readIn (data : List UInt8) (pos : ℕ) : InCommand × ℕ :=
  let (cmd, pos) := readInt32 data pos
  match brKind cmd.toNat with
  | some k => readInArgs data pos k
  | none => (.badCommand cmd, pos)

/-- The commands from `pos` on, as long as `mIn.dataAvail()` is not 0, and the position
after them. -/
def readAllIn (data : List UInt8) : ℕ → ℕ → List InCommand × ℕ
  | 0, pos => ([], pos)
  | fuel + 1, pos =>
      if pos < data.length then
        let (c, pos) := readIn data pos
        let (cs, pos) := readAllIn data fuel pos
        (c :: cs, pos)
      else ([], pos)

/-! ### What the driver means -/

/-- The command that is to be read for what the driver has stored. -/
def InCommand.of : ReturnCommand → InCommand
  | .noop => .noop
  | .spawnLooper => .spawnLooper
  | .errorCode .ok => .ok
  | .errorCode .error => .error 0
  | .errorCode .deadReply => .deadReply
  | .errorCode .failedReply => .failedReply
  | .errorCode .transactionComplete => .transactionComplete
  | .transactionComplete => .transactionComplete
  | .transaction tr => .transaction tr.raw
  | .reply tr => .reply tr.raw
  | .increfs ptr cookie => .increfs (UInt64.ofNat ptr) (UInt64.ofNat cookie)
  | .acquire ptr cookie => .acquire (UInt64.ofNat ptr) (UInt64.ofNat cookie)
  | .release ptr cookie => .release (UInt64.ofNat ptr) (UInt64.ofNat cookie)
  | .decrefs ptr cookie => .decrefs (UInt64.ofNat ptr) (UInt64.ofNat cookie)
  | .deadBinder cookie => .deadBinder (UInt64.ofNat cookie)
  | .clearDeathNotificationDone cookie => .clearDeathNotificationDone (UInt64.ofNat cookie)

section Reading

variable {data : List UInt8} {pos : ℕ}

theorem readInt32_of_holds {v : UInt32} (h : Holds (byteAt data) pos (bytesLE 4 v.toNat)) :
    readInt32 data pos = (v, pos + 4) := by
  have hv : v.toNat < 256 ^ 4 := v.toNat_lt
  simp [readInt32, readAligned, h.fetchLE hv]

theorem readPointer_of_holds {v : UInt64} (h : Holds (byteAt data) pos (bytesLE 8 v.toNat)) :
    readPointer data pos = (v, pos + 8) := by
  have hv : v.toNat < 256 ^ 8 := v.toNat_lt
  simp [readPointer, readAligned, h.fetchLE hv]

theorem objectCommand_of_holds {refs obj : UInt64} (c : UInt64 → UInt64 → InCommand)
    (h : Holds (byteAt data) pos (bytesLE 8 refs.toNat ++ bytesLE 8 obj.toNat)) :
    objectCommand data pos c = (c refs obj, pos + 16) := by
  obtain ⟨hrefs, hobj⟩ := holds_append.mp h
  rw [length_bytesLE] at hobj
  simp [objectCommand, readPointer_of_holds hrefs, readPointer_of_holds hobj]

theorem pointerCommand_of_holds {x : UInt64} (c : UInt64 → InCommand)
    (h : Holds (byteAt data) pos (bytesLE 8 x.toNat)) :
    pointerCommand data pos c = (c x, pos + 8) := by
  simp [pointerCommand, readPointer_of_holds h]

theorem transactionCommand_of_holds {tr : RawTransaction} (c : RawTransaction → InCommand)
    (h : Holds (byteAt data) pos tr.bytes) :
    transactionCommand data pos c = (c tr, pos + 64) := by
  simp [transactionCommand, readTransactionData, Driver.getTransaction_of_holds h]

theorem brKind_word (k : BrKind) : brKind k.word = some k := by
  cases k <;> decide

theorem BrKind.word_lt (k : BrKind) : k.word < 2 ^ 32 := by
  cases k <;> decide

theorem readInArgs_of_holds {c : ReturnCommand} (hc : c ≠ .errorCode .error)
    (h : Holds (byteAt data) pos c.args) :
    readInArgs data pos c.kind = (InCommand.of c, pos + c.args.length) := by
  cases c with
  | noop | spawnLooper | transactionComplete => rfl
  | errorCode e => cases e <;> first | rfl | exact absurd rfl hc
  | transaction tr | reply tr =>
      exact (transactionCommand_of_holds _ h).trans (by
        simp [InCommand.of, ReturnCommand.args, RawTransaction.bytes])
  | increfs ptr cookie | acquire ptr cookie | release ptr cookie | decrefs ptr cookie =>
      exact (objectCommand_of_holds _ h).trans (by simp [InCommand.of, ReturnCommand.args])
  | deadBinder cookie | clearDeathNotificationDone cookie =>
      exact (pointerCommand_of_holds _ h).trans (by simp [InCommand.of, ReturnCommand.args])

/-- A command that is in the parcel is read, and ends where its bytes end. -/
theorem readIn_of_holds {c : ReturnCommand} (hc : c ≠ .errorCode .error)
    (h : Holds (byteAt data) pos c.bytes) :
    readIn data pos = (InCommand.of c, pos + c.bytes.length) := by
  obtain ⟨hword, hargs⟩ := holds_append.mp h
  rw [length_bytesLE] at hargs
  have hcmd : (UInt32.ofNat c.kind.word).toNat = c.kind.word :=
    UInt32.toNat_ofNat_of_lt' (BrKind.word_lt c.kind)
  rw [← hcmd] at hword
  simp only [readIn, readInt32_of_holds hword, hcmd, brKind_word, readInArgs_of_holds hc hargs,
    ReturnCommand.bytes, List.length_append, length_bytesLE, Nat.add_assoc]

theorem readAllIn_of_holds {out : List ReturnCommand} {fuel : ℕ}
    (h : Holds (byteAt data) pos (Driver.returnBytes out))
    (hend : pos + (Driver.returnBytes out).length = data.length)
    (hout : ∀ c ∈ out, c ≠ .errorCode .error) (hfuel : out.length ≤ fuel) :
    readAllIn data fuel pos = (out.map InCommand.of, data.length) := by
  induction out generalizing pos fuel with
  | nil =>
      have hpos : pos = data.length := by simpa [Driver.returnBytes] using hend
      subst hpos
      cases fuel with
      | zero => rfl
      | succ fuel => simp [readAllIn]
  | cons c out ih =>
      obtain ⟨fuel, rfl⟩ : ∃ k, fuel = k + 1 := ⟨fuel - 1, by simp at hfuel; omega⟩
      have hsplit : Driver.returnBytes (c :: out) = c.bytes ++ Driver.returnBytes out := rfl
      rw [hsplit] at h hend
      obtain ⟨hc, hrest⟩ := holds_append.mp h
      rw [List.length_append] at hend
      have hlt : pos < data.length := by
        have : 4 ≤ c.bytes.length := by simp [ReturnCommand.bytes]
        omega
      have hread := readIn_of_holds (hout c List.mem_cons_self) hc
      have htail := ih hrest (by omega) (fun c' hc' => hout c' (List.mem_cons_of_mem _ hc'))
        (by simpa using hfuel)
      simp only [readAllIn, hlt, ↓reduceIte, hread, htail, List.map_cons]

theorem length_le_returnBytes (out : List ReturnCommand) :
    out.length ≤ (Driver.returnBytes out).length := by
  induction out with
  | nil => simp
  | cons c out ih =>
      have hc : 4 ≤ c.bytes.length := by simp [ReturnCommand.bytes]
      have hsplit : Driver.returnBytes (c :: out) = c.bytes ++ Driver.returnBytes out := rfl
      rw [hsplit, List.length_append, List.length_cons]
      omega

/-- In runs in which there is memory for every death notification, what a read that
begins at the start of its buffer returns is a sequence of complete commands, and the
thread reads just these commands, up to the end of the parcel. -/
theorem returns_read {L : Driver.Layout} {s : State} {h : List ReadReturn}
    (hreach : Reach (Driver.readStep L) (fun x a => Driver.ActOk Driver.deathsAllocated L x.1 a)
      (State.init, []) (s, h)) :
    ∀ r ∈ h, r.consumed = (Driver.returnBytes r.out).length ∧ (∀ c ∈ r.out, c.complete) ∧
      readAllIn (Driver.returnBytes r.out) r.consumed 0 =
        (r.out.map InCommand.of, r.consumed) := by
  intro r hr
  obtain ⟨hlen, hout⟩ := Driver.whole_of_reach hreach r hr
  refine ⟨hlen, fun c hc => c.complete_iff.mpr (hout c hc), ?_⟩
  rw [hlen]
  exact readAllIn_of_holds (holds_getElem? _) (by simp) hout (length_le_returnBytes r.out)

end Reading

theorem returns_read_poolActs : ∃ s h r,
    runChecked (Driver.readStep Driver.Layout.x86)
        (fun x a => Driver.ActOk Driver.deathsAllocated Driver.Layout.x86 x.1 a)
        (State.init, []) Driver.poolActs = some (s, h) ∧
      r ∈ h ∧ r.out = [.spawnLooper, .errorCode .failedReply] ∧
      readAllIn (Driver.returnBytes r.out) r.consumed 0 =
        (r.out.map InCommand.of, r.consumed) := by
  obtain ⟨⟨s, h⟩, hrun, hx⟩ := Option.map_eq_some_iff.mp
    (show (runChecked (Driver.readStep Driver.Layout.x86)
      (fun x a => Driver.ActOk Driver.deathsAllocated Driver.Layout.x86 x.1 a)
      (State.init, []) Driver.poolActs).map Prod.snd =
        some [⟨1, 8, [.spawnLooper, .errorCode .failedReply]⟩] by decide +kernel)
  simp only at hx
  subst hx
  exact ⟨s, _, _, hrun, List.mem_singleton_self _, rfl,
    (returns_read (reach_of_runChecked hrun) _ (List.mem_singleton_self _)).2.2⟩

/-- Process 1 takes a reference to the context manager, calls it, and asks for its death
notification when there is no memory for one. Then the context manager dies. -/
def deathUnallocated : List Act :=
  Driver.twoProcesses ++
    [.write 1 20 [.acquire 0 true, .transaction (.plain 0 0 (fun _ => 0) []) TxnEnv.granted,
        .requestDeathNotification 0 5 false],
      .vmaClose 0, .release 0, .deferred 0, .read 1 20]

/-- `BR_ERROR` comes without its argument, and the `BR_DEAD_REPLY` after it is taken for
it. -/
theorem deathUnallocated_misread : ∃ s h r,
    Reach (Driver.readStep Driver.Layout.x86) (fun _ _ => True) (State.init, []) (s, h) ∧
      r ∈ h ∧ ¬ (∀ c ∈ r.out, c.complete) ∧
      readAllIn (Driver.returnBytes r.out) r.consumed 0 ≠
        (r.out.map InCommand.of, r.consumed) := by
  obtain ⟨⟨s, h⟩, hrun, hx⟩ := Option.map_eq_some_iff.mp
    (show (runChecked (Driver.readStep Driver.Layout.x86) (fun _ _ => True)
      (State.init, []) deathUnallocated).map Prod.snd =
        some [⟨4, 12, [.noop, .errorCode .error, .errorCode .deadReply]⟩] by decide +kernel)
  simp only at hx
  subst hx
  refine ⟨s, _, _, reach_of_runChecked hrun, List.mem_singleton_self _, fun hall => ?_, ?_⟩
  · exact (ReturnCommand.complete_iff _).mp (hall (.errorCode .error) (by simp)) rfl
  · decide +kernel

end Ipc

end BinderForLinux
