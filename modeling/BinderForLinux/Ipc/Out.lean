import BinderForLinux.Driver.Wire

/-!
# The commands that a thread writes

`IPCThreadState` appends commands to the parcel `mOut`, field by field. The driver reads
the bytes back as the commands that were meant.
-/

namespace BinderForLinux

namespace Ipc

open Library Driver

/-! ### Writing to a parcel -/

/-- `Parcel::writeInt32`, for the bits of the number. -/
def writeInt32 (v : UInt32) : List UInt8 := bytesLE 4 v.toNat

def writePointer (v : UInt64) : List UInt8 := bytesLE 8 v.toNat

def padSize (n : ℕ) : ℕ := (n + 3) / 4 * 4

/-- `Parcel::write`, with what is left of the last word cleared. -/
def write (bs : List UInt8) : List UInt8 := bs ++ List.replicate (padSize bs.length - bs.length) 0

def writeCommand (k : BcKind) : List UInt8 := writeInt32 (UInt32.ofNat k.word)

/-! ### Transactions -/

/-- The fields of a parcel that `writeTransactionData` sends. -/
structure IpcParcel where
  error : Int32
  data : UInt64
  dataSize : UInt64
  dataPos : UInt64
  objects : UInt64
  objectsSize : UInt64

def IpcParcel.ipcDataSize (x : IpcParcel) : UInt64 :=
  if x.dataSize > x.dataPos then x.dataSize else x.dataPos

def tfStatusCode : UInt32 := 0x08

def tfAcceptFds : UInt32 := 0x10

/-- The structure that `writeTransactionData` fills in; `none` when the parcel has an error
and there is no buffer for a status code. -/
def transactionData (binderFlags : UInt32) (handle : Int32) (code : UInt32) (x : IpcParcel)
    (statusBuffer : Option UInt64) : Option RawTransaction :=
  let tr : RawTransaction :=
    { target := handle.toUInt32.toUInt64, cookie := 0, code := code, flags := binderFlags,
      senderPid := 0, senderEuid := 0, dataSize := 0, offsetsSize := 0, buffer := 0, offsets := 0 }
  if x.error = 0 then
    some { tr with
      dataSize := x.ipcDataSize
      buffer := x.data
      offsetsSize := x.objectsSize * 8
      offsets := x.objects }
  else
    match statusBuffer with
    | some a => some { tr with flags := binderFlags ||| tfStatusCode, dataSize := 4, buffer := a }
    | none => none

def writeTransactionData (cmd : BcKind) (tr : Option RawTransaction) : List UInt8 :=
  match tr with
  | some tr => writeCommand cmd ++ write tr.bytes
  | none => []

/-! ### The calls that write -/

/-- The calls of `IPCThreadState` that append to `mOut`, and the return commands it answers. -/
inductive OutCall
  | incStrongHandle (handle : Int32)
  | decStrongHandle (handle : Int32)
  | incWeakHandle (handle : Int32)
  | decWeakHandle (handle : Int32)
  | requestDeathNotification (handle : Int32) (proxy : UInt64)
  | clearDeathNotification (handle : Int32) (proxy : UInt64)
  | brAcquire (refs obj : UInt64)
  | brIncrefs (refs obj : UInt64)
  | brDeadBinder (proxy : UInt64)
  | freeBuffer (data : UInt64)
  | joinThreadPool (isMain : Bool)
  | leaveThreadPool
  | setupPolling
  | transact (handle : Int32) (code : UInt32) (data : IpcParcel) (flags : UInt32)
  | sendReply (reply : IpcParcel) (flags : UInt32) (statusBuffer : UInt64)

def OutCall.emit : OutCall → List UInt8
  | .incStrongHandle handle => writeCommand .acquire ++ writeInt32 handle.toUInt32
  | .decStrongHandle handle => writeCommand .release ++ writeInt32 handle.toUInt32
  | .incWeakHandle handle => writeCommand .increfs ++ writeInt32 handle.toUInt32
  | .decWeakHandle handle => writeCommand .decrefs ++ writeInt32 handle.toUInt32
  | .requestDeathNotification handle proxy =>
      writeCommand .requestDeathNotification ++ writeInt32 handle.toUInt32 ++ writePointer proxy
  | .clearDeathNotification handle proxy =>
      writeCommand .clearDeathNotification ++ writeInt32 handle.toUInt32 ++ writePointer proxy
  | .brAcquire refs obj => writeCommand .acquireDone ++ writePointer refs ++ writePointer obj
  | .brIncrefs refs obj => writeCommand .increfsDone ++ writePointer refs ++ writePointer obj
  | .brDeadBinder proxy => writeCommand .deadBinderDone ++ writePointer proxy
  | .freeBuffer data => writeCommand .freeBuffer ++ writePointer data
  | .joinThreadPool isMain => writeCommand (if isMain then .enterLooper else .registerLooper)
  | .leaveThreadPool => writeCommand .exitLooper
  | .setupPolling => writeCommand .enterLooper
  | .transact handle code data flags =>
      if data.error = 0 then
        writeTransactionData .transaction
          (transactionData (flags ||| tfAcceptFds) handle code data none)
      else []
  | .sendReply reply flags statusBuffer =>
      writeTransactionData .reply (transactionData flags (-1) 0 reply (some statusBuffer))

def OutCall.command : OutCall → Option WireCommand
  | .incStrongHandle handle => some (.acquire handle.toUInt32)
  | .decStrongHandle handle => some (.release handle.toUInt32)
  | .incWeakHandle handle => some (.increfs handle.toUInt32)
  | .decWeakHandle handle => some (.decrefs handle.toUInt32)
  | .requestDeathNotification handle proxy =>
      some (.requestDeathNotification handle.toUInt32 proxy)
  | .clearDeathNotification handle proxy => some (.clearDeathNotification handle.toUInt32 proxy)
  | .brAcquire refs obj => some (.acquireDone refs obj)
  | .brIncrefs refs obj => some (.increfsDone refs obj)
  | .brDeadBinder proxy => some (.deadBinderDone proxy)
  | .freeBuffer data => some (.freeBuffer data)
  | .joinThreadPool isMain => some (if isMain then .enterLooper else .registerLooper)
  | .leaveThreadPool => some .exitLooper
  | .setupPolling => some .enterLooper
  | .transact handle code data flags =>
      (transactionData (flags ||| tfAcceptFds) handle code data none).map .transaction
  | .sendReply reply flags statusBuffer =>
      (transactionData flags (-1) 0 reply (some statusBuffer)).map .reply

def emitAll (calls : List OutCall) : List UInt8 := calls.flatMap OutCall.emit

def commandsOf (calls : List OutCall) : List WireCommand := calls.filterMap OutCall.command

/-- A kernel that only remembers the commands it was given. -/
def recorder : Kernel (List WireCommand) where
  exec := fun cs c => cs ++ [c]
  stopped := fun _ => false

section Encoding

theorem writeCommand_eq (k : BcKind) : writeCommand k = bytesLE 4 k.word := by
  have hword : (UInt32.ofNat k.word).toNat = k.word := Nat.mod_eq_of_lt k.word_lt
  rw [writeCommand, writeInt32, hword]

theorem write_transaction (tr : RawTransaction) : write tr.bytes = tr.bytes := by
  simp [write, RawTransaction.bytes, padSize]

theorem writeTransactionData_transaction (tr : RawTransaction) :
    writeTransactionData .transaction (some tr) = (WireCommand.transaction tr).bytes := by
  simp only [writeTransactionData, writeCommand_eq, write_transaction]
  rfl

theorem writeTransactionData_reply (tr : RawTransaction) :
    writeTransactionData .reply (some tr) = (WireCommand.reply tr).bytes := by
  simp only [writeTransactionData, writeCommand_eq, write_transaction]
  rfl

theorem OutCall.emit_eq (c : OutCall) : c.emit = streamBytes c.command.toList := by
  cases c with
  | transact handle code data flags =>
      by_cases herr : data.error = 0
      · simp only [OutCall.emit, OutCall.command, transactionData, herr, ↓reduceIte,
          writeTransactionData_transaction]
        simp [streamBytes]
      · simp [OutCall.emit, OutCall.command, transactionData, herr]
  | sendReply reply flags statusBuffer =>
      by_cases herr : reply.error = 0
      · simp only [OutCall.emit, OutCall.command, transactionData, herr, ↓reduceIte,
          writeTransactionData_reply]
        simp [streamBytes]
      · simp only [OutCall.emit, OutCall.command, transactionData, herr, ↓reduceIte,
          writeTransactionData_reply]
        simp [streamBytes]
  | joinThreadPool isMain =>
      cases isMain <;>
        simp [OutCall.emit, OutCall.command, writeCommand_eq, WireCommand.bytes, WireCommand.kind,
          WireCommand.args]
  | _ =>
      simp [OutCall.emit, OutCall.command, writeCommand_eq, writeInt32, writePointer,
        WireCommand.bytes, WireCommand.kind, WireCommand.args]

theorem emitAll_eq (calls : List OutCall) : emitAll calls = streamBytes (commandsOf calls) := by
  induction calls with
  | nil => rfl
  | cons c calls ih =>
      have hemit : emitAll (c :: calls) = c.emit ++ emitAll calls := rfl
      have hcommands : commandsOf (c :: calls) = c.command.toList ++ commandsOf calls := by
        cases hc : c.command <;> simp [commandsOf, hc]
      rw [hemit, ih, c.emit_eq, hcommands, streamBytes_append]

theorem recorder_foldl (cs ds : List WireCommand) : cs.foldl recorder.exec ds = ds ++ cs := by
  induction cs generalizing ds with
  | nil => simp
  | cons c cs ih =>
      rw [List.foldl_cons, ih]
      simp [recorder]

/-- The driver reads `mOut` as the commands that were meant, each ending where the next
begins. -/
theorem mOut_parsed (calls : List OutCall) (m : UserMemory) (hm : Holds m 0 (emitAll calls)) :
    threadWrite recorder m (emitAll calls).length [] 0 =
        (none, commandsOf calls, (emitAll calls).length) ∧
      ∀ pre c post, commandsOf calls = pre ++ c :: post →
        readCommand m (streamBytes pre).length = .ok (c, (streamBytes (pre ++ [c])).length) := by
  rw [emitAll_eq] at hm ⊢
  constructor
  · rw [threadWrite_of_holds hm, Kernel.run_of_never_stopped (fun _ => rfl), recorder_foldl]
    simp
  · intro pre c post hsplit
    rw [hsplit, streamBytes_append, streamBytes_cons, holds_append, holds_append] at hm
    have hc := readCommand_of_holds hm.2.1
    simpa using hc

/-- A reply with an error, a buffer that is freed and a thread that joins the pool. -/
def sampleCalls : List OutCall :=
  [.sendReply ⟨-22, 0x1000, 16, 0, 0, 0⟩ 0 0x7fff0010, .freeBuffer 0x2000,
    .requestDeathNotification 3 0x5550, .joinThreadPool false]

theorem mOut_parsed_sample :
    threadWrite recorder (fun i => (emitAll sampleCalls)[i]?) (emitAll sampleCalls).length [] 0 =
      (none, commandsOf sampleCalls, (emitAll sampleCalls).length) :=
  (mOut_parsed sampleCalls _ (holds_getElem? _)).1

end Encoding

end Ipc

end BinderForLinux
