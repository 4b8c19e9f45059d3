import BinderForLinux.Library.Bytes
import BinderForLinux.Driver.Write

/-!
# The command stream

`binder_thread_write` reads a stream of commands out of the memory of the caller, each
a word that names it and its arguments. The loop is over any kernel state, so that what
is proved of it holds for every behaviour of the commands.
-/

namespace BinderForLinux

namespace Driver

open Library

/-! ### Command words -/

def ioc (dir type nr size : ℕ) : ℕ := dir * 2 ^ 30 + size * 2 ^ 16 + type * 2 ^ 8 + nr

/-- `enum binder_driver_command_protocol`. -/
inductive BcKind
  | transaction
  | reply
  | acquireResult
  | freeBuffer
  | increfs
  | acquire
  | release
  | decrefs
  | increfsDone
  | acquireDone
  | attemptAcquire
  | registerLooper
  | enterLooper
  | exitLooper
  | requestDeathNotification
  | clearDeathNotification
  | deadBinderDone
  deriving DecidableEq, Repr

def iowC (nr size : ℕ) : ℕ := ioc 1 'c'.toNat nr size

def ioC (nr : ℕ) : ℕ := ioc 0 'c'.toNat nr 0

def BcKind.word : BcKind → ℕ
  | .transaction => iowC 0 64
  | .reply => iowC 1 64
  | .acquireResult => iowC 2 4
  | .freeBuffer => iowC 3 8
  | .increfs => iowC 4 4
  | .acquire => iowC 5 4
  | .release => iowC 6 4
  | .decrefs => iowC 7 4
  | .increfsDone => iowC 8 16
  | .acquireDone => iowC 9 16
  | .attemptAcquire => iowC 10 8
  | .registerLooper => ioC 11
  | .enterLooper => ioC 12
  | .exitLooper => ioC 13
  | .requestDeathNotification => iowC 14 12
  | .clearDeathNotification => iowC 15 12
  | .deadBinderDone => iowC 16 8

def BcKind.all : List BcKind :=
  [.transaction, .reply, .acquireResult, .freeBuffer, .increfs, .acquire, .release, .decrefs,
    .increfsDone, .acquireDone, .attemptAcquire, .registerLooper, .enterLooper, .exitLooper,
    .requestDeathNotification, .clearDeathNotification, .deadBinderDone]

/-- The `switch` on the command word. -/
def bcKind (cmd : ℕ) : Option BcKind := BcKind.all.find? fun k => k.word = cmd

/-! ### Commands with their arguments -/

/-- `struct binder_transaction_data`. The handle is the low half of the union
`target`. -/
structure RawTransaction where
  target : UInt64
  cookie : UInt64
  code : UInt32
  flags : UInt32
  senderPid : UInt32
  senderEuid : UInt32
  dataSize : UInt64
  offsetsSize : UInt64
  buffer : UInt64
  offsets : UInt64
  deriving DecidableEq, Repr

def RawTransaction.handle (tr : RawTransaction) : UInt32 := tr.target.toUInt32

/-- The commands that the driver executes. -/
inductive WireCommand
  | increfs (target : UInt32)
  | acquire (target : UInt32)
  | release (target : UInt32)
  | decrefs (target : UInt32)
  | increfsDone (nodePtr cookie : UInt64)
  | acquireDone (nodePtr cookie : UInt64)
  | freeBuffer (dataPtr : UInt64)
  | transaction (tr : RawTransaction)
  | reply (tr : RawTransaction)
  | registerLooper
  | enterLooper
  | exitLooper
  | requestDeathNotification (target : UInt32) (cookie : UInt64)
  | clearDeathNotification (target : UInt32) (cookie : UInt64)
  | deadBinderDone (cookie : UInt64)
  deriving DecidableEq, Repr

/-! ### Reading a command -/

/-- The memory of the caller from the start of the write buffer on. -/
abbrev UserMemory := ℕ → Option UInt8

/-- `-EFAULT` and `-EINVAL`. -/
inductive WriteError
  | efault
  | einval
  deriving DecidableEq, Repr

def getUser (m : UserMemory) (ptr n : ℕ) : Except WriteError ℕ :=
  match fetchLE m ptr n with
  | some v => .ok v
  | none => .error .efault

def getUser32 (m : UserMemory) (ptr : ℕ) : Except WriteError UInt32 :=
  (getUser m ptr 4).map UInt32.ofNat

def getUser64 (m : UserMemory) (ptr : ℕ) : Except WriteError UInt64 :=
  (getUser m ptr 8).map UInt64.ofNat

/-- `copy_from_user` of a `struct binder_transaction_data`. -/
def getTransaction (m : UserMemory) (ptr : ℕ) : Except WriteError RawTransaction := do
  let target ← getUser64 m ptr
  let cookie ← getUser64 m (ptr + 8)
  let code ← getUser32 m (ptr + 16)
  let flags ← getUser32 m (ptr + 20)
  let senderPid ← getUser32 m (ptr + 24)
  let senderEuid ← getUser32 m (ptr + 28)
  let dataSize ← getUser64 m (ptr + 32)
  let offsetsSize ← getUser64 m (ptr + 40)
  let buffer ← getUser64 m (ptr + 48)
  let offsets ← getUser64 m (ptr + 56)
  return ⟨target, cookie, code, flags, senderPid, senderEuid, dataSize, offsetsSize, buffer,
    offsets⟩

def targetArgs (m : UserMemory) (ptr : ℕ) (c : UInt32 → WireCommand) :
    Except WriteError (WireCommand × ℕ) := do
  let target ← getUser32 m ptr
  return (c target, ptr + 4)

def pointerArgs (m : UserMemory) (ptr : ℕ) (c : UInt64 → WireCommand) :
    Except WriteError (WireCommand × ℕ) := do
  let x ← getUser64 m ptr
  return (c x, ptr + 8)

def pointerCookieArgs (m : UserMemory) (ptr : ℕ) (c : UInt64 → UInt64 → WireCommand) :
    Except WriteError (WireCommand × ℕ) := do
  let x ← getUser64 m ptr
  let cookie ← getUser64 m (ptr + 8)
  return (c x cookie, ptr + 8 + 8)

def targetCookieArgs (m : UserMemory) (ptr : ℕ) (c : UInt32 → UInt64 → WireCommand) :
    Except WriteError (WireCommand × ℕ) := do
  let target ← getUser32 m ptr
  let cookie ← getUser64 m (ptr + 4)
  return (c target cookie, ptr + 4 + 8)

def transactionArgs (m : UserMemory) (ptr : ℕ) (c : RawTransaction → WireCommand) :
    Except WriteError (WireCommand × ℕ) := do
  let tr ← getTransaction m ptr
  return (c tr, ptr + 64)

def readArgs (m : UserMemory) (ptr : ℕ) : BcKind → Except WriteError (WireCommand × ℕ)
  | .increfs => targetArgs m ptr .increfs
  | .acquire => targetArgs m ptr .acquire
  | .release => targetArgs m ptr .release
  | .decrefs => targetArgs m ptr .decrefs
  | .increfsDone => pointerCookieArgs m ptr .increfsDone
  | .acquireDone => pointerCookieArgs m ptr .acquireDone
  | .attemptAcquire => .error .einval
  | .acquireResult => .error .einval
  | .freeBuffer => pointerArgs m ptr .freeBuffer
  | .transaction => transactionArgs m ptr .transaction
  | .reply => transactionArgs m ptr .reply
  | .registerLooper => .ok (.registerLooper, ptr)
  | .enterLooper => .ok (.enterLooper, ptr)
  | .exitLooper => .ok (.exitLooper, ptr)
  | .requestDeathNotification => targetCookieArgs m ptr .requestDeathNotification
  | .clearDeathNotification => targetCookieArgs m ptr .clearDeathNotification
  | .deadBinderDone => pointerArgs m ptr .deadBinderDone

def readCommand (m : UserMemory) (ptr : ℕ) : Except WriteError (WireCommand × ℕ) := do
  let cmd ← getUser m ptr 4
  match bcKind cmd with
  | some k => readArgs m (ptr + 4) k
  | none => .error .einval

/-! ### The loop -/

/-- What the commands of a thread do to a kernel state, and when `thread->return_error`
stops the loop. -/
structure Kernel (D : Type) where
  exec : D → WireCommand → D
  stopped : D → Bool

/-- The loop of `binder_thread_write` from `consumed` on: the error it ends with, the
state and the number of bytes consumed. Every command takes at least four bytes, so that
`fuel` is not used up before the end of the buffer. -/
def writeLoop {D : Type} (K : Kernel D) (m : UserMemory) (size : ℕ) :
    ℕ → D → ℕ → Option WriteError × D × ℕ
  | 0, d, consumed => (none, d, consumed)
  | fuel + 1, d, consumed =>
      if consumed < size ∧ K.stopped d = false then
        match readCommand m consumed with
        | .error e => (some e, d, consumed)
        | .ok (c, ptr) => writeLoop K m size fuel (K.exec d c) ptr
      else (none, d, consumed)

/-- `binder_thread_write` on a write buffer of `size` bytes. -/
def threadWrite {D : Type} (K : Kernel D) (m : UserMemory) (size : ℕ) (d : D) (consumed : ℕ) :
    Option WriteError × D × ℕ :=
  writeLoop K m size (size - consumed) d consumed

/-! ### Commands as bytes -/

def RawTransaction.bytes (tr : RawTransaction) : List UInt8 :=
  bytesLE 8 tr.target.toNat ++ bytesLE 8 tr.cookie.toNat ++ bytesLE 4 tr.code.toNat ++
    bytesLE 4 tr.flags.toNat ++ bytesLE 4 tr.senderPid.toNat ++ bytesLE 4 tr.senderEuid.toNat ++
    bytesLE 8 tr.dataSize.toNat ++ bytesLE 8 tr.offsetsSize.toNat ++ bytesLE 8 tr.buffer.toNat ++
    bytesLE 8 tr.offsets.toNat

def WireCommand.kind : WireCommand → BcKind
  | .increfs _ => .increfs
  | .acquire _ => .acquire
  | .release _ => .release
  | .decrefs _ => .decrefs
  | .increfsDone _ _ => .increfsDone
  | .acquireDone _ _ => .acquireDone
  | .freeBuffer _ => .freeBuffer
  | .transaction _ => .transaction
  | .reply _ => .reply
  | .registerLooper => .registerLooper
  | .enterLooper => .enterLooper
  | .exitLooper => .exitLooper
  | .requestDeathNotification _ _ => .requestDeathNotification
  | .clearDeathNotification _ _ => .clearDeathNotification
  | .deadBinderDone _ => .deadBinderDone

def WireCommand.args : WireCommand → List UInt8
  | .increfs target | .acquire target | .release target | .decrefs target =>
      bytesLE 4 target.toNat
  | .increfsDone x cookie | .acquireDone x cookie => bytesLE 8 x.toNat ++ bytesLE 8 cookie.toNat
  | .freeBuffer x | .deadBinderDone x => bytesLE 8 x.toNat
  | .transaction tr | .reply tr => tr.bytes
  | .registerLooper | .enterLooper | .exitLooper => []
  | .requestDeathNotification target cookie | .clearDeathNotification target cookie =>
      bytesLE 4 target.toNat ++ bytesLE 8 cookie.toNat

def WireCommand.bytes (c : WireCommand) : List UInt8 := bytesLE 4 c.kind.word ++ c.args

section Bytes

variable {m : UserMemory} {ptr : ℕ}

theorem bcKind_word (k : BcKind) : bcKind k.word = some k := by
  cases k <;> decide

theorem BcKind.word_lt (k : BcKind) : k.word < 256 ^ 4 := by
  cases k <;> decide

theorem getUser_of_holds {n v : ℕ} (h : Holds m ptr (bytesLE n v)) (hv : v < 256 ^ n) :
    getUser m ptr n = .ok v := by
  simp [getUser, h.fetchLE hv]

theorem getUser32_of_holds {v : UInt32} (h : Holds m ptr (bytesLE 4 v.toNat)) :
    getUser32 m ptr = .ok v := by
  have hv : v.toNat < 256 ^ 4 := v.toNat_lt
  simp [getUser32, getUser_of_holds h hv, Except.map]

theorem getUser64_of_holds {v : UInt64} (h : Holds m ptr (bytesLE 8 v.toNat)) :
    getUser64 m ptr = .ok v := by
  have hv : v.toNat < 256 ^ 8 := v.toNat_lt
  simp [getUser64, getUser_of_holds h hv, Except.map]

theorem getTransaction_of_holds {tr : RawTransaction} (h : Holds m ptr tr.bytes) :
    getTransaction m ptr = .ok tr := by
  simp only [RawTransaction.bytes, holds_append, List.length_append, length_bytesLE] at h
  obtain ⟨⟨⟨⟨⟨⟨⟨⟨⟨h₀, h₁⟩, h₂⟩, h₃⟩, h₄⟩, h₅⟩, h₆⟩, h₇⟩, h₈⟩, h₉⟩ := h
  simp [getTransaction, getUser64_of_holds h₀, getUser64_of_holds h₁, getUser32_of_holds h₂,
    getUser32_of_holds h₃, getUser32_of_holds h₄, getUser32_of_holds h₅, getUser64_of_holds h₆,
    getUser64_of_holds h₇, getUser64_of_holds h₈, getUser64_of_holds h₉, bind, Except.bind, pure,
    Except.pure]

theorem readArgs_of_holds {c : WireCommand} (h : Holds m ptr c.args) :
    readArgs m ptr c.kind = .ok (c, ptr + c.args.length) := by
  cases c with
  | increfs target | acquire target | release target | decrefs target =>
      simp [readArgs, WireCommand.kind, targetArgs, getUser32_of_holds h, WireCommand.args, bind,
        Except.bind, pure, Except.pure]
  | freeBuffer x | deadBinderDone x =>
      simp [readArgs, WireCommand.kind, pointerArgs, getUser64_of_holds h, WireCommand.args, bind,
        Except.bind, pure, Except.pure]
  | increfsDone x cookie | acquireDone x cookie =>
      obtain ⟨hx, hcookie⟩ := holds_append.mp h
      rw [length_bytesLE] at hcookie
      simp [readArgs, WireCommand.kind, pointerCookieArgs, getUser64_of_holds hx,
        getUser64_of_holds hcookie, WireCommand.args, bind, Except.bind, pure, Except.pure]
  | requestDeathNotification target cookie | clearDeathNotification target cookie =>
      obtain ⟨htarget, hcookie⟩ := holds_append.mp h
      rw [length_bytesLE] at hcookie
      simp [readArgs, WireCommand.kind, targetCookieArgs, getUser32_of_holds htarget,
        getUser64_of_holds hcookie, WireCommand.args, bind, Except.bind, pure, Except.pure]
  | transaction tr | reply tr =>
      simp [readArgs, WireCommand.kind, transactionArgs, getTransaction_of_holds h,
        WireCommand.args, RawTransaction.bytes, bind, Except.bind, pure, Except.pure]
  | registerLooper | enterLooper | exitLooper => rfl

theorem readCommand_of_holds {c : WireCommand} (h : Holds m ptr c.bytes) :
    readCommand m ptr = .ok (c, ptr + c.bytes.length) := by
  obtain ⟨hword, hargs⟩ := holds_append.mp h
  rw [length_bytesLE] at hargs
  have hlen : ptr + 4 + c.args.length = ptr + c.bytes.length := by
    simp [WireCommand.bytes, Nat.add_assoc]
  simp [readCommand, getUser_of_holds hword c.kind.word_lt, bcKind_word, readArgs_of_holds hargs,
    hlen, bind, Except.bind]

/-! ### Commands that cannot be read everywhere -/

def Reads {α : Type} (x : Except WriteError α) (a : α) : Prop := x = .ok a ∨ x = .error .efault

theorem Reads.bind {α β : Type} {x : Except WriteError α} {f : α → Except WriteError β} {a : α}
    {b : β} (hx : Reads x a) (hf : Reads (f a) b) : Reads (x >>= f) b := by
  rcases hx with rfl | rfl
  · exact hf
  · exact .inr rfl

theorem getUser_reads {n v : ℕ} (h : MayHold m ptr (bytesLE n v)) (hv : v < 256 ^ n) :
    Reads (getUser m ptr n) v := by
  rcases h.fetchLE hv with hnone | hsome
  · exact .inr (by simp [getUser, hnone])
  · exact .inl (by simp [getUser, hsome])

theorem getUser32_reads {v : UInt32} (h : MayHold m ptr (bytesLE 4 v.toNat)) :
    Reads (getUser32 m ptr) v := by
  have hv : v.toNat < 256 ^ 4 := v.toNat_lt
  rcases getUser_reads h hv with hok | herr
  · exact .inl (by simp [getUser32, hok, Except.map])
  · exact .inr (by simp [getUser32, herr, Except.map])

theorem getUser64_reads {v : UInt64} (h : MayHold m ptr (bytesLE 8 v.toNat)) :
    Reads (getUser64 m ptr) v := by
  have hv : v.toNat < 256 ^ 8 := v.toNat_lt
  rcases getUser_reads h hv with hok | herr
  · exact .inl (by simp [getUser64, hok, Except.map])
  · exact .inr (by simp [getUser64, herr, Except.map])

theorem getTransaction_reads {tr : RawTransaction} (h : MayHold m ptr tr.bytes) :
    Reads (getTransaction m ptr) tr := by
  simp only [RawTransaction.bytes, mayHold_append, List.length_append, length_bytesLE] at h
  obtain ⟨⟨⟨⟨⟨⟨⟨⟨⟨h₀, h₁⟩, h₂⟩, h₃⟩, h₄⟩, h₅⟩, h₆⟩, h₇⟩, h₈⟩, h₉⟩ := h
  exact (getUser64_reads h₀).bind <| (getUser64_reads h₁).bind <| (getUser32_reads h₂).bind <|
    (getUser32_reads h₃).bind <| (getUser32_reads h₄).bind <| (getUser32_reads h₅).bind <|
    (getUser64_reads h₆).bind <| (getUser64_reads h₇).bind <| (getUser64_reads h₈).bind <|
    (getUser64_reads h₉).bind <| .inl rfl

theorem targetArgs_reads {f : UInt32 → WireCommand} {target : UInt32}
    (h : MayHold m ptr (bytesLE 4 target.toNat)) :
    Reads (targetArgs m ptr f) (f target, ptr + 4) := (getUser32_reads h).bind (.inl rfl)

theorem pointerArgs_reads {f : UInt64 → WireCommand} {x : UInt64}
    (h : MayHold m ptr (bytesLE 8 x.toNat)) : Reads (pointerArgs m ptr f) (f x, ptr + 8) :=
  (getUser64_reads h).bind (.inl rfl)

theorem pointerCookieArgs_reads {f : UInt64 → UInt64 → WireCommand} {x cookie : UInt64}
    (h : MayHold m ptr (bytesLE 8 x.toNat ++ bytesLE 8 cookie.toNat)) :
    Reads (pointerCookieArgs m ptr f) (f x cookie, ptr + 8 + 8) := by
  obtain ⟨hx, hcookie⟩ := mayHold_append.mp h
  rw [length_bytesLE] at hcookie
  exact (getUser64_reads hx).bind ((getUser64_reads hcookie).bind (.inl rfl))

theorem targetCookieArgs_reads {f : UInt32 → UInt64 → WireCommand} {target : UInt32}
    {cookie : UInt64} (h : MayHold m ptr (bytesLE 4 target.toNat ++ bytesLE 8 cookie.toNat)) :
    Reads (targetCookieArgs m ptr f) (f target cookie, ptr + 4 + 8) := by
  obtain ⟨htarget, hcookie⟩ := mayHold_append.mp h
  rw [length_bytesLE] at hcookie
  exact (getUser32_reads htarget).bind ((getUser64_reads hcookie).bind (.inl rfl))

theorem transactionArgs_reads {f : RawTransaction → WireCommand} {tr : RawTransaction}
    (h : MayHold m ptr tr.bytes) : Reads (transactionArgs m ptr f) (f tr, ptr + 64) :=
  (getTransaction_reads h).bind (.inl rfl)

theorem readArgs_reads {c : WireCommand} (h : MayHold m ptr c.args) :
    Reads (readArgs m ptr c.kind) (c, ptr + c.args.length) := by
  cases c with
  | increfs target | acquire target | release target | decrefs target =>
      exact targetArgs_reads h
  | freeBuffer x | deadBinderDone x => exact pointerArgs_reads h
  | increfsDone x cookie | acquireDone x cookie =>
      exact pointerCookieArgs_reads h
  | requestDeathNotification target cookie | clearDeathNotification target cookie =>
      exact targetCookieArgs_reads h
  | transaction tr | reply tr =>
      exact transactionArgs_reads h
  | registerLooper | enterLooper | exitLooper => exact .inl rfl

theorem readCommand_reads {c : WireCommand} (h : MayHold m ptr c.bytes) :
    Reads (readCommand m ptr) (c, ptr + c.bytes.length) := by
  obtain ⟨hword, hargs⟩ := mayHold_append.mp h
  rw [length_bytesLE] at hargs
  have hlen : ptr + 4 + c.args.length = ptr + c.bytes.length := by
    simp [WireCommand.bytes, Nat.add_assoc]
  refine (getUser_reads hword c.kind.word_lt).bind ?_
  simpa [bcKind_word, hlen] using readArgs_reads hargs

end Bytes

/-! ### Streams of commands -/

def streamBytes (cs : List WireCommand) : List UInt8 := cs.flatMap WireCommand.bytes

@[simp] theorem streamBytes_nil : streamBytes [] = [] := rfl

@[simp] theorem streamBytes_cons (c : WireCommand) (cs : List WireCommand) :
    streamBytes (c :: cs) = c.bytes ++ streamBytes cs := rfl

@[simp] theorem streamBytes_append (cs ds : List WireCommand) :
    streamBytes (cs ++ ds) = streamBytes cs ++ streamBytes ds := by
  simp [streamBytes]

theorem WireCommand.four_le_length (c : WireCommand) : 4 ≤ c.bytes.length := by
  simp [WireCommand.bytes]

/-- Execute commands one after another until the thread has an error code; the commands
that are left are returned with the state. -/
def Kernel.run {D : Type} (K : Kernel D) : D → List WireCommand → D × List WireCommand
  | d, [] => (d, [])
  | d, c :: cs => if K.stopped d then (d, c :: cs) else K.run (K.exec d c) cs

section Streams

variable {D : Type} {K : Kernel D} {m : UserMemory}

theorem Kernel.run_of_never_stopped (hK : ∀ d, K.stopped d = false) (d : D)
    (cs : List WireCommand) : K.run d cs = (cs.foldl K.exec d, []) := by
  induction cs generalizing d with
  | nil => rfl
  | cons c cs ih => simp [Kernel.run, hK, ih]

/-- On a stream of commands that is in memory the loop executes one command after the
other. -/
theorem writeLoop_of_holds {cs : List WireCommand} {size fuel ptr : ℕ} {d : D}
    (h : Holds m ptr (streamBytes cs)) (hsize : size = ptr + (streamBytes cs).length)
    (hfuel : size - ptr ≤ fuel) :
    writeLoop K m size fuel d ptr =
      (none, (K.run d cs).1, size - (streamBytes (K.run d cs).2).length) := by
  induction cs generalizing fuel ptr d with
  | nil =>
      obtain rfl : size = ptr := by simpa using hsize
      cases fuel with
      | zero => simp [writeLoop, Kernel.run]
      | succ fuel => simp [writeLoop, Kernel.run]
  | cons c cs ih =>
      have hlen := c.four_le_length
      rw [streamBytes_cons, List.length_append] at hsize
      obtain ⟨hc, hcs⟩ := holds_append.mp h
      obtain ⟨fuel, rfl⟩ : ∃ k, fuel = k + 1 := ⟨fuel - 1, by omega⟩
      cases hstop : K.stopped d with
      | true =>
          have : size - (streamBytes (c :: cs)).length = ptr := by
            rw [streamBytes_cons, List.length_append]
            omega
          simp only [writeLoop, Kernel.run, hstop, Bool.true_eq_false, and_false, ↓reduceIte, this]
      | false =>
          have hlt : ptr < size := by omega
          simp only [writeLoop, Kernel.run, hstop, hlt, and_self, ↓reduceIte,
            readCommand_of_holds hc, Bool.false_eq_true]
          exact ih hcs (by omega) (by omega)

theorem threadWrite_of_holds {cs : List WireCommand} {d : D} (h : Holds m 0 (streamBytes cs)) :
    threadWrite K m (streamBytes cs).length d 0 =
      (none, (K.run d cs).1,
        (streamBytes cs).length - (streamBytes (K.run d cs).2).length) :=
  writeLoop_of_holds h (by simp) le_rfl

end Streams

/-! ### The driver as a kernel -/

/-- What the kernel and the memory of the caller decide about one command. -/
structure CommandEnv where
  alloc : Bool
  txn : TxnEnv
  data : Data
  offsets : ℕ → ℕ

def RawTransaction.toData (tr : RawTransaction) (e : CommandEnv) : TransactionData where
  handle := tr.handle.toNat
  code := tr.code.toNat
  flags := tr.flags.toNat
  dataSize := tr.dataSize.toNat
  offsetsSize := tr.offsetsSize.toNat
  data := e.data
  offsets := e.offsets

def WireCommand.toCommand (e : CommandEnv) : WireCommand → Command
  | .increfs target => .increfs target.toNat e.alloc
  | .acquire target => .acquire target.toNat e.alloc
  | .release target => .release target.toNat
  | .decrefs target => .decrefs target.toNat
  | .increfsDone x cookie => .increfsDone x.toNat cookie.toNat
  | .acquireDone x cookie => .acquireDone x.toNat cookie.toNat
  | .freeBuffer x => .freeBuffer x.toNat
  | .transaction tr => .transaction (tr.toData e) e.txn
  | .reply tr => .reply (tr.toData e) e.txn
  | .registerLooper => .registerLooper
  | .enterLooper => .enterLooper
  | .exitLooper => .exitLooper
  | .requestDeathNotification target cookie =>
      .requestDeathNotification target.toNat cookie.toNat e.alloc
  | .clearDeathNotification target cookie => .clearDeathNotification target.toNat cookie.toNat
  | .deadBinderDone cookie => .deadBinderDone cookie.toNat

/-- The commands of a stream, the first decided by `env i`. -/
def toCommands (env : ℕ → CommandEnv) : ℕ → List WireCommand → List Command
  | _, [] => []
  | i, c :: cs => c.toCommand (env i) :: toCommands env (i + 1) cs

/-- The driver, with the number of commands it has executed. -/
def driverKernel (L : Layout) (p : ProcId) (th : ThreadId) (env : ℕ → CommandEnv) :
    Kernel (Except Fault (State × ℕ)) where
  exec := fun d c => d.bind fun x =>
    (execCommand L x.1 p th (c.toCommand (env x.2))).map fun s => (s, x.2 + 1)
  stopped := fun
    | .ok x => (x.1.threads th).all fun thr => thr.returnError ≠ .ok
    | .error _ => true

theorem WireCommand.toCommand_isInvalid (c : WireCommand) (e : CommandEnv) :
    (c.toCommand e).isInvalid = false := by
  cases c <;> rfl

/-- The loop over the stream is the loop over the commands that are read from it. -/
theorem driverKernel_run {L : Layout} {p : ProcId} {th : ThreadId} {env : ℕ → CommandEnv}
    {cs : List WireCommand} {s s' : State} {i : ℕ} {ok : Bool}
    (hrun : binderThreadWrite L p th s (toCommands env i cs) = .ok (ok, s')) :
    ok = true ∧ ∃ j, ((driverKernel L p th env).run (.ok (s, i)) cs).1 = .ok (s', j) := by
  induction cs generalizing s i with
  | nil =>
      cases hrun
      exact ⟨rfl, i, rfl⟩
  | cons c cs ih =>
      simp only [toCommands, binderThreadWrite, except_bind_eq_ok, deref_eq_ok] at hrun
      obtain ⟨thr, hthr, hrun⟩ := hrun
      split at hrun
      · rename_i herr
        have hstop : (driverKernel L p th env).stopped (.ok (s, i)) = true := by
          simpa [driverKernel, hthr] using herr
        cases hrun
        exact ⟨rfl, i, by simp [Kernel.run, hstop]⟩
      · rename_i herr
        have hstop : (driverKernel L p th env).stopped (.ok (s, i)) = false := by
          simpa [driverKernel, hthr] using herr
        rw [c.toCommand_isInvalid] at hrun
        simp only [Bool.false_eq_true, ↓reduceIte, except_bind_eq_ok] at hrun
        obtain ⟨s₁, hexec, hrun⟩ := hrun
        have hstep : (driverKernel L p th env).exec (.ok (s, i)) c = .ok (s₁, i + 1) := by
          simp [driverKernel, Except.bind, hexec, Except.map]
        simpa [Kernel.run, hstop, hstep] using ih hrun

end Driver

end BinderForLinux
