import BinderForLinux.Ipc.In
import BinderForLinux.ServiceManager.Client

/-!
# The loop of the service manager

`binder_loop` reads return commands from the driver and `binder_parse` handles them one
after the other. What it does not handle, and an answer to a call that it never made,
ends the loop. A death is handled by the function whose address the driver was given.
-/

namespace BinderForLinux

namespace ServiceManager

open Library

open Driver (BrKind RawTransaction ReturnCommand returnBytes)

/-! ### What is handled -/

/-- What the service manager writes to the driver, in its order. `binder_send_reply` frees the
buffer of the transaction that it answers. -/
inductive Written
  | command (c : Command)
  | reply (buffer : ℕ) (answer : Answer)

/-- The service manager between two commands. -/
structure Manager where
  svclist : List SvcInfo
  written : List Written

def Manager.start : Manager := ⟨[], []⟩

/-- What the code does not decide: what is in the mapped memory, what `malloc` returns in the
transaction whose data is at a place in the read buffer, and what was on the stack. -/
structure Outside where
  data : ℕ → ℕ → UInt8
  offsets : ℕ → ℕ → ℕ
  malloc : ℕ → Option ℕ
  io : BinderIo
  rdata : ℕ → UInt8

/-- A function is called through an address at which there is none. -/
inductive Crash
  | wildDeath (cookie : ℕ)
  deriving DecidableEq, Repr

/-- The transaction, with what is in the mapped memory. -/
def Outside.txn (e : Outside) (tr : RawTransaction) : Txn where
  target := tr.target.toNat
  code := tr.code.toNat
  senderPid := tr.senderPid.toNat
  senderEuid := tr.senderEuid.toNat
  dataSize := tr.dataSize.toNat
  offsetsSize := tr.offsetsSize.toNat
  buffer := e.data tr.buffer.toNat
  offsets := e.offsets tr.offsets.toNat

/-- The handler at work on a transaction: the status, and what it leaves. -/
def Manager.handled (mgr : Manager) (txn : Txn) (malloc : Option ℕ) (io : BinderIo)
    (rdata : ℕ → UInt8) : ℤ × Handling :=
  svcmgrHandler txn malloc ⟨mgr.svclist, txn.msg, .begin io rdata 256 4, []⟩

/-- The case `BR_TRANSACTION` of `binder_parse`. -/
def Manager.transact (mgr : Manager) (txn : Txn) (buffer : ℕ) (malloc : Option ℕ)
    (io : BinderIo) (rdata : ℕ → UInt8) : Manager :=
  let r := mgr.handled txn malloc io rdata
  { svclist := r.2.svclist
    written := mgr.written ++ r.2.sent.map .command ++
      [.reply buffer (binderSendReply r.2.reply r.1)] }

/-- The case `BR_DEAD_BINDER`: the cookie is the address of a `struct binder_death`, and
`svcinfo_death` is called for the service that it is part of. -/
def Manager.die (mgr : Manager) (cookie : ℕ) : Except Crash Manager :=
  match mgr.svclist.find? fun si => si.addr = cookie with
  | none => .error (.wildDeath cookie)
  | some si =>
      let h := svcinfoDeath ⟨mgr.svclist, ⟨.zero, []⟩, .begin .zero (fun _ => 0) 0 0, []⟩ si
      .ok { svclist := h.svclist, written := mgr.written ++ h.sent.map .command }

/-! ### `binder_parse` -/

/-- A call of `binder_parse`: the value that it will return, and what was handled. -/
structure Parse where
  r : ℤ
  mgr : Manager

/-- How `binder_parse` goes on after a command. -/
inductive Next
  | goOn (p : Parse) (ptr : ℕ)
  | leave (p : Parse)

/-- The fields of the `struct binder_transaction_data` at `ptr`. -/
def rawAt (m : ℕ → UInt8) (ptr : ℕ) : RawTransaction where
  target := UInt64.ofNat (getLE m ptr 8)
  cookie := UInt64.ofNat (getLE m (ptr + 8) 8)
  code := UInt32.ofNat (getLE m (ptr + 16) 4)
  flags := UInt32.ofNat (getLE m (ptr + 20) 4)
  senderPid := UInt32.ofNat (getLE m (ptr + 24) 4)
  senderEuid := UInt32.ofNat (getLE m (ptr + 28) 4)
  dataSize := UInt64.ofNat (getLE m (ptr + 32) 8)
  offsetsSize := UInt64.ofNat (getLE m (ptr + 40) 8)
  buffer := UInt64.ofNat (getLE m (ptr + 48) 8)
  offsets := UInt64.ofNat (getLE m (ptr + 56) 8)

/-- The transaction is handled by `svcmgr_handler` and answered. -/
def Parse.transact (p : Parse) (e : Outside) (ptr : ℕ) (tr : RawTransaction) : Parse :=
  { p with mgr := p.mgr.transact (e.txn tr) tr.buffer.toNat (e.malloc ptr) e.io e.rdata }

/-- The `switch` of `binder_parse`, as `binder_loop` calls it; `ptr` is behind the word. Where a
command is longer than the bytes that are left, `ptr` passes `stop` and the C difference wraps;
the driver writes no such bytes. -/
def parseCommand (e : Outside) (m : ℕ → UInt8) (stop ptr : ℕ) (p : Parse) :
    Option BrKind → Except Crash Next
  | some .noop | some .transactionComplete => .ok (.goOn p ptr)
  | some .increfs | some .acquire | some .release | some .decrefs => .ok (.goOn p (ptr + 16))
  | some .transaction =>
      if stop - ptr < 64 then .ok (.leave { p with r := -1 })
      else .ok (.goOn (p.transact e ptr (rawAt m ptr)) (ptr + 64))
  | some .reply =>
      if stop - ptr < 64 then .ok (.leave { p with r := -1 })
      else .ok (.goOn { p with r := 0 } (ptr + 64))
  | some .deadBinder => do
      let mgr ← p.mgr.die (getLE m ptr 8)
      .ok (.goOn { p with mgr := mgr } (ptr + 8))
  | some .failedReply | some .deadReply => .ok (.goOn { p with r := -1 } ptr)
  | _ => .ok (.leave { p with r := -1 })

/-- The loop of `binder_parse`. Each round takes a word at least, so that the fuel lasts as long
as it is no less than the bytes that are left. -/
def parseLoop (e : Outside) (m : ℕ → UInt8) (stop : ℕ) :
    ℕ → ℕ → Parse → Except Crash Parse
  | 0, _, p => .ok p
  | fuel + 1, ptr, p =>
      if ptr < stop then do
        match ← parseCommand e m stop (ptr + 4) p (Ipc.brKind (getLE m ptr 4)) with
        | .goOn p ptr => parseLoop e m stop fuel ptr p
        | .leave p => .ok p
      else .ok p

def binderParse (e : Outside) (m : ℕ → UInt8) (size : ℕ) (mgr : Manager) : Except Crash Parse :=
  parseLoop e m size size 0 ⟨1, mgr⟩

/-! ### What the commands ask for -/

/-- What is to be done at a command of the driver whose arguments are at `ptr`; the flag is false
when nothing after it is looked at. -/
def Parse.obey (p : Parse) (e : Outside) (ptr : ℕ) : ReturnCommand → Except Crash (Bool × Parse)
  | .noop | .transactionComplete | .errorCode .transactionComplete => .ok (true, p)
  | .increfs _ _ | .acquire _ _ | .release _ _ | .decrefs _ _ => .ok (true, p)
  | .transaction tr => .ok (true, p.transact e ptr tr.raw)
  | .reply _ => .ok (true, { p with r := 0 })
  | .deadBinder cookie => do
      let mgr ← p.mgr.die (UInt64.ofNat cookie).toNat
      .ok (true, { p with mgr := mgr })
  | .errorCode .failedReply | .errorCode .deadReply => .ok (true, { p with r := -1 })
  | .spawnLooper | .clearDeathNotificationDone _ | .errorCode .ok | .errorCode .error =>
      .ok (false, { p with r := -1 })

/-- The commands one after the other, the first of them at `ptr`. -/
def Parse.obeyAll (e : Outside) : ℕ → List ReturnCommand → Parse → Except Crash Parse
  | _, [], p => .ok p
  | ptr, c :: out, p => do
      let r ← p.obey e (ptr + 4) c
      if r.1 then obeyAll e (ptr + c.bytes.length) out r.2 else .ok r.2

section Parsing

variable {e : Outside} {m : ℕ → UInt8} {stop ptr : ℕ} {p : Parse} {tr : RawTransaction}
  {c : ReturnCommand} {out : List ReturnCommand}

theorem ofNat_getLE64 {x : UInt64} (h : Carries m ptr (bytesLE 8 x.toNat)) :
    UInt64.ofNat (getLE m ptr 8) = x := by
  rw [h.getLE x.toNat_lt, UInt64.ofNat_toNat]

theorem ofNat_getLE32 {x : UInt32} (h : Carries m ptr (bytesLE 4 x.toNat)) :
    UInt32.ofNat (getLE m ptr 4) = x := by
  rw [h.getLE x.toNat_lt, UInt32.ofNat_toNat]

theorem rawAt_of_carries (h : Carries m ptr tr.bytes) : rawAt m ptr = tr := by
  simp only [RawTransaction.bytes, carries_append, List.length_append, length_bytesLE,
    ← Nat.add_assoc] at h
  obtain ⟨⟨⟨⟨⟨⟨⟨⟨⟨h₁, h₂⟩, h₃⟩, h₄⟩, h₅⟩, h₆⟩, h₇⟩, h₈⟩, h₉⟩, h₁₀⟩ := h
  simp only [rawAt, ofNat_getLE64 h₁, ofNat_getLE64 h₂, ofNat_getLE32 h₃, ofNat_getLE32 h₄,
    ofNat_getLE32 h₅, ofNat_getLE32 h₆, ofNat_getLE64 h₇, ofNat_getLE64 h₈, ofNat_getLE64 h₉,
    ofNat_getLE64 h₁₀]

/-- A command of which all bytes are there is obeyed, and the next one begins behind it. -/
theorem parseCommand_of_carries (h : Carries m ptr c.args) (hstop : ptr + c.args.length ≤ stop) :
    parseCommand e m stop ptr p (some c.kind) = (p.obey e ptr c).map fun r =>
      if r.1 then .goOn r.2 (ptr + c.args.length) else .leave r.2 := by
  cases c with
  | noop | spawnLooper | transactionComplete => rfl
  | errorCode e => cases e <;> rfl
  | increfs | acquire | release | decrefs => rfl
  | clearDeathNotificationDone => rfl
  | transaction tr =>
      have hlen : tr.raw.bytes.length = 64 := by simp [RawTransaction.bytes]
      simp only [ReturnCommand.args, hlen] at hstop
      simp only [parseCommand, ReturnCommand.kind, ReturnCommand.args, Parse.obey, hlen,
        rawAt_of_carries h, Except.map]
      rw [if_neg (by omega)]
      rfl
  | reply tr =>
      have hlen : tr.raw.bytes.length = 64 := by simp [RawTransaction.bytes]
      simp only [ReturnCommand.args, hlen] at hstop
      simp only [parseCommand, ReturnCommand.kind, ReturnCommand.args, Parse.obey, hlen, Except.map]
      rw [if_neg (by omega)]
      rfl
  | deadBinder cookie =>
      have hword : getLE m ptr 8 = (UInt64.ofNat cookie).toNat :=
        h.getLE (UInt64.ofNat cookie).toNat_lt
      simp only [parseCommand, ReturnCommand.kind, ReturnCommand.args, Parse.obey, hword,
        length_bytesLE]
      cases p.mgr.die (UInt64.ofNat cookie).toNat <;> rfl

theorem parseLoop_of_carries {fuel : ℕ} (h : Carries m ptr (returnBytes out))
    (hstop : ptr + (returnBytes out).length = stop) (hfuel : out.length ≤ fuel) :
    parseLoop e m stop fuel ptr p = p.obeyAll e ptr out := by
  induction out generalizing ptr p fuel with
  | nil =>
      have hptr : ¬ ptr < stop := by
        simp only [returnBytes, List.flatMap_nil, List.length_nil] at hstop
        omega
      cases fuel with
      | zero => rfl
      | succ fuel => simp only [parseLoop, hptr, ↓reduceIte, Parse.obeyAll]
  | cons c out ih =>
      obtain ⟨fuel, rfl⟩ : ∃ k, fuel = k + 1 := ⟨fuel - 1, by simp at hfuel; omega⟩
      have hsplit : returnBytes (c :: out) = c.bytes ++ returnBytes out := rfl
      rw [hsplit] at h hstop
      obtain ⟨hc, hrest⟩ := carries_append.mp h
      obtain ⟨hword, hargs⟩ := carries_append.mp hc
      have hlen : c.bytes.length = 4 + c.args.length := by simp [ReturnCommand.bytes]
      rw [List.length_append] at hstop
      rw [length_bytesLE] at hargs
      have hkind : Ipc.brKind (getLE m ptr 4) = some c.kind := by
        rw [hword.getLE (Ipc.BrKind.word_lt c.kind), Ipc.brKind_word]
      have hlt : ptr < stop := by omega
      have hcommand := parseCommand_of_carries (e := e) (p := p) hargs
        (show ptr + 4 + c.args.length ≤ stop by omega)
      simp only [parseLoop, hlt, ↓reduceIte, hkind, hcommand, Parse.obeyAll]
      cases hobey : p.obey e (ptr + 4) c with
      | error fault => rfl
      | ok r =>
          cases hr : r.1 with
          | false => simp [Except.map, bind, Except.bind, hr]
          | true =>
              have hnext : ptr + 4 + c.args.length = ptr + c.bytes.length := by omega
              simp only [Except.map, bind, Except.bind, hr, ↓reduceIte, hnext]
              exact ih hrest (by omega) (by simpa using hfuel)

/-- What the driver stores is handled command by command, whatever comes behind it. -/
theorem binderParse_of_carries {mgr : Manager} (h : Carries m 0 (returnBytes out)) :
    binderParse e m (returnBytes out).length mgr = Parse.obeyAll e 0 out ⟨1, mgr⟩ :=
  parseLoop_of_carries h (by omega) (Ipc.length_le_returnBytes out)

end Parsing

end ServiceManager

end BinderForLinux
