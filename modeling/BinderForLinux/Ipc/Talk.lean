import BinderForLinux.Driver.Parts
import BinderForLinux.Ipc.Out

/-!
# Talking with the driver

`talkWithDriver` hands the contents of `mOut` to the driver and drops them when the driver has
consumed all of them. The driver may stop after any command, and `Parcel::remove`, which is to
drop a part, does nothing; an ioctl may fail after commands were executed. In both cases `mOut`
still holds commands that the driver has consumed, and they are sent again.
-/

namespace BinderForLinux

namespace Ipc

open Library Driver

/-! ### The ioctl -/

/-- Why an ioctl fails. -/
inductive Errno
  | eintr
  | efault
  | einval
  | ebadf
  | other (n : ℕ)
  deriving DecidableEq, Repr

def WriteError.errno : WriteError → Errno
  | .efault => .efault
  | .einval => .einval

/-- The two fields of `struct binder_write_read` that the driver writes. -/
structure Consumed where
  write : ℕ
  read : ℕ

/-- What one ioctl meets: a failure before it turns to the commands, which bytes of `mOut`
can be read, what `binder_thread_read` returns and does, whether `struct binder_write_read`
can be copied back, and whether the driver was closed meanwhile. -/
structure IoctlEnv (D : Type) where
  entry : Option Errno
  readable : ℕ → Bool
  read : D → Option Errno × ℕ × D
  copyBack : Bool
  closed : Bool

section Ioctl

variable {D : Type}

def IoctlEnv.memory (e : IoctlEnv D) (out : List UInt8) : UserMemory :=
  fun i => if e.readable i then out[i]? else none

/-- The last `copy_to_user`. -/
def IoctlEnv.finish (e : IoctlEnv D) (err : Option Errno) (d : D) (old new : Consumed) :
    Option Errno × D × Consumed :=
  if e.copyBack then (err, d, new) else (some .efault, d, old)

/-- `binder_ioctl_write_read` for a write buffer of `writeSize` bytes. -/
def ioctlWriteRead (K : Kernel D) (e : IoctlEnv D) (out : List UInt8) (writeSize readSize : ℕ)
    (d : D) (w : Consumed) : Option Errno × D × Consumed :=
  match e.entry with
  | some err => (some err, d, w)
  | none =>
      let r := if 0 < writeSize then threadWrite K (e.memory out) writeSize d w.write
        else (none, d, w.write)
      match r.1 with
      | some err => e.finish (some (WriteError.errno err)) r.2.1 w ⟨r.2.2, 0⟩
      | none =>
          let x := if 0 < readSize then e.read r.2.1 else (none, w.read, r.2.1)
          e.finish x.1 x.2.2 w ⟨r.2.2, x.2.1⟩

/-- The loop of `talkWithDriver`: the ioctl is made again when it was interrupted. -/
def ioctlLoop (K : Kernel D) (out : List UInt8) (writeSize readSize : ℕ) :
    List (IoctlEnv D) → D → Consumed → Option (Option Errno × D × Consumed)
  | [], _, _ => none
  | e :: es, d, w =>
      let r := ioctlWriteRead K e out writeSize readSize d w
      let err := if e.closed then some .ebadf else r.1
      if err = some .eintr then ioctlLoop K out writeSize readSize es r.2.1 r.2.2
      else some (err, r.2.1, r.2.2)

end Ioctl

/-! ### The thread -/

/-- The parcels of `IPCThreadState`, the calls of `Parcel::remove` so far, and the driver. -/
structure IpcThread (D : Type) where
  out : List UInt8
  inPos : ℕ
  inSize : ℕ
  inCapacity : ℕ
  removes : List (ℕ × ℕ)
  driver : D

/-- Why `talkWithDriver` does not return: the ioctl has not returned yet. -/
inductive TalkFault
  | blocked
  deriving DecidableEq, Repr

section Talk

variable {D : Type}

def IpcThread.needRead (s : IpcThread D) : Bool := s.inPos ≥ s.inSize

def IpcThread.outAvail (s : IpcThread D) (doReceive : Bool) : ℕ :=
  if !doReceive || s.needRead then s.out.length else 0

def IpcThread.readSize (s : IpcThread D) (doReceive : Bool) : ℕ :=
  if doReceive && s.needRead then s.inCapacity else 0

/-- `Parcel::remove` on `mOut`. It is not implemented: `LOG_ALWAYS_FATAL` expands to nothing,
and the data stay as they are. -/
def IpcThread.remove (s : IpcThread D) (start amt : ℕ) : IpcThread D :=
  { s with removes := s.removes ++ [(start, amt)] }

/-- `talkWithDriver`, with what its ioctls meet. `fd` is false when the driver is not
open. -/
def talkWithDriver (K : Kernel D) (s : IpcThread D) (fd doReceive : Bool)
    (es : List (IoctlEnv D)) : Except TalkFault (Option Errno × IpcThread D) :=
  if !fd then .ok (some .ebadf, s)
  else if s.outAvail doReceive = 0 ∧ s.readSize doReceive = 0 then .ok (none, s)
  else
    match ioctlLoop K s.out (s.outAvail doReceive) (s.readSize doReceive) es s.driver ⟨0, 0⟩ with
    | none => .error .blocked
    | some (some err, d, _) => .ok (some err, { s with driver := d })
    | some (none, d, w) =>
        let s := { s with driver := d }
        let s :=
          if 0 < w.write then
            if w.write < s.out.length then s.remove 0 w.write else { s with out := [] }
          else s
        .ok (none, if 0 < w.read then { s with inSize := w.read, inPos := 0 } else s)

end Talk

/-! ### Runs -/

/-- What a thread writes to `mOut`: a command of the driver, or the answer to
`BR_ATTEMPT_ACQUIRE`, which the driver does not know. -/
inductive Sent
  | command (c : WireCommand)
  | acquireResult (success : UInt32)
  deriving DecidableEq

def Sent.bytes : Sent → List UInt8
  | .command c => c.bytes
  | .acquireResult success => bytesLE 4 BcKind.acquireResult.word ++ bytesLE 4 success.toNat

def sentBytes (cs : List Sent) : List UInt8 := cs.flatMap Sent.bytes

section Logged

variable {D : Type}

def logged (K : Kernel D) : Kernel (D × List WireCommand) where
  exec := fun x c => (K.exec x.1 c, x.2 ++ [c])
  stopped := fun x => K.stopped x.1

def IoctlEnv.logged (e : IoctlEnv D) : IoctlEnv (D × List WireCommand) :=
  { entry := e.entry
    readable := e.readable
    read := fun x => ((e.read x.1).1, (e.read x.1).2.1, (e.read x.1).2.2, x.2)
    copyBack := e.copyBack
    closed := e.closed }

/-- A thread and the driver, with the commands that were written and executed so far. -/
structure TalkState (D : Type) where
  thread : IpcThread (D × List WireCommand)
  written : List Sent

def TalkState.executed (s : TalkState D) : List WireCommand := s.thread.driver.2

inductive TalkAct (D : Type)
  | write (c : Sent)
  | read (pos : ℕ)
  | talk (fd doReceive : Bool) (es : List (IoctlEnv D))

def TalkState.init (capacity : ℕ) (d : D) : TalkState D where
  thread :=
    { out := [], inPos := 0, inSize := 0, inCapacity := capacity, removes := [], driver := (d, []) }
  written := []

def talkStep (K : Kernel D) (s : TalkState D) : TalkAct D → Except TalkFault (TalkState D)
  | .write c => .ok
      { thread := { s.thread with out := s.thread.out ++ c.bytes }, written := s.written ++ [c] }
  | .read pos => .ok { s with thread := { s.thread with inPos := pos } }
  | .talk fd doReceive es =>
      (talkWithDriver (logged K) s.thread fd doReceive (es.map IoctlEnv.logged)).map fun r =>
        { s with thread := r.2 }

/-- `mOut` holds exactly the commands that were written and not executed. -/
def InStep (s : TalkState D) : Prop :=
  ∃ pending, s.thread.out = sentBytes pending ∧
    s.written = s.executed.map Sent.command ++ pending

/-- The thread is in step, and `Parcel::remove` was not called. -/
def Exact (s : TalkState D) : Prop := InStep s ∧ s.thread.removes = []

/-- The driver's answer to the ioctls of one `talkWithDriver`. -/
def answer (K : Kernel D) (s : TalkState D) (doReceive : Bool) (es : List (IoctlEnv D)) :
    Option (Option Errno × (D × List WireCommand) × Consumed) :=
  ioctlLoop (logged K) s.thread.out (s.thread.outAvail doReceive) (s.thread.readSize doReceive)
    (es.map IoctlEnv.logged) s.thread.driver ⟨0, 0⟩

/-- The driver executes none of the commands in `mOut`, or it executes all of them and
the ioctl succeeds. -/
def Whole (K : Kernel D) (s : TalkState D) : TalkAct D → Prop
  | .talk fd doReceive es => fd = true → ∀ r, answer K s doReceive es = some r →
      r.2.1.2 = s.executed ∨ r.1 = none ∧ r.2.1.2.map Sent.command = s.written
  | _ => True

end Logged

section Streams

variable {D : Type} {K : Kernel D}

@[simp] theorem sentBytes_cons (c : Sent) (cs : List Sent) :
    sentBytes (c :: cs) = c.bytes ++ sentBytes cs := rfl

@[simp] theorem sentBytes_append (cs ds : List Sent) :
    sentBytes (cs ++ ds) = sentBytes cs ++ sentBytes ds := by
  simp [sentBytes]

@[simp] theorem sentBytes_map (cs : List WireCommand) :
    sentBytes (cs.map Sent.command) = streamBytes cs := by
  induction cs with
  | nil => rfl
  | cons c cs ih =>
      rw [List.map_cons, sentBytes_cons, ih]
      rfl

theorem eq_nil_of_length_streamBytes {cs : List WireCommand} (h : (streamBytes cs).length = 0) :
    cs = [] := by
  cases cs with
  | nil => rfl
  | cons c cs =>
      have := c.four_le_length
      rw [streamBytes_cons, List.length_append] at h
      omega

theorem eq_nil_of_length_sentBytes {cs : List Sent} (h : (sentBytes cs).length = 0) : cs = [] := by
  cases cs with
  | nil => rfl
  | cons c cs =>
      exfalso
      rw [sentBytes_cons, List.length_append] at h
      cases c with
      | command c =>
          have := c.four_le_length
          simp only [Sent.bytes] at h
          omega
      | acquireResult success => simp [Sent.bytes] at h

theorem writeLoop_sent {m : UserMemory} {rest : List Sent} {size fuel ptr : ℕ} {d : D}
    (h : MayHold m ptr (sentBytes rest)) (hsize : size = ptr + (sentBytes rest).length) :
    ∃ cs rest' err, rest = cs.map Sent.command ++ rest' ∧
      writeLoop K m size fuel d ptr =
        (err, cs.foldl K.exec d, ptr + (streamBytes cs).length) := by
  induction rest generalizing fuel ptr d with
  | nil =>
      refine ⟨[], [], none, rfl, ?_⟩
      obtain rfl : size = ptr := by simpa [sentBytes] using hsize
      cases fuel <;> simp [writeLoop]
  | cons c rest ih =>
      have hstay : ∀ err, writeLoop K m size fuel d ptr = (err, d, ptr) →
          ∃ cs rest' err, c :: rest = cs.map Sent.command ++ rest' ∧
            writeLoop K m size fuel d ptr =
              (err, cs.foldl K.exec d, ptr + (streamBytes cs).length) :=
        fun err hrun => ⟨[], c :: rest, err, rfl, by simpa using hrun⟩
      obtain ⟨hc, hrest⟩ := mayHold_append.mp h
      cases fuel with
      | zero => exact hstay none rfl
      | succ fuel =>
          by_cases hcond : ptr < size ∧ K.stopped d = false
          · cases c with
            | command c =>
                rcases readCommand_reads hc with hread | hread
                · have hsize' : size = ptr + c.bytes.length + (sentBytes rest).length := by
                    rw [sentBytes_cons, List.length_append] at hsize
                    simp only [Sent.bytes] at hsize
                    omega
                  obtain ⟨cs, rest', err, hsplit, hrun⟩ :=
                    @ih fuel (ptr + c.bytes.length) (K.exec d c) hrest hsize'
                  refine ⟨c :: cs, rest', err, by simp [hsplit], ?_⟩
                  simp only [writeLoop, hcond, and_self, ↓reduceIte, hread]
                  rw [hrun, streamBytes_cons, List.length_append, List.foldl_cons, Nat.add_assoc]
                · exact hstay (some .efault) (by simp [writeLoop, hcond, hread])
            | acquireResult success =>
                obtain ⟨hword, -⟩ := mayHold_append.mp hc
                rcases getUser_reads hword (BcKind.word_lt _) with hread | hread
                · have herr : readCommand m ptr = .error .einval := by
                    simp [readCommand, hread, bcKind_word, readArgs, bind, Except.bind]
                  exact hstay (some .einval) (by simp [writeLoop, hcond, herr])
                · have herr : readCommand m ptr = .error .efault := by
                    simp [readCommand, hread, bind, Except.bind]
                  exact hstay (some .efault) (by simp [writeLoop, hcond, herr])
          · exact hstay none (by simp only [writeLoop, hcond, ↓reduceIte])

end Streams

section Answers

variable {D : Type} {K : Kernel D} {d : D} {log : List WireCommand}

theorem logged_foldl (cs : List WireCommand) :
    cs.foldl (logged K).exec (d, log) = (cs.foldl K.exec d, log ++ cs) := by
  induction cs generalizing d log with
  | nil => simp
  | cons c cs ih =>
      have hstep : (logged K).exec (d, log) c = (K.exec d c, log ++ [c]) := rfl
      rw [List.foldl_cons, List.foldl_cons, hstep, ih]
      simp

/-- What of `rest` an ioctl executed: `cs`. The `write_consumed` it leaves counts the
commands of `done` and `cs`, unless it could not be copied back. -/
structure Answered (log done : List WireCommand) (rest : List Sent) (err : Option Errno)
    (log' : List WireCommand) (write : ℕ) (cs : List WireCommand) : Prop where
  log : log' = log ++ cs
  rest : ∃ rest', rest = cs.map Sent.command ++ rest'
  write : write = (streamBytes (done ++ cs)).length ∨ err = some .efault

variable {e : IoctlEnv D} {done : List WireCommand} {rest : List Sent} {out : List UInt8}
  {writeSize readSize : ℕ} {w : Consumed}

theorem write_answered
    (hout : writeSize = 0 ∨ writeSize = out.length ∧
      out = sentBytes (done.map Sent.command ++ rest))
    (hw : w.write = (streamBytes done).length) :
    ∃ cs rest' err, rest = cs.map Sent.command ++ rest' ∧
      (if 0 < writeSize then threadWrite (logged K) (e.logged.memory out) writeSize (d, log) w.write
        else (none, (d, log), w.write)) =
          (err, (cs.foldl K.exec d, log ++ cs), (streamBytes (done ++ cs)).length) := by
  have hidle : writeSize = 0 → ∃ cs rest' err, rest = cs.map Sent.command ++ rest' ∧
      (if 0 < writeSize then threadWrite (logged K) (e.logged.memory out) writeSize (d, log) w.write
        else (none, (d, log), w.write)) =
          (err, (cs.foldl K.exec d, log ++ cs), (streamBytes (done ++ cs)).length) := by
    rintro rfl
    exact ⟨[], rest, none, rfl, by simp [hw]⟩
  rcases hout with hzero | ⟨hlen, hbytes⟩
  · exact hidle hzero
  · rcases Nat.eq_zero_or_pos writeSize with hzero | hpos
    · exact hidle hzero
    · have hm : MayHold (e.logged.memory out) (streamBytes done).length (sentBytes rest) := by
        rw [hbytes, sentBytes_append, sentBytes_map]
        exact mayHold_getElem? e.readable (streamBytes done) (sentBytes rest)
      have hsize : writeSize = (streamBytes done).length + (sentBytes rest).length := by
        rw [hlen, hbytes, sentBytes_append, sentBytes_map, List.length_append]
      obtain ⟨cs, rest', err, hsplit, hloop⟩ := @writeLoop_sent _ (logged K) _ _ _
        (writeSize - (streamBytes done).length) _ (d, log) hm hsize
      refine ⟨cs, rest', err, hsplit, ?_⟩
      rw [if_pos hpos, threadWrite, hw, hloop, logged_foldl, streamBytes_append, List.length_append]

theorem finish_eq {D : Type} {e : IoctlEnv D} {err err' : Option Errno} {d d' : D}
    {old new w' : Consumed} (hrun : e.finish err d old new = (err', d', w')) :
    d' = d ∧ (w' = new ∨ err' = some .efault) := by
  unfold IoctlEnv.finish at hrun
  split at hrun
  · cases hrun
    exact ⟨rfl, .inl rfl⟩
  · cases hrun
    exact ⟨rfl, .inr rfl⟩

theorem ioctlWriteRead_answered {err : Option Errno} {x : D × List WireCommand} {w' : Consumed}
    (hout : writeSize = 0 ∨ writeSize = out.length ∧
      out = sentBytes (done.map Sent.command ++ rest))
    (hw : w.write = (streamBytes done).length)
    (hrun : ioctlWriteRead (logged K) e.logged out writeSize readSize (d, log) w = (err, x, w')) :
    ∃ cs, Answered log done rest err x.2 w'.write cs := by
  unfold ioctlWriteRead at hrun
  split at hrun
  · cases hrun
    exact ⟨[], by simp, ⟨rest, rfl⟩, .inl (by simpa using hw)⟩
  · obtain ⟨cs, rest', werr, hsplit, hwrite⟩ := @write_answered _ K d log e _ _ _ _ _ hout hw
    refine ⟨cs, ?_⟩
    simp only [hwrite] at hrun
    cases werr with
    | some werr =>
        obtain ⟨rfl, hw'⟩ := finish_eq hrun
        exact ⟨rfl, ⟨rest', hsplit⟩, hw'.imp_left fun h => by rw [h]⟩
    | none =>
        obtain ⟨rfl, hw'⟩ := finish_eq hrun
        refine ⟨?_, ⟨rest', hsplit⟩, hw'.imp_left fun h => by rw [h]⟩
        by_cases hread : 0 < readSize <;> simp [hread, IoctlEnv.logged]

/-- What the ioctls of one `talkWithDriver` execute. When the last one succeeds, the
`write_consumed` it leaves is what was executed. -/
theorem ioctlLoop_answered {es : List (IoctlEnv D)} {err : Option Errno}
    {x : D × List WireCommand} {w' : Consumed}
    (hout : writeSize = 0 ∨ writeSize = out.length ∧
      out = sentBytes (done.map Sent.command ++ rest))
    (hw : w.write = (streamBytes done).length)
    (hrun : ioctlLoop (logged K) out writeSize readSize (es.map IoctlEnv.logged) (d, log) w =
      some (err, x, w')) :
    ∃ cs rest', x.2 = log ++ cs ∧ rest = cs.map Sent.command ++ rest' ∧
      (err = none → w'.write = (streamBytes (done ++ cs)).length) := by
  induction es generalizing d log done rest w with
  | nil => cases hrun
  | cons e es ih =>
      rcases hioctl : ioctlWriteRead (logged K) e.logged out writeSize readSize (d, log) w with
        ⟨err₁, ⟨d₁, log₁⟩, w₁⟩
      obtain ⟨cs, hans⟩ := ioctlWriteRead_answered hout hw hioctl
      obtain ⟨rest', rfl⟩ := hans.rest
      obtain rfl : log₁ = log ++ cs := hans.log
      simp only [List.map_cons, ioctlLoop, hioctl] at hrun
      cases hclosed : e.logged.closed with
      | true =>
          simp only [hclosed, ↓reduceIte, Option.some.injEq, reduceCtorEq, Prod.mk.injEq] at hrun
          obtain ⟨rfl, rfl, rfl⟩ := hrun
          exact ⟨cs, rest', rfl, rfl, by simp⟩
      | false =>
          simp only [hclosed, Bool.false_eq_true, ↓reduceIte] at hrun
          split at hrun
          · rename_i hintr
            have hw₁ : w₁.write = (streamBytes (done ++ cs)).length :=
              hans.write.resolve_right (by simp [hintr])
            have hout₁ : writeSize = 0 ∨ writeSize = out.length ∧
                out = sentBytes ((done ++ cs).map Sent.command ++ rest') := by
              simpa only [List.map_append, List.append_assoc] using hout
            obtain ⟨cs', rest'', hlog, hsplit, hfinal⟩ := ih hout₁ hw₁ hrun
            refine ⟨cs ++ cs', rest'', by rw [hlog, List.append_assoc], by simp [hsplit], ?_⟩
            simpa only [List.append_assoc] using hfinal
          · cases hrun
            exact ⟨cs, rest', rfl, rfl, fun herr => hans.write.resolve_right (by simp [herr])⟩

end Answers

section Runs

variable {D : Type} {K : Kernel D} {s : TalkState D}

theorem inStep_init (capacity : ℕ) (d : D) : InStep (TalkState.init capacity d) := ⟨[], rfl, rfl⟩

/-- What the driver executes in one `talkWithDriver` is the beginning of `mOut`. -/
theorem InStep.answer (h : InStep s) {doReceive : Bool} {es : List (IoctlEnv D)}
    {err : Option Errno} {x : D × List WireCommand} {w : Consumed}
    (hans : answer K s doReceive es = some (err, x, w)) :
    ∃ cs rest, x.2 = s.executed ++ cs ∧ s.thread.out = streamBytes cs ++ sentBytes rest ∧
      s.written = (s.executed ++ cs).map Sent.command ++ rest ∧
      (err = none → w.write = (streamBytes cs).length) := by
  obtain ⟨pending, hout, hwritten⟩ := h
  have hsize : s.thread.outAvail doReceive = 0 ∨
      s.thread.outAvail doReceive = s.thread.out.length ∧
        s.thread.out = sentBytes (([] : List WireCommand).map Sent.command ++ pending) := by
    unfold IpcThread.outAvail
    split
    · exact .inr ⟨rfl, hout⟩
    · exact .inl rfl
  obtain ⟨cs, rest, hlog, rfl, hwrite⟩ := ioctlLoop_answered hsize rfl hans
  refine ⟨cs, rest, hlog, by simpa using hout, ?_, hwrite⟩
  simp [hwritten]

theorem inStep_kept_iff (s' : TalkState D) {cs : List WireCommand} {rest : List Sent}
    (hout : s.thread.out = streamBytes cs ++ sentBytes rest)
    (hwritten : s.written = (s.executed ++ cs).map Sent.command ++ rest)
    (hout' : s'.thread.out = s.thread.out) (hwritten' : s'.written = s.written)
    (hexec : s'.executed = s.executed ++ cs) : InStep s' ↔ cs = [] := by
  constructor
  · rintro ⟨pending, hpending, hsplit⟩
    rw [hwritten', hwritten, hexec] at hsplit
    obtain rfl : rest = pending := List.append_cancel_left hsplit
    rw [hout', hout] at hpending
    have hlen := congrArg List.length hpending
    rw [List.length_append] at hlen
    exact eq_nil_of_length_streamBytes (by omega)
  · rintro rfl
    exact ⟨rest, by simpa [hout'] using hout, by rw [hwritten', hwritten, hexec]⟩

theorem answer_idle {doReceive : Bool} {es : List (IoctlEnv D)}
    {r : Option Errno × (D × List WireCommand) × Consumed}
    (hidle : s.thread.outAvail doReceive = 0) (hans : answer K s doReceive es = some r) :
    r.2.1.2 = s.executed := by
  obtain ⟨err, x, w⟩ := r
  have hout : s.thread.outAvail doReceive = 0 ∨
      s.thread.outAvail doReceive = s.thread.out.length ∧
        s.thread.out = sentBytes (([] : List WireCommand).map Sent.command ++ []) := .inl hidle
  obtain ⟨cs, rest, hlog, hsplit, -⟩ := ioctlLoop_answered hout rfl hans
  obtain ⟨hcs, -⟩ := List.append_eq_nil_iff.mp hsplit.symm
  obtain rfl : cs = [] := List.map_eq_nil_iff.mp hcs
  exact hlog.trans (List.append_nil _)

/-- One `talkWithDriver` whose ioctls have returned. -/
theorem talkStep_answered {doReceive : Bool} {es : List (IoctlEnv D)}
    (hbusy : ¬ (s.thread.outAvail doReceive = 0 ∧ s.thread.readSize doReceive = 0))
    {err : Option Errno} {x : D × List WireCommand} {w : Consumed}
    (hans : answer K s doReceive es = some (err, x, w)) :
    ∃ t : IpcThread (D × List WireCommand), t.driver = x ∧
      talkStep K s (.talk true doReceive es) = .ok { s with thread := t } ∧
      (t.out, t.removes) =
        if err = none ∧ 0 < w.write then
          if w.write < s.thread.out.length then
            (s.thread.out, s.thread.removes ++ [(0, w.write)])
          else ([], s.thread.removes)
        else (s.thread.out, s.thread.removes) := by
  have hloop := hans
  unfold answer at hloop
  cases err with
  | some err =>
      refine ⟨{ s.thread with driver := x }, rfl, ?_, rfl⟩
      simp [talkStep, talkWithDriver, hbusy, hloop, Except.map]
  | none =>
      refine ⟨_, ?_, by simp [talkStep, talkWithDriver, hbusy, hloop, Except.map]; rfl, ?_⟩
      · by_cases hread : 0 < w.read <;> by_cases hwrite : 0 < w.write <;>
          by_cases hlt : w.write < s.thread.out.length <;>
            simp [hread, hwrite, hlt, IpcThread.remove]
      · by_cases hread : 0 < w.read <;> by_cases hwrite : 0 < w.write <;>
          by_cases hlt : w.write < s.thread.out.length <;>
            simp [hread, hwrite, hlt, IpcThread.remove]

theorem talk_answered_iff (h : Exact s) {doReceive : Bool} {es : List (IoctlEnv D)}
    (hbusy : ¬ (s.thread.outAvail doReceive = 0 ∧ s.thread.readSize doReceive = 0))
    {err : Option Errno} {x : D × List WireCommand} {w : Consumed}
    (hans : answer K s doReceive es = some (err, x, w)) :
    (∀ s', talkStep K s (.talk true doReceive es) = .ok s' → Exact s') ↔
      x.2 = s.executed ∨ err = none ∧ x.2.map Sent.command = s.written := by
  obtain ⟨hstep, hremoves⟩ := h
  obtain ⟨cs, rest, hlog, hout, hwritten, hwrite⟩ := hstep.answer hans
  have hsame : x.2 = s.executed ↔ cs = [] := by simp [hlog]
  have hall : x.2.map Sent.command = s.written ↔ rest = [] := by simp [hlog, hwritten]
  rw [hsame, hall]
  obtain ⟨t, rfl, hstep, hparts⟩ := talkStep_answered hbusy hans
  rw [hstep]
  simp only [Except.ok.injEq, forall_eq']
  have hkept (hout' : t.out = s.thread.out) : InStep { s with thread := t } ↔ cs = [] :=
    inStep_kept_iff { s with thread := t } hout hwritten hout' rfl hlog
  cases err with
  | some err =>
      obtain ⟨hout', hremoves'⟩ := Prod.mk.inj hparts
      simp only [reduceCtorEq, false_and, or_false]
      exact ⟨fun hs' => (hkept hout').mp hs'.1,
        fun hcs => ⟨(hkept hout').mpr hcs, hremoves'.trans hremoves⟩⟩
  | none =>
      have hlen := hwrite rfl
      have htotal : s.thread.out.length = w.write + (sentBytes rest).length := by
        rw [hout, hlen, List.length_append]
      rcases Nat.eq_zero_or_pos w.write with hzero | hpos
      · -- Nothing was consumed.
        obtain rfl : cs = [] := eq_nil_of_length_streamBytes (hlen.symm.trans hzero)
        rw [if_neg (by omega)] at hparts
        obtain ⟨hout', hremoves'⟩ := Prod.mk.inj hparts
        exact iff_of_true ⟨(hkept hout').mpr rfl, hremoves'.trans hremoves⟩ (.inl rfl)
      · have hcs : cs ≠ [] := by
          rintro rfl
          rw [hlen] at hpos
          simp at hpos
        rw [if_pos ⟨rfl, hpos⟩] at hparts
        by_cases hlt : w.write < s.thread.out.length
        · -- A part of the commands was consumed, and all of them stay.
          have hrest : rest ≠ [] := by
            rintro rfl
            simp [sentBytes] at htotal
            omega
          rw [if_pos hlt] at hparts
          obtain ⟨hout', -⟩ := Prod.mk.inj hparts
          refine iff_of_false (fun hs' => hcs ((hkept hout').mp hs'.1)) ?_
          simp [hcs, hrest]
        · obtain rfl : rest = [] := eq_nil_of_length_sentBytes (by omega)
          rw [if_neg hlt] at hparts
          obtain ⟨hout', hremoves'⟩ := Prod.mk.inj hparts
          refine iff_of_true ⟨⟨[], hout', ?_⟩, hremoves'.trans hremoves⟩ (.inr ⟨rfl, rfl⟩)
          simp [TalkState.executed, hlog, hwritten]

/-- One `talkWithDriver` keeps `mOut` in step exactly when the driver answers wholly. -/
theorem talk_iff (h : Exact s) (a : TalkAct D) :
    (∀ s', talkStep K s a = .ok s' → Exact s') ↔ Whole K s a := by
  cases a with
  | write c =>
      obtain ⟨⟨pending, hout, hwritten⟩, hremoves⟩ := h
      have hnext : Exact
          { thread := { s.thread with out := s.thread.out ++ c.bytes }
            written := s.written ++ [c] } := by
        refine ⟨⟨pending ++ [c], ?_, ?_⟩, hremoves⟩
        · simp [hout, sentBytes]
        · simp [hwritten, TalkState.executed]
      simpa [talkStep, Whole] using hnext
  | read pos =>
      have hnext : Exact { s with thread := { s.thread with inPos := pos } } := h
      simpa [talkStep, Whole] using hnext
  | talk fd doReceive es =>
      cases fd with
      | false => simpa [talkStep, talkWithDriver, Whole, Except.map] using h
      | true =>
          by_cases hbusy : s.thread.outAvail doReceive = 0 ∧ s.thread.readSize doReceive = 0
          · have hstep : talkStep K s (.talk true doReceive es) = .ok s := by
              simp [talkStep, talkWithDriver, hbusy, Except.map]
            rw [hstep]
            simp only [Except.ok.injEq, forall_eq', Whole, forall_const]
            exact iff_of_true h fun r hans => .inl (answer_idle hbusy.1 hans)
          · cases hans : answer K s doReceive es with
            | none =>
                have hstep : talkStep K s (.talk true doReceive es) = .error .blocked := by
                  have hloop := hans
                  unfold answer at hloop
                  simp [talkStep, talkWithDriver, hbusy, hloop, Except.map]
                simp [hstep, Whole, hans]
            | some r =>
                obtain ⟨err, x, w⟩ := r
                rw [talk_answered_iff h hbusy hans]
                simp [Whole, hans]

/-- In every run in which the driver executes none or all of what it is given, and fails
only when it executed nothing, `mOut` holds exactly the commands that were written and not
executed, and `Parcel::remove` is never called. In every state of such a run the next
`talkWithDriver` keeps this only when the driver answers so. -/
theorem inStep_of_reach {capacity : ℕ} {d : D}
    (hreach : Reach (talkStep K) (fun s a => Whole K s a) (TalkState.init capacity d) s) :
    Exact s ∧ ∀ a, (∀ s', talkStep K s a = .ok s' → Exact s') ↔ Whole K s a := by
  have h : Exact s := hreach.invariant ⟨inStep_init capacity d, rfl⟩
    fun s a s' hs hwhole hstep => (talk_iff hs a).mpr hwhole s' hstep
  exact ⟨h, talk_iff h⟩

end Runs

/-! ### A thread and the driver -/

/-- The driver as thread 2 of process 0 meets it, before the thread has sent anything. -/
def freshDriver : Except Fault (State × ℕ) :=
  (runActions (step Layout.x86) State.init twoProcesses).map fun s => (s, 0)

def freshKernel : Kernel (Except Fault (State × ℕ)) :=
  driverKernel Layout.x86 0 2 fun _ => ⟨true, TxnEnv.granted, fun _ => 0, fun _ => 0⟩

/-- An ioctl that meets no failure and reads nothing. -/
def plainIoctl {D : Type} : IoctlEnv D where
  entry := none
  readable := fun _ => true
  read := fun d => (none, 0, d)
  copyBack := true
  closed := false

/-- A transaction for a handle that does not exist. -/
def strayTransaction : RawTransaction where
  target := 5
  cookie := 0
  code := 0
  flags := 0x10
  senderPid := 0
  senderEuid := 0
  dataSize := 0
  offsetsSize := 0
  buffer := 0
  offsets := 0

/-- A failed transaction and a buffer that is freed are written before the thread talks
with the driver. -/
def brokenOff : List (TalkAct (Except Fault (State × ℕ))) :=
  [.write (.command (.transaction strayTransaction)), .write (.command (.freeBuffer 0x2000)),
    .talk true false [plainIoctl]]

/-- The transaction fails and the driver stops before the next command: `Parcel::remove` is
called, and the transaction is executed and still in `mOut`. -/
theorem brokenOff_removes :
    ∃ s, runActions (talkStep freshKernel) (TalkState.init 256 freshDriver) brokenOff = .ok s ∧
      s.executed = [.transaction strayTransaction] ∧ s.thread.out = sentBytes s.written ∧
      s.thread.removes = [(0, 68)] ∧ ¬ InStep s := by
  have hrun : (runActions (talkStep freshKernel) (TalkState.init 256 freshDriver)
      brokenOff).toOption.map (fun s => (s.executed, s.written, s.thread.out, s.thread.removes)) =
      some ([.transaction strayTransaction],
        [.command (.transaction strayTransaction), .command (.freeBuffer 0x2000)],
        sentBytes [.command (.transaction strayTransaction), .command (.freeBuffer 0x2000)],
        [(0, 68)]) := by
    decide +kernel
  cases hfinal : runActions (talkStep freshKernel) (TalkState.init 256 freshDriver) brokenOff with
  | error e => simp [hfinal, Except.toOption] at hrun
  | ok s =>
      simp only [hfinal, Except.toOption, Option.map_some, Option.some.injEq, Prod.mk.injEq] at hrun
      obtain ⟨hexec, hwritten, hout, hremoves⟩ := hrun
      refine ⟨s, rfl, hexec, hout.trans (by rw [hwritten]), hremoves, ?_⟩
      rintro ⟨pending, hpending, hsplit⟩
      rw [hwritten, hexec] at hsplit
      obtain rfl : [.command (.freeBuffer 0x2000)] = pending := by simpa using hsplit
      rw [hout] at hpending
      exact absurd (congrArg List.length hpending) (by decide +kernel)

/-- A thread enters the pool. -/
theorem inStep_enterLooper : ∃ s : TalkState (Except Fault (State × ℕ)),
    s.executed = [.enterLooper] ∧ InStep s := by
  obtain ⟨s₁, hs₁⟩ : ∃ s₁, talkStep freshKernel (TalkState.init 256 freshDriver)
      (.write (.command .enterLooper)) = .ok s₁ := ⟨_, rfl⟩
  have hanswer : (answer freshKernel s₁ false [plainIoctl]).map (fun r => (r.1, r.2.1.2)) =
      some (none, [.enterLooper]) := by
    cases hs₁
    decide +kernel
  have hwhole : Whole freshKernel s₁ (.talk true false [plainIoctl]) := by
    intro _ r hr
    rw [hr] at hanswer
    simp only [Option.map_some, Option.some.injEq, Prod.mk.injEq] at hanswer
    cases hs₁
    exact .inr ⟨hanswer.1, by rw [hanswer.2]; rfl⟩
  obtain ⟨s₂, hs₂, hexec⟩ : ∃ s₂, talkStep freshKernel s₁ (.talk true false [plainIoctl]) = .ok s₂ ∧
      s₂.executed = [.enterLooper] := by
    have hrun : (talkStep freshKernel s₁ (.talk true false [plainIoctl])).toOption.map
        TalkState.executed = some [.enterLooper] := by
      cases hs₁
      decide +kernel
    cases hstep : talkStep freshKernel s₁ (.talk true false [plainIoctl]) with
    | error e => simp [hstep, Except.toOption] at hrun
    | ok s₂ => exact ⟨s₂, rfl, by simpa [hstep, Except.toOption] using hrun⟩
  exact ⟨s₂, hexec, (inStep_of_reach ((Reach.refl.tail trivial hs₁).tail hwhole hs₂)).1.1⟩

end Ipc

end BinderForLinux
