import BinderForLinux.Library.Run
import Mathlib.Algebra.Order.Ring.Int
import Mathlib.Data.List.Basic

/-!
# The message queue of a looper

`Looper` from its message queue to `epoll_wait`: any thread enters a message at its time, under
`mLock`, and writes the wake event afterwards, without the lock; the thread of the looper works
out how long it may sleep, sleeps, and hands over the messages that are due, with the lock
released around each of them. A step is what one thread does between two points at which another
one may come in between.
-/

namespace BinderForLinux

namespace Looper

def INT_MAX : ℤ := 2 ^ 31 - 1

def LLONG_MAX : ℤ := 2 ^ 63 - 1

def toMillisecondTimeoutDelay (referenceTime timeoutTime : ℤ) : ℤ :=
  if referenceTime < timeoutTime then
    let timeoutDelay := timeoutTime - referenceTime
    if (INT_MAX - 1) * 1000000 < timeoutDelay then -1 else (timeoutDelay + 999999) / 1000000
  else 0

/-- `number` tells the messages apart; the code does not keep it. -/
structure MessageEnvelope where
  number : ℕ
  uptime : ℤ
  handler : ℕ
  what : ℤ
  deriving DecidableEq

/-! ### The queue -/

/-- The loop of `sendMessageAtTime`. -/
def position (uptime : ℤ) : List MessageEnvelope → ℕ
  | [] => 0
  | e :: q => if uptime ≥ e.uptime then position uptime q + 1 else 0

/-- Whether `removeMessages` of either kind removes the message. -/
def MessageEnvelope.isFor (handler : ℕ) (what : Option ℤ) (e : MessageEnvelope) : Bool :=
  decide (e.handler = handler) && what.all fun w => decide (e.what = w)

/-- The loop of `removeMessages`, from the last message to the first. -/
def removeFrom (handler : ℕ) (what : Option ℤ) :
    ℕ → List MessageEnvelope → List MessageEnvelope
  | 0, q => q
  | i + 1, q =>
      match q[i]? with
      | some e => removeFrom handler what i (if e.isFor handler what then q.eraseIdx i else q)
      | none => q

def removeMessages (handler : ℕ) (what : Option ℤ) (q : List MessageEnvelope) :
    List MessageEnvelope :=
  removeFrom handler what q.length q

/-! ### The looper -/

inductive PollResult
  | wake
  | callback
  | timeout
  | error
  deriving DecidableEq

/-- How `epoll_wait` ends. `skipped` stands for an interrupted call and for the rebuilding of the
epoll set, `events true` for events with one for the wake event. -/
inductive Returned
  | skipped
  | failed
  | timedOut
  | events (wake : Bool)
  deriving DecidableEq

def Returned.result : Returned → PollResult
  | .skipped | .events _ => .wake
  | .failed => .error
  | .timedOut => .timeout

/-- Where the thread of the looper is. It has the lock while it is `scanning`, and runs code of the
program when it is `idle`, `handling` a message or `responding` to events of descriptors. That code
may send, remove and wake; it polls the looper only when it is `idle`, not from a handler. Times
are as in `pollInner`: the timeout it was `given`, the time at which it `asked` the clock, the
`start` of the wait and its `timeout`. -/
inductive Pc
  | idle
  | polling (given asked timeout : ℤ)
  | waiting (given asked start timeout : ℤ)
  | scanning (result : PollResult)
  | handling (e : MessageEnvelope)
  | responding (result : PollResult)
  deriving DecidableEq

/-- `wakers` is the number of other threads that have to call `wake()` yet, `ownWake` is that for
the thread of the looper. -/
structure State where
  time : ℤ
  mMessageEnvelopes : List MessageEnvelope
  mSendingMessage : Bool
  mNextMessageUptime : ℤ
  wakeEvent : ℕ
  wakers : ℕ
  ownWake : Bool
  sent : ℕ
  pc : Pc

def State.init (time : ℤ) : State where
  time := time
  mMessageEnvelopes := []
  mSendingMessage := false
  mNextMessageUptime := LLONG_MAX
  wakeEvent := 0
  wakers := 0
  ownWake := false
  sent := 0
  pc := .idle

/-- The counter of an event descriptor stays below 2⁶⁴ - 1: another write fails. -/
def State.wake (s : State) : State := { s with wakeEvent := min (s.wakeEvent + 1) (2 ^ 64 - 2) }

/-- `sendMessageAtTime` up to the call of `wake()`. -/
def State.sendMessageAtTime (s : State) (own : Bool) (uptime : ℤ) (handler : ℕ) (what : ℤ) :
    State :=
  let i := position uptime s.mMessageEnvelopes
  let s' := { s with
    mMessageEnvelopes := s.mMessageEnvelopes.insertIdx i ⟨s.sent, uptime, handler, what⟩
    sent := s.sent + 1 }
  if s.mSendingMessage then s'
  else if i = 0 then
    if own then { s' with ownWake := true } else { s' with wakers := s.wakers + 1 }
  else s'

def adjustTimeout (timeoutMillis now mNextMessageUptime : ℤ) : ℤ :=
  if timeoutMillis ≠ 0 ∧ mNextMessageUptime ≠ LLONG_MAX then
    let messageTimeoutMillis := toMillisecondTimeoutDelay now mNextMessageUptime
    if 0 ≤ messageTimeoutMillis ∧ (timeoutMillis < 0 ∨ messageTimeoutMillis < timeoutMillis) then
      messageTimeoutMillis
    else timeoutMillis
  else timeoutMillis

/-- Whether the thread of the looper runs code of the program. -/
def Pc.isOutside : Pc → Bool
  | .idle | .handling _ | .responding _ => true
  | .polling _ _ _ | .waiting _ _ _ _ | .scanning _ => false

/-- Whether a call of the queue's functions can take `mLock`. -/
def State.canCall (s : State) (own : Bool) : Bool :=
  if own then s.pc.isOutside && !s.ownWake
  else match s.pc with
    | .scanning _ => false
    | _ => true

inductive Act
  | tick (nanos : ℕ)
  | wakeUp
  | sendMessageAtTime (own : Bool) (uptime : ℤ) (handler : ℕ) (what : ℤ)
  | wake (own : Bool)
  | removeMessages (own : Bool) (handler : ℕ) (what : Option ℤ)
  | pollInner (timeoutMillis : ℤ)
  | epollWait
  | epollReturn (ret : Returned)
  | scan
  | handled
  | invoked
  | finish

/-- One turn of the loop over the messages, from the clock to `handleMessage` or to the end. -/
def State.scan (s : State) (result : PollResult) : State :=
  match s.mMessageEnvelopes with
  | [] => { s with pc := .responding result }
  | e :: q =>
      if e.uptime ≤ s.time then
        { s with mMessageEnvelopes := q, mSendingMessage := true, pc := .handling e }
      else { s with mNextMessageUptime := e.uptime, pc := .responding result }

/-- `epoll_wait` reports a timeout when the time is over, and the wake event when it was written. -/
def State.canReturn (s : State) (start timeout : ℤ) : Returned → Bool
  | .timedOut => decide (0 ≤ timeout ∧ start + timeout * 1000000 ≤ s.time)
  | .events true => decide (0 < s.wakeEvent)
  | _ => true

/-- `pollInner` from the end of the wait to the loop over the messages. -/
def State.returned (s : State) (ret : Returned) : State :=
  { s with
    wakeEvent := if ret = .events true then 0 else s.wakeEvent
    mNextMessageUptime := LLONG_MAX
    pc := .scanning ret.result }

def step (s : State) : Act → Except Unit State
  | .tick nanos => .ok { s with time := s.time + nanos }
  | .wakeUp => .ok s.wake
  | .sendMessageAtTime own uptime handler what =>
      if s.canCall own then .ok (s.sendMessageAtTime own uptime handler what) else .error ()
  | .wake true => if s.ownWake then .ok { s.wake with ownWake := false } else .error ()
  | .wake false =>
      if 0 < s.wakers then .ok { s.wake with wakers := s.wakers - 1 } else .error ()
  | .removeMessages own handler what =>
      if s.canCall own then
        .ok { s with mMessageEnvelopes := removeMessages handler what s.mMessageEnvelopes }
      else .error ()
  | .pollInner timeoutMillis =>
      if s.pc = .idle ∧ s.ownWake = false then
        .ok { s with pc := .polling timeoutMillis s.time
                      (adjustTimeout timeoutMillis s.time s.mNextMessageUptime) }
      else .error ()
  | .epollWait =>
      match s.pc with
      | .polling given asked timeout => .ok { s with pc := .waiting given asked s.time timeout }
      | _ => .error ()
  | .epollReturn ret =>
      match s.pc with
      | .waiting _ _ start timeout =>
          if s.canReturn start timeout ret then .ok (s.returned ret) else .error ()
      | _ => .error ()
  | .scan =>
      match s.pc with
      | .scanning result => .ok (s.scan result)
      | _ => .error ()
  | .handled =>
      match s.pc with
      | .handling _ =>
          if s.ownWake then .error ()
          else .ok { s with mSendingMessage := false, pc := .scanning .callback }
      | _ => .error ()
  | .invoked =>
      match s.pc with
      | .responding _ =>
          if s.ownWake then .error () else .ok { s with pc := .responding .callback }
      | _ => .error ()
  | .finish =>
      match s.pc with
      | .responding _ => if s.ownWake then .error () else .ok { s with pc := .idle }
      | _ => .error ()

/-! ### What a step has done -/

section Steps

variable {s s' : State} {own : Bool} {uptime w : ℤ} {handler : ℕ} {what : Option ℤ}
  {ret : Returned}

theorem sendMessageAtTime_ok (h : step s (.sendMessageAtTime own uptime handler w) = .ok s') :
    s.canCall own = true ∧ s' = s.sendMessageAtTime own uptime handler w := by
  simp only [step] at h
  split at h <;> cases h
  exact ⟨‹_›, rfl⟩

theorem removeMessages_ok (h : step s (.removeMessages own handler what) = .ok s') : s' =
    { s with mMessageEnvelopes := removeMessages handler what s.mMessageEnvelopes } := by
  simp only [step] at h
  split at h <;> cases h
  rfl

theorem epollWait_ok (h : step s .epollWait = .ok s') : ∃ given asked timeout,
    s.pc = .polling given asked timeout ∧
      s' = { s with pc := .waiting given asked s.time timeout } := by
  simp only [step] at h
  split at h <;> cases h
  exact ⟨_, _, _, ‹_›, rfl⟩

theorem epollReturn_ok (h : step s (.epollReturn ret) = .ok s') :
    ∃ given asked start timeout, s.pc = .waiting given asked start timeout ∧
      s' = s.returned ret := by
  simp only [step] at h
  split at h
  · split at h <;> cases h
    exact ⟨_, _, _, _, ‹_›, rfl⟩
  · cases h

theorem scan_ok (h : step s .scan = .ok s') :
    ∃ result, s.pc = .scanning result ∧ s' = s.scan result := by
  simp only [step] at h
  split at h <;> cases h
  exact ⟨_, ‹_›, rfl⟩

theorem handled_ok (h : step s .handled = .ok s') : ∃ e, s.pc = .handling e ∧
    s.ownWake ≠ true ∧ s' = { s with mSendingMessage := false, pc := .scanning .callback } := by
  simp only [step] at h
  split at h
  · split at h <;> cases h
    exact ⟨_, ‹_›, ‹_›, rfl⟩
  · cases h

theorem invoked_ok (h : step s .invoked = .ok s') : ∃ result, s.pc = .responding result ∧
    s' = { s with pc := .responding .callback } := by
  simp only [step] at h
  split at h
  · split at h <;> cases h
    exact ⟨_, ‹_›, rfl⟩
  · cases h

theorem finish_ok (h : step s .finish = .ok s') :
    ∃ result, s.pc = .responding result ∧ s' = { s with pc := .idle } := by
  simp only [step] at h
  split at h
  · split at h <;> cases h
    exact ⟨_, ‹_›, rfl⟩
  · cases h

end Steps

end Looper

end BinderForLinux
