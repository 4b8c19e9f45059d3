import BinderForLinux.Proxy.Table

/-!
# The lock of the table of proxies

`ProcessState::mLock` is not recursive. `getStrongProxyForHandle(0)` holds it while it waits
for the answer to a ping, and the wait executes whatever commands the driver returns to the
thread. A thread is a stack of calls here; what the code of the users does (handlers of
transactions, death recipients, destructors) is a list of calls into the library.
-/

namespace BinderForLinux

namespace ProxyLock

open Library ProxyTable

/-- A call of the users into the library. `lockedSection` stands for the functions that hold `mLock`
only to look something up or to set a flag (`getContextObject` by name, `startThreadPool`,
`becomeContextManager`). -/
inductive Call
  | getStrongProxyForHandle (handle : ℕ) (e : LookupEnv)
  | getWeakProxyForHandle (handle : ℕ) (e : LookupEnv)
  | setContextObject (name : ℕ) (object : Option ℕ)
  | lockedSection
  | decStrong (b : ℕ)
  | decWeak (b : ℕ)
  | transact (oneWay : Bool)
  deriving DecidableEq, Repr

/-- The return commands, with what the users' code does when they are executed: the handler of
a transaction and the release of its reply, the recipients of an obituary, the destructor of a
local object. -/
inductive Cmd
  | error (ok : Bool)
  | ok
  | acquire
  | release (destructor : List Call)
  | increfs
  | decrefs (destructor : List Call)
  | attemptAcquire
  | transaction (handler cleanup : List Call) (oneWay : Bool)
  | deadBinder (recipients : List Call)
  | clearDeathNotificationDone (proxy : ℕ)
  | finished
  | noop
  | spawnLooper
  | badCommand
  | transactionComplete
  | deadReply
  | failedReply
  | acquireResult
  | reply
  deriving DecidableEq, Repr

inductive Frame
  /-- Code of the users. -/
  | calls (l : List Call)
  /-- `waitForResponse`, with a parcel for the reply or without. -/
  | wait (reply : Bool)
  /-- `sendReply` at the end of a transaction. -/
  | sendReply
  /-- `getStrongProxyForHandle(0)` after the ping. -/
  | pinged (e : LookupEnv)
  /-- The loop of `joinThreadPool`. -/
  | pool (isMain : Bool)
  deriving DecidableEq, Repr

/-- A thread, the table of its process, and what the driver will return to the thread: `mIn`
holds the commands that were read, `driver` the further contents of the read buffer, one list
for each `ioctl`. -/
structure Thread where
  stack : List Frame
  mIn : List Cmd
  driver : List (List Cmd)
  pendingDerefs : List (List Call)
  held : Bool
  table : ProcessState
  mContexts : List (ℕ × Option ℕ)

inductive Stop
  /-- The thread takes `mLock` while it holds it. -/
  | reentered
  /-- The driver has nothing for the thread. -/
  | blocked
  /-- The thread has returned from its first call. -/
  | returned
  /-- `joinThreadPool` meets an error. -/
  | aborted
  | table (f : Fault)
  deriving DecidableEq, Repr

namespace Thread

/-- `~BpBinder` and the end of its memory. -/
def destroy (s : Thread) (b : ℕ) (p : Proxy) : Except Stop Thread :=
  if s.held then .error .reentered
  else
    .ok { s with
      table := { (s.table.expungeHandle p.mHandle b true) with
        memory := Function.update s.table.memory b none } }

def giveUp (s : Thread) (b : ℕ) (dec : Proxy → Proxy) : Except Stop Thread :=
  match s.table.memory b with
  | none => .error (.table .freed)
  | some p =>
      if p.mWeak = 1 then s.destroy b p
      else .ok { s with table := s.table.setProxy b (dec p) }

/-- Whether a look-up of the handle finds a proxy on which it can have a weak reference. -/
def hasProxy (t : ProcessState) (handle : ℕ) : Bool :=
  match (t.entry handle).binder with
  | none => false
  | some b =>
      match t.memory b with
      | none => false
      | some p => decide (0 < p.mWeak)

/-- `result` of a look-up that does not ping. -/
def lookedUp (s : Thread) (rest : List Frame)
    (r : Except Fault (Option ℕ × ProcessState)) : Except Stop Thread :=
  match r with
  | .error f => .error (.table f)
  | .ok (_, t) => .ok { s with stack := rest, table := t }

/-- `mContexts.add`, which drops the object that had the name. -/
def addContext (s : Thread) (name : ℕ) (object : Option ℕ) : Except Stop Thread :=
  let contexts := (name, object) :: s.mContexts.filter fun c => c.1 ≠ name
  match s.mContexts.lookup name with
  | some (some b) => ({ s with mContexts := contexts }).giveUp b Proxy.decStrong
  | _ => .ok { s with mContexts := contexts }

/-- One call of the users' code; `rest` is the stack after it. -/
def call (s : Thread) (rest : List Frame) : Call → Except Stop Thread
  | .getStrongProxyForHandle handle e =>
      if s.held then .error .reentered
      else if handle = 0 ∧ ¬ hasProxy s.table 0 ∧
          (lookupHandleLocked s.table.mHandleToObject 0 e.grows).isSome then
        .ok { s with held := true, stack := .wait true :: .pinged e :: rest }
      else s.lookedUp rest (s.table.getStrongProxyForHandle handle e)
  | .getWeakProxyForHandle handle e =>
      if s.held then .error .reentered
      else s.lookedUp rest (s.table.getWeakProxyForHandle handle e)
  | .setContextObject name object =>
      if s.held then .error .reentered
      else
        (({ s with held := true, stack := rest }).addContext name object).map
          fun s : Thread => { s with held := false }
  | .lockedSection => if s.held then .error .reentered else .ok { s with stack := rest }
  | .decStrong b => ({ s with stack := rest }).giveUp b Proxy.decStrong
  | .decWeak b => ({ s with stack := rest }).giveUp b Proxy.decWeak
  | .transact oneWay => .ok { s with stack := .wait (!oneWay) :: rest }

/-- `executeCommand`: the thread after it and whether the result is `NO_ERROR`. -/
def executeCommand (s : Thread) : Cmd → Except Stop (Thread × Bool)
  | .error ok => .ok (s, ok)
  | .release destructor =>
      .ok ({ s with pendingDerefs := s.pendingDerefs ++ [destructor] }, true)
  | .decrefs destructor =>
      .ok ({ s with pendingDerefs := s.pendingDerefs ++ [destructor] }, true)
  | .transaction handler cleanup oneWay =>
      let reply := if oneWay then [] else [Frame.sendReply]
      .ok ({ s with stack := .calls handler :: reply ++ .calls cleanup :: s.stack }, true)
  | .deadBinder recipients => .ok ({ s with stack := .calls recipients :: s.stack }, true)
  | .clearDeathNotificationDone proxy =>
      (s.giveUp proxy Proxy.decWeak).map fun s : Thread => (s, true)
  | .finished => .ok (s, false)
  | .badCommand => .ok (s, false)
  | .transactionComplete => .ok (s, false)
  | .deadReply => .ok (s, false)
  | .failedReply => .ok (s, false)
  | .acquireResult => .ok (s, false)
  | .reply => .ok (s, false)
  | .ok => .ok (s, true)
  | .acquire => .ok (s, true)
  | .increfs => .ok (s, true)
  | .attemptAcquire => .ok (s, true)
  | .noop => .ok (s, true)
  | .spawnLooper => .ok (s, true)

/-- `waitForResponse` returns to the frame below it; the ping looks at `DEAD_OBJECT` only. -/
def returnTo (rest : List Frame) (dead : Bool) : List Frame :=
  match rest with
  | .pinged e :: rest => .pinged { e with contextManagerDead := dead } :: rest
  | rest => rest

/-- One command in `waitForResponse`; `rest` is the stack below it. -/
def respond (s : Thread) (reply : Bool) (rest : List Frame) : Cmd → Except Stop Thread
  | .transactionComplete =>
      if reply then .ok s else .ok { s with stack := returnTo rest false }
  | .deadReply => .ok { s with stack := returnTo rest true }
  | .failedReply => .ok { s with stack := returnTo rest false }
  | .acquireResult => .ok s
  | .reply => if reply then .ok { s with stack := returnTo rest false } else .ok s
  | cmd =>
      (s.executeCommand cmd).map fun r =>
        if r.2 then r.1 else { r.1 with stack := returnTo rest false }

/-- `talkWithDriver`: the next command, read from the driver when `mIn` has none. -/
def takeCommand (s : Thread) : Except Stop (Cmd × Thread) :=
  match s.mIn, s.driver with
  | cmd :: l, _ => .ok (cmd, { s with mIn := l })
  | [], (cmd :: l) :: driver => .ok (cmd, { s with mIn := l, driver := driver })
  | [], [] :: driver => .ok (.noop, { s with driver := driver })
  | [], [] => .error .blocked

/-- A turn of the loop in `waitForResponse`. -/
def waitStep (s : Thread) (reply : Bool) (rest : List Frame) : Except Stop Thread :=
  match s.takeCommand with
  | .error e => .error e
  | .ok (cmd, s) => s.respond reply rest cmd

/-- `getAndExecuteCommand` in the loop of `joinThreadPool`. -/
def executeNext (s : Thread) (isMain : Bool) (rest : List Frame) : Except Stop Thread :=
  match s.takeCommand with
  | .error e => .error e
  | .ok (cmd, s) =>
      match s.executeCommand cmd with
      | .error e => .error e
      | .ok (s, true) => .ok s
      | .ok (s, false) =>
          if cmd = .finished then
            .ok { s with stack := if isMain then .pool isMain :: rest else rest }
          else .error .aborted

/-- A turn of the loop in `joinThreadPool`: `processPendingDerefs`, one object at a time, when
`mIn` is used up, then the next command. -/
def poolStep (s : Thread) (isMain : Bool) (rest : List Frame) : Except Stop Thread :=
  match s.mIn, s.pendingDerefs with
  | [], l :: pending =>
      .ok { s with stack := .calls l :: .pool isMain :: rest, pendingDerefs := pending }
  | _, _ => s.executeNext isMain rest

def step (s : Thread) : Except Stop Thread :=
  match s.stack with
  | [] => .error .returned
  | .calls [] :: rest => .ok { s with stack := rest }
  | .calls (c :: l) :: rest => s.call (.calls l :: rest) c
  | .sendReply :: rest => .ok { s with stack := .wait false :: rest }
  | .pinged e :: rest =>
      ({ s with held := false }).lookedUp rest (s.table.getStrongProxyForHandle 0 e)
  | .wait reply :: rest => s.waitStep reply rest
  | .pool isMain :: rest => s.poolStep isMain rest

end Thread

/-! ### What may run under the lock -/

/-- The calls that take `mLock`; a dropped reference takes it only if it is the last one. -/
def Call.takesLock : Call → Bool
  | .getStrongProxyForHandle _ _ => true
  | .getWeakProxyForHandle _ _ => true
  | .setContextObject _ _ => true
  | .lockedSection => true
  | .decStrong _ => false
  | .decWeak _ => false
  | .transact _ => false

/-- The users' code that executing the command calls. -/
def Cmd.calls : Cmd → List Call
  | .transaction handler cleanup _ => handler ++ cleanup
  | .deadBinder recipients => recipients
  | _ => []

namespace Thread

def nextCommand (s : Thread) : Option Cmd :=
  match s.stack with
  | .wait _ :: _ => (s.takeCommand.toOption).map Prod.fst
  | _ => none

/-- The proxy on which the next step gives up a reference while `mLock` is held. -/
def dropsUnderLock (s : Thread) : Option ℕ :=
  match s.stack with
  | .calls (.decStrong b :: _) :: _ => if s.held then some b else none
  | .calls (.decWeak b :: _) :: _ => if s.held then some b else none
  | .calls (.setContextObject name _ :: _) :: _ => (s.mContexts.lookup name).join
  | .wait _ :: _ =>
      match (s.takeCommand.toOption).map Prod.fst with
      | some (.clearDeathNotificationDone b) => if s.held then some b else none
      | _ => none
  | _ => none

/-- Nothing that runs while the ping waits calls a function that takes `mLock`, and no
reference dropped under `mLock` is the last one of its proxy. -/
def Calm (s : Thread) : Prop :=
  (s.held → ∀ cmd ∈ s.nextCommand, ∀ c ∈ cmd.calls, c.takesLock = false) ∧
    ∀ b ∈ s.dropsUnderLock, ∀ p ∈ s.table.memory b, p.mWeak ≠ 1

instance (s : Thread) : Decidable s.Calm := inferInstanceAs (Decidable (_ ∧ _))

end Thread

/-! ### The lock is not re-entered -/

def Frame.Quiet : Frame → Prop
  | .calls l => ∀ c ∈ l, c.takesLock = false
  | .wait _ => True
  | .sendReply => True
  | .pinged _ => False
  | .pool _ => False

def Frame.isPinged : Frame → Bool
  | .pinged _ => true
  | _ => false

/-- The lock is held exactly while a ping waits, and then nothing above the ping takes it. -/
inductive LockOk : Bool → List Frame → Prop
  | free {stack : List Frame} (h : ∀ f ∈ stack, f.isPinged = false) : LockOk false stack
  | held {above below : List Frame} {e : LookupEnv} (habove : ∀ f ∈ above, f.Quiet)
      (hbelow : ∀ f ∈ below, f.isPinged = false) :
      LockOk true (above ++ .pinged e :: below)

namespace LockOk

variable {held : Bool} {stack rest : List Frame} {f : Frame}

/-- The frame on top, unless it is the ping itself, may be replaced by frames that take the
lock only if it is free. -/
theorem replace (h : LockOk held (f :: rest)) (hf : f.isPinged = false) (fs : List Frame)
    (hfs : ∀ g ∈ fs, g.isPinged = false) (hquiet : held = true → f.Quiet → ∀ g ∈ fs, g.Quiet) :
    LockOk held (fs ++ rest) := by
  generalize hstack : f :: rest = stack at h
  cases h with
  | free h =>
      subst hstack
      refine .free fun g hg => ?_
      rcases List.mem_append.mp hg with hg | hg
      · exact hfs g hg
      · exact h g (List.mem_cons_of_mem _ hg)
  | held habove hbelow =>
      rename_i above below e
      cases above with
      | nil =>
          simp only [List.nil_append, List.cons.injEq] at hstack
          rw [hstack.1] at hf
          cases hf
      | cons a above =>
          simp only [List.cons_append, List.cons.injEq] at hstack
          obtain ⟨rfl, rfl⟩ := hstack
          rw [← List.append_assoc]
          refine .held (fun g hg => ?_) hbelow
          rcases List.mem_append.mp hg with hg | hg
          · exact hquiet rfl (habove f List.mem_cons_self) g hg
          · exact habove g (List.mem_cons_of_mem _ hg)

theorem quiet_of_held (h : LockOk true (f :: rest)) (hf : f.isPinged = false) : f.Quiet := by
  generalize hstack : f :: rest = stack at h
  generalize hheld : true = held at h
  cases h with
  | free h => cases hheld
  | held habove hbelow =>
      rename_i above below e
      cases above with
      | nil =>
          simp only [List.nil_append, List.cons.injEq] at hstack
          rw [hstack.1] at hf
          cases hf
      | cons a above =>
          simp only [List.cons_append, List.cons.injEq] at hstack
          rw [hstack.1]
          exact habove a List.mem_cons_self

theorem not_held_of_pool {isMain : Bool} (h : LockOk held (.pool isMain :: rest)) :
    held = false := by
  cases held with
  | false => rfl
  | true => exact (h.quiet_of_held rfl).elim

theorem ping {e : LookupEnv} {l : List Frame} (h : ∀ f ∈ l, f.isPinged = false) :
    LockOk true (.wait true :: .pinged e :: l) := by
  have hping : LockOk true ([.wait true] ++ .pinged e :: l) := by
    refine .held (fun f hf => ?_) h
    rw [List.mem_singleton.mp hf]
    trivial
  exact hping

theorem pinged {e : LookupEnv} {l : List Frame} (h : ∀ f ∈ l, f.isPinged = false) :
    LockOk true (.pinged e :: l) := by
  have hping : LockOk true ([] ++ .pinged e :: l) := .held (by simp) h
  exact hping

theorem of_pinged {e : LookupEnv} (h : LockOk held (.pinged e :: rest)) :
    held = true ∧ ∀ f ∈ rest, f.isPinged = false := by
  generalize hstack : Frame.pinged e :: rest = stack at h
  cases h with
  | free h =>
      subst hstack
      have := h _ List.mem_cons_self
      cases this
  | held habove hbelow =>
      rename_i above below e'
      cases above with
      | nil =>
          simp only [List.nil_append, List.cons.injEq] at hstack
          rw [hstack.2]
          exact ⟨rfl, hbelow⟩
      | cons a above =>
          simp only [List.cons_append, List.cons.injEq] at hstack
          exact (hstack.1 ▸ habove a List.mem_cons_self : (Frame.pinged e).Quiet).elim

theorem not_pinged_of_free (h : LockOk false stack) : ∀ f ∈ stack, f.isPinged = false := by
  generalize hheld : false = held at h
  cases h with
  | free h => exact h
  | held => cases hheld

theorem returnTo {reply dead : Bool} (h : LockOk held (.wait reply :: rest)) :
    LockOk held (Thread.returnTo rest dead) := by
  have hpop : LockOk held rest := h.replace rfl [] (by simp) (by simp)
  unfold Thread.returnTo
  split
  · obtain ⟨rfl, hbelow⟩ := hpop.of_pinged
    exact .pinged hbelow
  · exact hpop

end LockOk

namespace Thread

variable {s s' : Thread} {rest : List Frame}

theorem giveUp_stack {b : ℕ} {dec : Proxy → Proxy} (h : s.giveUp b dec = .ok s') :
    s'.stack = s.stack ∧ s'.held = s.held := by
  unfold giveUp at h
  split at h
  · cases h
  · split at h
    · unfold destroy at h
      split at h
      · cases h
      · obtain rfl := Except.ok.inj h
        exact ⟨rfl, rfl⟩
    · obtain rfl := Except.ok.inj h
      exact ⟨rfl, rfl⟩

theorem giveUp_ne_reentered {b : ℕ} {dec : Proxy → Proxy}
    (h : s.held → ∀ p ∈ s.table.memory b, p.mWeak ≠ 1) : s.giveUp b dec ≠ .error .reentered := by
  unfold giveUp
  cases hb : s.table.memory b with
  | none =>
      intro hc
      cases hc
  | some p =>
      simp only
      split
      · rename_i h1
        unfold destroy
        split
        · rename_i hheld
          exact absurd h1 (h hheld p hb)
        · intro hc
          cases hc
      · intro hc
        cases hc

theorem lookedUp_ne_reentered {r : Except Fault (Option ℕ × ProcessState)} :
    s.lookedUp rest r ≠ .error .reentered := by
  unfold lookedUp
  split <;> exact fun hc => by cases hc

theorem lookedUp_stack {r : Except Fault (Option ℕ × ProcessState)}
    (h : s.lookedUp rest r = .ok s') : s'.stack = rest ∧ s'.held = s.held := by
  unfold lookedUp at h
  split at h
  · cases h
  · obtain rfl := Except.ok.inj h
    exact ⟨rfl, rfl⟩

theorem addContext_ne_reentered {name : ℕ} {object : Option ℕ}
    (h : ∀ b ∈ (s.mContexts.lookup name).join, ∀ p ∈ s.table.memory b, p.mWeak ≠ 1) :
    s.addContext name object ≠ .error .reentered := by
  unfold addContext
  simp only
  split
  · rename_i b hb
    exact giveUp_ne_reentered fun _ => h b (by rw [hb]; rfl)
  · intro hc
    cases hc

theorem addContext_stack {name : ℕ} {object : Option ℕ} (h : s.addContext name object = .ok s') :
    s'.stack = s.stack := by
  unfold addContext at h
  simp only at h
  split at h
  · exact (giveUp_stack h).1
  · obtain rfl := Except.ok.inj h
    rfl

theorem takeCommand_stack {cmd : Cmd} (h : s.takeCommand = .ok (cmd, s')) :
    s'.stack = s.stack ∧ s'.held = s.held ∧ s'.table = s.table := by
  unfold takeCommand at h
  split at h <;> cases h <;> exact ⟨rfl, rfl, rfl⟩

theorem takeCommand_error {e : Stop} (h : s.takeCommand = .error e) : e ≠ .reentered := by
  unfold takeCommand at h
  split at h <;> cases h
  exact fun hc => by cases hc

/-- One step keeps the lock in order and does not take it again. -/
def Safe (r : Except Stop Thread) : Prop :=
  r ≠ .error .reentered ∧ ∀ s', r = .ok s' → LockOk s'.held s'.stack

theorem safe_error {e : Stop} (h : e ≠ .reentered) : Safe (.error e) := by
  refine ⟨fun hc => h ?_, fun s' hs' => ?_⟩
  · exact Except.error.inj hc
  · cases hs'

theorem safe_ok (h : LockOk s.held s.stack) : Safe (.ok s) := by
  refine ⟨?_, fun s' hs' => ?_⟩
  · intro hc
    cases hc
  · obtain rfl := Except.ok.inj hs'
    exact h

theorem safe_giveUp {b : ℕ} {dec : Proxy → Proxy} (h : LockOk s.held s.stack)
    (hdrop : s.held → ∀ p ∈ s.table.memory b, p.mWeak ≠ 1) : Safe (s.giveUp b dec) := by
  refine ⟨giveUp_ne_reentered hdrop, fun s' hs' => ?_⟩
  obtain ⟨h1, h2⟩ := giveUp_stack hs'
  rw [h1, h2]
  exact h

theorem safe_lookedUp {r : Except Fault (Option ℕ × ProcessState)} (h : LockOk s.held rest) :
    Safe (s.lookedUp rest r) := by
  refine ⟨lookedUp_ne_reentered, fun s' hs' => ?_⟩
  obtain ⟨h1, h2⟩ := lookedUp_stack hs'
  rw [h1, h2]
  exact h

theorem call_safe {c : Call} {l : List Call} (h : LockOk s.held s.stack)
    (hstack : s.stack = .calls (c :: l) :: rest) (hcalm : s.Calm) :
    Safe (s.call (.calls l :: rest) c) := by
  rw [hstack] at h
  have hquiet : s.held = true → (Frame.calls (c :: l)).Quiet := by
    intro hheld
    rw [hheld] at h
    exact h.quiet_of_held rfl
  have hnext : LockOk s.held (.calls l :: rest) :=
    h.replace rfl [.calls l] (by simp [Frame.isPinged]) fun _ hq g hg => by
      rw [List.mem_singleton.mp hg]
      exact fun c hc => hq c (List.mem_cons_of_mem _ hc)
  have hfree : c.takesLock = true → s.held = false := by
    intro hc
    cases hheld : s.held with
    | false => rfl
    | true =>
        have := hquiet hheld c List.mem_cons_self
        rw [hc] at this
        cases this
  have hdrop (b : ℕ) (hb : s.held → s.dropsUnderLock = some b) :
      s.held → ∀ p ∈ s.table.memory b, p.mWeak ≠ 1 := fun hheld => hcalm.2 b (hb hheld)
  cases c with
  | getStrongProxyForHandle handle e =>
      have hf := hfree rfl
      simp only [call, hf, Bool.false_eq_true, if_false]
      split
      · rw [hf] at hnext
        exact safe_ok (.ping hnext.not_pinged_of_free)
      · exact safe_lookedUp hnext
  | getWeakProxyForHandle handle e =>
      simp only [call, hfree rfl, Bool.false_eq_true, if_false]
      exact safe_lookedUp hnext
  | setContextObject name object =>
      have hf := hfree rfl
      simp only [call, hf, Bool.false_eq_true, if_false]
      rw [hf] at hnext
      have hdrops : s.dropsUnderLock = (s.mContexts.lookup name).join := by
        simp only [dropsUnderLock, hstack]
      obtain ⟨s₁, hs₁⟩ : ∃ s₁ : Thread, s₁ = { s with held := true, stack := .calls l :: rest } :=
        ⟨_, rfl⟩
      rw [← hs₁]
      have hne : s₁.addContext name object ≠ .error .reentered := by
        refine addContext_ne_reentered fun b hb => ?_
        rw [hs₁] at hb ⊢
        exact hcalm.2 b (by rw [hdrops]; exact hb)
      cases hadd : s₁.addContext name object with
      | error f =>
          rw [hadd] at hne
          refine ⟨fun hc => hne ?_, fun s' hs' => ?_⟩
          · exact hc
          · cases hs'
      | ok s₂ =>
          refine safe_ok ?_
          have hst := addContext_stack hadd
          simp only [hs₁] at hst ⊢
          rw [hst]
          exact hnext
  | lockedSection =>
      have hf := hfree rfl
      simp only [call, hf, Bool.false_eq_true, if_false]
      rw [hf] at hnext
      exact safe_ok hnext
  | decStrong b =>
      exact safe_giveUp hnext
        (hdrop b fun hheld => by simp only [dropsUnderLock, hstack, hheld, if_true])
  | decWeak b =>
      exact safe_giveUp hnext
        (hdrop b fun hheld => by simp only [dropsUnderLock, hstack, hheld, if_true])
  | transact oneWay =>
      refine safe_ok (h.replace rfl [.wait (!oneWay), .calls l] (by simp [Frame.isPinged]) ?_)
      intro hheld hq g hg
      rcases List.mem_pair.mp hg with rfl | rfl
      · trivial
      · exact fun c hc => hq c (List.mem_cons_of_mem _ hc)

/-- What executing a command does to the lock and the stack. -/
def Executes (s : Thread) (r : Except Stop (Thread × Bool)) : Prop :=
  r ≠ .error .reentered ∧
    ∀ s' ok, r = .ok (s', ok) → LockOk s'.held s'.stack ∧ s'.held = s.held ∧
      (ok = false → s'.stack = s.stack)

theorem executes_of_same {s s' : Thread} {ok : Bool} (h : LockOk s.held s.stack)
    (hheld : s'.held = s.held) (hstack : s'.stack = s.stack) : Executes s (.ok (s', ok)) := by
  refine ⟨fun hc => ?_, fun s'' ok' hr => ?_⟩
  · cases hc
  · cases hr
    refine ⟨?_, hheld, fun _ => hstack⟩
    rw [hheld, hstack]
    exact h

theorem executes_push {fs : List Frame} (h : LockOk s.held s.stack)
    {f : Frame} (hstack : s.stack = f :: rest) (hf : f.isPinged = false)
    (hfs : ∀ g ∈ fs, g.isPinged = false) (hquiet : s.held = true → ∀ g ∈ fs, g.Quiet) :
    Executes s (.ok ({ s with stack := fs ++ s.stack }, true)) := by
  refine ⟨fun hc => ?_, fun s' ok hr => ?_⟩
  · cases hc
  · cases hr
    refine ⟨?_, rfl, fun hc => ?_⟩
    · have hpush : LockOk s.held ((fs ++ [f]) ++ rest) := by
        rw [hstack] at h
        refine h.replace hf (fs ++ [f]) ?_ ?_
        · intro g hg
          rcases List.mem_append.mp hg with hg | hg
          · exact hfs g hg
          · rw [List.mem_singleton.mp hg]
            exact hf
        · intro hheld hq g hg
          rcases List.mem_append.mp hg with hg | hg
          · exact hquiet hheld g hg
          · rw [List.mem_singleton.mp hg]
            exact hq
      simp only
      rw [hstack]
      simpa using hpush
    · cases hc

theorem executeCommand_safe {f : Frame} {cmd : Cmd} (h : LockOk s.held s.stack)
    (hstack : s.stack = f :: rest) (hf : f.isPinged = false)
    (hcalls : s.held → ∀ c ∈ cmd.calls, c.takesLock = false)
    (hdrop : ∀ b, cmd = .clearDeathNotificationDone b → s.held →
      ∀ p ∈ s.table.memory b, p.mWeak ≠ 1) : Executes s (s.executeCommand cmd) := by
  cases cmd with
  | transaction handler cleanup oneWay =>
      have hpush : Executes s (.ok ({ s with stack := (.calls handler ::
          (if oneWay then [] else [Frame.sendReply]) ++ [.calls cleanup]) ++ s.stack }, true)) := by
        refine executes_push h hstack hf ?_ ?_
        · cases oneWay <;> simp [Frame.isPinged]
        · intro hheld g hg
          have hcalm := hcalls hheld
          simp only [Cmd.calls, List.mem_append] at hcalm
          simp only [List.cons_append, List.mem_cons, List.mem_append, List.not_mem_nil,
            or_false] at hg
          rcases hg with rfl | hg | rfl
          · exact fun c hc => hcalm c (.inl hc)
          · cases oneWay with
            | true => simp at hg
            | false =>
                simp only [Bool.false_eq_true, if_false, List.mem_singleton] at hg
                rw [hg]
                trivial
          · exact fun c hc => hcalm c (.inr hc)
      simpa [executeCommand] using hpush
  | deadBinder recipients =>
      have hpush : Executes s (.ok ({ s with stack := [.calls recipients] ++ s.stack }, true)) := by
        refine executes_push h hstack hf (by simp [Frame.isPinged]) fun hheld g hg => ?_
        rw [List.mem_singleton.mp hg]
        exact hcalls hheld
      exact hpush
  | clearDeathNotificationDone proxy =>
      have hne : s.giveUp proxy Proxy.decWeak ≠ .error .reentered :=
        (safe_giveUp h (hdrop proxy rfl)).1
      simp only [executeCommand]
      cases hgive : s.giveUp proxy Proxy.decWeak with
      | error e =>
          rw [hgive] at hne
          refine ⟨fun hc => hne ?_, fun s' ok hr => ?_⟩
          · exact congrArg _ (Except.error.inj hc)
          · cases hr
      | ok s₁ =>
          obtain ⟨h1, h2⟩ := giveUp_stack hgive
          exact executes_of_same h h2 h1
  | _ => exact executes_of_same h rfl rfl

theorem respond_safe {reply : Bool} {cmd : Cmd} (h : LockOk s.held s.stack)
    (hstack : s.stack = .wait reply :: rest)
    (hcalls : s.held → ∀ c ∈ cmd.calls, c.takesLock = false)
    (hdrop : ∀ b, cmd = .clearDeathNotificationDone b → s.held →
      ∀ p ∈ s.table.memory b, p.mWeak ≠ 1) : Safe (s.respond reply rest cmd) := by
  have hreturn (dead : Bool) : LockOk s.held (returnTo rest dead) := by
    rw [hstack] at h
    exact h.returnTo
  have hexec := executeCommand_safe h hstack rfl hcalls hdrop
  have hdefault : Safe ((s.executeCommand cmd).map fun r =>
      if r.2 then r.1 else { r.1 with stack := returnTo rest false }) := by
    obtain ⟨hne, hok⟩ := hexec
    cases hcmd : s.executeCommand cmd with
    | error e =>
        rw [hcmd] at hne
        refine ⟨fun hc => hne ?_, fun s' hs' => ?_⟩
        · exact congrArg _ (Except.error.inj hc)
        · cases hs'
    | ok r =>
        obtain ⟨s₁, ok⟩ := r
        obtain ⟨h1, h2, h3⟩ := hok s₁ ok hcmd
        refine safe_ok ?_
        cases ok with
        | true => exact h1
        | false =>
            simp only [Bool.false_eq_true, if_false]
            rw [h2]
            exact hreturn false
  cases cmd with
  | transactionComplete =>
      simp only [respond]
      split
      · exact safe_ok h
      · exact safe_ok (hreturn false)
  | deadReply => exact safe_ok (hreturn true)
  | failedReply => exact safe_ok (hreturn false)
  | acquireResult => exact safe_ok h
  | reply =>
      simp only [respond]
      split
      · exact safe_ok (hreturn false)
      · exact safe_ok h
  | _ => exact hdefault

theorem waitStep_safe {reply : Bool} (h : LockOk s.held s.stack)
    (hstack : s.stack = .wait reply :: rest) (hcalm : s.Calm) : Safe (s.waitStep reply rest) := by
  unfold waitStep
  cases hcmd : s.takeCommand with
  | error e => exact safe_error (takeCommand_error hcmd)
  | ok r =>
      obtain ⟨cmd, s₁⟩ := r
      obtain ⟨h1, h2, h3⟩ := takeCommand_stack hcmd
      have hnext : s.nextCommand = some cmd := by
        simp only [nextCommand, hstack, hcmd]
        rfl
      refine respond_safe (by rw [h1, h2]; exact h) (h1.trans hstack) ?_ ?_
      · intro hheld
        exact hcalm.1 (h2 ▸ hheld) cmd hnext
      · intro b hb hheld
        rw [h3]
        refine hcalm.2 b ?_
        rw [h2] at hheld
        simp only [dropsUnderLock, hstack, hcmd, hb, hheld]
        rfl

theorem executeNext_safe {isMain : Bool} (h : LockOk s.held s.stack)
    (hstack : s.stack = .pool isMain :: rest) : Safe (s.executeNext isMain rest) := by
  have hheld : s.held = false := by
    rw [hstack] at h
    exact h.not_held_of_pool
  unfold executeNext
  cases hcmd : s.takeCommand with
  | error e => exact safe_error (takeCommand_error hcmd)
  | ok r =>
      obtain ⟨cmd, s₁⟩ := r
      obtain ⟨h1, h2, h3⟩ := takeCommand_stack hcmd
      have hfree : s₁.held = false := h2.trans hheld
      have hlock : LockOk s₁.held s₁.stack := by
        rw [h1, h2]
        exact h
      obtain ⟨hne, hok⟩ : Executes s₁ (s₁.executeCommand cmd) :=
        executeCommand_safe hlock (h1.trans hstack) rfl (fun hc => absurd hc (by simp [hfree]))
          fun _ _ hc => absurd hc (by simp [hfree])
      simp only
      cases hexec : s₁.executeCommand cmd with
      | error e =>
          rw [hexec] at hne
          exact safe_error fun hc => hne (congrArg _ hc)
      | ok r =>
          obtain ⟨s₂, ok⟩ := r
          obtain ⟨h4, h5, h6⟩ := hok s₂ ok hexec
          cases ok with
          | true => exact safe_ok h4
          | false =>
              simp only
              split
              · refine safe_ok ?_
                simp only
                rw [h6 rfl, h1, hstack] at h4
                split
                · exact h4
                · exact h4.replace rfl [] (by simp) (by simp)
              · exact safe_error fun hc => by cases hc

theorem poolStep_safe {isMain : Bool} (h : LockOk s.held s.stack)
    (hstack : s.stack = .pool isMain :: rest) : Safe (s.poolStep isMain rest) := by
  unfold poolStep
  split
  · have hheld : s.held = false := by
      rw [hstack] at h
      exact h.not_held_of_pool
    refine safe_ok ?_
    rw [hstack] at h
    refine h.replace rfl [.calls _, .pool isMain] (by simp [Frame.isPinged]) fun hc => ?_
    rw [hheld] at hc
    cases hc
  · exact executeNext_safe h hstack

theorem step_safe (h : LockOk s.held s.stack) (hcalm : s.Calm) : Safe s.step := by
  unfold step
  cases hstack : s.stack with
  | nil => exact safe_error fun hc => by cases hc
  | cons f rest =>
      cases f with
      | calls l =>
          cases l with
          | nil =>
              rw [hstack] at h
              exact safe_ok (h.replace rfl [] (by simp) (by simp))
          | cons c l => exact call_safe h hstack hcalm
      | sendReply =>
          rw [hstack] at h
          refine safe_ok (h.replace rfl [.wait false] (by simp [Frame.isPinged]) ?_)
          intro _ _ g hg
          rw [List.mem_singleton.mp hg]
          trivial
      | pinged e =>
          rw [hstack] at h
          exact safe_lookedUp (.free h.of_pinged.2)
      | wait reply => exact waitStep_safe h hstack hcalm
      | pool isMain => exact poolStep_safe h hstack

end Thread

def Thread.stops (s : Thread) : Option Stop :=
  match s.step with
  | .error e => some e
  | .ok _ => none

theorem Thread.step_of_stops {s : Thread} {e : Stop} (h : s.stops = some e) :
    s.step = .error e := by
  unfold stops at h
  split at h
  · rename_i e' he
    rw [he, Option.some.inj h]
  · cases h

/-- A thread outside the library, which holds no lock. -/
structure Thread.Starts (s : Thread) : Prop where
  free : s.held = false
  outside : ∀ f ∈ s.stack, f.isPinged = false

/-- In a run in which no user's code that runs while the ping waits calls a function that takes
`mLock`, and no reference dropped under `mLock` is the last one of its proxy, the thread never
takes `mLock` while it holds it. -/
theorem lock_not_reentered {s₀ s : Thread} (hs₀ : s₀.Starts)
    (h : Reach (fun s (_ : Unit) => s.step) (fun s _ => s.Calm) s₀ s) (hcalm : s.Calm) :
    s.step ≠ .error .reentered := by
  have hlock : LockOk s.held s.stack := by
    refine h.invariant ?_ fun s _ s' hs hok hstep => (Thread.step_safe hs hok).2 s' hstep
    rw [hs₀.free]
    exact .free hs₀.outside
  exact (Thread.step_safe hlock hcalm).1

/-- A process whose only proxy, for handle 7 at address 1, has the references `weak`. -/
def oneProxy (weak : ℤ) : ProcessState where
  mHandleToObject := List.replicate 7 ⟨none, none⟩ ++ [⟨some 1, some 1⟩]
  memory := fun a => if a = 1 then some ⟨7, RefBase.initialStrongValue, weak, .alive⟩ else none

/-- A thread that looks handle 0 up, with a command of the driver that completes the clearing
of a death notification, and then the answer to the ping. -/
def clearsWhilePinging (weak : ℤ) : Thread where
  stack := [.calls [.getStrongProxyForHandle 0 ⟨true, some 2, false⟩]]
  mIn := []
  driver := [[.noop, .clearDeathNotificationDone 1, .transactionComplete], [.reply]]
  pendingDerefs := []
  held := false
  table := oneProxy weak
  mContexts := []

theorem lock_not_reentered_cleared :
    ∃ s, Reach (fun s (_ : Unit) => s.step) (fun s _ => s.Calm) (clearsWhilePinging 2) s ∧
      s.held = true ∧ s.nextCommand = some (.clearDeathNotificationDone 1) ∧
      s.step ≠ .error .reentered := by
  obtain ⟨s, hrun, hs⟩ := Option.map_eq_some_iff.mp
    (show (runChecked (fun s (_ : Unit) => Thread.step s) (fun s _ => s.Calm)
        (clearsWhilePinging 2) [(), ()]).map
      (fun s => (decide s.Calm, s.held, s.nextCommand)) =
        some (true, true, some (.clearDeathNotificationDone 1)) by decide +kernel)
  simp only [Prod.mk.injEq, decide_eq_true_eq] at hs
  obtain ⟨hcalm, hheld, hnext⟩ := hs
  have hreach := reach_of_runChecked hrun
  have hstarts : (clearsWhilePinging 2).Starts := ⟨rfl, by decide⟩
  exact ⟨s, hreach, hheld, hnext, lock_not_reentered hstarts hreach hcalm⟩

/-- The death notification held the last reference: its proxy is destroyed under the lock. -/
theorem lock_reentered_by_last_reference :
    (clearsWhilePinging 1).Starts ∧
      ∃ s, Reach (fun s (_ : Unit) => s.step) (fun _ _ => True) (clearsWhilePinging 1) s ∧
        s.step = .error .reentered := by
  refine ⟨⟨rfl, by decide⟩, ?_⟩
  obtain ⟨s, hrun, hs⟩ := Option.map_eq_some_iff.mp
    (show (runChecked (fun s (_ : Unit) => Thread.step s) (fun _ _ => True)
        (clearsWhilePinging 1) [(), ()]).map Thread.stops = some (some .reentered) by
      decide +kernel)
  exact ⟨s, reach_of_runChecked hrun, Thread.step_of_stops hs⟩

end ProxyLock

end BinderForLinux
