import BinderForLinux.Driver.Deaths.Commands
import Mathlib.Algebra.Order.Group.Multiset
import Mathlib.Tactic.Abel

/-!
# `BpBinder`

The death recipients of a proxy, and the notification that the driver keeps for it. A proxy
asks for the notification with its first recipient and clears it with the last one, or when it
is told of the death. Its calls are serialized by its lock, under which their commands are
flushed.
-/

namespace BinderForLinux

namespace Proxy

open Library Driver

/-- `BpBinder::Obituary`, with a weak pointer to its recipient. -/
structure Obituary where
  recipient : ℕ
  cookie : ℕ
  flags : ℕ
deriving DecidableEq, Repr

inductive Status
  | noError
  | noMemory
  | deadObject
  | nameNotFound
deriving DecidableEq, Repr

structure BpBinder where
  mHandle : ℕ
  /-- The address of the proxy, which is its cookie in the driver. -/
  this : ℕ
  mAlive : Bool
  mObitsSent : Bool
  mObituaries : Option (List Obituary)
deriving DecidableEq, Repr

/-- The calls of `IPCThreadState::requestDeathNotification` and `clearDeathNotification`. -/
inductive DeathCall
  | request (handle proxy : ℕ)
  | clear (handle proxy : ℕ)
deriving DecidableEq, Repr

def BpBinder.new (handle this : ℕ) : BpBinder where
  mHandle := handle
  this := this
  mAlive := true
  mObitsSent := false
  mObituaries := none

/-- `linkToDeath`: the status, the proxy after it and the call whose command is flushed. The
allocation of the vector may fail, and so may the addition to it. -/
def BpBinder.linkToDeath (b : BpBinder) (ob : Obituary) (newVector added : Bool) :
    Status × BpBinder × Option DeathCall :=
  if b.mObitsSent then (.deadObject, b, none)
  else
    let add (l : List Obituary) : Status × BpBinder :=
      if added then (.noError, { b with mObituaries := some (l ++ [ob]) })
      else (.noMemory, { b with mObituaries := some l })
    match b.mObituaries with
    | none =>
        if !newVector then (.noMemory, b, none)
        else ((add []).1, (add []).2, some (.request b.mHandle b.this))
    | some l => ((add l).1, (add l).2, none)

/-- The entry is the one that `unlinkToDeath` looks for. -/
def Obituary.matches (recipient : Option ℕ) (cookie flags : ℕ) (ob : Obituary) : Bool :=
  (some ob.recipient = recipient || (recipient.isNone && ob.cookie = cookie)) && ob.flags = flags

/-- `unlinkToDeath`: the status, the proxy after it, the call whose command is flushed and the
entry that is removed. -/
def BpBinder.unlinkToDeath (b : BpBinder) (recipient : Option ℕ) (cookie flags : ℕ) :
    Status × BpBinder × Option DeathCall × Option Obituary :=
  if b.mObitsSent then (.deadObject, b, none, none)
  else
    let l := b.mObituaries.getD []
    match l.find? (Obituary.matches recipient cookie flags) with
    | none => (.nameNotFound, b, none, none)
    | some ob =>
        let l := l.eraseP (Obituary.matches recipient cookie flags)
        if l.isEmpty then
          (.noError, { b with mObituaries := none },
            some (.clear b.mHandle b.this), some ob)
        else (.noError, { b with mObituaries := some l }, none, some ob)

/-- The part of `sendObituary` under the lock: the proxy after it, the call whose command is
flushed and the entries to report, unless the obituary was sent before. -/
def BpBinder.sendObituary (b : BpBinder) :
    BpBinder × Option DeathCall × Option (List Obituary) :=
  let b := { b with mAlive := false }
  if b.mObitsSent then (b, none, none)
  else
    ({ b with mObituaries := none, mObitsSent := true },
      b.mObituaries.map fun _ => .clear b.mHandle b.this,
      some (b.mObituaries.getD []))

/-! ### Calls -/

inductive ProxyCall
  | linkToDeath (ob : Obituary) (newVector added : Bool)
  | unlinkToDeath (recipient : Option ℕ) (cookie flags : ℕ)
  | sendObituary

/-- A proxy, with the calls whose commands were flushed, the entries for which `linkToDeath`
returned `NO_ERROR`, those that were removed and those that were reported. -/
structure Ledger where
  proxy : BpBinder
  sent : List DeathCall
  linked : List Obituary
  removed : List Obituary
  reported : List Obituary

def Ledger.start (handle this : ℕ) : Ledger := ⟨.new handle this, [], [], [], []⟩

def Ledger.call (w : Ledger) : ProxyCall → Ledger
  | .linkToDeath ob newVector added =>
      let r := w.proxy.linkToDeath ob newVector added
      { w with
        proxy := r.2.1
        sent := w.sent ++ r.2.2.toList
        linked := if r.1 = .noError then w.linked ++ [ob] else w.linked }
  | .unlinkToDeath recipient cookie flags =>
      let r := w.proxy.unlinkToDeath recipient cookie flags
      { w with
        proxy := r.2.1
        sent := w.sent ++ r.2.2.1.toList
        removed := w.removed ++ r.2.2.2.toList }
  | .sendObituary =>
      let r := w.proxy.sendObituary
      { w with
        proxy := r.1
        sent := w.sent ++ r.2.1.toList
        reported := w.reported ++ r.2.2.getD [] }

def Ledger.run (handle this : ℕ) (calls : List ProxyCall) : Ledger :=
  calls.foldl Ledger.call (.start handle this)

/-- The call that has written a command. Whether the driver has memory for the notification is
not known to the caller. -/
def deathCall : Command → Option DeathCall
  | .requestDeathNotification handle cookie _ => some (.request handle cookie)
  | .clearDeathNotification handle cookie => some (.clear handle cookie)
  | _ => none

/-- The driver had memory for the notification that was asked for last. -/
def granted (cmds : List Command) : Bool :=
  cmds.foldl (fun g c =>
    match c with
    | .requestDeathNotification _ _ alloc => alloc
    | _ => g) false

/-- What the driver has registered after the commands: the proxy with recipients, if there was
memory. -/
def expected (this : ℕ) (obits : Option (List Obituary)) (cmds : List Command) : Option ℕ :=
  if obits.isSome && granted cmds then some this else none

/-- Every entry is somewhere, and the calls follow the entries. -/
structure Ledger.Balanced (handle this : ℕ) (w : Ledger) : Prop where
  names : w.proxy.mHandle = handle ∧ w.proxy.this = this
  entries : (w.linked : Multiset Obituary) =
    ↑(w.proxy.mObituaries.getD []) + ↑w.removed + ↑w.reported
  registered : ∀ cmds : List Command, cmds.map deathCall = w.sent.map some →
    cmds.foldl (Command.registers handle) none = expected this w.proxy.mObituaries cmds
  silent : w.proxy.mObitsSent = true → w.proxy.mObituaries = none
  unreported : w.proxy.mObitsSent = false → w.reported = []

section Balanced

variable {handle this : ℕ} {w : Ledger} {obits obits' : Option (List Obituary)}
  {old new : List Command}

theorem registers_request (l : List Obituary)
    (hnew : new.map deathCall = [DeathCall.request handle this].map some)
    (hold : old.foldl (Command.registers handle) none = expected this none old) :
    (old ++ new).foldl (Command.registers handle) none =
      expected this (some l) (old ++ new) := by
  obtain ⟨c, rfl, hc⟩ := List.map_eq_singleton_iff.mp hnew
  cases c <;> simp only [deathCall, Option.some.injEq, DeathCall.request.injEq, reduceCtorEq] at hc
  obtain ⟨rfl, rfl⟩ := hc
  rename_i alloc
  rw [List.foldl_append, hold]
  cases alloc <;> simp [expected, Command.registers, granted, List.foldl_append]

theorem registers_clear (hnew : new.map deathCall = [DeathCall.clear handle this].map some)
    (hold : old.foldl (Command.registers handle) none = expected this obits old) :
    (old ++ new).foldl (Command.registers handle) none = expected this none (old ++ new) := by
  obtain ⟨c, rfl, hc⟩ := List.map_eq_singleton_iff.mp hnew
  cases c <;> simp only [deathCall, Option.some.injEq, DeathCall.clear.injEq, reduceCtorEq] at hc
  obtain ⟨rfl, rfl⟩ := hc
  rw [List.foldl_append, hold, expected]
  split <;> simp [expected, Command.registers]

theorem registers_nil (hsome : obits'.isSome = obits.isSome)
    (hnew : new.map deathCall = ([] : List DeathCall).map some)
    (hold : old.foldl (Command.registers handle) none = expected this obits old) :
    (old ++ new).foldl (Command.registers handle) none =
      expected this obits' (old ++ new) := by
  obtain rfl : new = [] := List.map_eq_nil_iff.mp hnew
  rw [List.append_nil, hold, expected, expected, hsome]

theorem balanced_start (handle this : ℕ) : (Ledger.start handle this).Balanced handle this where
  names := ⟨rfl, rfl⟩
  entries := rfl
  registered := fun cmds hcmds => by
    obtain rfl : cmds = [] := List.map_eq_nil_iff.mp hcmds
    rfl
  silent := fun h => (by cases h)
  unreported := fun _ => rfl

theorem Ledger.Balanced.change (h : w.Balanced handle this) (hsent : w.proxy.mObitsSent = false)
    (obits : Option (List Obituary)) (calls : List DeathCall) (linked removed : List Obituary)
    (hentries : (w.proxy.mObituaries.getD [] : Multiset Obituary) + ↑linked =
      ↑(obits.getD []) + ↑removed)
    (hreg : ∀ old new : List Command, new.map deathCall = calls.map some →
      old.foldl (Command.registers handle) none = expected this w.proxy.mObituaries old →
      (old ++ new).foldl (Command.registers handle) none = expected this obits (old ++ new)) :
    Ledger.Balanced handle this ⟨{ w.proxy with mObituaries := obits }, w.sent ++ calls,
      w.linked ++ linked, w.removed ++ removed, w.reported⟩ where
  names := h.names
  entries := by
    have hsum : (w.linked : Multiset Obituary) + ↑linked =
        ↑(w.proxy.mObituaries.getD []) + ↑linked + (↑w.removed + ↑w.reported) := by
      rw [h.entries]
      abel
    simp only [← Multiset.coe_add]
    rw [hsum, hentries]
    abel
  registered := fun cmds hcmds => by
    rw [List.map_append] at hcmds
    obtain ⟨old, new, rfl, hold, hnew⟩ := List.map_eq_append_iff.mp hcmds
    exact hreg old new hnew (h.registered old hold)
  silent := fun hno => absurd (hsent.symm.trans hno) (by decide)
  unreported := fun _ => h.unreported hsent

theorem Ledger.Balanced.linkToDeath (h : w.Balanced handle this) (ob : Obituary)
    (newVector added : Bool) : (w.call (.linkToDeath ob newVector added)).Balanced handle this := by
  obtain ⟨hhandle, hthis⟩ := h.names
  cases hsent : w.proxy.mObitsSent with
  | true => simpa [Ledger.call, BpBinder.linkToDeath, hsent] using h
  | false =>
      cases hob : w.proxy.mObituaries with
      | none =>
          cases newVector with
          | false => simpa [Ledger.call, BpBinder.linkToDeath, hsent, hob] using h
          | true =>
              have hchange := h.change hsent (some (if added then [ob] else []))
                [.request handle this] (if added then [ob] else []) [] (by simp [hob])
                fun _ _ hnew hold => registers_request _ hnew (hob ▸ hold)
              cases added <;>
                simpa [Ledger.call, BpBinder.linkToDeath, hsent, hob, hhandle, hthis] using hchange
      | some l =>
          have hchange := h.change hsent (some (l ++ if added then [ob] else [])) []
            (if added then [ob] else []) []
            (by simp [hob]) fun _ _ => registers_nil (by rw [hob]; rfl)
          cases added <;> simpa [Ledger.call, BpBinder.linkToDeath, hsent, hob] using hchange

theorem Ledger.Balanced.unlinkToDeath (h : w.Balanced handle this) (recipient : Option ℕ)
    (cookie flags : ℕ) : (w.call (.unlinkToDeath recipient cookie flags)).Balanced handle this := by
  obtain ⟨hhandle, hthis⟩ := h.names
  cases hsent : w.proxy.mObitsSent with
  | true => simpa [Ledger.call, BpBinder.unlinkToDeath, hsent] using h
  | false =>
      cases hob : w.proxy.mObituaries with
      | none => simpa [Ledger.call, BpBinder.unlinkToDeath, hsent, hob] using h
      | some l =>
          cases hfind : l.find? (Obituary.matches recipient cookie flags) with
          | none => simpa [Ledger.call, BpBinder.unlinkToDeath, hsent, hob, hfind] using h
          | some ob =>
              have herase : (l : Multiset Obituary) =
                  ↑(l.eraseP (Obituary.matches recipient cookie flags)) + ↑[ob] := by
                obtain ⟨hmatches, l₁, l₂, rfl, hbefore⟩ := List.find?_eq_some_iff_append.mp hfind
                have hnot : ∀ x ∈ l₁, ¬ Obituary.matches recipient cookie flags x = true :=
                  fun x hx => by simpa using hbefore x hx
                rw [List.eraseP_append_right _ hnot, List.eraseP_cons_of_pos hmatches]
                simp only [← Multiset.coe_add, ← Multiset.cons_coe, Multiset.coe_nil]
                rw [← Multiset.singleton_add, Multiset.cons_zero]
                abel
              cases hempty : (l.eraseP (Obituary.matches recipient cookie flags)).isEmpty with
              | true =>
                  have hchange := h.change hsent none [.clear handle this] [] [ob]
                    (by simpa [hob, List.isEmpty_iff.mp hempty] using herase)
                    fun _ _ => registers_clear
                  simpa [Ledger.call, BpBinder.unlinkToDeath, hsent, hob, hfind, hempty, hhandle,
                    hthis] using hchange
              | false =>
                  have hchange := h.change hsent
                    (some (l.eraseP (Obituary.matches recipient cookie flags))) [] [] [ob]
                    (by simpa [hob] using herase) fun _ _ => registers_nil (by rw [hob]; rfl)
                  simpa [Ledger.call, BpBinder.unlinkToDeath, hsent, hob, hfind, hempty] using
                    hchange

theorem Ledger.Balanced.sendObituary (h : w.Balanced handle this) :
    (w.call .sendObituary).Balanced handle this := by
  obtain ⟨hnames, hentries, hreg, hsilent, hunreported⟩ := h
  obtain ⟨hhandle, hthis⟩ := hnames
  cases hsent : w.proxy.mObitsSent with
  | true =>
      have hcall : w.call .sendObituary = { w with proxy := { w.proxy with mAlive := false } } := by
        simp [Ledger.call, BpBinder.sendObituary, hsent]
      rw [hcall]
      exact ⟨⟨hhandle, hthis⟩, hentries, hreg, hsilent, hunreported⟩
  | false =>
      have hcall : w.call .sendObituary =
          ⟨{ w.proxy with mAlive := false, mObitsSent := true, mObituaries := none },
            w.sent ++ (w.proxy.mObituaries.map fun _ =>
              DeathCall.clear handle this).toList,
            w.linked, w.removed, w.proxy.mObituaries.getD []⟩ := by
        simp [Ledger.call, BpBinder.sendObituary, hsent, hunreported hsent, hhandle, hthis]
      rw [hcall]
      rw [hunreported hsent] at hentries
      refine ⟨⟨hhandle, hthis⟩, ?_, ?_, fun _ => rfl, fun hf => (by cases hf)⟩
      · simp only [hentries, Option.getD_none, Multiset.coe_nil]
        abel
      · intro cmds hcmds
        rw [List.map_append] at hcmds
        obtain ⟨old, new, rfl, hold, hnew⟩ := List.map_eq_append_iff.mp hcmds
        cases hob : w.proxy.mObituaries with
        | none =>
            rw [hob] at hnew
            exact registers_nil (by rw [hob]) hnew (hreg old hold)
        | some l =>
            rw [hob] at hnew
            exact registers_clear hnew (hreg old hold)

theorem Ledger.balanced_run (handle this : ℕ) (calls : List ProxyCall) :
    (Ledger.run handle this calls).Balanced handle this := by
  unfold Ledger.run
  induction calls using List.reverseRecOn with
  | nil => exact balanced_start handle this
  | append_singleton calls c ih =>
      rw [List.foldl_append]
      cases c with
      | linkToDeath ob newVector added => exact ih.linkToDeath ob newVector added
      | unlinkToDeath recipient cookie flags => exact ih.unlinkToDeath recipient cookie flags
      | sendObituary => exact ih.sendObituary

end Balanced

/-! ### The proxy and the driver -/

/-- The command is about the notification of the handle. -/
def asksAbout (handle : ℕ) : Command → Bool
  | .requestDeathNotification h _ _ => h = handle
  | .clearDeathNotification h _ => h = handle
  | _ => false

/-- The commands of a process about the notification of a handle. -/
def askedFor (p : ProcId) (handle : ℕ) (h : List Obs) : List Command :=
  h.filterMap fun x =>
    match x with
    | .wrote q _ c => if q = p ∧ asksAbout handle c = true then some c else none
    | _ => none

theorem foldl_registers_askedFor (p : ProcId) (handle : ℕ) (h : List Obs) (reg : Option ℕ) :
    h.foldl (Obs.registers p handle) reg =
      (askedFor p handle h).foldl (Command.registers handle) reg := by
  induction h generalizing reg with
  | nil => rfl
  | cons x h ih =>
      rw [List.foldl_cons, ih]
      unfold askedFor
      cases x with
      | wrote q th c =>
          have hother : asksAbout handle c = false → c.registers handle reg = reg := by
            cases c <;> simp [asksAbout, Command.registers] <;> intro hne <;> simp [hne]
          by_cases hq : q = p
          · cases hc : asksAbout handle c <;> simp [hq, hc, Obs.registers, hother]
          · simp [hq, Obs.registers]
      | _ => simp [Obs.registers]

/-- As long as a process asks about a handle what its proxy for it asks, in the same order, the
driver keeps the proxy's notification just as long as the proxy has recipients, if it had memory
for it when it was asked; and every recipient that was accepted is still there, was removed or was
told, once. -/
theorem noticeOf_of_proxy {L : Layout} {s₀ s : State} {h₀ h : List Obs} {r : RefId} {rf₀ rf : Ref}
    (hreach₀ : Reach (loggedStep L) (fun _ _ => True) (State.init, []) (s₀, h₀))
    (hreach : Reach (loggedStep L) (fun _ _ => True) (s₀, h₀) (s, h₀ ++ h))
    (hrf₀ : s₀.refs r = some rf₀) (hnone : s₀.noticeOf r = none) (hrf : s.refs r = some rf)
    (this : ℕ) (calls : List ProxyCall)
    (hcalls : (askedFor rf₀.proc rf₀.desc h).map deathCall =
      (Ledger.run rf₀.desc this calls).sent.map some) :
    let w := Ledger.run rf₀.desc this calls
    s.noticeOf r = (if w.proxy.mObituaries.isSome && granted (askedFor rf₀.proc rf₀.desc h) then
        some this else none) ∧
      (w.linked : Multiset Obituary) =
        ↑(w.proxy.mObituaries.getD []) + ↑w.removed + ↑w.reported := by
  have hbalanced := Ledger.balanced_run rf₀.desc this calls
  obtain ⟨h', happend, hall⟩ := registers_of_reach hreach₀ hreach hrf₀
  obtain rfl := List.append_cancel_left happend
  refine ⟨?_, hbalanced.entries⟩
  rw [(hall rf hrf).2, hnone, foldl_registers_askedFor, hbalanced.registered _ hcalls, expected]

def requestOf : Command → Option (ℕ × ℕ × Bool)
  | .requestDeathNotification h k alloc => some (h, k, alloc)
  | _ => none

theorem eq_of_requestOf {c : Command} {h k : ℕ} {alloc : Bool}
    (hc : requestOf c = some (h, k, alloc)) : c = .requestDeathNotification h k alloc := by
  cases c <;> simp_all [requestOf]

set_option synthInstance.maxSize 1024 in
/-- Two recipients are linked and one is removed, by a process that has counted on handle 0. -/
theorem noticeOf_of_proxy_two : ∃ s₀ h₀ s h,
    runChecked (loggedStep Layout.x86) (fun _ _ => True) (s₀, h₀)
        [.write 1 20 [.requestDeathNotification 0 77 true]] = some (s, h₀ ++ h) ∧
      s.noticeOf 5 = some 77 := by
  obtain ⟨⟨s₀, h₀⟩, hrun₀, hx⟩ := Option.map_eq_some_iff.mp
    (show (runChecked (loggedStep Layout.x86) (fun _ _ => True) (State.init, [])
      [.open 100, .open 200, .ioctl 0 10 true (.setContextMgr 0 true true),
        .write 1 20 [.acquire 0 true]]).map
      (fun x => ((x.1.refs 5).map fun rf => (rf.proc, rf.desc), x.1.noticeOf 5,
        (runChecked (loggedStep Layout.x86) (fun _ _ => True) x
          [.write 1 20 [.requestDeathNotification 0 77 true]]).map fun y =>
            ((y.1.refs 5).map Ref.proc, (askedFor 1 0 (y.2.drop x.2.length)).map requestOf))) =
      some (some (1, 0), none, some (some 1, [some (0, 77, true)]))
      by decide +kernel)
  simp only [Prod.mk.injEq] at hx
  obtain ⟨rf₀, hrf₀, hfields⟩ := Option.map_eq_some_iff.mp hx.1
  obtain ⟨⟨s, g⟩, hrun, hy⟩ := Option.map_eq_some_iff.mp hx.2.2
  simp only [Prod.mk.injEq] at hfields hy
  obtain ⟨hproc, hdesc⟩ := hfields
  obtain ⟨rf, hrf, -⟩ := Option.map_eq_some_iff.mp hy.1
  have hreach₀ := reach_of_runChecked hrun₀
  obtain ⟨h, rfl, -⟩ := registers_of_reach hreach₀ (reach_of_runChecked hrun) hrf₀
  rw [List.drop_left] at hy
  obtain ⟨c, hasked, hc⟩ := List.map_eq_singleton_iff.mp hy.2
  refine ⟨s₀, h₀, s, h, hrun, ?_⟩
  have hnotice := (noticeOf_of_proxy hreach₀ (reach_of_runChecked hrun) hrf₀ hx.2.1 hrf 77
    [.linkToDeath ⟨1, 0, 0⟩ true true, .linkToDeath ⟨2, 0, 0⟩ true true,
      .unlinkToDeath (some 1) 0 0] (by
      rw [hproc, hdesc, hasked, eq_of_requestOf hc]
      rfl)).1
  rw [hproc, hdesc, hasked, eq_of_requestOf hc] at hnotice
  exact hnotice

end Proxy

end BinderForLinux
