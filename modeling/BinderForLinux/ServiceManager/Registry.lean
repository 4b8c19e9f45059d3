import BinderForLinux.Library.History
import BinderForLinux.ServiceManager.Formats
import BinderForLinux.ServiceManager.Outcomes

/-!
# The registry

Whatever clients send and whoever dies, a name is found with the handle of the last
service that was added for it, until the death of a service is reported for its entry.
The service manager gives back every handle it took and has no entry for, and answers
each transaction once.
-/

namespace BinderForLinux

namespace ServiceManager

open Library

open Driver (ReturnCommand returnBytes)

/-! ### Turns -/

/-- What the service manager is given to do. -/
inductive Turn
  | transaction (txn : Txn) (buffer : ℕ) (malloc : Option ℕ) (io : BinderIo) (rdata : ℕ → UInt8)
  | death (cookie : ℕ)

def Manager.turn (mgr : Manager) : Turn → Except Crash Manager
  | .transaction txn buffer malloc io rdata => .ok (mgr.transact txn buffer malloc io rdata)
  | .death cookie => mgr.die cookie

/-- The address that `malloc` returns if it is called. -/
def Turn.malloc : Turn → Option ℕ
  | .transaction _ _ malloc _ _ => malloc
  | .death _ => none

def Turn.buffer : Turn → Option ℕ
  | .transaction _ buffer _ _ _ => some buffer
  | .death _ => none

/-- The addresses that `malloc` hands out. A `struct svcinfo` is never freed. -/
def mallocs (ts : List Turn) : List ℕ := ts.filterMap Turn.malloc

def endsParse : ReturnCommand → Bool
  | .spawnLooper | .clearDeathNotificationDone _ | .errorCode .ok | .errorCode .error => true
  | _ => false

def endsLoop : ReturnCommand → Bool
  | .reply _ | .errorCode .failedReply | .errorCode .deadReply => true
  | c => endsParse c

/-- The turn that a command brings, the arguments of which are at `ptr`. -/
def turnOf (e : Outside) (ptr : ℕ) : ReturnCommand → Option Turn
  | .transaction tr =>
      some (.transaction (e.txn tr.raw) tr.raw.buffer.toNat (e.malloc ptr) e.io e.rdata)
  | .deadBinder cookie => some (.death (UInt64.ofNat cookie).toNat)
  | _ => none

/-- The turns that some commands bring, up to one at which `binder_parse` returns. -/
def turnsOf (e : Outside) : ℕ → List ReturnCommand → List Turn
  | _, [] => []
  | ptr, c :: out =>
      if endsParse c then []
      else (turnOf e (ptr + 4) c).toList ++ turnsOf e (ptr + c.bytes.length) out

section Turns

variable {e : Outside} {m : ℕ → UInt8} {ptr : ℕ} {p p' : Parse} {c : ReturnCommand}
  {out : List ReturnCommand}

theorem endsLoop_of_endsParse (h : endsParse c = true) : endsLoop c = true := by
  cases c with
  | errorCode err => cases err <;> first | rfl | exact h
  | reply tr => rfl
  | _ => exact h

/-- A command is one turn at most; it ends the call of `binder_parse` or its loop when it is of
the kind that does. -/
theorem obey_turn (p : Parse) (e : Outside) (ptr : ℕ) (c : ReturnCommand) :
    (p.obey e ptr c).map (fun r => r.2.mgr) =
        runActions Manager.turn p.mgr (if endsParse c then [] else (turnOf e ptr c).toList) ∧
      ∀ r, p.obey e ptr c = .ok r →
        r.1 = !endsParse c ∧ (0 < r.2.r ↔ 0 < p.r ∧ endsLoop c = false) := by
  cases c with
  | deadBinder cookie =>
      simp only [Parse.obey, turnOf, endsParse, Bool.false_eq_true, ↓reduceIte, Option.toList_some,
        runActions, Manager.turn, bind, Except.bind]
      cases p.mgr.die (UInt64.ofNat cookie).toNat with
      | error fault => exact ⟨rfl, fun r hr => by cases hr⟩
      | ok mgr =>
          refine ⟨rfl, fun r hr => ?_⟩
          obtain rfl := Except.ok.inj hr
          simp [endsLoop, endsParse]
  | errorCode err =>
      cases err <;> refine ⟨rfl, fun r hr => ?_⟩ <;> obtain rfl := Except.ok.inj hr <;>
        simp [endsLoop, endsParse]
  | _ =>
      refine ⟨rfl, fun r hr => ?_⟩
      obtain rfl := Except.ok.inj hr
      simp [endsLoop, endsParse, Parse.transact]

theorem obeyAll_turns (p : Parse) (e : Outside) (ptr : ℕ) (out : List ReturnCommand) :
    (Parse.obeyAll e ptr out p).map Parse.mgr = runActions Manager.turn p.mgr (turnsOf e ptr out) ∧
      ∀ p', Parse.obeyAll e ptr out p = .ok p' →
        (0 < p'.r ↔ 0 < p.r ∧ ∀ c ∈ out, endsLoop c = false) := by
  induction out generalizing ptr p with
  | nil =>
      refine ⟨rfl, fun p' hp' => ?_⟩
      obtain rfl := Except.ok.inj hp'
      simp
  | cons c out ih =>
      obtain ⟨hrun, hends⟩ := obey_turn p e (ptr + 4) c
      simp only [Parse.obeyAll, turnsOf]
      cases hobey : p.obey e (ptr + 4) c with
      | error fault =>
          refine ⟨?_, fun p' hp' => by cases hp'⟩
          rw [hobey] at hrun
          cases hc : endsParse c with
          | true => simp [hc, runActions, Except.map] at hrun
          | false =>
              simp only [hc, Bool.false_eq_true, ↓reduceIte] at hrun ⊢
              rw [runActions_bind, ← hrun]
              rfl
      | ok r =>
          obtain ⟨hgo, hr⟩ := hends r hobey
          rw [hobey] at hrun
          simp only [bind, Except.bind, hgo]
          cases hc : endsParse c with
          | true =>
              simp only [hc, Bool.not_true, Bool.false_eq_true, ↓reduceIte] at hrun ⊢
              refine ⟨hrun, fun p' hp' => ?_⟩
              obtain rfl := Except.ok.inj hp'
              simp [hr, endsLoop_of_endsParse hc]
          | false =>
              simp only [hc, Bool.not_false, Bool.false_eq_true, ↓reduceIte] at hrun ⊢
              obtain ⟨hrest, hall⟩ := ih r.2 (ptr + c.bytes.length)
              refine ⟨?_, fun p' hp' => ?_⟩
              · rw [hrest, runActions_bind, ← hrun]
                rfl
              · rw [hall p' hp', hr]
                simp [and_assoc]

/-- `binder_parse` gives the service manager the turns that the driver has stored commands for, in
their order, whatever comes behind them in the buffer. The loop goes on unless a command is among
them that ends it. -/
theorem binderParse_turns {mgr : Manager} (h : Carries m 0 (returnBytes out)) :
    (binderParse e m (returnBytes out).length mgr).map Parse.mgr =
        runActions Manager.turn mgr (turnsOf e 0 out) ∧
      ∀ p, binderParse e m (returnBytes out).length mgr = .ok p →
        (0 < p.r ↔ ∀ c ∈ out, endsLoop c = false) := by
  rw [binderParse_of_carries h]
  obtain ⟨hrun, hends⟩ := obeyAll_turns ⟨1, mgr⟩ e 0 out
  exact ⟨hrun, fun p hp => (hends p hp).trans (by simp)⟩

end Turns

/-- A death is handled, and its service has no handle any more. -/
theorem binderParse_turns_death : ∃ p,
    binderParse ⟨fun _ _ => 0, fun _ _ => 0, fun _ => none, .zero, fun _ => 0⟩
        (putBytes (fun _ => 1) 0 (returnBytes [.noop, .deadBinder 4096]))
        (returnBytes [.noop, .deadBinder 4096]).length ⟨[⟨4096, 7, false, [112, 104]⟩], []⟩ =
          .ok p ∧ p.mgr.svclist = [⟨4096, 0, false, [112, 104]⟩] ∧ 0 < p.r := by
  have hcarries := carries_putBytes (fun _ => 1) 0 (returnBytes [.noop, .deadBinder 4096])
  obtain ⟨hrun, hgoesOn⟩ : (binderParse ⟨fun _ _ => 0, fun _ _ => 0, fun _ => none, .zero,
      fun _ => 0⟩ _ _ ⟨[⟨4096, 7, false, [112, 104]⟩], []⟩).map Parse.mgr = _ ∧ _ :=
    binderParse_turns hcarries
  have hturns : (runActions Manager.turn ⟨[⟨4096, 7, false, [112, 104]⟩], []⟩
      (turnsOf ⟨fun _ _ => 0, fun _ _ => 0, fun _ => none, .zero, fun _ => 0⟩ 0
        [.noop, .deadBinder 4096])).map Manager.svclist =
          .ok [⟨4096, 0, false, [112, 104]⟩] := by decide
  obtain ⟨mgr, hmgr, hsvclist⟩ := except_map_eq_ok.mp hturns
  obtain ⟨p, hp, rfl⟩ := except_map_eq_ok.mp (hrun.trans hmgr)
  exact ⟨p, hp, hsvclist, (hgoesOn p hp).mpr (by decide)⟩

/-! ### What the services become -/

section Services

variable {svclist svclist' : List SvcInfo} {name : List UInt16} {si si' : SvcInfo}
  {malloc : Option ℕ} {mgr mgr' : Manager} {handle cookie : ℕ} {allowIsolated : Bool}

def handleSet (svclist : List SvcInfo) (addr handle : ℕ) : List SvcInfo :=
  svclist.map fun si => if si.addr = addr then { si with handle := handle } else si

/-- Services that have an address and a name of their own. -/
structure Distinct (svclist : List SvcInfo) : Prop where
  addrs : (svclist.map SvcInfo.addr).Nodup
  names : (svclist.map SvcInfo.name).Nodup

theorem handleSet_addrs (svclist : List SvcInfo) (addr handle : ℕ) :
    (handleSet svclist addr handle).map SvcInfo.addr = svclist.map SvcInfo.addr := by
  simp only [handleSet, List.map_map]
  refine List.map_congr_left fun si _ => ?_
  simp only [Function.comp_apply]
  split <;> rfl

theorem handleSet_names (svclist : List SvcInfo) (addr handle : ℕ) :
    (handleSet svclist addr handle).map SvcInfo.name = svclist.map SvcInfo.name := by
  simp only [handleSet, List.map_map]
  refine List.map_congr_left fun si _ => ?_
  simp only [Function.comp_apply]
  split <;> rfl

theorem Distinct.handleSet (h : Distinct svclist) (addr handle : ℕ) :
    Distinct (handleSet svclist addr handle) :=
  ⟨by rw [handleSet_addrs]; exact h.addrs, by rw [handleSet_names]; exact h.names⟩

theorem named_mem (h : named svclist name = some si) : si ∈ svclist ∧ si.name = name :=
  ⟨List.mem_of_find?_eq_some h, by simpa using List.find?_some h⟩

theorem named_eq_none : named svclist name = none ↔ name ∉ svclist.map SvcInfo.name := by
  simp [named, List.find?_eq_none]

theorem named_handleSet (svclist : List SvcInfo) (addr handle : ℕ) (name : List UInt16) :
    named (handleSet svclist addr handle) name = (named svclist name).map fun si =>
      if si.addr = addr then { si with handle := handle } else si := by
  unfold named handleSet
  rw [List.find?_map]
  congr 1
  congr 1
  funext si
  simp only [Function.comp_apply]
  split <;> rfl

theorem Distinct.eq_of_addr (h : Distinct svclist) (hsi : si ∈ svclist) (hsi' : si' ∈ svclist)
    (haddr : si.addr = si'.addr) : si = si' :=
  List.inj_on_of_nodup_map h.addrs hsi hsi' haddr

theorem handleSet_self (h : Distinct svclist) (hsi : si ∈ svclist) :
    handleSet svclist si.addr si.handle = svclist := by
  unfold handleSet
  conv_rhs => rw [← List.map_id svclist]
  refine List.map_congr_left fun si' hsi' => ?_
  split
  · rename_i haddr
    obtain rfl := h.eq_of_addr hsi' hsi haddr
    rfl
  · rfl

theorem die_eq (h : Distinct mgr.svclist) (hdie : mgr.die cookie = .ok mgr') :
    ∃ si ∈ mgr.svclist, si.addr = cookie ∧ mgr' =
      ⟨handleSet mgr.svclist cookie 0, mgr.written ++ (releaseOf (some si)).map .command⟩ := by
  unfold Manager.die at hdie
  cases hfind : mgr.svclist.find? fun si => si.addr = cookie with
  | none => simp [hfind] at hdie
  | some si =>
      rw [hfind] at hdie
      have hmem := List.mem_of_find?_eq_some hfind
      have haddr : si.addr = cookie := by simpa using List.find?_some hfind
      refine ⟨si, hmem, haddr, ?_⟩
      obtain rfl := Except.ok.inj hdie
      subst haddr
      by_cases hzero : si.handle = 0
      · have hself := handleSet_self h hmem
        rw [hzero] at hself
        simp [svcinfoDeath, hzero, releaseOf, hself]
      · simp [svcinfoDeath, hzero, releaseOf, Handling.send, Handling.setHandle, handleSet]

/-- The entry of a name that is there gets the handle; another name is entered at the front. -/
theorem added_eq (hadded : added svclist malloc name handle allowIsolated = some svclist') :
    handle ≠ 0 ∧ 1 ≤ name.length ∧ name.length ≤ 127 ∧
      ((∃ si, named svclist name = some si ∧ svclist' = handleSet svclist si.addr handle) ∨
        named svclist name = none ∧ ∃ addr, malloc = some addr ∧
          svclist' = ⟨addr, handle, allowIsolated, name⟩ :: svclist) := by
  unfold added at hadded
  split at hadded
  · cases hadded
  · rename_i hok
    simp only [not_or, not_lt, gt_iff_lt] at hok
    refine ⟨hok.1, by omega, hok.2.2, ?_⟩
    unfold entered at hadded
    cases hsi : named svclist name with
    | some si =>
        rw [hsi] at hadded
        exact .inl ⟨si, rfl, (Option.some.inj hadded).symm⟩
    | none =>
        rw [hsi] at hadded
        obtain ⟨addr, haddr, rfl⟩ := Option.map_eq_some_iff.mp hadded
        exact .inr ⟨rfl, addr, haddr, rfl⟩

end Services

/-! ### Runs -/

/-- The name and the handle of the service that a turn asks to add, if these may be added. -/
def Turn.adds : Turn → Option (List UInt16 × ℕ)
  | .transaction txn _ _ _ _ =>
      match txn.request with
      | .add name handle _ =>
          if handle ≠ 0 ∧ 1 ≤ name.length ∧ name.length ≤ 127 then some (name, handle) else none
      | _ => none
  | .death _ => none

def Manager.status (mgr : Manager) : Turn → ℤ
  | .transaction txn _ malloc io rdata => (mgr.handled txn malloc io rdata).1
  | .death _ => 0

/-- After some turns, a turn adds a service, and says so. -/
def AddedBy (name : List UInt16) (handle : ℕ) (pre : List Turn) (t : Turn) : Prop :=
  t.adds = some (name, handle) ∧
    ∃ mgr, runActions Manager.turn .start pre = .ok mgr ∧ mgr.status t = 0

/-- A turn adds another service for a name, or reports the death for the entry with the cookie. -/
def Overrides (name : List UInt16) (cookie : ℕ) (t : Turn) : Prop :=
  (∃ handle, t.adds = some (name, handle)) ∨ t = .death cookie

/-- What is found is what was added last. -/
structure Registered (ts : List Turn) (mgr : Manager) : Prop where
  distinct : Distinct mgr.svclist
  addrs : ∀ si ∈ mgr.svclist, si.addr ∈ mallocs ts
  known : ∀ name si, named mgr.svclist name = some si → ∀ handle, handle ≠ 0 →
    (si.handle = handle ↔ Since (AddedBy name handle) (Overrides name si.addr) ts)
  unknown : ∀ name, named mgr.svclist name = none → ∀ handle Q, ¬ Since (AddedBy name handle) Q ts

section Runs

variable {ts pre : List Turn} {t : Turn} {mgr mgr' : Manager} {name : List UInt16} {handle : ℕ}
  {txn : Txn} {buffer : ℕ} {malloc : Option ℕ} {io : BinderIo} {rdata : ℕ → UInt8}

theorem transact_outcome (mgr : Manager) (txn : Txn) (buffer : ℕ) (malloc : Option ℕ)
    (io : BinderIo) (rdata : ℕ → UInt8) :
    ∃ o : Outcome, o = txn.request.outcome mgr.svclist malloc (.begin io rdata 256 4) ∧
      (mgr.handled txn malloc io rdata).1 = o.status ∧
      mgr.transact txn buffer malloc io rdata = ⟨o.svclist, mgr.written ++ o.sent.map .command ++
        [.reply buffer (binderSendReply o.reply o.status)]⟩ :=
  ⟨_, svcmgrHandler_outcome txn malloc mgr.svclist (.begin io rdata 256 4), rfl, rfl⟩

theorem transact_cases (mgr : Manager) (txn : Txn) (buffer : ℕ) (malloc : Option ℕ)
    (io : BinderIo) (rdata : ℕ → UInt8) :
    ((mgr.transact txn buffer malloc io rdata).svclist = mgr.svclist ∧
        ∀ name handle, (Turn.transaction txn buffer malloc io rdata).adds = some (name, handle) →
          mgr.status (.transaction txn buffer malloc io rdata) ≠ 0 ∧
            named mgr.svclist name = none) ∨
      ∃ name handle allowIsolated,
        (Turn.transaction txn buffer malloc io rdata).adds = some (name, handle) ∧
          mgr.status (.transaction txn buffer malloc io rdata) = 0 ∧
            added mgr.svclist malloc name handle allowIsolated =
              some (mgr.transact txn buffer malloc io rdata).svclist := by
  obtain ⟨o, ho, hstatus, heq⟩ := transact_outcome mgr txn buffer malloc io rdata
  have hstatus : mgr.status (.transaction txn buffer malloc io rdata) = o.status := hstatus
  have hsvclist : (mgr.transact txn buffer malloc io rdata).svclist = o.svclist := by rw [heq]
  rw [hstatus, hsvclist]
  cases hreq : txn.request with
  | add name handle allowIsolated =>
      simp only [hreq, Request.outcome] at ho
      cases hadded : added mgr.svclist malloc name handle allowIsolated with
      | none =>
          rw [hadded] at ho
          subst ho
          refine .inl ⟨rfl, fun name' handle' hadds =>
            ⟨show (-1 : ℤ) ≠ 0 by decide, ?_⟩⟩
          simp only [Turn.adds, hreq] at hadds
          split at hadds
          · rename_i hok
            obtain ⟨rfl, rfl⟩ := Prod.mk.inj (Option.some.inj hadds)
            unfold added at hadded
            rw [if_neg (by omega)] at hadded
            unfold entered at hadded
            cases hsi : named mgr.svclist name with
            | none => rfl
            | some si => simp [hsi] at hadded
          · cases hadds
      | some svclist' =>
          rw [hadded] at ho
          subst ho
          obtain ⟨hzero, hone, hmax, -⟩ := added_eq hadded
          exact .inr ⟨name, handle, allowIsolated, by simp [Turn.adds, hreq, hzero, hone, hmax],
            rfl, hadded⟩
  | list n =>
      refine .inl ⟨?_, fun name' handle' hadds => by simp [Turn.adds, hreq] at hadds⟩
      rw [ho, hreq]
      simp only [Request.outcome]
      split <;> rfl
  | _ =>
      refine .inl ⟨?_, fun name' handle' hadds => by simp [Turn.adds, hreq] at hadds⟩
      rw [ho, hreq]
      rfl

theorem adds_iff (hrun : runActions Manager.turn .start pre = .ok mgr) :
    AddedBy name handle pre t ↔ t.adds = some (name, handle) ∧ mgr.status t = 0 := by
  refine and_congr_right fun _ => ⟨?_, fun h => ⟨mgr, hrun, h⟩⟩
  rintro ⟨mgr₁, hrun₁, h⟩
  obtain rfl := Except.ok.inj (hrun.symm.trans hrun₁)
  exact h

theorem mallocs_concat (ts : List Turn) (t : Turn) :
    mallocs (ts ++ [t]) = mallocs ts ++ t.malloc.toList := by
  unfold mallocs
  rw [List.filterMap_append]
  cases h : t.malloc <;> simp [h]

theorem Registered.since_concat (hrun : runActions Manager.turn .start pre = .ok mgr)
    {cookie : ℕ} (hno : ¬ Overrides name cookie t) :
    Since (AddedBy name handle) (Overrides name cookie) (pre ++ [t]) ↔
      Since (AddedBy name handle) (Overrides name cookie) pre := by
  rw [Library.since_concat, adds_iff hrun]
  constructor
  · rintro (⟨hadds, -⟩ | ⟨h, -⟩)
    · exact absurd (.inl ⟨handle, hadds⟩) hno
    · exact h
  · exact fun h => .inr ⟨h, hno⟩

theorem Registered.same (h : Registered pre mgr)
    (hrun : runActions Manager.turn .start pre = .ok mgr) (hlist : mgr'.svclist = mgr.svclist)
    (hno : ∀ name si, named mgr.svclist name = some si → ¬ Overrides name si.addr t)
    (hnew : ∀ name handle, t.adds = some (name, handle) → mgr.status t ≠ 0) :
    Registered (pre ++ [t]) mgr' where
  distinct := hlist ▸ h.distinct
  addrs := fun si hsi => by
    rw [mallocs_concat]
    exact List.mem_append_left _ (h.addrs si (hlist ▸ hsi))
  known := fun name si hsi handle hzero => by
    rw [hlist] at hsi
    rw [Registered.since_concat hrun (hno name si hsi)]
    exact h.known name si hsi handle hzero
  unknown := fun name hnone handle Q hsince => by
    rw [hlist] at hnone
    rcases Library.since_concat.mp hsince with hadds | ⟨hsince, -⟩
    · obtain ⟨hadds, hstatus⟩ := (adds_iff hrun).mp hadds
      exact hnew name handle hadds hstatus
    · exact h.unknown name hnone handle Q hsince

theorem Registered.death (h : Registered pre mgr) {cookie : ℕ}
    (hrun : runActions Manager.turn .start pre = .ok mgr) (hdie : mgr.die cookie = .ok mgr') :
    Registered (pre ++ [.death cookie]) mgr' := by
  obtain ⟨dead, hdead, rfl, rfl⟩ := die_eq h.distinct hdie
  refine ⟨h.distinct.handleSet _ _, fun si hsi => ?_, fun name si hsi handle hzero => ?_,
    fun name hnone handle Q hsince => ?_⟩
  · have hmem : si.addr ∈ (handleSet mgr.svclist dead.addr 0).map SvcInfo.addr :=
      List.mem_map_of_mem hsi
    rw [handleSet_addrs] at hmem
    obtain ⟨si', hsi', haddr⟩ := List.mem_map.mp hmem
    rw [mallocs_concat, ← haddr]
    exact List.mem_append_left _ (h.addrs si' hsi')
  · simp only [named_handleSet, Option.map_eq_some_iff] at hsi
    obtain ⟨si', hsi', rfl⟩ := hsi
    by_cases haddr : si'.addr = dead.addr
    · rw [if_pos haddr, Library.since_concat]
      refine ⟨fun hh => absurd hh.symm hzero, ?_⟩
      rintro (⟨hadds, -⟩ | ⟨-, hno⟩)
      · cases hadds
      · exact absurd (.inr (by rw [← haddr])) hno
    · rw [if_neg haddr, Registered.since_concat hrun]
      · exact h.known name si' hsi' handle hzero
      · rintro (⟨handle', hadds⟩ | hdeath)
        · cases hadds
        · exact haddr (Turn.death.inj hdeath).symm
  · simp only [named_handleSet, Option.map_eq_none_iff] at hnone
    rcases Library.since_concat.mp hsince with ⟨hadds, -⟩ | ⟨hsince, -⟩
    · cases hadds
    · exact h.unknown name hnone handle Q hsince

theorem Registered.again (h : Registered pre mgr) {si : SvcInfo}
    (hrun : runActions Manager.turn .start pre = .ok mgr) (hadds : t.adds = some (name, handle))
    (hstatus : mgr.status t = 0) (hsi : named mgr.svclist name = some si)
    (hlist : mgr'.svclist = handleSet mgr.svclist si.addr handle) :
    Registered (pre ++ [t]) mgr' := by
  have hdeath : ∀ cookie, t ≠ .death cookie := by
    rintro cookie rfl
    cases hadds
  obtain ⟨hmem, hname⟩ := named_mem hsi
  refine ⟨hlist ▸ h.distinct.handleSet _ _, fun si' hsi' => ?_,
    fun name' si' hsi' handle' hzero => ?_, fun name' hnone handle' Q hsince => ?_⟩
  · rw [hlist] at hsi'
    have hmem : si'.addr ∈ (handleSet mgr.svclist si.addr handle).map SvcInfo.addr :=
      List.mem_map_of_mem hsi'
    rw [handleSet_addrs] at hmem
    obtain ⟨si'', hsi'', haddr⟩ := List.mem_map.mp hmem
    rw [mallocs_concat, ← haddr]
    exact List.mem_append_left _ (h.addrs si'' hsi'')
  · simp only [hlist, named_handleSet, Option.map_eq_some_iff] at hsi'
    obtain ⟨si'', hsi'', rfl⟩ := hsi'
    obtain ⟨hmem'', hname''⟩ := named_mem hsi''
    by_cases hnames : name' = name
    · subst hnames
      obtain rfl := Option.some.inj (hsi.symm.trans hsi'')
      rw [if_pos rfl, Library.since_concat, adds_iff hrun]
      constructor
      · rintro rfl
        exact .inl ⟨hadds, hstatus⟩
      · rintro (⟨hadds', -⟩ | ⟨-, hno⟩)
        · exact (Prod.mk.inj (Option.some.inj (hadds.symm.trans hadds'))).2
        · exact absurd (.inl ⟨handle, hadds⟩) hno
    · have haddr : si''.addr ≠ si.addr := fun heq => hnames (by
        rw [← hname'', ← hname, h.distinct.eq_of_addr hmem'' hmem heq])
      rw [if_neg haddr, Registered.since_concat hrun]
      · exact h.known name' si'' hsi'' handle' hzero
      · rintro (⟨handle'', hadds'⟩ | hd)
        · exact hnames (Prod.mk.inj (Option.some.inj (hadds'.symm.trans hadds))).1
        · exact hdeath _ hd
  · simp only [hlist, named_handleSet, Option.map_eq_none_iff] at hnone
    rcases Library.since_concat.mp hsince with ⟨hadds', -⟩ | ⟨hsince, -⟩
    · obtain ⟨rfl, -⟩ := Prod.mk.inj (Option.some.inj (hadds'.symm.trans hadds))
      rw [hsi] at hnone
      cases hnone
    · exact h.unknown name' hnone handle' Q hsince

theorem Registered.new (h : Registered pre mgr) {addr : ℕ} {allowIsolated : Bool}
    (hrun : runActions Manager.turn .start pre = .ok mgr) (hadds : t.adds = some (name, handle))
    (hstatus : mgr.status t = 0) (hnone : named mgr.svclist name = none)
    (hmalloc : t.malloc = some addr) (hfresh : (mallocs (pre ++ [t])).Nodup)
    (hlist : mgr'.svclist = ⟨addr, handle, allowIsolated, name⟩ :: mgr.svclist) :
    Registered (pre ++ [t]) mgr' := by
  have hdeath : ∀ cookie, t ≠ .death cookie := by
    rintro cookie rfl
    cases hadds
  have hmallocs : mallocs (pre ++ [t]) = mallocs pre ++ [addr] := by
    rw [mallocs_concat, hmalloc]
    rfl
  rw [hmallocs] at hfresh
  have hnew : addr ∉ mallocs pre := fun hmem =>
    (List.nodup_append.mp hfresh).2.2 addr hmem addr (List.mem_singleton_self addr) rfl
  have hnamed : ∀ name', named mgr'.svclist name' =
      if name = name' then some ⟨addr, handle, allowIsolated, name⟩
      else named mgr.svclist name' := by
    intro name'
    rw [hlist, named, List.find?_cons]
    by_cases hnames : name = name' <;> simp [hnames, named]
  refine ⟨?_, fun si hsi => ?_, fun name' si hsi handle' hzero => ?_,
    fun name' hnone' handle' Q hsince => ?_⟩
  · rw [hlist]
    refine ⟨List.nodup_cons.mpr ⟨fun hmem => ?_, h.distinct.addrs⟩,
      List.nodup_cons.mpr ⟨named_eq_none.mp hnone, h.distinct.names⟩⟩
    obtain ⟨si, hsi, haddr⟩ := List.mem_map.mp hmem
    have haddr : si.addr = addr := haddr
    exact hnew (haddr ▸ h.addrs si hsi)
  · rw [hmallocs]
    rw [hlist, List.mem_cons] at hsi
    rcases hsi with rfl | hsi
    · simp
    · exact List.mem_append_left _ (h.addrs si hsi)
  · rw [hnamed] at hsi
    split at hsi
    · rename_i hnames
      subst hnames
      obtain rfl := Option.some.inj hsi
      rw [Library.since_concat, adds_iff hrun]
      constructor
      · rintro rfl
        exact .inl ⟨hadds, hstatus⟩
      · rintro (⟨hadds', -⟩ | ⟨hsince, -⟩)
        · exact (Prod.mk.inj (Option.some.inj (hadds.symm.trans hadds'))).2
        · exact absurd hsince (h.unknown name hnone handle' _)
    · rename_i hnames
      rw [Registered.since_concat hrun]
      · exact h.known name' si hsi handle' hzero
      · rintro (⟨handle'', hadds'⟩ | hd)
        · exact hnames (Prod.mk.inj (Option.some.inj (hadds.symm.trans hadds'))).1
        · exact hdeath _ hd
  · rw [hnamed] at hnone'
    split at hnone'
    · cases hnone'
    · rename_i hnames
      rcases Library.since_concat.mp hsince with ⟨hadds', -⟩ | ⟨hsince, -⟩
      · exact hnames (Prod.mk.inj (Option.some.inj (hadds.symm.trans hadds'))).1
      · exact h.unknown name' hnone' handle' Q hsince

theorem Registered.turn (h : Registered pre mgr)
    (hrun : runActions Manager.turn .start pre = .ok mgr) (hfresh : (mallocs (pre ++ [t])).Nodup)
    (hturn : mgr.turn t = .ok mgr') : Registered (pre ++ [t]) mgr' := by
  cases t with
  | death cookie => exact h.death hrun hturn
  | transaction txn buffer malloc io rdata =>
      obtain rfl := Except.ok.inj hturn
      rcases transact_cases mgr txn buffer malloc io rdata with ⟨hlist, hadds⟩ |
        ⟨name, handle, allowIsolated, hadds, hstatus, hadded⟩
      · refine h.same hrun hlist (fun name si hsi => ?_) fun name handle ha =>
          (hadds name handle ha).1
        rintro (⟨handle, ha⟩ | hd)
        · rw [(hadds name handle ha).2] at hsi
          cases hsi
        · cases hd
      · obtain ⟨-, -, -, ⟨si, hsi, hlist⟩ | ⟨hnone, addr, rfl, hlist⟩⟩ := added_eq hadded
        · exact h.again hrun hadds hstatus hsi hlist
        · exact h.new hrun hadds hstatus hnone rfl hfresh hlist

theorem registered_start : Registered [] .start where
  distinct := ⟨List.nodup_nil, List.nodup_nil⟩
  addrs := by simp [Manager.start]
  known := fun name si hsi => by simp [named, Manager.start] at hsi
  unknown := fun name _ handle Q => not_since_nil

theorem registered_of_run (hrun : runActions Manager.turn .start ts = .ok mgr)
    (hfresh : (mallocs ts).Nodup) : Registered ts mgr := by
  refine runActions_invariant hrun registered_start fun pre t s s' hpre hrun h hturn =>
    h.turn hrun ?_ hturn
  obtain ⟨post, rfl⟩ := hpre
  unfold mallocs at hfresh ⊢
  rw [List.filterMap_append] at hfresh
  exact (List.nodup_append.mp hfresh).1

/-- The cookie with which the death of the service under a name is reported. -/
def cookieOf (svclist : List SvcInfo) (name : List UInt16) : ℕ :=
  ((named svclist name).map SvcInfo.addr).getD 0

/-- After any turns, a name is found with a handle exactly when the handle was added for it and
since then neither another one was nor was the death reported for its entry. This is what a client
that looks up the name is given. -/
theorem found_of_run (hrun : runActions Manager.turn .start ts = .ok mgr)
    (hfresh : (mallocs ts).Nodup) (name : List UInt16) :
    (∀ handle, handle ≠ 0 → (registered mgr.svclist name = handle ↔
      Since (AddedBy name handle) (Overrides name (cookieOf mgr.svclist name)) ts)) ∧
    ∀ txn malloc io rdata, txn.request = .find name →
      (mgr.handled txn malloc io rdata).1 = 0 ∧
        (mgr.handled txn malloc io rdata).2.reply =
          if registered mgr.svclist name = 0 then bioPutUint32 (.begin io rdata 256 4) 0
          else bioPutRef (.begin io rdata 256 4) (registered mgr.svclist name) := by
  have h := registered_of_run hrun hfresh
  refine ⟨fun handle hzero => ?_, fun txn malloc io rdata hreq => ?_⟩
  · unfold registered cookieOf
    cases hsi : named mgr.svclist name with
    | none =>
        refine ⟨fun hh => absurd hh.symm hzero, fun hsince => ?_⟩
        exact absurd hsince (h.unknown name hsi handle _)
    | some si => exact h.known name si hsi handle hzero
  · have houtcome := svcmgrHandler_outcome txn malloc mgr.svclist (.begin io rdata 256 4)
    rw [hreq] at houtcome
    exact ⟨congrArg Outcome.status houtcome, congrArg Outcome.reply houtcome⟩

end Runs

/-- A client registers a service under the name `ph`. -/
def addPhone (handle malloc : ℕ) : Turn :=
  .transaction ({ Call.plain with given := .handle handle : Call }.txn svcMgrAddService
    (addServiceData 0 [112, 104] (.object 1 2) false)) 0 (some malloc) .zero fun _ => 0

theorem addPhone_run : ∃ mgr, runActions Manager.turn .start
    [addPhone 7 4096, .death 4096, addPhone 9 8192] = .ok mgr ∧
      mgr.svclist = [⟨4096, 9, false, [112, 104]⟩] := by
  have hrun : (runActions Manager.turn .start
      [addPhone 7 4096, .death 4096, addPhone 9 8192]).map Manager.svclist =
        .ok [⟨4096, 9, false, [112, 104]⟩] := by decide +kernel
  exact except_map_eq_ok.mp hrun

theorem found_of_run_phone : ∃ mgr,
    runActions Manager.turn .start [addPhone 7 4096, .death 4096, addPhone 9 8192] = .ok mgr ∧
      registered mgr.svclist [112, 104] = 9 ∧
        Since (AddedBy [112, 104] 9) (Overrides [112, 104] (cookieOf mgr.svclist [112, 104]))
          [addPhone 7 4096, .death 4096, addPhone 9 8192] := by
  obtain ⟨mgr, hrun, hmgr⟩ := addPhone_run
  have hfound : registered mgr.svclist [112, 104] = 9 := by rw [hmgr]; decide
  exact ⟨mgr, hrun, hfound,
    ((found_of_run hrun (by decide) [112, 104]).1 9 (by decide)).mp hfound⟩

end ServiceManager

end BinderForLinux
