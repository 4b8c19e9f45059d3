import BinderForLinux.ServiceManager.Loop
import BinderForLinux.ServiceManager.Requests

/-!
# What comes of a transaction

A transaction with any bytes asks for one thing or is refused. What `svcmgr_handler` does
is a matter of what is asked for: of the name, the handle and the number that are read,
and not of where in the message they are.
-/

namespace BinderForLinux

namespace ServiceManager

open Library

/-! ### What is asked for -/

/-- What a transaction asks of the service manager. -/
inductive Request
  | ping
  | find (name : List UInt16)
  | add (name : List UInt16) (handle : ℕ) (allowIsolated : Bool)
  | list (n : ℕ)
  | refused
  deriving DecidableEq, Repr

def findRequest (txn : Txn) (m : Msg) : Request :=
  let r := bioGetString16 txn m
  match r.1 with
  | none => .refused
  | some s => .find (unitsAt txn s r.2.1)

/-- A request to add a service: its name, its handle and the flag. -/
def addRequest (txn : Txn) (m : Msg) : Request :=
  let r := bioGetString16 txn m
  match r.1 with
  | none => .refused
  | some s =>
      let ref := bioGetRef txn r.2.2
      .add (unitsAt txn s r.2.1) ref.1 ((bioGetUint32 txn ref.2).1 ≠ 0)

/-- What the code of the transaction asks for, after the token of the interface. -/
def codeRequest (txn : Txn) (m : Msg) : Request :=
  if txn.code = svcMgrGetService ∨ txn.code = svcMgrCheckService then findRequest txn m
  else if txn.code = svcMgrAddService then addRequest txn m
  else if txn.code = svcMgrListServices then .list (bioGetUint32 txn m).1
  else .refused

def Txn.request (txn : Txn) : Request :=
  if txn.target ≠ 0 then .refused
  else if txn.code = pingTransaction then .ping
  else
    let r := bioGetString16 txn (bioGetUint32 txn txn.msg).2
    match r.1 with
    | none => .refused
    | some s =>
        if r.2.1 = svcmgrId.length ∧ unitsAt txn s svcmgrId.length = svcmgrId then
          codeRequest txn r.2.2
        else .refused

def releaseOf : Option SvcInfo → List Command
  | some si => if si.handle = 0 then [] else [.release si.handle]
  | none => []

/-- What is written to the driver when a service is entered: an older handle is given back before
the new one is taken. -/
def addCommands (svclist : List SvcInfo) (malloc : Option ℕ) (name : List UInt16) (handle : ℕ) :
    List Command :=
  releaseOf (named svclist name) ++ [.acquire handle, .requestDeathNotification handle
    (((named svclist name).map SvcInfo.addr).getD (malloc.getD 0))]

/-- The status, the services, what is written to the driver and the reply. -/
structure Outcome where
  status : ℤ
  svclist : List SvcInfo
  sent : List Command
  reply : Reply

def Handling.outcome (h : Handling) (status : ℤ) : Outcome := ⟨status, h.svclist, h.sent, h.reply⟩

def Request.outcome (svclist : List SvcInfo) (malloc : Option ℕ) (reply : Reply) :
    Request → Outcome
  | .ping => ⟨0, svclist, [], reply⟩
  | .refused => ⟨-1, svclist, [], reply⟩
  | .find name => ⟨0, svclist, [], if registered svclist name = 0 then bioPutUint32 reply 0
      else bioPutRef reply (registered svclist name)⟩
  | .add name handle allowIsolated =>
      match added svclist malloc name handle allowIsolated with
      | none => ⟨-1, svclist, [], reply⟩
      | some sis => ⟨0, sis, addCommands svclist malloc name handle, bioPutUint32 reply 0⟩
  | .list n =>
      match svclist[n]? with
      | none => ⟨-1, svclist, [], reply⟩
      | some si => ⟨0, svclist, [], bioPutString16 reply si.name⟩

/-! ### Reads do not look at the log -/

section Logs

variable {txn : Txn} {m m' : Msg}

/-- Two reads give the same, and leave the cursor at the same place. -/
structure SameRead {α : Type} (r r' : α × Msg) : Prop where
  value : r.1 = r'.1
  io : r.2.io = r'.2.io

theorem bioGet_same (h : m.io = m'.io) (size : ℕ) : SameRead (bioGet m size) (bioGet m' size) := by
  unfold bioGet
  dsimp only [Msg.note]
  rw [h]
  split <;> exact ⟨rfl, rfl⟩

theorem bioGetUint32_same (h : m.io = m'.io) :
    SameRead (bioGetUint32 txn m) (bioGetUint32 txn m') := by
  obtain ⟨hvalue, hio⟩ := bioGet_same h 4
  unfold bioGetUint32
  dsimp only
  rw [hvalue]
  cases (bioGet m' 4).1 with
  | none => exact ⟨rfl, hio⟩
  | some ptr => exact ⟨rfl, hio⟩

theorem bioGetString16_same (h : m.io = m'.io) :
    (bioGetString16 txn m).1 = (bioGetString16 txn m').1 ∧
      SameRead (bioGetString16 txn m).2 (bioGetString16 txn m').2 := by
  obtain ⟨hlen, hio⟩ := @bioGetUint32_same txn _ _ h
  unfold bioGetString16
  dsimp only
  rw [hlen]
  obtain ⟨hvalue, hio⟩ := @bioGet_same
    ((bioGetUint32 txn m).2.note (.length (((bioGetUint32 txn m').1 + 1) * 2)))
    ((bioGetUint32 txn m').2.note (.length (((bioGetUint32 txn m').1 + 1) * 2)))
    hio (((bioGetUint32 txn m').1 + 1) * 2 % sizeT)
  exact ⟨hvalue, rfl, hio⟩

theorem findOffset_same (off : ℕ) {k n : ℕ} (h : m.io = m'.io) :
    SameRead (findOffset txn off k n m) (findOffset txn off k n m') := by
  induction k generalizing n m m' with
  | zero => exact ⟨rfl, h⟩
  | succ k ih =>
      unfold findOffset
      dsimp only
      split
      · exact ⟨rfl, h⟩
      · exact ih h

theorem bioGetRef_same (h : m.io = m'.io) : SameRead (bioGetRef txn m) (bioGetRef txn m') := by
  have hobj : SameRead (bioGetObj txn m) (bioGetObj txn m') := by
    unfold bioGetObj
    dsimp only
    rw [h]
    obtain ⟨hfound, hio⟩ := @findOffset_same txn _ _ (m'.io.data - m'.io.data0)
      m'.io.offsAvail 0 h
    rw [hfound]
    split
    · exact bioGet_same hio objectSize
    · refine ⟨rfl, ?_⟩
      dsimp only [Msg.move]
      rw [hio]
  obtain ⟨hvalue, hio⟩ := hobj
  unfold bioGetRef
  dsimp only
  rw [hvalue]
  cases (bioGetObj txn m').1 with
  | none => exact ⟨rfl, hio⟩
  | some obj =>
      dsimp only
      split <;> exact ⟨rfl, hio⟩

theorem findRequest_same (h : m.io = m'.io) : findRequest txn m = findRequest txn m' := by
  obtain ⟨hstr, hlen, -⟩ := @bioGetString16_same txn _ _ h
  unfold findRequest
  dsimp only
  rw [hstr, hlen]

theorem addRequest_same (h : m.io = m'.io) : addRequest txn m = addRequest txn m' := by
  obtain ⟨hstr, hlen, hio⟩ := @bioGetString16_same txn _ _ h
  obtain ⟨href, hio⟩ := @bioGetRef_same txn _ _ hio
  obtain ⟨hflag, -⟩ := @bioGetUint32_same txn _ _ hio
  unfold addRequest
  dsimp only
  rw [hstr, hlen, href, hflag]

theorem codeRequest_same (h : m.io = m'.io) : codeRequest txn m = codeRequest txn m' := by
  obtain ⟨hn, -⟩ := @bioGetUint32_same txn _ _ h
  unfold codeRequest
  rw [findRequest_same h, addRequest_same h, hn]

end Logs

/-! ### The handler does what is asked for -/

section Handler

variable {txn : Txn} {h h' : Handling}

theorem length_unitsAt (txn : Txn) (off n : ℕ) : (unitsAt txn off n).length = n := by
  induction n generalizing off with
  | zero => rfl
  | succ n ih => simp [unitsAt, ih]

theorem unitsAt_units (txn : Txn) (off n : ℕ) :
    unitsAt txn off (unitsAt txn off n).length = unitsAt txn off n := by
  rw [length_unitsAt]

theorem Handling.Logged.sent (hl : h.Logged h') : h'.sent = h.sent := by rw [hl.rest]

theorem Handling.Logged.outcome (hl : h.Logged h') (status : ℤ) :
    h'.outcome status = h.outcome status := by
  rw [hl.rest]
  rfl

theorem getService_outcome (malloc : Option ℕ) (hsent : h.sent = []) :
    (getService txn h).2.outcome (getService txn h).1 =
      (findRequest txn h.msg).outcome h.svclist malloc h.reply := by
  unfold getService findRequest
  dsimp only
  cases hs : (bioGetString16 txn h.msg).1 with
  | none => simp [Handling.outcome, Handling.read, Request.outcome, hsent]
  | some s =>
      dsimp only
      obtain ⟨hfound, hlogged⟩ := doFindService_registered
        (unitsAt_units txn s (bioGetString16 txn h.msg).2.1) (h.read (bioGetString16 txn h.msg).2.2)
      rw [length_unitsAt] at hfound hlogged
      have hlist : (h.read (bioGetString16 txn h.msg).2.2).svclist = h.svclist := rfl
      rw [hlist] at hfound
      rw [hfound]
      have hcommands := hlogged.sent.trans hsent
      simp only [Request.outcome]
      split
      · simp only [Handling.outcome, Handling.putUint32, hlogged.svclist, hlogged.reply, hcommands]
        rfl
      · simp only [Handling.outcome, hlogged.svclist, hlogged.reply, hcommands]
        rfl

theorem enterService_sent (malloc : Option ℕ) {s : ℕ} {name : List UInt16}
    (hs : unitsAt txn s name.length = name) (handle : ℕ) (allowIsolated : Bool)
    (hsent : h.sent = []) :
    (enterService txn malloc h s name.length handle allowIsolated).2.sent =
        (if (enterService txn malloc h s name.length handle allowIsolated).1.isSome then
          releaseOf (named h.svclist name) else []) ∧
      ∀ si, (enterService txn malloc h s name.length handle allowIsolated).1 = some si →
        si.addr = ((named h.svclist name).map SvcInfo.addr).getD (malloc.getD 0) := by
  obtain ⟨hfind, hlogged⟩ := findSvc_named hs h
  have hsent₁ : (findSvc txn h s name.length).2.sent = [] := by rw [hlogged.rest]; exact hsent
  unfold enterService
  simp only [hfind]
  cases hsi : named h.svclist name with
  | some si =>
      have hstr := str8_logged txn (findSvc txn h s name.length).2 s name.length
      have hsent₂ : (str8 txn (findSvc txn h s name.length).2 s name.length).sent = [] := by
        rw [hstr.rest]
        exact hsent₁
      refine ⟨?_, fun si' hsi' => ?_⟩
      · by_cases hzero : si.handle = 0
        · simp [releaseOf, hzero, Handling.setHandle, hsent₁]
        · simp [releaseOf, hzero, Handling.setHandle, svcinfoDeath, Handling.send, hsent₂]
      · obtain rfl : si = si' := by simpa using hsi'
        rfl
  | none =>
      cases malloc with
      | none =>
          have hstr := (Handling.Logged.refl (findSvc txn h s name.length).2).note
            (.length (48 + (name.length + 1) * 2)) |>.trans (str8_logged txn _ s name.length)
          refine ⟨?_, by simp⟩
          exact hstr.sent.trans hsent₁
      | some addr =>
          refine ⟨hsent₁, fun si' hsi' => ?_⟩
          obtain rfl := Option.some.inj hsi'
          rfl

theorem doAddService_outcome (malloc : Option ℕ) {s : ℕ} {name : List UInt16}
    (hs : unitsAt txn s name.length = name) (handle : ℕ) (allowIsolated : Bool)
    (hsent : h.sent = []) :
    ∃ h', doAddService txn malloc h s name.length handle allowIsolated =
        (if (added h.svclist malloc name handle allowIsolated).isSome then 0 else -1, h') ∧
      h'.svclist = (added h.svclist malloc name handle allowIsolated).getD h.svclist ∧
      h'.reply = h.reply ∧
      h'.sent = if (added h.svclist malloc name handle allowIsolated).isSome then
        addCommands h.svclist malloc name handle else [] := by
  obtain ⟨hstatus, hlist, hreply⟩ := doAddService_added hs malloc h handle allowIsolated
  refine ⟨_, Prod.ext hstatus rfl, hlist, hreply, ?_⟩
  unfold doAddService added
  split
  · simpa using hsent
  · have hstr := str8_logged txn h s name.length
    have hsent₁ : (str8 txn h s name.length).sent = [] := by rw [hstr.rest]; exact hsent
    obtain ⟨hdone, -, -⟩ := enterService_entered hs malloc (str8 txn h s name.length) handle
      allowIsolated
    obtain ⟨hcommands, haddr⟩ := enterService_sent malloc hs handle
      allowIsolated hsent₁
    rw [hstr.svclist] at hdone hcommands haddr
    dsimp only
    cases hr : (enterService txn malloc (str8 txn h s name.length) s name.length handle
      allowIsolated).1 with
    | none =>
        rw [hr] at hdone hcommands
        dsimp only
        rw [← hdone, hcommands]
        rfl
    | some si =>
        rw [hr] at hdone haddr hcommands
        dsimp only
        rw [← hdone]
        simp only [Handling.send, hcommands, haddr si rfl, Option.isSome_some, ↓reduceIte,
          List.append_assoc, List.cons_append, List.nil_append, addCommands]

theorem addService_outcome (malloc : Option ℕ) (hsent : h.sent = []) :
    (addService txn malloc h).2.outcome (addService txn malloc h).1 =
      (addRequest txn h.msg).outcome h.svclist malloc h.reply := by
  unfold addService addRequest
  dsimp only
  cases hs : (bioGetString16 txn h.msg).1 with
  | none => simp [Handling.outcome, Handling.read, Request.outcome, hsent]
  | some s =>
      dsimp only
      generalize hm : (bioGetRef txn (bioGetString16 txn h.msg).2.2) = ref
      obtain ⟨h', heq, hlist, hreply, hcommands⟩ := doAddService_outcome malloc
        (h := h.read (bioGetUint32 txn ref.2).2)
        (unitsAt_units txn s (bioGetString16 txn h.msg).2.1)
        ref.1 ((bioGetUint32 txn ref.2).1 ≠ 0) hsent
      rw [length_unitsAt] at heq
      rw [heq]
      have hsvclist : (h.read (bioGetUint32 txn ref.2).2).svclist = h.svclist := rfl
      rw [hsvclist] at hlist hcommands
      simp only [hsvclist, Request.outcome]
      cases hadded : added h.svclist malloc (unitsAt txn s (bioGetString16 txn h.msg).2.1) ref.1
          ((bioGetUint32 txn ref.2).1 ≠ 0) with
      | none =>
          rw [hadded] at hlist hcommands
          simp [Handling.outcome, hlist, hcommands, hreply, Handling.read]
      | some sis =>
          rw [hadded] at hlist hcommands
          simp [Handling.outcome, Handling.putUint32, hlist, hcommands, hreply, Handling.read]

theorem listServices_outcome (malloc : Option ℕ) (hsent : h.sent = []) :
    (listServices txn h).2.outcome (listServices txn h).1 =
      (Request.list (bioGetUint32 txn h.msg).1).outcome h.svclist malloc h.reply := by
  unfold listServices
  dsimp only
  rw [nthSvc_eq]
  simp only [Request.outcome]
  have hlist : (h.read (bioGetUint32 txn h.msg).2).svclist = h.svclist := rfl
  rw [hlist]
  cases h.svclist[(bioGetUint32 txn h.msg).1]? with
  | none => simp [Handling.outcome, Handling.read, hsent]
  | some si => simp [Handling.outcome, Handling.read, hsent]

/-- Whatever the bytes of a transaction are, the handler does what they ask for. -/
theorem svcmgrHandler_outcome (txn : Txn) (malloc : Option ℕ) (svclist : List SvcInfo)
    (reply : Reply) :
    (svcmgrHandler txn malloc ⟨svclist, txn.msg, reply, []⟩).2.outcome
        (svcmgrHandler txn malloc ⟨svclist, txn.msg, reply, []⟩).1 =
      txn.request.outcome svclist malloc reply := by
  unfold svcmgrHandler Txn.request
  split
  · rfl
  · split
    · rfl
    · dsimp only
      cases hs : (bioGetString16 txn (bioGetUint32 txn txn.msg).2).1 with
      | none => rfl
      | some s =>
          dsimp only
          split
          · rename_i hlen
            rw [if_neg fun hid => hlen hid.1]
            exact (str8_logged txn _ s _).outcome (-1)
          · rename_i hlen
            simp only [not_not] at hlen
            split
            · rename_i hid
              rw [if_neg fun hid' => hid hid'.2]
              exact (str8_logged txn _ s _).outcome (-1)
            · rename_i hid
              simp only [not_not] at hid
              have hcond : (bioGetString16 txn (bioGetUint32 txn txn.msg).2).2.1 =
                  svcmgrId.length ∧ unitsAt txn s svcmgrId.length = svcmgrId := ⟨hlen, hid⟩
              have hsame := @codeRequest_same txn
                (bioGetString16 txn (bioGetUint32 txn txn.msg).2).2.2
                ((bioGetString16 txn (bioGetUint32 txn txn.msg).2).2.2.note (.data s 52)) rfl
              rw [if_pos hcond, hsame]
              unfold codeRequest
              split
              · exact getService_outcome malloc rfl
              · split
                · exact addService_outcome malloc rfl
                · split
                  · exact listServices_outcome malloc rfl
                  · rfl

end Handler

end ServiceManager

end BinderForLinux
