import BinderForLinux.ServiceManager.Client

/-!
# Requests

What `svcmgr_handler` reads of a request is what the client wrote. The readers move along the
encodings of the values; what a function of the handler looks at besides goes to the log.
-/

namespace BinderForLinux

namespace ServiceManager

open Library

open Parcel (Value Strong encodeAll intBytes padded charsBytes)

/-! ### Before the cursor -/

/-- The bytes from the cursor to the end of the data. -/
structure Msg.Front (txn : Txn) (m : Msg) (bs : List UInt8) : Prop where
  carries : Carries txn.buffer m.io.data bs
  avail : m.io.dataAvail = bs.length
  ends : m.io.data + bs.length = txn.dataSize
  data0 : m.io.data0 = 0
  offsAvail : m.io.offsAvail = txn.offsetsSize / 8
  small : bs.length < 2 ^ 31

section Front

variable {txn : Txn} {m m' : Msg} {bs rest : List UInt8} {size v : ℕ} {str : List UInt16}

theorem Msg.Front.of_io (h : m.Front txn bs) (hio : m'.io = m.io) : m'.Front txn bs :=
  ⟨hio ▸ h.carries, hio ▸ h.avail, hio ▸ h.ends, hio ▸ h.data0, hio ▸ h.offsAvail, h.small⟩

theorem Msg.Front.note (h : m.Front txn bs) (a : Access) : (m.note a).Front txn bs :=
  h.of_io rfl

theorem Msg.Front.get (h : m.Front txn (bs ++ rest)) (hsize : roundUp4 size = bs.length) :
    ∃ m', bioGet m size = (some m.io.data, m') ∧ m'.Front txn rest := by
  obtain ⟨-, hrest⟩ := carries_append.mp h.carries
  have havail := h.avail
  have hends := h.ends
  have hsmall := h.small
  rw [List.length_append] at havail hends hsmall
  unfold bioGet
  dsimp only [Msg.note]
  rw [hsize, if_neg (by omega)]
  refine ⟨_, rfl, hrest, ?_, ?_, h.data0, h.offsAvail, by omega⟩
  · simp only [Msg.move]
    omega
  · simp only [Msg.move]
    omega

theorem Msg.Front.uint32 (h : m.Front txn (bytesLE 4 v ++ rest)) (hv : v < 2 ^ 32) :
    ∃ m', bioGetUint32 txn m = (v, m') ∧ m'.Front txn rest := by
  have hword : Library.getLE txn.buffer m.io.data 4 = v :=
    (carries_append.mp h.carries).1.getLE (by omega)
  obtain ⟨m', hget, hfront⟩ := h.get (show roundUp4 4 = (bytesLE 4 v).length from rfl)
  refine ⟨m'.note (.data m.io.data 4), ?_, hfront.note _⟩
  unfold bioGetUint32
  rw [hget]
  dsimp only
  rw [hword]

theorem unitsAt_eq_charsAt (txn : Txn) (off n : ℕ) :
    unitsAt txn off n = Parcel.charsAt txn.buffer off n := by
  induction n generalizing off with
  | zero => rfl
  | succ n ih => rw [unitsAt, ih, Parcel.charsAt_succ, unitAt]

theorem intBytes_natCast {n k : ℕ} (hk : k < 256 ^ n) : intBytes n k = bytesLE n k := by
  unfold intBytes
  rw [Int.emod_eq_of_lt (Int.natCast_nonneg k) (by exact_mod_cast hk), Int.toNat_natCast]

theorem Msg.Front.string16 (h : m.Front txn ((Value.string16 str).encode ++ rest)) :
    ∃ s m', bioGetString16 txn m = (some s, str.length, m') ∧
      unitsAt txn s str.length = str ∧ m'.Front txn rest := by
  have hchars : (charsBytes str ++ bytesLE 2 0).length = (str.length + 1) * 2 := by
    simp
    omega
  have hle := Parcel.le_padUnsafe ((str.length + 1) * 2)
  have hsmall := h.small
  have hencode : (Value.string16 str).encode =
      intBytes 4 str.length ++ padded (charsBytes str ++ bytesLE 2 0) := rfl
  rw [hencode, List.append_assoc] at h
  rw [hencode, List.append_assoc, List.length_append, List.length_append, Parcel.length_padded,
    hchars] at hsmall
  have hlen : str.length < 2 ^ 30 := by omega
  rw [intBytes_natCast (by omega)] at h
  obtain ⟨m₁, hword, h₁⟩ := h.uint32 (by omega)
  have hround : roundUp4 ((str.length + 1) * 2 % sizeT) =
      (padded (charsBytes str ++ bytesLE 2 0)).length := by
    rw [Parcel.length_padded, hchars]
    unfold roundUp4 sizeT Parcel.padUnsafe
    omega
  obtain ⟨m₂, hget, h₂⟩ := (h₁.note (.length ((str.length + 1) * 2))).get hround
  refine ⟨m₁.io.data, m₂, ?_, ?_, h₂⟩
  · unfold bioGetString16
    rw [hword]
    dsimp only
    rw [hget]
    rfl
  · rw [unitsAt_eq_charsAt]
    exact Parcel.charsAt_of_carries (carries_append.mp
      (carries_append.mp (carries_append.mp h₁.carries).1).1).1

theorem Msg.Front.ref (h : m.Front txn (bs ++ rest)) (hobj : bs.length = objectSize)
    (hone : txn.offsetsSize / 8 = 1) (hoff : txn.offsets 0 = m.io.data) :
    ∃ m', bioGetRef txn m = (if Library.getLE txn.buffer m.io.data 4 = binderTypeHandle then
      Library.getLE txn.buffer (m.io.data + 8) 4 else 0, m') ∧ m'.Front txn rest := by
  have hfind : findOffset txn (m.io.data - m.io.data0) m.io.offsAvail 0 m =
      (true, m.note (.offset 0)) := by
    rw [h.data0, h.offsAvail, hone, Nat.sub_zero, findOffset, if_pos hoff]
  have hround : roundUp4 objectSize = bs.length := by
    rw [hobj]
    rfl
  obtain ⟨m', hget, hfront⟩ := (h.note (.offset 0)).get hround
  have hobject : bioGet (m.note (.offset 0)) objectSize = (some m.io.data, m') := hget
  unfold bioGetRef bioGetObj
  dsimp only
  rw [hfind]
  simp only [if_true]
  rw [hobject]
  dsimp only
  split
  · exact ⟨_, rfl, (hfront.note _).note _⟩
  · exact ⟨_, rfl, hfront.note _⟩

theorem Msg.Front.ref_none (h : m.Front txn bs) (hnone : txn.offsetsSize / 8 = 0) :
    (bioGetRef txn m).1 = 0 := by
  unfold bioGetRef bioGetObj
  dsimp only
  rw [h.offsAvail, hnone]
  rfl

end Front

/-! ### Looking up a name -/

section Names

variable {txn : Txn} {h h' : Handling} {s len max x : ℕ} {name : List UInt16}
  {sis : List SvcInfo}

/-- Nothing but the log of the message changes. -/
structure Handling.Logged (h h' : Handling) : Prop where
  io : h'.msg.io = h.msg.io
  rest : h' = { h with msg := h'.msg }

theorem Handling.Logged.refl (h : Handling) : h.Logged h := ⟨rfl, rfl⟩

theorem Handling.Logged.trans {h'' : Handling} (h₁ : h.Logged h') (h₂ : h'.Logged h'') :
    h.Logged h'' := by
  refine ⟨h₂.io.trans h₁.io, ?_⟩
  rw [h₂.rest, h₁.rest]

theorem Handling.Logged.note (h₁ : h.Logged h') (a : Access) : h.Logged (h'.note a) := by
  refine ⟨h₁.io, ?_⟩
  rw [h₁.rest]
  rfl

theorem Handling.Logged.svclist (h₁ : h.Logged h') : h'.svclist = h.svclist := by rw [h₁.rest]

theorem Handling.Logged.reply (h₁ : h.Logged h') : h'.reply = h.reply := by rw [h₁.rest]

theorem str8Loop_logged (txn : Txn) (max x : ℕ) (h : Handling) :
    h.Logged (str8Loop txn max x h) := by
  induction max generalizing x h with
  | zero => exact .refl h
  | succ max ih =>
      unfold str8Loop
      dsimp only
      split
      · exact ((Handling.Logged.refl h).note _).trans (ih _ _)
      · exact (Handling.Logged.refl h).note _

theorem str8_logged (txn : Txn) (h : Handling) (x len : ℕ) : h.Logged (str8 txn h x len) :=
  str8Loop_logged txn _ x h

def named (svclist : List SvcInfo) (name : List UInt16) : Option SvcInfo :=
  svclist.find? fun si => si.name = name

theorem findSvcLoop_named (hs : unitsAt txn s name.length = name) (sis : List SvcInfo)
    (h : Handling) : (findSvcLoop txn s name.length sis h).1 = named sis name ∧
      h.Logged (findSvcLoop txn s name.length sis h).2 := by
  induction sis generalizing h with
  | nil => exact ⟨rfl, .refl h⟩
  | cons si sis ih =>
      unfold findSvcLoop named
      rw [List.find?_cons]
      by_cases hname : si.name = name
      · rw [if_pos (show name.length = si.len by rw [← hname]; rfl)]
        dsimp only
        rw [hs, if_pos hname.symm, decide_eq_true hname]
        exact ⟨rfl, ((Handling.Logged.refl h).note _).note _⟩
      · rw [decide_eq_false hname]
        split
        · dsimp only
          rw [hs, if_neg (Ne.symm hname)]
          obtain ⟨hfind, hlogged⟩ :=
            ih ((h.note (.length (name.length * 2))).note (.data s (name.length * 2 % sizeT)))
          exact ⟨hfind, (((Handling.Logged.refl h).note _).note _).trans hlogged⟩
        · exact ih h

theorem findSvc_named (hs : unitsAt txn s name.length = name) (h : Handling) :
    (findSvc txn h s name.length).1 = named h.svclist name ∧
      h.Logged (findSvc txn h s name.length).2 :=
  findSvcLoop_named hs h.svclist h

/-- The handle that is registered under a name; 0 is none. -/
def registered (svclist : List SvcInfo) (name : List UInt16) : ℕ :=
  ((named svclist name).map SvcInfo.handle).getD 0

theorem doFindService_registered (hs : unitsAt txn s name.length = name) (h : Handling) :
    (doFindService txn h s name.length).1 = registered h.svclist name ∧
      h.Logged (doFindService txn h s name.length).2 := by
  obtain ⟨hfind, hlogged⟩ := findSvc_named hs h
  unfold doFindService registered
  dsimp only
  rw [hfind]
  cases hsi : named h.svclist name with
  | none => exact ⟨rfl, hlogged⟩
  | some si =>
      dsimp only
      split
      · rename_i hzero
        exact ⟨hzero.symm, hlogged⟩
      · exact ⟨rfl, hlogged.trans (str8_logged txn _ s _)⟩

def entered (svclist : List SvcInfo) (malloc : Option ℕ) (name : List UInt16) (handle : ℕ)
    (allowIsolated : Bool) : Option (List SvcInfo) :=
  match named svclist name with
  | some si => some (svclist.map fun si' =>
      if si'.addr = si.addr then { si' with handle := handle } else si')
  | none => malloc.map fun addr => ⟨addr, handle, allowIsolated, name⟩ :: svclist

theorem setHandle_setHandle (h : Handling) (addr a b : ℕ) :
    ((h.setHandle addr a).setHandle addr b).svclist = (h.setHandle addr b).svclist := by
  unfold Handling.setHandle
  dsimp only
  rw [List.map_map]
  refine List.map_congr_left fun si _ => ?_
  by_cases haddr : si.addr = addr <;> simp [haddr]

/-- A service that was entered, or not. The reply is left as it was. -/
structure Enters (h : Handling) (svclist : Option (List SvcInfo)) (done : Bool) (h' : Handling) :
    Prop where
  done_eq : done = svclist.isSome
  svclist_eq : h'.svclist = svclist.getD h.svclist
  reply_eq : h'.reply = h.reply

theorem enterService_entered (hs : unitsAt txn s name.length = name) (malloc : Option ℕ)
    (h : Handling) (handle : ℕ) (allowIsolated : Bool) :
    Enters h (entered h.svclist malloc name handle allowIsolated)
      (enterService txn malloc h s name.length handle allowIsolated).1.isSome
      (enterService txn malloc h s name.length handle allowIsolated).2 := by
  obtain ⟨hfind, hlogged⟩ := findSvc_named hs h
  unfold enterService entered
  dsimp only
  rw [hfind]
  cases hsi : named h.svclist name with
  | some si =>
      dsimp only
      have hstr := hlogged.trans (str8_logged txn (findSvc txn h s name.length).2 s name.length)
      refine ⟨rfl, ?_, ?_⟩
      · unfold svcinfoDeath
        split
        · rw [setHandle_setHandle]
          simp only [Handling.setHandle, Handling.send, hstr.svclist]
          rfl
        · simp only [Handling.setHandle, hlogged.svclist]
          rfl
      · unfold svcinfoDeath
        split
        · exact hstr.reply
        · exact hlogged.reply
  | none =>
      dsimp only
      cases malloc with
      | none =>
          have hstr := (hlogged.note (.length (48 + (name.length + 1) * 2))).trans
            (str8_logged txn _ s name.length)
          exact ⟨rfl, hstr.svclist, hstr.reply⟩
      | some addr =>
          refine ⟨rfl, ?_, hlogged.reply⟩
          dsimp only [Handling.note, Option.map_some, Option.getD_some]
          rw [hlogged.svclist, hs]

/-- The services after `do_add_service`, if it succeeds. -/
def added (svclist : List SvcInfo) (malloc : Option ℕ) (name : List UInt16) (handle : ℕ)
    (allowIsolated : Bool) : Option (List SvcInfo) :=
  if handle = 0 ∨ name.length = 0 ∨ name.length > 127 then none
  else entered svclist malloc name handle allowIsolated

theorem doAddService_added (hs : unitsAt txn s name.length = name) (malloc : Option ℕ)
    (h : Handling) (handle : ℕ) (allowIsolated : Bool) :
    (doAddService txn malloc h s name.length handle allowIsolated).1 =
        (if (added h.svclist malloc name handle allowIsolated).isSome then 0 else -1) ∧
      (doAddService txn malloc h s name.length handle allowIsolated).2.svclist =
        (added h.svclist malloc name handle allowIsolated).getD h.svclist ∧
      (doAddService txn malloc h s name.length handle allowIsolated).2.reply = h.reply := by
  unfold doAddService added
  split
  · exact ⟨rfl, rfl, rfl⟩
  · have hstr := str8_logged txn h s name.length
    have henters := enterService_entered hs malloc (str8 txn h s name.length) handle allowIsolated
    rw [hstr.svclist] at henters
    obtain ⟨hdone, hlist, hreply⟩ := henters
    dsimp only
    cases hr : (enterService txn malloc (str8 txn h s name.length) s name.length handle
      allowIsolated).1 with
    | none =>
        rw [hr] at hdone
        dsimp only
        rw [← hdone]
        exact ⟨rfl, hlist.trans (by rw [hstr.svclist]), hreply.trans hstr.reply⟩
    | some si =>
        rw [hr] at hdone
        dsimp only
        rw [← hdone]
        exact ⟨rfl, hlist.trans (by rw [hstr.svclist]), hreply.trans hstr.reply⟩

end Names

/-! ### The handler -/

section Handler

variable {txn : Txn} {h : Handling} {policy : ℤ} {rest : List UInt8} {name : List UInt16}

theorem nthSvc_eq (n : ℕ) (sis : List SvcInfo) : nthSvc n sis = sis[n]? := by
  induction sis generalizing n with
  | nil => cases n <;> rfl
  | cons si sis ih =>
      cases n with
      | zero => rfl
      | succ n => exact ih n

theorem svcmgrHandler_token (malloc : Option ℕ) (htarget : txn.target = 0)
    (hcode : txn.code ≠ pingTransaction)
    (hfront : h.msg.Front txn (encodeAll (interfaceToken policy) ++ rest)) :
    ∃ m, m.Front txn rest ∧ svcmgrHandler txn malloc h =
      if txn.code = svcMgrGetService ∨ txn.code = svcMgrCheckService then
        getService txn { h with msg := m }
      else if txn.code = svcMgrAddService then addService txn malloc { h with msg := m }
      else if txn.code = svcMgrListServices then listServices txn { h with msg := m }
      else (-1, { h with msg := m }) := by
  have hbytes : encodeAll (interfaceToken policy) ++ rest =
      bytesLE 4 (policy % 256 ^ 4).toNat ++
        ((Value.string16 interfaceDescriptor).encode ++ rest) := by
    simp [encodeAll, interfaceToken, Value.encode, intBytes]
  have hword : (policy % 256 ^ 4).toNat < 2 ^ 32 := by
    have := Int.emod_lt_of_pos policy (show (0 : ℤ) < 256 ^ 4 by norm_num)
    have := Int.emod_nonneg policy (show (256 : ℤ) ^ 4 ≠ 0 by norm_num)
    omega
  rw [hbytes] at hfront
  obtain ⟨m₁, hget₁, h₁⟩ := hfront.uint32 hword
  obtain ⟨s, m₂, hget₂, hs, h₂⟩ := h₁.string16
  refine ⟨m₂.note (.data s 52), h₂.note _, ?_⟩
  have hlen : interfaceDescriptor.length = svcmgrId.length := rfl
  have hunits : unitsAt txn s svcmgrId.length = svcmgrId := hs
  unfold svcmgrHandler
  rw [if_neg (not_not.mpr htarget), if_neg hcode, hget₁]
  dsimp only
  rw [hget₂]
  dsimp only
  rw [if_neg (not_not.mpr hlen), if_neg (not_not.mpr hunits)]
  rfl

theorem getService_registered (hfront : h.msg.Front txn ((Value.string16 name).encode ++ rest)) :
    (getService txn h).1 = 0 ∧ (getService txn h).2.svclist = h.svclist ∧
      (getService txn h).2.reply =
        if registered h.svclist name = 0 then bioPutUint32 h.reply 0
        else bioPutRef h.reply (registered h.svclist name) := by
  obtain ⟨s, m, hget, hs, -⟩ := hfront.string16
  obtain ⟨hfound, hlogged⟩ := doFindService_registered hs (h.read m)
  unfold getService
  rw [hget]
  dsimp only
  rw [hfound]
  have hlist : (h.read m).svclist = h.svclist := rfl
  rw [hlist]
  split
  · exact ⟨rfl, hlogged.svclist, congrArg (bioPutUint32 · 0) hlogged.reply⟩
  · exact ⟨rfl, hlogged.svclist, congrArg (bioPutRef · _) hlogged.reply⟩

theorem listServices_nth {n : ℕ} (hn : n < 2 ^ 32)
    (hfront : h.msg.Front txn (bytesLE 4 n ++ rest)) :
    (listServices txn h).2.svclist = h.svclist ∧
      ((listServices txn h).1, (listServices txn h).2.reply) =
        ((h.svclist[n]?).map fun si => ((0 : ℤ), bioPutString16 h.reply si.name)).getD
          (-1, h.reply) := by
  obtain ⟨m, hget, -⟩ := hfront.uint32 hn
  unfold listServices
  rw [hget]
  dsimp only
  rw [nthSvc_eq]
  have hlist : (h.read m).svclist = h.svclist := rfl
  rw [hlist]
  cases h.svclist[n]? with
  | none => exact ⟨rfl, rfl⟩
  | some si => exact ⟨rfl, rfl⟩

/-- What becomes of a request to add a service. -/
structure Adds (h : Handling) (svclist : Option (List SvcInfo)) (r : ℤ × Handling) : Prop where
  status : r.1 = if svclist.isSome then 0 else -1
  svclist_eq : r.2.svclist = svclist.getD h.svclist
  reply : svclist.isSome → r.2.reply = bioPutUint32 h.reply 0

theorem addService_of_read {s handle isolated : ℕ} {m m₁ m₂ : Msg} (malloc : Option ℕ)
    (hs : unitsAt txn s name.length = name)
    (hname : bioGetString16 txn h.msg = (some s, name.length, m))
    (href : bioGetRef txn m = (handle, m₁)) (hflag : bioGetUint32 txn m₁ = (isolated, m₂)) :
    Adds h (added h.svclist malloc name handle (isolated ≠ 0)) (addService txn malloc h) := by
  obtain ⟨hstatus, hlist, hreply⟩ :=
    doAddService_added hs malloc (h.read m₂) handle (isolated ≠ 0)
  have hsvclist : (h.read m₂).svclist = h.svclist := rfl
  rw [hsvclist] at hstatus hlist
  unfold addService
  rw [hname]
  dsimp only
  rw [href]
  dsimp only
  rw [hflag]
  dsimp only
  cases hadded : (added h.svclist malloc name handle (isolated ≠ 0)).isSome with
  | false =>
      rw [hadded] at hstatus
      rw [hstatus]
      exact ⟨by rw [hadded]; rfl, hlist, fun htrue => absurd (hadded.symm.trans htrue) (by decide)⟩
  | true =>
      rw [hadded] at hstatus
      rw [hstatus]
      exact ⟨by rw [hadded]; rfl, hlist, fun _ => congrArg (bioPutUint32 · 0) hreply⟩

end Handler

end ServiceManager

end BinderForLinux
