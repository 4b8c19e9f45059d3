import BinderForLinux.ServiceManager.Requests

/-!
# Requests on their way

The driver writes over the object of a request and the service manager reads it: what it does is
done with the name, the object and the flag that the client wrote.
-/

namespace BinderForLinux

namespace ServiceManager

open Library

open Parcel (Value Strong encodeAll allEntries Extends)

variable {c : Call} {svclist : List SvcInfo} {name : List UInt16} {data : List Value} {code : ℕ}

/-! ### Requests on their way -/

def Given.Ok : Given → Prop
  | .handle h => h < 2 ^ 32
  | .object ptr cookie => ptr < 2 ^ 64 ∧ cookie < 2 ^ 64

/-- The client has memory. -/
structure Call.Ok (c : Call) : Prop where
  allocates : ∀ n, c.oracle.allocates n = true
  given : c.given.Ok
  returned : ∀ h, (c.returned h).Ok

theorem Given.put_outside (g : Given) (m : Parcel.Data) {off i : ℕ} (h : i < off ∨ off + 24 ≤ i) :
    g.put m off i = m i := by
  cases g with
  | handle n =>
      simp only [Given.put, Driver.Data.setHandle, Driver.Data.setType]
      rw [putLE_outside (by omega), putLE_outside (by omega)]
  | object ptr cookie =>
      simp only [Given.put, Driver.Data.setBinder, Driver.Data.setType]
      rw [putLE_outside (by omega), putLE_outside (by omega), putLE_outside (by omega)]

def Given.seen : Given → ℕ
  | .handle h => h
  | .object _ _ => 0

theorem Given.seen_put {g : Given} (hg : g.Ok) (m : Parcel.Data) (off : ℕ) :
    (if getLE (g.put m off) off 4 = binderTypeHandle then getLE (g.put m off) (off + 8) 4 else 0) =
      g.seen := by
  cases g with
  | handle n =>
      have htype : getLE (Given.put (.handle n) m off) off 4 = binderTypeHandle := by
        simp only [Given.put, Driver.Data.setHandle, Driver.Data.setType]
        rw [getLE_putLE_of_disjoint (by omega)]
        exact getLE_putLE_self (by decide)
      rw [if_pos htype]
      have hlt : n < 256 ^ 4 := lt_of_lt_of_eq hg (by norm_num)
      exact getLE_putLE_self hlt
  | object ptr cookie =>
      have htype : getLE (Given.put (.object ptr cookie) m off) off 4 ≠ binderTypeHandle := by
        simp only [Given.put, Driver.Data.setBinder, Driver.Data.setType]
        rw [getLE_putLE_of_disjoint (by omega), getLE_putLE_of_disjoint (by omega),
          getLE_putLE_self (Driver.ObjectType.code_lt _)]
        decide
      exact if_neg htype

theorem allEntries_append (off : ℕ) (vs us : List Value) :
    allEntries off (vs ++ us) =
      allEntries off vs ++ allEntries (off + (encodeAll vs).length) us := by
  induction vs generalizing off with
  | nil => rfl
  | cons v vs ih =>
      simp only [List.cons_append, allEntries, ih, List.append_assoc, encodeAll, List.flatMap_cons,
        List.length_append, Nat.add_assoc]

theorem allEntries_plain (off : ℕ) {vs : List Value} (h : ∀ v ∈ vs, v.listed = false) :
    allEntries off vs = [] := by
  induction vs generalizing off with
  | nil => rfl
  | cons v vs ih =>
      have hv := h v List.mem_cons_self
      rw [allEntries, ih _ fun u hu => h u (List.mem_cons_of_mem v hu), Value.entries, hv]
      rfl

theorem Call.Ok.written (hc : c.Ok) (hmax : (encodeAll data).length ≤ 1024) :
    Extends Parcel.new (Parcel.writeAll c.oracle Parcel.new c.world data).2.1 (encodeAll data)
      (allEntries 0 data) := by
  refine (Parcel.writeAll_extends hc.allocates Parcel.ready_new data ?_).2
  have hzero : Parcel.new.mDataSize = 0 := rfl
  rw [hzero]
  unfold Parcel.int32Max
  omega

theorem Call.Ok.front_plain (hc : c.Ok) (code : ℕ) (hmax : (encodeAll data).length ≤ 1024)
    (hplain : ∀ v ∈ data, v.listed = false) :
    (c.txn code data).msg.Front (c.txn code data) (encodeAll data) ∧
      (c.txn code data).offsetsSize / 8 = 0 := by
  have hwritten := hc.written hmax
  have hobjects := hwritten.objects
  rw [allEntries_plain 0 hplain] at hobjects
  have hnone : (Parcel.writeAll c.oracle Parcel.new c.world data).2.1.objects = [] := hobjects
  have hsize : (Parcel.writeAll c.oracle Parcel.new c.world data).2.1.mDataSize =
      (encodeAll data).length := hwritten.size.trans (Nat.zero_add _)
  have hbuffer : (c.txn code data).buffer =
      (Parcel.writeAll c.oracle Parcel.new c.world data).2.1.bytes := by
    simp only [Call.txn, hnone, List.foldl_nil]
  have hoffs : (c.txn code data).offsetsSize = 0 := by
    simp only [Call.txn, hnone, List.length_nil]
  refine ⟨⟨?_, hsize, (Nat.zero_add _).trans hsize.symm, rfl, rfl, by omega⟩, by rw [hoffs]⟩
  rw [hbuffer]
  exact hwritten.carries

theorem Call.Ok.front_object (hc : c.Ok) {pre post : List Value} {service : Strong} {n : ℕ}
    (hn : (encodeAll pre).length = n)
    (hmax : (encodeAll (pre ++ .strongBinder service :: post)).length ≤ 1024)
    (hpre : ∀ v ∈ pre, v.listed = false) (hpost : ∀ v ∈ post, v.listed = false)
    (hlisted : (Value.strongBinder service).listed = true) {txn : Txn}
    (htxn : txn = c.txn code (pre ++ .strongBinder service :: post)) :
    txn.msg.Front txn (encodeAll pre ++
        (getBytes txn.buffer n 24 ++ encodeAll post)) ∧
      txn.offsetsSize / 8 = 1 ∧ txn.offsets 0 = n ∧ ∃ m, txn.buffer = c.given.put m n := by
  subst hn
  have hwritten := hc.written hmax
  have hbytes : encodeAll (pre ++ .strongBinder service :: post) =
      encodeAll pre ++ ((Value.strongBinder service).encode ++ encodeAll post) := by
    simp [encodeAll]
  have hobject : (Value.strongBinder service).encode.length = 24 := Parcel.FlatObject.length_bytes _
  have hobjects : (Parcel.writeAll c.oracle Parcel.new c.world
      (pre ++ .strongBinder service :: post)).2.1.objects = [(encodeAll pre).length] := by
    have := hwritten.objects
    rw [allEntries_append, allEntries_plain 0 hpre, Nat.zero_add, allEntries,
      allEntries_plain _ hpost, Value.entries, if_pos hlisted] at this
    exact this
  have hsize := hwritten.size
  rw [hbytes, List.length_append, List.length_append, hobject] at hsize hmax
  have hbuffer : txn.buffer = c.given.put (Parcel.writeAll c.oracle Parcel.new c.world
      (pre ++ .strongBinder service :: post)).2.1.bytes (encodeAll pre).length := by
    rw [htxn]
    simp only [Call.txn, hobjects, List.foldl_cons, List.foldl_nil]
  have hoffs : txn.offsetsSize = 8 := by
    rw [htxn]
    simp only [Call.txn, hobjects, List.length_singleton]
  have hdata : txn.dataSize = (encodeAll pre).length + (24 + (encodeAll post).length) := by
    rw [htxn]
    exact hsize.trans (Nat.zero_add _)
  have hcarries : Carries (Parcel.writeAll c.oracle Parcel.new c.world
      (pre ++ .strongBinder service :: post)).2.1.bytes 0
      (encodeAll (pre ++ .strongBinder service :: post)) := hwritten.carries
  rw [hbytes] at hcarries
  obtain ⟨hfirst, hrest⟩ := carries_append.mp hcarries
  obtain ⟨-, hlast⟩ := carries_append.mp hrest
  have hlength : (encodeAll pre ++ (getBytes txn.buffer (encodeAll pre).length 24 ++
      encodeAll post)).length = txn.dataSize := by
    rw [List.length_append, List.length_append, length_getBytes, hdata]
  refine ⟨⟨?_, hlength.symm, (Nat.zero_add _).trans hlength, rfl, rfl, by omega⟩, by rw [hoffs],
    ?_, _, hbuffer⟩
  · change Carries txn.buffer 0 _
    refine carries_append.mpr ⟨?_, carries_append.mpr ⟨?_, ?_⟩⟩
    · rw [hbuffer]
      exact hfirst.congr fun i _ hi => c.given.put_outside _ (.inl (by omega))
    · rw [Nat.zero_add]
      unfold Carries
      rw [length_getBytes]
    · rw [length_getBytes, Nat.zero_add, hbuffer]
      rw [hobject, Nat.zero_add] at hlast
      exact hlast.congr fun i hi _ => c.given.put_outside _ (.inr hi)
  · rw [htxn]
    simp only [Call.txn, hobjects]
    rfl

/-! ### What is done with a request -/

def Call.emptyReply (c : Call) : Reply := .begin c.io c.rdata 256 4

theorem length_string16 (str : List UInt16) :
    (Value.string16 str).encode.length = 4 + Parcel.padUnsafe ((str.length + 1) * 2) := by
  have hchars : (Parcel.charsBytes str ++ bytesLE 2 0).length = (str.length + 1) * 2 := by
    simp
    omega
  rw [Value.encode, List.length_append, Parcel.length_padded, Parcel.length_intBytes, hchars]

theorem length_interfaceToken (policy : ℤ) : (encodeAll (interfaceToken policy)).length = 64 := by
  have hlen : interfaceDescriptor.length = 26 := rfl
  have hstr := length_string16 interfaceDescriptor
  rw [hlen] at hstr
  rw [interfaceToken, encodeAll, List.flatMap_cons, List.flatMap_cons, List.flatMap_nil,
    List.append_nil, List.length_append, hstr]
  rfl

def Call.handled (c : Call) (svclist : List SvcInfo) (code : ℕ) (data : List Value) :
    ℤ × Handling :=
  let txn := c.txn code data
  svcmgrHandler txn c.malloc ⟨svclist, txn.msg, c.emptyReply, []⟩

theorem Call.transact_data (hst : (c.handled svclist code data).1 = 0) :
    c.transact svclist code data =
      (0, (c.receive (.data (c.handled svclist code data).2.reply.txn)).2,
        (c.handled svclist code data).2.svclist) := by
  have hanswer : (c.parse svclist (c.txn code data)).1 =
      .data (c.handled svclist code data).2.reply.txn := if_neg (not_not.mpr hst)
  unfold Call.transact
  dsimp only
  rw [hanswer]
  rfl

theorem Call.transact_status (hst : (c.handled svclist code data).1 = -1) :
    c.transact svclist code data = (-1, Parcel.new, (c.handled svclist code data).2.svclist) := by
  have hanswer : (c.parse svclist (c.txn code data)).1 = .status (-1) := by
    have hne : (c.handled svclist code data).1 ≠ 0 := by
      rw [hst]
      decide
    exact (if_pos hne).trans (congrArg Answer.status hst)
  unfold Call.transact
  dsimp only
  rw [hanswer]
  rfl

theorem plain_interfaceToken {vs : List Value} (h : ∀ v ∈ vs, v.listed = false) :
    ∀ v ∈ interfaceToken c.policy ++ vs, v.listed = false := by
  intro v hv
  rcases List.mem_append.mp hv with hv | hv
  · simp only [interfaceToken, List.mem_cons, List.not_mem_nil, or_false] at hv
    rcases hv with rfl | rfl <;> rfl
  · exact h v hv

theorem Call.Ok.transact_check (hc : c.Ok) (hname : name.length ≤ 127) :
    c.transact svclist checkServiceTransaction (checkServiceData c.policy name) =
      (0, (c.receive (.data (if registered svclist name = 0 then bioPutUint32 c.emptyReply 0
        else bioPutRef c.emptyReply (registered svclist name)).txn)).2, svclist) := by
  have hbytes : encodeAll (checkServiceData c.policy name) =
      encodeAll (interfaceToken c.policy) ++ ((Value.string16 name).encode ++ []) := by
    simp [encodeAll, checkServiceData]
  have hmax : (encodeAll (checkServiceData c.policy name)).length ≤ 1024 := by
    rw [hbytes, List.length_append, List.length_append, length_interfaceToken, length_string16]
    unfold Parcel.padUnsafe
    simp only [List.length_nil]
    omega
  obtain ⟨hfront, -⟩ := hc.front_plain checkServiceTransaction hmax
    (plain_interfaceToken fun v hv => by rw [List.mem_singleton.mp hv]; rfl)
  rw [hbytes] at hfront
  obtain ⟨m, hm, hhandled⟩ := svcmgrHandler_token c.malloc
    (h := ⟨svclist, _, c.emptyReply, []⟩) rfl
    (show checkServiceTransaction ≠ pingTransaction by decide) hfront
  obtain ⟨hstatus, hlist, hreply⟩ := getService_registered (h := ⟨svclist, m, c.emptyReply, []⟩) hm
  have hget : c.handled svclist checkServiceTransaction (checkServiceData c.policy name) =
      getService _ ⟨svclist, m, c.emptyReply, []⟩ := hhandled
  rw [transact_data (by rw [hget, hstatus]), hget, hreply, hlist]

theorem Call.Ok.transact_list (hc : c.Ok) {n : ℕ} (hn : n < 2 ^ 31) :
    c.transact svclist listServicesTransaction (listServicesData c.policy n) =
      ((svclist[n]?).map fun si =>
        ((0 : ℤ), (c.receive (.data (bioPutString16 c.emptyReply si.name).txn)).2, svclist)).getD
        (-1, Parcel.new, svclist) := by
  have hbytes : encodeAll (listServicesData c.policy n) =
      encodeAll (interfaceToken c.policy) ++ (bytesLE 4 n ++ []) := by
    rw [← intBytes_natCast (show n < 256 ^ 4 by omega)]
    simp [encodeAll, listServicesData, Value.encode]
  have hmax : (encodeAll (listServicesData c.policy n)).length ≤ 1024 := by
    rw [hbytes, List.length_append, List.length_append, length_interfaceToken, length_bytesLE]
    decide
  obtain ⟨hfront, -⟩ := hc.front_plain listServicesTransaction hmax
    (plain_interfaceToken fun v hv => by rw [List.mem_singleton.mp hv]; rfl)
  rw [hbytes] at hfront
  obtain ⟨m, hm, hhandled⟩ := svcmgrHandler_token c.malloc
    (h := ⟨svclist, _, c.emptyReply, []⟩) rfl
    (show listServicesTransaction ≠ pingTransaction by decide) hfront
  obtain ⟨hlist, hreply⟩ := listServices_nth (h := ⟨svclist, m, c.emptyReply, []⟩) (by omega) hm
  have hget : c.handled svclist listServicesTransaction (listServicesData c.policy n) =
      listServices _ ⟨svclist, m, c.emptyReply, []⟩ := hhandled
  cases hsi : svclist[n]? with
  | none =>
      simp only [hsi] at hreply
      obtain ⟨hstatus, -⟩ := Prod.mk.inj hreply
      rw [transact_status (by rw [hget, hstatus]), hget, hlist]
      rfl
  | some si =>
      simp only [hsi] at hreply
      obtain ⟨hstatus, hput⟩ := Prod.mk.inj hreply
      rw [transact_data (by rw [hget, hstatus]), hget, hlist, hput]
      rfl

/-- The handle that the service manager gets for a service. -/
def Call.seen (c : Call) (service : Strong) : ℕ :=
  if (Value.strongBinder service).listed then c.given.seen else 0

theorem svcmgrHandler_add {txn : Txn} {h : Handling} {policy : ℤ} {rest : List UInt8}
    (malloc : Option ℕ) (htarget : txn.target = 0) (hcode : txn.code = addServiceTransaction)
    (hfront : h.msg.Front txn (encodeAll (interfaceToken policy) ++ rest)) :
    ∃ m, m.Front txn rest ∧
      svcmgrHandler txn malloc h = addService txn malloc { h with msg := m } := by
  obtain ⟨m, hm, heq⟩ := svcmgrHandler_token malloc htarget (by rw [hcode]; decide) hfront
  rw [hcode] at heq
  exact ⟨m, hm, heq⟩

/-- A service is added with the name, the handle and the flag that were written. -/
theorem Call.Ok.handled_add (hc : c.Ok) (svclist : List SvcInfo) (hname : name.length ≤ 127)
    (service : Strong) (allowIsolated : Bool) :
    Adds ⟨svclist, (c.txn addServiceTransaction (addServiceData c.policy name service
        allowIsolated)).msg, c.emptyReply, []⟩
      (added svclist c.malloc name (c.seen service) allowIsolated)
      (c.handled svclist addServiceTransaction
        (addServiceData c.policy name service allowIsolated)) := by
  have hflag : (Value.int32 (if allowIsolated then 1 else 0)).encode =
      bytesLE 4 (if allowIsolated then 1 else 0) := by
    cases allowIsolated <;> rfl
  have hbytes : encodeAll (addServiceData c.policy name service allowIsolated) =
      encodeAll (interfaceToken c.policy) ++ ((Value.string16 name).encode ++
        ((Value.strongBinder service).encode ++
          (bytesLE 4 (if allowIsolated then 1 else 0) ++ []))) := by
    simp [encodeAll, addServiceData, hflag]
  have hobject : (Value.strongBinder service).encode.length = 24 := Parcel.FlatObject.length_bytes _
  have hmax : (encodeAll (addServiceData c.policy name service allowIsolated)).length ≤ 1024 := by
    rw [hbytes, List.length_append, List.length_append, List.length_append, List.length_append,
      length_interfaceToken, length_string16, hobject, length_bytesLE]
    unfold Parcel.padUnsafe
    simp only [List.length_nil]
    omega
  have hcode : addServiceTransaction ≠ pingTransaction := by decide
  generalize htxn : c.txn addServiceTransaction
    (addServiceData c.policy name service allowIsolated) = txn
  have htarget : txn.target = 0 := by rw [← htxn]; rfl
  have hadd : txn.code = addServiceTransaction := by rw [← htxn]; rfl
  have hhandled : c.handled svclist addServiceTransaction
      (addServiceData c.policy name service allowIsolated) =
        svcmgrHandler txn c.malloc ⟨svclist, txn.msg, c.emptyReply, []⟩ := by rw [← htxn]; rfl
  rw [hhandled]
  cases hlisted : (Value.strongBinder service).listed with
  | true =>
      have hdata : addServiceData c.policy name service allowIsolated =
          (interfaceToken c.policy ++ [.string16 name]) ++ .strongBinder service ::
            [.int32 (if allowIsolated then 1 else 0)] := rfl
      rw [hdata] at hmax htxn
      obtain ⟨n, hn⟩ : ∃ n, (encodeAll (interfaceToken c.policy ++ [.string16 name])).length = n :=
        ⟨_, rfl⟩
      obtain ⟨hfront, hone, hoff, mem, hbuffer⟩ := hc.front_object hn hmax
        (plain_interfaceToken fun v hv => by rw [List.mem_singleton.mp hv]; rfl)
        (fun v hv => by rw [List.mem_singleton.mp hv]; rfl) hlisted htxn.symm
      have hpre : encodeAll (interfaceToken c.policy ++ [.string16 name]) =
          encodeAll (interfaceToken c.policy) ++ (Value.string16 name).encode := by simp [encodeAll]
      have hpost : encodeAll [.int32 (if allowIsolated then 1 else 0)] =
          bytesLE 4 (if allowIsolated then 1 else 0) ++ [] := by simp [encodeAll, hflag]
      rw [hpost] at hfront
      have hends := hfront.ends
      rw [hpre, List.append_assoc] at hfront
      obtain ⟨m, hm, heq⟩ := svcmgrHandler_add c.malloc
        (h := ⟨svclist, txn.msg, c.emptyReply, []⟩) htarget hadd hfront
      obtain ⟨s, m₁, hget, hs, h₁⟩ := hm.string16
      have hpos : m₁.io.data = n := by
        have hrest := h₁.ends
        have hzero : txn.msg.io.data = 0 := rfl
        rw [hzero, List.length_append, hn] at hends
        omega
      obtain ⟨m₂, href, h₂⟩ := h₁.ref (length_getBytes _ _ _) hone (hoff.trans hpos.symm)
      rw [hpos, hbuffer, Given.seen_put hc.given] at href
      obtain ⟨m₃, hisolated, -⟩ := h₂.uint32 (by cases allowIsolated <;> decide)
      have hadds := addService_of_read (h := ⟨svclist, m, c.emptyReply, []⟩) c.malloc hs hget href
        hisolated
      rw [show decide ((if allowIsolated then 1 else 0) ≠ 0) = allowIsolated by
        cases allowIsolated <;> rfl] at hadds
      rw [heq]
      unfold Call.seen
      rw [if_pos hlisted]
      exact ⟨hadds.status, hadds.svclist_eq, hadds.reply⟩
  | false =>
      obtain ⟨hfront, hnone⟩ := hc.front_plain addServiceTransaction hmax
        (plain_interfaceToken fun v hv => by
          simp only [List.mem_cons, List.not_mem_nil, or_false] at hv
          rcases hv with rfl | rfl | rfl
          · rfl
          · exact hlisted
          · rfl)
      rw [htxn, hbytes] at hfront
      rw [htxn] at hnone
      obtain ⟨m, hm, heq⟩ := svcmgrHandler_add c.malloc
        (h := ⟨svclist, txn.msg, c.emptyReply, []⟩) htarget hadd hfront
      obtain ⟨s, m₁, hget, hs, h₁⟩ := hm.string16
      have hadds := addService_of_read (h := ⟨svclist, m, c.emptyReply, []⟩) c.malloc hs hget
        (Prod.ext (h₁.ref_none hnone) rfl) rfl
      have hzero (isolated : Bool) : added svclist c.malloc name 0 isolated = none :=
        if_pos (.inl rfl)
      rw [hzero] at hadds
      unfold Call.seen
      rw [heq, if_neg (by rw [hlisted]; decide), hzero]
      exact ⟨hadds.status, hadds.svclist_eq, hadds.reply⟩

end ServiceManager

end BinderForLinux
