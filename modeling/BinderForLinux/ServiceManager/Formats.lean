import BinderForLinux.ServiceManager.Answers

/-!
# The client and the service manager

What a client asks for is done with the name, the object and the flag it wrote, and it reads the
handle and the status that were put. A name is listed as it is registered only if the stack buffer
of the reply has room for it, which nothing looks at.
-/

namespace BinderForLinux

namespace ServiceManager

open Library

open Parcel (Strong)

open ProxyTable (ProcessState LookupEnv Fault)

variable {c : Call} {svclist : List SvcInfo} {name : List UInt16}

/-! ### The functions of `BpServiceManager` -/

def Call.lookedUp (c : Call) (s : ProcessState) (e : LookupEnv) (handle : ℕ) :
    Except Fault (Option ℕ × ProcessState) :=
  if handle = 0 then .ok (none, s) else (c.returned handle).unflatten s e

theorem registered_lt (hhandles : ∀ si ∈ svclist, si.handle < 2 ^ 32) :
    registered svclist name < 2 ^ 32 := by
  unfold registered
  cases hsi : named svclist name with
  | none => exact Nat.two_pow_pos 32
  | some si => exact hhandles si (List.mem_of_find?_eq_some hsi)

theorem checkService_eq (hhandles : ∀ si ∈ svclist, si.handle < 2 ^ 32) (hc : c.Ok)
    (hname : name.length ≤ 127) (s : ProcessState) (e : LookupEnv) :
    BpServiceManager.checkService c svclist s e name =
      c.lookedUp s e (registered svclist name) := by
  unfold BpServiceManager.checkService Call.lookedUp
  dsimp only
  rw [hc.transact_check hname]
  dsimp only
  split
  · exact (c.receive_word (by decide)).readStrongBinder_none s e
  · rename_i hzero
    exact hc.readStrongBinder_ref hzero (registered_lt hhandles) s e

theorem addService_eq (hc : c.Ok) (hname : name.length ≤ 127) (service : Strong)
    (allowIsolated : Bool) :
    BpServiceManager.addService c svclist name service allowIsolated =
      (some (if (added svclist c.malloc name (c.seen service) allowIsolated).isSome then 0 else -1),
        (added svclist c.malloc name (c.seen service) allowIsolated).getD svclist) := by
  obtain ⟨hstatus, hlist, hreply⟩ := hc.handled_add svclist hname service allowIsolated
  unfold BpServiceManager.addService
  dsimp only
  cases hadded : (added svclist c.malloc name (c.seen service) allowIsolated).isSome with
  | true =>
      rw [hadded] at hstatus
      rw [Call.transact_data hstatus, hreply hadded, hlist]
      exact Prod.ext (c.receive_word (by decide)).readExceptionCode_zero rfl
  | false =>
      rw [hadded] at hstatus
      rw [Call.transact_status hstatus, hlist]
      rfl

theorem listServicesLoop_eq {calls : ℕ → Call} (hcalls : ∀ n, (calls n).Ok) {k n : ℕ}
    (hn : n ≤ svclist.length) (hmax : n + k < 2 ^ 31) :
    BpServiceManager.listServicesLoop calls svclist k n =
      if svclist.length < n + k then some ((svclist.drop n).map fun si => shown si.name)
      else none := by
  induction k generalizing n with
  | zero => exact (if_neg (not_lt.mpr hn)).symm
  | succ k ih =>
      unfold BpServiceManager.listServicesLoop
      dsimp only
      rw [(hcalls n).transact_list (by omega)]
      cases hsi : svclist[n]? with
      | none =>
          have hlen := List.getElem?_eq_none_iff.mp hsi
          dsimp only [Option.map_none, Option.getD_none]
          rw [if_pos (show (-1 : ℤ) ≠ 0 by decide), List.drop_of_length_le hlen,
            if_pos (by omega)]
          rfl
      | some si =>
          obtain ⟨hlt, hget⟩ := List.getElem?_eq_some_iff.mp hsi
          dsimp only [Option.map_some, Option.getD_some]
          rw [if_neg (by decide), ih hlt (by omega), (calls n).readString16_put,
            List.drop_eq_getElem_cons hlt, hget, Nat.add_right_comm n 1 k, Nat.add_assoc n k 1]
          split <;> rfl

theorem listServices_eq {calls : ℕ → Call} (hcalls : ∀ n, (calls n).Ok) :
    BpServiceManager.listServices calls svclist =
      if svclist.length < Parcel.int32Max then some (svclist.map fun si => shown si.name)
      else none := by
  have hloop := listServicesLoop_eq (k := Parcel.int32Max) hcalls (Nat.zero_le svclist.length)
    (by decide)
  rw [Nat.zero_add, List.drop_zero] at hloop
  exact hloop

/-! ### One format -/

/-- Client and service manager speak the same format about some services: a request is done with
what the client wrote, and the client reads what was put. -/
structure SameFormat (svclist : List SvcInfo) : Prop where
  check : ∀ (c : Call) (s : ProcessState) (e : LookupEnv) (name : List UInt16), c.Ok →
    1 ≤ name.length → name.length ≤ 127 →
      BpServiceManager.checkService c svclist s e name = c.lookedUp s e (registered svclist name)
  add : ∀ (c : Call) (name : List UInt16) (service : Strong) (allowIsolated : Bool), c.Ok →
    1 ≤ name.length → name.length ≤ 127 →
      BpServiceManager.addService c svclist name service allowIsolated =
        (some (if (added svclist c.malloc name (c.seen service) allowIsolated).isSome then 0
          else -1), (added svclist c.malloc name (c.seen service) allowIsolated).getD svclist)
  list : ∀ calls : ℕ → Call, (∀ n, (calls n).Ok) →
    BpServiceManager.listServices calls svclist = some (svclist.map SvcInfo.name)

theorem shown_eq_self : shown name = name ↔ name.length ≤ 109 ∧ 0 ∉ name := by
  unfold shown
  dsimp only
  constructor
  · intro heq
    split at heq
    · rename_i hlen
      rw [heq] at hlen
      refine ⟨hlen, fun hzero => ?_⟩
      have hne := List.takeWhile_eq_self_iff.mp heq 0 hzero
      exact absurd hne (by decide)
    · rename_i hlong
      rw [← heq] at hlong
      exact absurd (Nat.zero_le 109) hlong
  · rintro ⟨hlen, hzero⟩
    rw [takeWhile_of_notMem hzero, if_pos hlen]

def Call.plain : Call where
  oracle := ⟨fun _ => true, fun _ _ => 0, fun _ _ => 0, fun _ => 0, fun _ => 0⟩
  world := .init
  policy := 0
  senderPid := 0
  senderEuid := 0
  given := .handle 1
  returned := fun _ => .handle 1
  malloc := none
  io := .zero
  rdata := fun _ => 0

theorem Call.plain_ok : Call.plain.Ok where
  allocates _ := rfl
  given := show 1 < 2 ^ 32 by decide
  returned _ := show 1 < 2 ^ 32 by decide

/-- The format is the same exactly for services that can be numbered and have names of at most 109
units, none of them zero. -/
theorem sameFormat_iff (hhandles : ∀ si ∈ svclist, si.handle < 2 ^ 32) :
    SameFormat svclist ↔
      svclist.length < Parcel.int32Max ∧ ∀ si ∈ svclist, si.name.length ≤ 109 ∧ 0 ∉ si.name := by
  constructor
  · intro h
    have hlist := h.list (fun _ => .plain) fun _ => Call.plain_ok
    rw [listServices_eq fun _ => Call.plain_ok] at hlist
    split at hlist
    · rename_i hlen
      refine ⟨hlen, fun si hsi => shown_eq_self.mp ?_⟩
      exact List.map_inj_left.mp (Option.some.inj hlist) si hsi
    · cases hlist
  · rintro ⟨hlen, hnames⟩
    refine ⟨fun c s e name hc _ hname => checkService_eq hhandles hc hname s e,
      fun c name service allowIsolated hc _ hname => addService_eq hc hname service allowIsolated,
      fun calls hcalls => ?_⟩
    rw [listServices_eq hcalls, if_pos hlen]
    exact congrArg some (List.map_congr_left fun si hsi => shown_eq_self.mpr (hnames si hsi))

theorem sameFormat_phone : SameFormat [⟨4096, 1, false, [112, 104, 111, 110, 101]⟩] :=
  (sameFormat_iff (by decide)).mpr (by decide)

/-- A service that `do_add_service` enters is listed without its name. -/
theorem listServices_unnamed : ∃ (name : List UInt16) (si : SvcInfo), name.length = 110 ∧
    si.name = name ∧ added [] (some 4096) name 1 false = some [si] ∧ ¬ SameFormat [si] ∧
      ∀ calls : ℕ → Call, (∀ n, (calls n).Ok) →
        BpServiceManager.listServices calls [si] = some [[]] := by
  have hlist (calls : ℕ → Call) (hcalls : ∀ n, (calls n).Ok) :
      BpServiceManager.listServices calls [⟨4096, 1, false, List.replicate 110 97⟩] =
        some [[]] := by
    rw [listServices_eq hcalls]
    decide
  refine ⟨List.replicate 110 97, ⟨4096, 1, false, List.replicate 110 97⟩, by decide, rfl, by decide,
    fun h => ?_, hlist⟩
  have hnames := h.list (fun _ => .plain) fun _ => Call.plain_ok
  rw [hlist _ fun _ => Call.plain_ok] at hnames
  exact absurd hnames (by decide)

end ServiceManager

end BinderForLinux
