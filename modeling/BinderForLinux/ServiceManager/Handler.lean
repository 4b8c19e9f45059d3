import BinderForLinux.ServiceManager.Io

/-!
# The service manager

The list of services and `svcmgr_handler`. The checks of `check_mac_perms` are compiled
out and always pass.
-/

namespace BinderForLinux

namespace ServiceManager

open Library

/-! ### The list of services -/

/-- `struct svcinfo`, with the address of its member `death`, which is the cookie for its death
notifications. The length is that of the name. -/
structure SvcInfo where
  addr : ℕ
  handle : ℕ
  allowIsolated : Bool
  name : List UInt16
  deriving DecidableEq, Repr

def SvcInfo.len (si : SvcInfo) : ℕ := si.name.length

/-- What the service manager writes to the driver besides its replies. -/
inductive Command
  | acquire (handle : ℕ)
  | release (handle : ℕ)
  | requestDeathNotification (handle cookie : ℕ)
  deriving DecidableEq, Repr

/-- A transaction that is being handled: the list of services, the message, the reply and what was
written to the driver. -/
structure Handling where
  svclist : List SvcInfo
  msg : Msg
  reply : Reply
  sent : List Command

def Handling.note (h : Handling) (a : Access) : Handling := { h with msg := h.msg.note a }

def Handling.read (h : Handling) (m : Msg) : Handling := { h with msg := m }

def Handling.send (h : Handling) (c : Command) : Handling := { h with sent := h.sent ++ [c] }

def unitAt (txn : Txn) (off : ℕ) : UInt16 := UInt16.ofNat (getLE txn.buffer off 2)

def unitsAt (txn : Txn) (off : ℕ) : ℕ → List UInt16
  | 0 => []
  | len + 1 => unitAt txn off :: unitsAt txn (off + 2) len

/-- The loop of `str8` over at most `max` units of the data. -/
def str8Loop (txn : Txn) : ℕ → ℕ → Handling → Handling
  | 0, _, h => h
  | max + 1, x, h =>
      let h := h.note (.data x 2)
      if unitAt txn x ≠ 0 then str8Loop txn max (x + 2) h else h

def str8 (txn : Txn) (h : Handling) (x len : ℕ) : Handling :=
  str8Loop txn (if len < 127 then len else 127) x h

def findSvcLoop (txn : Txn) (s len : ℕ) : List SvcInfo → Handling → Option SvcInfo × Handling
  | [], h => (none, h)
  | si :: sis, h =>
      if len = si.len then
        let h := (h.note (.length (len * 2))).note (.data s (len * 2 % sizeT))
        if unitsAt txn s len = si.name then (some si, h) else findSvcLoop txn s len sis h
      else findSvcLoop txn s len sis h

def findSvc (txn : Txn) (h : Handling) (s len : ℕ) : Option SvcInfo × Handling :=
  findSvcLoop txn s len h.svclist h

/-- Set the handle of the service whose `death` is at an address. -/
def Handling.setHandle (h : Handling) (addr handle : ℕ) : Handling :=
  { h with svclist := h.svclist.map fun si =>
      if si.addr = addr then { si with handle := handle } else si }

def svcinfoDeath (h : Handling) (si : SvcInfo) : Handling :=
  if si.handle ≠ 0 then (h.send (.release si.handle)).setHandle si.addr 0 else h

/-! ### The requests -/

def doFindService (txn : Txn) (h : Handling) (s len : ℕ) : ℕ × Handling :=
  let r := findSvc txn h s len
  match r.1 with
  | none => (0, r.2)
  | some si => if si.handle = 0 then (0, r.2) else (si.handle, str8 txn r.2 s len)

/-- Enter a service, or set the handle of the one that is there. The flag is false when there is no
memory for it. -/
def enterService (txn : Txn) (malloc : Option ℕ) (h : Handling) (s len handle : ℕ)
    (allowIsolated : Bool) : Option SvcInfo × Handling :=
  let r := findSvc txn h s len
  match r.1 with
  | some si =>
      let h := if si.handle ≠ 0 then svcinfoDeath (str8 txn r.2 s len) si else r.2
      (some si, h.setHandle si.addr handle)
  | none =>
      let h := r.2.note (.length (48 + (len + 1) * 2))
      match malloc with
      | none => (none, str8 txn h s len)
      | some addr =>
          let h := (h.note (.length ((len + 1) * 2))).note (.data s ((len + 1) * 2 % sizeT))
          let si : SvcInfo :=
            { addr := addr, handle := handle, allowIsolated := allowIsolated,
              name := unitsAt txn s len }
          (some si, { h with svclist := si :: h.svclist })

/-- `do_add_service`; `malloc` is the address of `death` in what `malloc` returns if it is
called. -/
def doAddService (txn : Txn) (malloc : Option ℕ) (h : Handling) (s len handle : ℕ)
    (allowIsolated : Bool) : ℤ × Handling :=
  if handle = 0 ∨ len = 0 ∨ len > 127 then (-1, h)
  else
    let r := enterService txn malloc (str8 txn h s len) s len handle allowIsolated
    match r.1 with
    | none => (-1, r.2)
    | some si =>
        (0, (r.2.send (.acquire handle)).send (.requestDeathNotification handle si.addr))

/-- The walk along the list in `SVC_MGR_LIST_SERVICES`. -/
def nthSvc : ℕ → List SvcInfo → Option SvcInfo
  | _, [] => none
  | 0, si :: _ => some si
  | n + 1, _ :: sis => nthSvc n sis

/-! ### The handler -/

def pingTransaction : ℕ := packChars '_'.toNat 'P'.toNat 'N'.toNat 'G'.toNat

def svcMgrGetService : ℕ := 1
def svcMgrCheckService : ℕ := 2
def svcMgrAddService : ℕ := 3
def svcMgrListServices : ℕ := 4

def svcmgrId : List UInt16 :=
  "android.os.IServiceManager".toList.map fun c => UInt16.ofNat c.toNat

/-- The status that ends the handler with one more word in the reply. -/
def Handling.putUint32 (h : Handling) (n : ℕ) : Handling :=
  { h with reply := bioPutUint32 h.reply n }

/-- `SVC_MGR_GET_SERVICE` and `SVC_MGR_CHECK_SERVICE`. -/
def getService (txn : Txn) (h : Handling) : ℤ × Handling :=
  let r := bioGetString16 txn h.msg
  match r.1 with
  | none => (-1, h.read r.2.2)
  | some s =>
      let f := doFindService txn (h.read r.2.2) s r.2.1
      if f.1 = 0 then (0, f.2.putUint32 0)
      else (0, { f.2 with reply := bioPutRef f.2.reply f.1 })

def addService (txn : Txn) (malloc : Option ℕ) (h : Handling) : ℤ × Handling :=
  let r := bioGetString16 txn h.msg
  match r.1 with
  | none => (-1, h.read r.2.2)
  | some s =>
      let ref := bioGetRef txn r.2.2
      let isolated := bioGetUint32 txn ref.2
      let a := doAddService txn malloc (h.read isolated.2) s r.2.1 ref.1 (isolated.1 ≠ 0)
      if a.1 ≠ 0 then (-1, a.2) else (0, a.2.putUint32 0)

def listServices (txn : Txn) (h : Handling) : ℤ × Handling :=
  let n := bioGetUint32 txn h.msg
  let h := h.read n.2
  match nthSvc n.1 h.svclist with
  | some si => (0, { h with reply := bioPutString16 h.reply si.name })
  | none => (-1, h)

/-- `svcmgr_handler`: the status, and what it leaves. -/
def svcmgrHandler (txn : Txn) (malloc : Option ℕ) (h : Handling) : ℤ × Handling :=
  if txn.target ≠ 0 then (-1, h)
  else if txn.code = pingTransaction then (0, h)
  else
    let policy := bioGetUint32 txn h.msg
    let r := bioGetString16 txn policy.2
    let h := h.read r.2.2
    match r.1 with
    | none => (-1, h)
    | some s =>
        if r.2.1 ≠ svcmgrId.length then (-1, str8 txn h s r.2.1)
        else
          let h := h.note (.data s 52)
          if unitsAt txn s svcmgrId.length ≠ svcmgrId then (-1, str8 txn h s r.2.1)
          else if txn.code = svcMgrGetService ∨ txn.code = svcMgrCheckService then getService txn h
          else if txn.code = svcMgrAddService then addService txn malloc h
          else if txn.code = svcMgrListServices then listServices txn h
          else (-1, h)

end ServiceManager

end BinderForLinux
