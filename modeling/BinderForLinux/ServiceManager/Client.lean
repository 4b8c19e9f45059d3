import BinderForLinux.Driver.Object
import BinderForLinux.Parcel.RoundTrip
import BinderForLinux.ServiceManager.Puts

/-!
# Clients of the service manager

`BpServiceManager` writes its requests with `Parcel` and reads the replies with it, the service
manager reads and writes both with `binder_io`. Between the two the driver writes over the objects
of a message what they are in the receiver.
-/

namespace BinderForLinux

namespace ServiceManager

open Library

open Parcel (Value Strong Oracle World Data)

/-! ### Requests -/

def firstCallTransaction : ℕ := 1

def checkServiceTransaction : ℕ := firstCallTransaction + 1
def addServiceTransaction : ℕ := firstCallTransaction + 2
def listServicesTransaction : ℕ := firstCallTransaction + 3

def interfaceDescriptor : List UInt16 :=
  "android.os.IServiceManager".toList.map fun c => UInt16.ofNat c.toNat

/-- `Parcel::writeInterfaceToken` with the policy of the thread. -/
def interfaceToken (policy : ℤ) : List Value := [.int32 policy, .string16 interfaceDescriptor]

def checkServiceData (policy : ℤ) (name : List UInt16) : List Value :=
  interfaceToken policy ++ [.string16 name]

def addServiceData (policy : ℤ) (name : List UInt16) (service : Strong) (allowIsolated : Bool) :
    List Value :=
  interfaceToken policy ++
    [.string16 name, .strongBinder service, .int32 (if allowIsolated then 1 else 0)]

def listServicesData (policy n : ℤ) : List Value := interfaceToken policy ++ [.int32 n]

/-! ### Messages on their way -/

/-- What an object is in the receiver. -/
inductive Given
  | handle (h : ℕ)
  | object (ptr cookie : ℕ)
  deriving DecidableEq, Repr

def Given.put (g : Given) (data : Data) (off : ℕ) : Data :=
  match g with
  | .handle h => (Driver.Data.setType data off (.handle true)).setHandle off h
  | .object ptr cookie => (Driver.Data.setType data off (.binder true)).setBinder off ptr cookie

/-- What the code does not decide in a call: the memory and the policy of the client, who the
client is, what the object of the request is in the service manager and what a handle of the service
manager is in the client, and in the service manager the address from `malloc` and the stack on
which the reply is built. -/
structure Call where
  oracle : Oracle
  world : World
  policy : ℤ
  senderPid : ℕ
  senderEuid : ℕ
  given : Given
  returned : ℕ → Given
  malloc : Option ℕ
  io : BinderIo
  rdata : ℕ → UInt8

def Call.txn (c : Call) (code : ℕ) (data : List Value) : Txn :=
  let p := (Parcel.writeAll c.oracle Parcel.new c.world data).2.1
  { target := 0
    code := code
    senderPid := c.senderPid
    senderEuid := c.senderEuid
    dataSize := p.mDataSize
    offsetsSize := 8 * p.objects.length
    buffer := p.objects.foldl c.given.put p.bytes
    offsets := fun n => p.objects.getD n 0 }

/-- What `binder_send_reply` sends. -/
inductive Answer
  | status (st : ℤ)
  | data (txn : Txn)

def binderSendReply (reply : Reply) (status : ℤ) : Answer :=
  if status ≠ 0 then .status status else .data reply.txn

/-- The part of `binder_parse` that handles a transaction. -/
def Call.parse (c : Call) (svclist : List SvcInfo) (txn : Txn) : Answer × Handling :=
  let r := svcmgrHandler txn c.malloc ⟨svclist, txn.msg, .begin c.io c.rdata 256 4, []⟩
  (binderSendReply r.2.reply r.1, r.2)

def Txn.objects (txn : Txn) : List ℕ := (List.range (txn.offsetsSize / 8)).map txn.offsets

/-- The objects of a reply, one after the other, as they are in the client. -/
def Call.returnObjects (c : Call) (data : Data) (offs : List ℕ) : Data :=
  offs.foldl (fun data off => (c.returned (Driver.Data.handle data off)).put data off) data

/-- The case of `BR_REPLY` in `IPCThreadState::waitForResponse`: the status, and the reply. -/
def Call.receive (c : Call) : Answer → ℤ × Parcel.Parcel
  | .status st => (st, Parcel.new)
  | .data txn =>
      (0, (Parcel.ipcSetDataReference c.oracle Parcel.new c.world
        (c.returnObjects txn.buffer txn.objects) txn.dataSize txn.objects).1)

/-- `BpBinder::transact` on the service manager: the status, the reply and the services after it. -/
def Call.transact (c : Call) (svclist : List SvcInfo) (code : ℕ) (data : List Value) :
    ℤ × Parcel.Parcel × List SvcInfo :=
  let r := c.parse svclist (c.txn code data)
  let reply := c.receive r.1
  (reply.1, reply.2, r.2.svclist)

/-! ### `BpServiceManager` -/

namespace BpServiceManager

/-- `checkService`, in a process with its table of proxies. -/
def checkService (c : Call) (svclist : List SvcInfo) (s : ProxyTable.ProcessState)
    (e : ProxyTable.LookupEnv) (name : List UInt16) :
    Except ProxyTable.Fault (Option ℕ × ProxyTable.ProcessState) :=
  let r := c.transact svclist checkServiceTransaction (checkServiceData c.policy name)
  (Parcel.readStrongBinder s e r.2.1).1

/-- `addService`: the status, unless `readExceptionCode` aborts, and the services. -/
def addService (c : Call) (svclist : List SvcInfo) (name : List UInt16) (service : Strong)
    (allowIsolated : Bool) : Option ℤ × List SvcInfo :=
  let r := c.transact svclist addServiceTransaction
    (addServiceData c.policy name service allowIsolated)
  (if r.1 = 0 then (Parcel.readExceptionCode r.2.1).map Prod.fst else some r.1, r.2.2)

/-- The loop of `listServices` from the number `n` on; it overflows after `k` more. -/
def listServicesLoop (calls : ℕ → Call) (svclist : List SvcInfo) :
    ℕ → ℕ → Option (List (List UInt16))
  | 0, _ => none
  | k + 1, n =>
      let c := calls n
      let r := c.transact svclist listServicesTransaction (listServicesData c.policy n)
      if r.1 ≠ 0 then some []
      else
        (listServicesLoop calls svclist k (n + 1)).map fun names =>
          (Parcel.readString16 r.2.1).1 :: names

def listServices (calls : ℕ → Call) (svclist : List SvcInfo) : Option (List (List UInt16)) :=
  listServicesLoop calls svclist Parcel.int32Max 0

end BpServiceManager

end ServiceManager

end BinderForLinux
