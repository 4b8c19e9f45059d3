import BinderForLinux.Library.Run
import BinderForLinux.Driver.Types

/-!
# Nodes and references

`binder_get_node`, `binder_new_node`, `binder_inc_node`, `binder_dec_node`,
`binder_get_ref`, `binder_get_ref_for_node`, `binder_delete_ref`,
`binder_inc_ref` and `binder_dec_ref`. Where a function first follows a pointer
and then only computes, the computation is a function of its own that takes the
object found.
-/

namespace BinderForLinux

namespace Driver

open Library

/-- Insert `x` before the first element with a larger key. -/
def insertByKey (key : ℕ → ℕ) (x : ℕ) : List ℕ → List ℕ
  | [] => [x]
  | y :: ys => if key x < key y then x :: y :: ys else y :: insertByKey key x ys

/-! ### Nodes -/

/-- `list_del_init(&node->work.entry)`. -/
def unlinkNode (s : State) (n : NodeId) (nd : Node) : State :=
  let s := match nd.entry with
    | some q => s.listDel q (.node n)
    | none => s
  s.setNode n { nd with entry := none }

/-- `list_add_tail(&node->work.entry, q)`. -/
def linkNode (s : State) (n : NodeId) (nd : Node) (q : Queue) : State :=
  (s.setNode n { nd with entry := some q }).listAddTail q (.node n)

def binderGetNode (s : State) (p : ProcId) (ptr : ℕ) : Option NodeId :=
  (s.nodesOf p).find? fun n => (s.nodes n).any fun nd => nd.ptr = ptr

def Node.fresh (p : ProcId) (ptr cookie : ℕ) : Node where
  proc := some p
  refs := []
  internalStrongRefs := 0
  localWeakRefs := 0
  localStrongRefs := 0
  ptr := ptr
  cookie := cookie
  hasStrongRef := false
  pendingStrongRef := false
  hasWeakRef := false
  pendingWeakRef := false
  hasAsyncTransaction := false
  acceptFds := false
  entry := none

def addNode (s : State) (p : ProcId) (nd : Node) : State :=
  let n := s.nextId
  let s := { s with nextId := n + 1 }.setNode n nd
  let key m := ((s.nodes m).map Node.ptr).getD 0
  { s with nodesOf := Function.update s.nodesOf p (insertByKey key n (s.nodesOf p)) }

/-- `binder_new_node`; `alloc` tells whether `kzalloc` succeeds. -/
def binderNewNode (s : State) (p : ProcId) (ptr cookie : ℕ) (alloc : Bool) :
    Option NodeId × State :=
  if (binderGetNode s p ptr).isSome || !alloc then (none, s)
  else (some s.nextId, addNode s p (Node.fresh p ptr cookie))

def Node.inc (nd : Node) (strong internal : Bool) : Node :=
  match strong, internal with
  | true, true => { nd with internalStrongRefs := nd.internalStrongRefs + 1 }
  | true, false => { nd with localStrongRefs := nd.localStrongRefs + 1 }
  | false, true => nd
  | false, false => { nd with localWeakRefs := nd.localWeakRefs + 1 }

def Node.dec (nd : Node) (strong internal : Bool) : Node :=
  match strong, internal with
  | true, true => { nd with internalStrongRefs := nd.internalStrongRefs - 1 }
  | true, false => { nd with localStrongRefs := nd.localStrongRefs - 1 }
  | false, true => nd
  | false, false => { nd with localWeakRefs := nd.localWeakRefs - 1 }

/-- `binder_inc_node` on the node `nd` at `n`; the flag is false for `-EINVAL`. -/
def incNode (s : State) (n : NodeId) (nd : Node) (strong internal : Bool)
    (target : Option Queue) : Bool × State :=
  if strong then
    if internal && target.isNone && nd.internalStrongRefs = 0 &&
        !(s.contextMgrNode = some n && nd.hasStrongRef) then (false, s)
    else
      let nd := nd.inc true internal
      match target with
      | some q =>
          if nd.hasStrongRef then (true, s.setNode n nd)
          else (true, linkNode (unlinkNode s n nd) n { nd with entry := none } q)
      | none => (true, s.setNode n nd)
  else
    let nd := nd.inc false internal
    if !nd.hasWeakRef && nd.entry.isNone then
      match target with
      | some q => (true, linkNode s n nd q)
      | none => (false, s.setNode n nd)
    else (true, s.setNode n nd)

def binderIncNode (s : State) (n : NodeId) (strong internal : Bool) (target : Option Queue) :
    Except Fault (Bool × State) := do
  let nd ← deref s.nodes n
  return incNode s n nd strong internal target

/-- Take the node `nd` out of its tree, or out of the dead nodes, and free it. -/
def freeNode (s : State) (n : NodeId) (nd : Node) : State :=
  let s := unlinkNode s n nd
  let s := match nd.proc with
    | some p => { s with nodesOf := Function.update s.nodesOf p ((s.nodesOf p).filter (· ≠ n)) }
    | none => { s with deadNodes := s.deadNodes.filter (· ≠ n) }
  { s with nodes := Function.update s.nodes n none }

/-- Whether `binder_dec_node` returns right after the decrement. -/
def Node.held (nd : Node) (strong : Bool) : Bool :=
  if strong then nd.localStrongRefs ≠ 0 || nd.internalStrongRefs ≠ 0
  else nd.localWeakRefs ≠ 0 || !nd.refs.isEmpty

/-- `binder_dec_node` on the node `nd` at `n`. -/
def decNode (s : State) (n : NodeId) (nd : Node) (strong internal : Bool) : State :=
  let nd := nd.dec strong internal
  if nd.held strong then s.setNode n nd
  else
    match nd.proc with
    | some p =>
        if nd.hasStrongRef || nd.hasWeakRef then
          if nd.entry.isNone then linkNode s n nd (.proc p) else s.setNode n nd
        else if nd.refs.isEmpty && nd.localStrongRefs = 0 && nd.localWeakRefs = 0 then
          freeNode s n nd
        else s.setNode n nd
    | none =>
        if nd.refs.isEmpty && nd.localStrongRefs = 0 && nd.localWeakRefs = 0 then freeNode s n nd
        else s.setNode n nd

def binderDecNode (s : State) (n : NodeId) (strong internal : Bool) : Except Fault State := do
  let nd ← deref s.nodes n
  return decNode s n nd strong internal

/-! ### References -/

def binderGetRef (s : State) (p : ProcId) (desc : ℕ) : Option RefId :=
  (s.refsByDesc p).find? fun r => (s.refs r).any fun rf => rf.desc = desc

/-- The reference of a process to a node, if it has one. -/
def findRefForNode (s : State) (p : ProcId) (n : NodeId) : Option RefId :=
  (s.refsByNode p).find? fun r => (s.refs r).any fun rf => rf.node = n

/-- The loop that looks for a free descriptor along the ordered descriptors in
use, in 32-bit arithmetic. -/
def freeDesc : ℕ → List ℕ → ℕ
  | d, [] => d
  | d, x :: xs => if d < x then d else freeDesc ((x + 1) % 2 ^ 32) xs

def State.descs (s : State) (p : ProcId) : List ℕ :=
  (s.refsByDesc p).filterMap fun r => (s.refs r).map Ref.desc

/-- The descriptor that a new reference to `n` gets. -/
def newDesc (s : State) (p : ProcId) (n : NodeId) : ℕ :=
  freeDesc (if s.contextMgrNode = some n then 0 else 1) (s.descs p)

/-- Enter a new reference to the node `nd` at `n` into both trees of the process
and into the list of the node. -/
def addRef (s : State) (p : ProcId) (n : NodeId) (nd : Node) : State :=
  let r := s.nextId
  let rf : Ref :=
    { proc := p, node := n, desc := newDesc s p n, strong := 0, weak := 0, death := none }
  let s := { s with nextId := r + 1 }.setRef r rf
  let desc q := ((s.refs q).map Ref.desc).getD 0
  let node q := ((s.refs q).map Ref.node).getD 0
  { s.setNode n { nd with refs := r :: nd.refs } with
    refsByDesc := Function.update s.refsByDesc p (insertByKey desc r (s.refsByDesc p))
    refsByNode := Function.update s.refsByNode p (insertByKey node r (s.refsByNode p)) }

/-- `binder_get_ref_for_node`; `alloc` tells whether `kzalloc` succeeds. -/
def binderGetRefForNode (s : State) (p : ProcId) (n : NodeId) (alloc : Bool) :
    Except Fault (Option RefId × State) :=
  match findRefForNode s p n with
  | some r => .ok (some r, s)
  | none =>
      if !alloc then .ok (none, s)
      else do
        bugOn .getRefForNode (newDesc s p n ∈ s.descs p)
        let nd ← deref s.nodes n
        return (some s.nextId, addRef s p n nd)

/-- `list_del(&death->work.entry)`. -/
def unlinkDeath (s : State) (d : DeathId) (de : Death) : State :=
  match de.entry with
  | some q => s.listDel q (.death d)
  | none => s

/-- Unlink and free the death notification of a reference. -/
def freeDeathOf (s : State) (death : Option DeathId) : Except Fault State :=
  match death with
  | none => .ok s
  | some d => do
      let de ← deref s.deaths d
      let s := unlinkDeath s d de
      return { s with deaths := Function.update s.deaths d none }

/-- Take a reference out of both trees of its process. -/
def eraseRef (s : State) (r : RefId) (p : ProcId) : State :=
  { s with
    refsByDesc := Function.update s.refsByDesc p ((s.refsByDesc p).filter (· ≠ r))
    refsByNode := Function.update s.refsByNode p ((s.refsByNode p).filter (· ≠ r)) }

/-- Give back the strong count that a reference holds on its node. -/
def dropStrong (s : State) (rf : Ref) : Except Fault State :=
  if rf.strong = 0 then .ok s else binderDecNode s rf.node true true

def binderDeleteRef (s : State) (r : RefId) : Except Fault State := do
  let rf ← deref s.refs r
  let s ← dropStrong (eraseRef s r rf.proc) rf
  let nd ← deref s.nodes rf.node
  let s := s.setNode rf.node { nd with refs := nd.refs.filter (· ≠ r) }
  let s ← binderDecNode s rf.node false true
  let s ← freeDeathOf s rf.death
  return { s with refs := Function.update s.refs r none }

def Ref.count (rf : Ref) (strong : Bool) : ℕ := if strong then rf.strong else rf.weak

def Ref.inc (rf : Ref) (strong : Bool) : Ref :=
  if strong then { rf with strong := rf.strong + 1 } else { rf with weak := rf.weak + 1 }

def Ref.dec (rf : Ref) (strong : Bool) : Ref :=
  if strong then { rf with strong := rf.strong - 1 } else { rf with weak := rf.weak - 1 }

/-- The first count of a reference is a count on its node. -/
def takeFirst (s : State) (rf : Ref) (strong : Bool) (target : Option Queue) :
    Except Fault (Bool × State) :=
  if rf.count strong = 0 then binderIncNode s rf.node strong true target else .ok (true, s)

/-- `binder_inc_ref`; the flag is false for `-EINVAL`. -/
def binderIncRef (s : State) (r : RefId) (strong : Bool) (target : Option Queue) :
    Except Fault (Bool × State) := do
  let rf ← deref s.refs r
  let (ok, s) ← takeFirst s rf strong target
  return (ok, if ok then s.setRef r (rf.inc strong) else s)

/-- The last strong count of a reference was a count on its node. -/
def giveLast (s : State) (rf : Ref) (strong : Bool) : Except Fault State :=
  if strong && rf.strong = 0 then binderDecNode s rf.node true true else .ok s

/-- `binder_dec_ref`; its result is ignored by every caller. -/
def binderDecRef (s : State) (r : RefId) (strong : Bool) : Except Fault State := do
  let rf ← deref s.refs r
  if rf.count strong = 0 then return s
  let rf := rf.dec strong
  let s ← giveLast (s.setRef r rf) rf strong
  if rf.strong = 0 && rf.weak = 0 then binderDeleteRef s r else return s

end Driver

end BinderForLinux
