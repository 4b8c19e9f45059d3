import BinderForLinux.Library.Trace
import BinderForLinux.Driver.Read
import BinderForLinux.Driver.Refs.Counts

/-!
# The changes that the driver makes

Everything the driver does to nodes, references and buffers is taken apart into
the steps of `Change`. A step bears an `Event`: the counts that are taken and
given back for the objects of a buffer and for its target node, the references
that are made, and what happens on behalf of a process that goes away. All the
rest, from stacks and work lists to error codes, are idle changes.
-/

namespace BinderForLinux

namespace Driver

open Library

/-- A reason to count, in a buffer of the process `p`: its target node, a binder
object or a handle object. -/
inductive Claim
  | target (p : ProcId) (n : NodeId)
  | object (p : ProcId) (ptr : ℕ) (strong : Bool)
  | handle (p : ProcId) (desc : ℕ) (strong : Bool)
deriving DecidableEq, Repr

def Claim.proc : Claim → ProcId
  | target p _ => p
  | object p _ _ => p
  | handle p _ _ => p

def Claim.On (n : NodeId) (nd : Node) (strong : Bool) : Claim → Prop
  | target p m => m = n ∧ nd.proc = some p ∧ strong = true
  | object p ptr st => nd.proc = some p ∧ nd.ptr = ptr ∧ st = strong
  | handle _ _ _ => False

inductive Event
  /-- Nothing that the counts of claims are about. -/
  | quiet
  /-- Buffers come, go or change their contents. -/
  | area
  /-- A count is taken for a claim. -/
  | hold (c : Claim)
  /-- The count for a claim is refused. -/
  | refuse (c : Claim)
  /-- The count for a claim is given back. -/
  | drop (c : Claim)
  /-- A process gets a reference to a node of `owner`. -/
  | newRef (p : ProcId) (owner : Option ProcId)
  /-- A process asks for a count on one of its references. -/
  | take (p : ProcId) (desc : ℕ) (strong : Bool)
  /-- A process gives back a count on one of its references. -/
  | give (p : ProcId) (desc : ℕ) (strong : Bool)
  /-- The owner of a node is told of a change. -/
  | tell (n : NodeId)
  /-- The owner of a node has acknowledged a change. -/
  | done (n : NodeId) (strong : Bool)
  /-- A node becomes the context manager. -/
  | manage (n : NodeId)
  /-- A process that goes away loses a node, a reference or the context manager. -/
  | gone (p : ProcId)
deriving DecidableEq, Repr

/-! ### Idle changes -/

/-- All of a reference but its death notification. -/
def Ref.bare (rf : Ref) : Ref := { rf with death := none }

def Buffer.content (b : Buffer) : ℕ × Option NodeId × ℕ × Data × List ℕ :=
  (b.addr, b.targetNode, b.dataSize, b.data, b.offsets)

/-- The contents of the allocated buffers of a process. -/
def State.contents (s : State) (p : ProcId) : List (ℕ × Option NodeId × ℕ × Data × List ℕ) :=
  (liveBuffers (s.area p).buffers).map Buffer.content

/-- The tables of nodes and references are as before. -/
structure TablesKept (L : Layout) (s s' : State) : Prop where
  nextId : s.nextId ≤ s'.nextId
  nodes : s'.nodes = s.nodes
  nodesOf : s'.nodesOf = s.nodesOf
  refsByDesc : s'.refsByDesc = s.refsByDesc
  refsByNode : s'.refsByNode = s.refsByNode
  deadNodes : s'.deadNodes = s.deadNodes
  contextMgrNode : s'.contextMgrNode = s.contextMgrNode
  refs : ∀ r, (s'.refs r).map Ref.bare = (s.refs r).map Ref.bare
  nodeItems : ∀ n q, .node n ∈ s'.todo q →
    .node n ∈ s.todo q ∧ s'.queueOwner q = s.queueOwner q
  areas : ∀ p, AreaOk L (s'.area p)
  threads_lt : ∀ {th thr}, s'.threads th = some thr → th < s'.nextId
  threadProcs : ∀ {th thr'}, th < s.nextId → s'.threads th = some thr' →
    ∃ thr, s.threads th = some thr ∧ thr'.proc = thr.proc
  threadsOf : ∀ {p th}, th ∈ s'.threadsOf p → th ∈ s.threadsOf p ∨ s'.ThreadOf th p

/-- The contents of the buffers are as before, too. -/
structure Idle (L : Layout) (s s' : State) : Prop extends TablesKept L s s' where
  contents : s'.contents = s.contents

/-- What idle changes rely on. -/
structure Grounded (L : Layout) (s : State) : Prop where
  areas : ∀ p, AreaOk L (s.area p)
  threads_lt : ∀ {th thr}, s.threads th = some thr → th < s.nextId

section Idle

variable {L : Layout} {d : Option ProcId} {s s' s'' : State}

theorem Coherent.grounded (h : Coherent L d s) : Grounded L s := ⟨h.areas, h.threads_lt⟩

theorem TablesKept.grounded (h : TablesKept L s s') : Grounded L s' := ⟨h.areas, h.threads_lt⟩

theorem TablesKept.threadOf (h : TablesKept L s s') {th : ThreadId} {p : ProcId}
    (hth : s.ThreadOf th p) : s'.ThreadOf th p := by
  refine ⟨hth.1.trans_le h.nextId, fun thr' hthr' => ?_⟩
  obtain ⟨thr, hthr, hp⟩ := h.threadProcs hth.1 hthr'
  exact hp.trans (hth.2 thr hthr)

theorem TablesKept.trans (h : TablesKept L s s') (h' : TablesKept L s' s'') :
    TablesKept L s s'' where
  nextId := h.nextId.trans h'.nextId
  nodes := h'.nodes.trans h.nodes
  nodesOf := h'.nodesOf.trans h.nodesOf
  refsByDesc := h'.refsByDesc.trans h.refsByDesc
  refsByNode := h'.refsByNode.trans h.refsByNode
  deadNodes := h'.deadNodes.trans h.deadNodes
  contextMgrNode := h'.contextMgrNode.trans h.contextMgrNode
  refs := fun r => (h'.refs r).trans (h.refs r)
  nodeItems := by
    intro n q hmem
    obtain ⟨hmem', howner'⟩ := h'.nodeItems n q hmem
    obtain ⟨hmem, howner⟩ := h.nodeItems n q hmem'
    exact ⟨hmem, howner'.trans howner⟩
  areas := h'.areas
  threads_lt := h'.threads_lt
  threadProcs := by
    intro th thr'' hlt hth''
    obtain ⟨thr', hth', hp'⟩ := h'.threadProcs (hlt.trans_le h.nextId) hth''
    obtain ⟨thr, hth, hp⟩ := h.threadProcs hlt hth'
    exact ⟨thr, hth, hp'.trans hp⟩
  threadsOf := by
    intro p th hth
    rcases h'.threadsOf hth with hth | hth
    · rcases h.threadsOf hth with hth | hth
      · exact .inl hth
      · exact .inr (h'.threadOf hth)
    · exact .inr hth

theorem Idle.trans (h : Idle L s s') (h' : Idle L s' s'') : Idle L s s'' :=
  ⟨h.toTablesKept.trans h'.toTablesKept, h'.contents.trans h.contents⟩

theorem Idle.refl (h : Grounded L s) : Idle L s s where
  nextId := le_rfl
  nodes := rfl
  nodesOf := rfl
  refsByDesc := rfl
  refsByNode := rfl
  deadNodes := rfl
  contextMgrNode := rfl
  refs := fun _ => rfl
  nodeItems := fun _ _ h => ⟨h, rfl⟩
  areas := h.areas
  threads_lt := h.threads_lt
  threadProcs := fun _ hth => ⟨_, hth, rfl⟩
  threadsOf := .inl
  contents := rfl

theorem TablesKept.ownedBy (h : TablesKept L s s') {n : NodeId} {p : ProcId}
    (hn : s.OwnedBy n p) : s'.OwnedBy n p :=
  ⟨hn.1.trans_le h.nextId, fun nd hnd => hn.2 nd (h.nodes ▸ hnd)⟩

/-- The targets of the new buffers belong to their processes. -/
def NewTargetsOwned (s s' : State) : Prop :=
  ∀ p b n, s'.HasBuffer p b → b.targetNode = some n →
    (∃ b₀, s.HasBuffer p b₀ ∧ b₀.targetNode = some n) ∨ s.OwnedBy n p

theorem mem_contents {p : ProcId} {x : ℕ × Option NodeId × ℕ × Data × List ℕ} :
    x ∈ s.contents p ↔ ∃ b, s.HasBuffer p b ∧ b.content = x := by
  simp [State.contents, liveBuffers, State.HasBuffer, and_assoc]

theorem newTargetsOwned_of_contents (h : s'.contents = s.contents) : NewTargetsOwned s s' := by
  intro p b n hb hn
  have hmem : b.content ∈ s'.contents p := mem_contents.mpr ⟨b, hb, rfl⟩
  rw [h] at hmem
  obtain ⟨b₀, hb₀, hcontent⟩ := mem_contents.mp hmem
  have htarget : b₀.targetNode = b.targetNode := congrArg (fun x => x.2.1) hcontent
  exact .inl ⟨b₀, hb₀, htarget.trans hn⟩

theorem holdsStrong_of_bare {r : RefId} (h : (s'.refs r).map Ref.bare = (s.refs r).map Ref.bare) :
    s'.holdsStrong r = s.holdsStrong r := by
  cases hrf : s.refs r with
  | none =>
      have : s'.refs r = none := by simpa [hrf] using h
      simp [State.holdsStrong, hrf, this]
  | some rf =>
      obtain ⟨rf', hrf', hbare⟩ := map_eq_some_transfer h.symm hrf
      have hstrong : rf'.bare.strong = rf.bare.strong := congrArg Ref.strong hbare
      simp only [Ref.bare] at hstrong
      simp [State.holdsStrong, hrf, hrf', hstrong]

theorem RefTables.kept (h : RefTables s) (hk : TablesKept L s s') : RefTables s' := by
  refine h.congr hk.nextId hk.refsByDesc hk.refsByNode hk.nodesOf hk.deadNodes ?_
    (fun n => by rw [hk.nodes]) ?_ ?_
  · intro r
    have := congrArg (Option.map Ref.entries) (hk.refs r)
    rw [Option.map_map, Option.map_map] at this
    exact this
  · intro n nd hnd
    rw [hk.nodes] at hnd
    rw [h.strong hnd]
    refine congrArg _ (List.countP_congr fun r _ => ?_)
    rw [holdsStrong_of_bare (hk.refs r)]
  · intro n nd hnd hp
    rw [hk.nodes] at hnd
    exact (h.dead_refs hnd hp).2

theorem Coherent.kept (h : Coherent L d s) (hk : TablesKept L s s') (ht : NewTargetsOwned s s') :
    Coherent L d s' where
  tables := h.tables.kept hk
  queues := h.queues.congr hk.nodeItems fun {n nd} hnd => ⟨nd, hk.nodes ▸ hnd, rfl, rfl⟩
  targets := by
    intro p b n hb hn hd
    rcases ht p b n hb hn with ⟨b₀, hb₀, hn₀⟩ | hown
    · exact hk.ownedBy (h.targets hb₀ hn₀ hd)
    · exact hk.ownedBy hown
  areas := hk.areas
  threads_lt := hk.threads_lt
  threadsOf := by
    intro p th hth
    rcases hk.threadsOf hth with hth | hth
    · exact hk.threadOf (h.threadsOf hth)
    · exact hth

theorem Coherent.idle (h : Coherent L d s) (hi : Idle L s s') : Coherent L d s' :=
  h.kept hi.toTablesKept (newTargetsOwned_of_contents hi.contents)

end Idle

/-! ### The steps -/

/-- The change that `BC_INCREFS_DONE` and `BC_ACQUIRE_DONE` make first. -/
def Node.clearPending (nd : Node) (strong : Bool) : Node :=
  if strong then { nd with pendingStrongRef := false } else { nd with pendingWeakRef := false }

def Node.pending (nd : Node) (strong : Bool) : Bool :=
  if strong then nd.pendingStrongRef else nd.pendingWeakRef

/-- What a node is told or linked under may change; all that is counted stays. -/
def Node.counts (nd : Node) : (Option ProcId × List RefId × ℕ × ℕ) × (ℤ × ℤ × ℤ) ×
    (Bool × Bool) × (Bool × Bool) :=
  (nd.entries, (nd.internalStrongRefs, nd.localStrongRefs, nd.localWeakRefs),
    (nd.hasStrongRef, nd.pendingStrongRef), (nd.hasWeakRef, nd.pendingWeakRef))

def Node.managing (nd : Node) : Node :=
  { nd with
    localWeakRefs := nd.localWeakRefs + 1
    localStrongRefs := nd.localStrongRefs + 1
    hasStrongRef := true
    hasWeakRef := true }

inductive Change (L : Layout) (s : State) : Event → State → Prop
  | idle {s' : State} (h : Idle L s s') : Change L s .quiet s'
  | area {s' : State} (h : TablesKept L s s') (ht : NewTargetsOwned s s') : Change L s .area s'
  /-- Flags of a node change, or its work item is taken off its list. -/
  | note {n : NodeId} {nd nd' : Node} {td : Queue → List Work} (hnd : s.nodes n = some nd)
      (hmoved : NodeMoved s n nd.entry nd'.entry td)
      (hsub : ∀ q, .node n ∈ td q → .node n ∈ s.todo q) (hcounts : nd'.counts = nd.counts) :
      Change L s .quiet
        { s with nodes := Function.update s.nodes n (some nd'), todo := td }
  /-- The owner of a node is told of a change. -/
  | tell {n : NodeId} {nd nd' : Node} {cmd : ReturnCommand} (hnd : s.nodes n = some nd)
      (hproc : nd.proc ≠ none) (hcmd : nodeCommand nd = some (cmd, nd')) :
      Change L s (.tell n) (s.setNode n nd')
  /-- A node that nothing keeps is freed when its work item is read. -/
  | forgetNode {n : NodeId} {nd : Node} (hnd : s.nodes n = some nd) (hproc : nd.proc ≠ none)
      (hcmd : nodeCommand nd = none) (huse : nd.inUse = false) :
      Change L s .quiet (freeNode s n nd)
  | hold {n : NodeId} {nd : Node} {strong : Bool} {c : Claim} (hnd : s.nodes n = some nd)
      (hc : c.On n nd strong) : Change L s (.hold c) (s.setNode n (nd.inc strong false))
  | drop {n : NodeId} {nd : Node} {strong : Bool} {c : Claim} (hnd : s.nodes n = some nd)
      (hc : c.On n nd strong) : Change L s (.drop c) (decNode s n nd strong false)
  /-- The claim of an object whose binder is not known any more. -/
  | lostObject {p : ProcId} {ptr : ℕ} {strong : Bool} (hget : binderGetNode s p ptr = none) :
      Change L s (.drop (.object p ptr strong)) s
  | done {n : NodeId} {nd : Node} {strong : Bool} (hnd : s.nodes n = some nd)
      (hproc : nd.proc ≠ none) (hpending : nd.pending strong = true) :
      Change L s (.done n strong)
        (decNode (s.setNode n (nd.clearPending strong)) n (nd.clearPending strong) strong false)
  | newNode {p : ProcId} {ptr cookie : ℕ} (hget : binderGetNode s p ptr = none)
      (hptr : ptr < 256 ^ 8) (hcookie : cookie < 256 ^ 8) :
      Change L s .quiet (addNode s p (Node.fresh p ptr cookie))
  | newManager {n : NodeId} {nd : Node} {uid : Option ℕ} (hnd : s.nodes n = some nd)
      (hproc : nd.proc ≠ none) (hctx : s.contextMgrNode = none)
      (hpending : nd.pendingStrongRef = false ∧ nd.pendingWeakRef = false) :
      Change L s (.manage n) { s.setNode n nd.managing with
        contextMgrNode := some n
        contextMgrUid := uid }
  | newRef {p : ProcId} {n : NodeId} {nd : Node} (hnd : s.nodes n = some nd)
      (hfind : findRefForNode s p n = none) (hdesc : newDesc s p n ∉ s.descs p) :
      Change L s (.newRef p nd.proc) (addRef s p n nd)
  /-- A count on a reference for a claim; it may be refused. -/
  | holdRef {r : RefId} {rf : Ref} {nd : Node} {strong ok : Bool} {target : Option Queue}
      {s' : State} (hrf : s.refs r = some rf) (hnd : s.nodes rf.node = some nd)
      (hinc : binderIncRef s r strong target = .ok (ok, s'))
      (htarget : ∀ q, target = some q → ∃ p, nd.proc = some p ∧ s.queueOwner q = some p) :
      Change L s (if ok then .hold (.handle rf.proc rf.desc strong)
        else .refuse (.handle rf.proc rf.desc strong)) s'
  | takeRef {r : RefId} {rf : Ref} {strong ok : Bool} {s' : State} (hrf : s.refs r = some rf)
      (hinc : binderIncRef s r strong none = .ok (ok, s')) :
      Change L s (.take rf.proc rf.desc strong) s'
  | dropRef {r : RefId} {rf : Ref} {strong : Bool} {s' : State} (hrf : s.refs r = some rf)
      (hdec : binderDecRef s r strong = .ok s') :
      Change L s (.drop (.handle rf.proc rf.desc strong)) s'
  /-- The claim of an object whose handle is not known any more. -/
  | lostHandle {p : ProcId} {desc : ℕ} {strong : Bool} (hget : binderGetRef s p desc = none) :
      Change L s (.drop (.handle p desc strong)) s
  | giveRef {r : RefId} {rf : Ref} {strong : Bool} {s' : State} (hrf : s.refs r = some rf)
      (hdec : binderDecRef s r strong = .ok s') :
      Change L s (.give rf.proc rf.desc strong) s'
  | deleteRef {r : RefId} {rf : Ref} {s' : State} (hrf : s.refs r = some rf)
      (hdel : binderDeleteRef s r = .ok s') : Change L s (.gone rf.proc) s'
  | orphan {p : ProcId} {n : NodeId} {nd : Node} (hnd : s.nodes n = some nd)
      (hproc : nd.proc = some p) (hidle : ∀ q, .node n ∉ s.todo q) :
      Change L s (.gone p) (orphan s p n nd)
  | dropManager {p : ProcId} {n : NodeId} {nd : Node} (hctx : s.contextMgrNode = some n)
      (hnd : s.nodes n = some nd) (hproc : nd.proc = some p) :
      Change L s (.gone p) { s with contextMgrNode := none }

section Keep

variable {L : Layout} {d : Option ProcId} {s s' : State} {e : Event}

theorem Claim.On.proc_ne_none {n : NodeId} {nd : Node} {strong : Bool} {c : Claim}
    (h : c.On n nd strong) : ∃ p, nd.proc = some p := by
  cases c with
  | target p m => exact ⟨p, h.2.1⟩
  | object p ptr st => exact ⟨p, h.1⟩
  | handle p desc st => exact h.elim

theorem nodeCommand_cases {nd nd' : Node} {cmd : ReturnCommand}
    (h : nodeCommand nd = some (cmd, nd')) :
    (nd.hasWeakRef = false ∧ nd' = { nd with
        hasWeakRef := true, pendingWeakRef := true, localWeakRefs := nd.localWeakRefs + 1 }) ∨
      (nd.hasStrongRef = false ∧ nd' = { nd with
        hasStrongRef := true, pendingStrongRef := true
        localStrongRefs := nd.localStrongRefs + 1 }) ∨
      (nd.internalStrongRefs = 0 ∧ nd.localStrongRefs = 0 ∧
        nd' = { nd with hasStrongRef := false }) ∨
      (nd.refs = [] ∧ nd.internalStrongRefs = 0 ∧ nd.localStrongRefs = 0 ∧ nd.localWeakRefs = 0 ∧
        nd' = { nd with hasWeakRef := false }) := by
  simp only [nodeCommand] at h
  split at h
  · rename_i hc
    cases h
    exact .inl ⟨by simp_all, rfl⟩
  · split at h
    · rename_i hc
      cases h
      exact .inr (.inl ⟨by simp_all, rfl⟩)
    · split at h
      · rename_i hc
        cases h
        exact .inr (.inr (.inl ⟨by simp_all, by simp_all, rfl⟩))
      · split at h
        · rename_i hc
          cases h
          exact .inr (.inr (.inr ⟨by simp_all, by simp_all, by simp_all, by simp_all, rfl⟩))
        · cases h

theorem nodeCommand_eq {nd nd' : Node} {cmd : ReturnCommand}
    (h : nodeCommand nd = some (cmd, nd')) : nd'.entries = nd.entries ∧
      nd'.entry = nd.entry ∧ nd'.internalStrongRefs = nd.internalStrongRefs := by
  rcases nodeCommand_cases h with ⟨-, rfl⟩ | ⟨-, rfl⟩ | ⟨-, -, rfl⟩ | ⟨-, -, -, -, rfl⟩ <;>
    exact ⟨rfl, rfl, rfl⟩

theorem Coherent.note (h : Coherent L d s) {n : NodeId} {nd nd' : Node} {td : Queue → List Work}
    (hnd : s.nodes n = some nd) (hmoved : NodeMoved s n nd.entry nd'.entry td)
    (hsub : ∀ q, .node n ∈ td q → .node n ∈ s.todo q) (hentries : nd'.entries = nd.entries)
    (hstrong : nd'.internalStrongRefs = nd.internalStrongRefs)
    (hdead : nd.proc = none → nd'.localStrongRefs = 0 ∧ nd'.localWeakRefs = 0) :
    Coherent L d { s with nodes := Function.update s.nodes n (some nd'), todo := td } := by
  have hproc : nd'.proc = nd.proc := congrArg Prod.fst hentries
  have hptr : nd'.ptr = nd.ptr := congrArg (fun x => x.2.2.1) hentries
  have hcookie : nd'.cookie = nd.cookie := congrArg (fun x => x.2.2.2) hentries
  refine (RefsOnly.of_node hnd hproc hptr hcookie fun q t =>
    hmoved.others q _ (by simp)).coherent h (h.tables.writeNode hnd td hentries hstrong hdead) ?_
  · intro m q hmem
    by_cases hmn : m = n
    · subst hmn
      obtain ⟨md, p, hmd, -, hp, hq⟩ := h.queues _ _ (hsub q hmem)
      obtain rfl : nd = md := by simpa [hnd] using hmd
      refine ⟨nd', p, Function.update_self .., hmoved.own (h.queues.entry_eq hnd) q hmem,
        hproc.trans hp, ?_⟩
      cases q <;> exact hq
    · obtain ⟨md, p, hmd, hentry, hp, hq⟩ :=
        h.queues _ _ ((hmoved.others q _ (by simpa using hmn)).mp hmem)
      refine ⟨md, p, (Function.update_of_ne hmn ..).trans hmd, hentry, hp, ?_⟩
      cases q <;> exact hq

theorem Node.refs_of_not_inUse {nd : Node} (h : nd.inUse = false) :
    nd.refs = [] ∧ nd.internalStrongRefs = 0 ∧ nd.localStrongRefs = 0 ∧ nd.localWeakRefs = 0 := by
  simp only [Node.inUse, Bool.or_eq_false_iff, decide_eq_false_iff_not, not_not,
    Bool.not_eq_false', List.isEmpty_iff] at h
  exact ⟨h.1.2, h.1.1.1, h.1.1.2, h.2⟩

/-- The event is nothing that befalls a process other than `d` as it goes away. -/
def Event.okFor (d : Option ProcId) (e : Event) : Prop := ∀ p, e = .gone p → d = some p

theorem Coherent.orphan {p : ProcId} (h : Coherent L (some p) s) {n : NodeId} {nd : Node}
    (hnd : s.nodes n = some nd) (hproc : nd.proc = some p) (hidle : ∀ q, .node n ∉ s.todo q) :
    Coherent L (some p) (Driver.orphan s p n nd) := by
  have hnodes : ∀ m, m ≠ n → (Driver.orphan s p n nd).nodes m = s.nodes m := by
    intro m hm
    unfold Driver.orphan
    split <;> simp [State.setNode, hm]
  have harea : (Driver.orphan s p n nd).area = s.area := by
    unfold Driver.orphan
    split <;> rfl
  have htodo : (Driver.orphan s p n nd).todo = s.todo := by
    unfold Driver.orphan
    split <;> rfl
  have hthreads : (Driver.orphan s p n nd).threads = s.threads := by
    unfold Driver.orphan
    split <;> rfl
  have hnext : (Driver.orphan s p n nd).nextId = s.nextId := by
    unfold Driver.orphan
    split <;> rfl
  constructor
  case tables => exact h.tables.orphan hnd hproc hidle
  case queues =>
    refine h.queues.of_gone (n := n) (by rw [htodo]; exact hidle) ?_ ?_ hnodes
    · exact fun q m _ hmem => htodo ▸ hmem
    · intro q
      cases q <;> simp [State.queueOwner, hthreads]
  case targets =>
    intro q b m hb hm hq
    rw [State.HasBuffer, harea] at hb
    obtain ⟨hlt, hown⟩ := h.targets hb hm hq
    refine ⟨hnext ▸ hlt, fun md hmd => ?_⟩
    by_cases hmn : m = n
    · subst hmn
      have := hown nd hnd
      rw [hproc] at this
      exact absurd this.symm hq
    · exact hown md (hnodes m hmn ▸ hmd)
  case areas => exact fun q => harea ▸ h.areas q
  case threads_lt => exact fun hth => hnext ▸ h.threads_lt (hthreads ▸ hth)
  case threadsOf =>
    have hof : (Driver.orphan s p n nd).threadsOf = s.threadsOf := by
      unfold Driver.orphan
      split <;> rfl
    intro q th hth
    obtain ⟨hlt, hq⟩ := h.threadsOf (hof ▸ hth)
    exact ⟨hnext ▸ hlt, fun thr hthr => hq thr (hthreads ▸ hthr)⟩

theorem Coherent.change (h : Coherent L d s) (hch : Change L s e s') (he : e.okFor d) :
    Coherent L d s' := by
  cases hch with
  | idle hidle => exact h.idle hidle
  | area hk ht => exact h.kept hk ht
  | note hnd hmoved hsub hcounts =>
      simp only [Node.counts, Prod.mk.injEq] at hcounts
      obtain ⟨hentries, ⟨hint, hls, hlw⟩, -⟩ := hcounts
      refine h.note hnd hmoved hsub hentries hint fun hp => ?_
      rw [hls, hlw]
      exact (h.tables.dead_refs hnd hp).2
  | tell hnd hproc hcmd =>
      obtain ⟨hentries, hentry, hint⟩ := nodeCommand_eq hcmd
      exact h.setNode hnd hentry hentries hint fun hp => absurd hp hproc
  | @forgetNode n nd hnd hproc hcmd huse =>
      exact h.nodeFreed hnd (nodeFreed_freeNode s n nd) rfl rfl (Node.refs_of_not_inUse huse).1
  | @hold n nd strong c hnd hc =>
      obtain ⟨p, hp⟩ := hc.proc_ne_none
      exact h.setNode hnd (by simp) (by simp) (by cases strong <;> rfl) (by simp [hp])
  | drop hnd hc =>
      obtain ⟨p, hp⟩ := hc.proc_ne_none
      exact h.decNode hnd hp _
  | lostObject => exact h
  | @done n nd strong hnd hproc hpending =>
      obtain ⟨p, hp⟩ := Option.ne_none_iff_exists'.mp hproc
      have hset : Coherent L d (s.setNode n (nd.clearPending strong)) := by
        refine h.setNode hnd ?_ ?_ ?_ (by simp [hp]) <;> cases strong <;> rfl
      refine hset.decNode (p := p) (by simp [State.setNode]) ?_ strong
      cases strong <;> exact hp
  | @newNode p ptr cookie hget hptr hcookie =>
      refine (RefsOnly.addNode s p _).coherent h
        (h.tables.addNode rfl rfl rfl hget ⟨hptr, hcookie⟩) ?_
      refine h.queues.congr (fun m q hm => ⟨hm, by cases q <;> rfl⟩) fun {m md} hmd => ?_
      refine ⟨md, ?_, rfl, rfl⟩
      change Function.update s.nodes s.nextId _ m = some md
      rw [Function.update_of_ne (h.tables.node_lt hmd).ne]
      exact hmd
  | @newManager n nd uid hnd hproc hctx hpending =>
      have hset : Coherent L d (s.setNode n nd.managing) :=
        h.setNode hnd rfl rfl rfl fun hp => absurd hp hproc
      exact ⟨hset.tables.congr le_rfl rfl rfl rfl rfl (fun _ => rfl) (fun _ => rfl)
        hset.tables.strong fun hm hp => (hset.tables.dead_refs hm hp).2,
        hset.queues.congr (fun m q hm => ⟨hm, by cases q <;> rfl⟩) fun hm => ⟨_, hm, rfl, rfl⟩,
        hset.targets, hset.areas, hset.threads_lt, hset.threadsOf⟩
  | @newRef p n nd hnd hfind hdesc =>
      refine (RefsOnly.addRef s p hnd).coherent h (h.tables.addRef hnd hfind hdesc) ?_
      refine h.queues.congr (fun m q hm => ⟨hm, by cases q <;> rfl⟩) fun {m md} hmd => ?_
      by_cases hmn : m = n
      · subst hmn
        obtain rfl : nd = md := by simpa [hnd] using hmd
        exact ⟨_, addRef_nodes.mpr (.inl ⟨rfl, rfl⟩), rfl, rfl⟩
      · exact ⟨md, addRef_nodes.mpr (.inr ⟨hmn, hmd⟩), rfl, rfl⟩
  | holdRef hrf hnd hinc htarget => exact h.incRef hinc hrf hnd htarget
  | takeRef hrf hinc =>
      obtain ⟨nd, hnd⟩ := h.tables.ref_node hrf
      exact h.incRef hinc hrf hnd (by simp)
  | dropRef hrf hdec => exact h.decRef hdec hrf
  | lostHandle => exact h
  | giveRef hrf hdec => exact h.decRef hdec hrf
  | deleteRef hrf hdel => exact h.deleteRef hdel
  | orphan hnd hproc hidle =>
      obtain rfl := he _ rfl
      exact h.orphan hnd hproc hidle
  | dropManager hctx hnd hproc =>
      exact ⟨h.tables.congr le_rfl rfl rfl rfl rfl (fun _ => rfl) (fun _ => rfl)
        h.tables.strong fun hm hp => (h.tables.dead_refs hm hp).2,
        h.queues.congr (fun m q hm => ⟨hm, by cases q <;> rfl⟩) fun hm => ⟨_, hm, rfl, rfl⟩,
        h.targets, h.areas, h.threads_lt, h.threadsOf⟩

end Keep

/-- A run through a piece of the driver, with the events in order. -/
abbrev Changes (L : Layout) : State → List Event → State → Prop := Trace (Change L)

section Frames

variable {L : Layout} {d : Option ProcId} {s s' : State} {e : Event} {es : List Event}

theorem RefsOnly.incRef (ht : RefTables s) {r : RefId} {rf : Ref} {strong ok : Bool}
    {target : Option Queue} (hrf : s.refs r = some rf)
    (hinc : binderIncRef s r strong target = .ok (ok, s')) : RefsOnly s s' := by
  obtain ⟨nd, hnd⟩ := ht.ref_node hrf
  obtain ⟨s₀, hkept, rfl, -⟩ := incRef_spec hinc hrf hnd
  refine (RefsOnly.of_nodeKept hnd hkept ?_ ?_ ?_).trans (RefsOnly.setRef _ _ _)
  all_goals
    split
    · cases strong <;> rfl
    · rfl

theorem RefsOnly.deleteRef {r : RefId} (hdel : binderDeleteRef s r = .ok s') :
    RefsOnly s s' := by
  obtain ⟨rf, nd, -, hnd, hdel⟩ := binderDeleteRef_eq hdel
  exact RefsOnly.of_refDeleted hnd hdel

theorem RefsOnly.decRef (ht : RefTables s) {r : RefId} {rf : Ref} {strong : Bool}
    (hrf : s.refs r = some rf) (hdec : binderDecRef s r strong = .ok s') : RefsOnly s s' := by
  obtain ⟨nd, hnd⟩ := ht.ref_node hrf
  rcases decRef_spec ht hdec hrf hnd with ⟨-, rfl⟩ | ⟨-, s₀, hkept, hrest⟩
  · exact RefsOnly.refl _
  · have hmid : RefsOnly s (s₀.setRef r (rf.dec strong)) := by
      refine (RefsOnly.of_nodeKept hnd hkept ?_ ?_ ?_).trans (RefsOnly.setRef _ _ _)
      all_goals
        unfold Node.lost
        split <;> rfl
    rcases hrest with ⟨-, rfl⟩ | ⟨-, -, hdel⟩
    · exact hmid
    · exact hmid.trans (RefsOnly.deleteRef hdel)

theorem RefsOnly.setNode {n : NodeId} {nd nd' : Node} (hnd : s.nodes n = some nd)
    (hentries : nd'.entries = nd.entries) : RefsOnly s (s.setNode n nd') :=
  RefsOnly.of_node hnd (congrArg Prod.fst hentries)
    (congrArg (fun x => x.2.2.1) hentries) (congrArg (fun x => x.2.2.2) hentries)
    fun _ _ => Iff.rfl

theorem RefsOnly.decNode {n : NodeId} {nd : Node} (hnd : s.nodes n = some nd) (strong : Bool) :
    RefsOnly s (decNode s n nd strong false) := by
  rcases decNode_eq (s := s) (n := n) rfl with
    ⟨-, hkept⟩ | ⟨-, hfreed⟩
  · exact RefsOnly.of_nodeKept hnd hkept (by simp) (by simp) (by cases strong <;> rfl)
  · exact RefsOnly.of_nodeFreed hfreed

/-- A change is idle, one of buffers, on behalf of a process that goes away, or
one of nodes and references alone. -/
theorem Change.frame_cases (ht : RefTables s) (h : Change L s e s') :
    Idle L s s' ∨ (e = .area ∧ TablesKept L s s') ∨ ((∃ p, e = .gone p) ∧ StacksKept s s') ∨
      RefsOnly s s' := by
  cases h with
  | idle h => exact .inl h
  | area h _ => exact .inr (.inl ⟨rfl, h⟩)
  | note hnd hmoved hsub hcounts =>
      simp only [Node.counts, Node.entries, Prod.mk.injEq] at hcounts
      obtain ⟨⟨hproc, -, hptr, hcookie⟩, -⟩ := hcounts
      exact .inr (.inr (.inr (RefsOnly.of_node hnd hproc hptr hcookie fun q t =>
        hmoved.others q _ (by simp))))
  | tell hnd hproc hcmd =>
      exact .inr (.inr (.inr (RefsOnly.setNode hnd (nodeCommand_eq hcmd).1)))
  | @forgetNode n nd hnd hproc hcmd huse =>
      exact .inr (.inr (.inr (RefsOnly.of_nodeFreed (nodeFreed_freeNode s n nd))))
  | hold hnd hc => exact .inr (.inr (.inr (RefsOnly.setNode hnd (by simp))))
  | drop hnd hc => exact .inr (.inr (.inr (RefsOnly.decNode hnd _)))
  | lostObject => exact .inr (.inr (.inr (RefsOnly.refl _)))
  | @done n nd strong hnd hproc hpending =>
      refine .inr (.inr (.inr ((RefsOnly.setNode hnd ?_).trans
        (RefsOnly.decNode (s := s.setNode n (nd.clearPending strong)) ?_ strong))))
      · cases strong <;> rfl
      · exact Function.update_self ..
  | newNode => exact .inr (.inr (.inr (RefsOnly.addNode _ _ _)))
  | @newManager n nd uid hnd hproc hctx hpending =>
      have h₁ : RefsOnly s (s.setNode n nd.managing) := RefsOnly.setNode hnd rfl
      exact .inr (.inr (.inr ⟨h₁.nextId, rfl, rfl, rfl, rfl, rfl, h₁.nodes, fun _ _ => Iff.rfl⟩))
  | newRef hnd hfind hdesc => exact .inr (.inr (.inr (RefsOnly.addRef _ _ hnd)))
  | holdRef hrf hnd hinc htarget => exact .inr (.inr (.inr (RefsOnly.incRef ht hrf hinc)))
  | takeRef hrf hinc => exact .inr (.inr (.inr (RefsOnly.incRef ht hrf hinc)))
  | dropRef hrf hdec => exact .inr (.inr (.inr (RefsOnly.decRef ht hrf hdec)))
  | lostHandle => exact .inr (.inr (.inr (RefsOnly.refl _)))
  | giveRef hrf hdec => exact .inr (.inr (.inr (RefsOnly.decRef ht hrf hdec)))
  | deleteRef hrf hdel =>
      exact .inr (.inr (.inl ⟨⟨_, rfl⟩, (RefsOnly.deleteRef hdel).stacksKept⟩))
  | orphan =>
      refine .inr (.inr (.inl ⟨⟨_, rfl⟩, ?_⟩))
      unfold Driver.orphan
      split <;> exact ⟨le_rfl, rfl, rfl, rfl, rfl, rfl, fun _ _ => Iff.rfl⟩
  | dropManager =>
      exact .inr (.inr (.inl ⟨⟨_, rfl⟩, le_rfl, rfl, rfl, rfl, rfl, rfl, fun _ _ => Iff.rfl⟩))

theorem Changes.coherent (h : Changes L s es s') (hs : Coherent L d s)
    (hes : ∀ e ∈ es, e.okFor d) : Coherent L d s' :=
  h.invariant hs fun _ e _ he hc hstep => hc.change hstep (hes e he)

/-- The event does not befall a process that goes away. -/
def Event.stays (e : Event) : Prop := ∀ p, e ≠ .gone p

theorem Event.stays.okFor {e : Event} (h : e.stays) : e.okFor d :=
  fun p he => absurd he (h p)

theorem Change.threadOf (ht : RefTables s) (h : Change L s e s') {th : ThreadId} {p : ProcId}
    (hth : s.ThreadOf th p) : s'.ThreadOf th p := by
  rcases h.frame_cases ht with hidle | ⟨-, hk⟩ | ⟨-, hk⟩ | hr
  · exact hidle.toTablesKept.threadOf hth
  · exact hk.threadOf hth
  · exact hk.threadOf hth
  · exact hr.stacksKept.threadOf hth

theorem Changes.threadOf (h : Changes L s es s') (hs : Coherent L d s)
    (hes : ∀ e ∈ es, e.okFor d) {th : ThreadId} {p : ProcId} (hth : s.ThreadOf th p) :
    s'.ThreadOf th p := by
  refine (h.invariant (P := fun s => Coherent L d s ∧ s.ThreadOf th p) ⟨hs, hth⟩ ?_).2
  rintro s₁ e s₂ he ⟨hc, hth⟩ hstep
  exact ⟨hc.change hstep (hes e he), hstep.threadOf hc.tables hth⟩

theorem Changes.ownedBy (h : Changes L s es s') (hs : Coherent L d s)
    (hes : ∀ e ∈ es, e.stays) {n : NodeId} {p : ProcId} (hn : s.OwnedBy n p) :
    s'.OwnedBy n p := by
  refine (h.invariant (P := fun s => Coherent L d s ∧ s.OwnedBy n p) ⟨hs, hn⟩ ?_).2
  rintro s₁ e s₂ he ⟨hc, hn⟩ hstep
  refine ⟨hc.change hstep (hes e he).okFor, ?_⟩
  rcases hstep.frame_cases hc.tables with hidle | ⟨-, hk⟩ | ⟨⟨q, rfl⟩, -⟩ | hr
  · exact hidle.toTablesKept.ownedBy hn
  · exact hk.ownedBy hn
  · exact absurd rfl (hes _ he q)
  · exact hr.ownedBy hn

end Frames

/-! ### The claims in a list of events -/

/-- The claims that events add: an object stays in its buffer even when the count
for it is refused. -/
def held (es : List Event) : List Claim :=
  es.filterMap fun
    | .hold c => some c
    | .refuse c => some c
    | _ => none

def dropped (es : List Event) : List Claim :=
  es.filterMap fun
    | .drop c => some c
    | _ => none

@[simp] theorem held_append (es es' : List Event) : held (es ++ es') = held es ++ held es' := by
  simp [held]

@[simp] theorem dropped_append (es es' : List Event) :
    dropped (es ++ es') = dropped es ++ dropped es' := by
  simp [dropped]

end Driver

end BinderForLinux
