import BinderForLinux.Driver.Alloc.Runs
import BinderForLinux.Driver.Refs.Tables

/-!
# Coherent states

What the reference operations rely on beyond the tables: the work item of a node
is only on a list of its owner, and the target node of a buffer belongs to the
process of the buffer. While a process is being taken apart its buffers are
exempt from the latter; the parameter `d` names it.
-/

namespace BinderForLinux

namespace Driver

open Library

def State.queueOwner (s : State) : Queue → Option ProcId
  | .proc p => some p
  | .thread th => (s.threads th).map Thread.proc
  | _ => none

/-- The work item of a node is linked where the node says, on a list of its
owner. -/
def NodeQueues (s : State) : Prop :=
  ∀ n q, .node n ∈ s.todo q → ∃ nd p, s.nodes n = some nd ∧ nd.entry = some q ∧
    nd.proc = some p ∧ s.queueOwner q = some p

/-- The node `n`, if it still exists, belongs to `p`. -/
def State.OwnedBy (s : State) (n : NodeId) (p : ProcId) : Prop :=
  n < s.nextId ∧ ∀ nd, s.nodes n = some nd → nd.proc = some p

/-- The thread `th`, if it still exists, belongs to `p`. -/
def State.ThreadOf (s : State) (th : ThreadId) (p : ProcId) : Prop :=
  th < s.nextId ∧ ∀ thr, s.threads th = some thr → thr.proc = p

def State.HasBuffer (s : State) (p : ProcId) (b : Buffer) : Prop :=
  b ∈ (s.area p).buffers ∧ b.free = false

/-- An area that was never mapped, or a sound one. -/
def AreaOk (L : Layout) (ar : Area) : Prop :=
  ar = Area.unmapped ∨ ar.Sound L ∧ ar.buffer ≠ 0

structure Coherent (L : Layout) (d : Option ProcId) (s : State) : Prop where
  tables : RefTables s
  queues : NodeQueues s
  targets : ∀ {p b n}, s.HasBuffer p b → b.targetNode = some n → some p ≠ d → s.OwnedBy n p
  areas : ∀ p, AreaOk L (s.area p)
  threads_lt : ∀ {th thr}, s.threads th = some thr → th < s.nextId
  threadsOf : ∀ {p th}, th ∈ s.threadsOf p → s.ThreadOf th p

theorem coherent_init (L : Layout) : Coherent L none State.init where
  tables := refTables_init
  queues := by
    intro n q h
    simp [State.init] at h
  targets := by
    intro p b n h
    simp [State.HasBuffer, State.init, Area.unmapped] at h
  areas := fun _ => .inl rfl
  threads_lt := by simp [State.init]
  threadsOf := by simp [State.init]

/-- Processes, threads, transactions and areas are as before. -/
structure StacksKept (s s' : State) : Prop where
  nextId : s.nextId ≤ s'.nextId
  procs : s'.procs = s.procs
  threads : s'.threads = s.threads
  txns : s'.txns = s.txns
  area : s'.area = s.area
  threadsOf : s'.threadsOf = s.threadsOf
  txnItems : ∀ q t, .transaction t ∈ s'.todo q ↔ .transaction t ∈ s.todo q

/-- What no operation on nodes and references touches. -/
structure RefsOnly (s s' : State) : Prop where
  nextId : s.nextId ≤ s'.nextId
  procs : s'.procs = s.procs
  threads : s'.threads = s.threads
  txns : s'.txns = s.txns
  area : s'.area = s.area
  threadsOf : s'.threadsOf = s.threadsOf
  nodes : ∀ {n nd'}, n < s.nextId → s'.nodes n = some nd' →
    ∃ nd, s.nodes n = some nd ∧ nd'.proc = nd.proc ∧ nd'.ptr = nd.ptr ∧ nd'.cookie = nd.cookie
  txnItems : ∀ q t, .transaction t ∈ s'.todo q ↔ .transaction t ∈ s.todo q

theorem StacksKept.threadOf {s s' : State} (h : StacksKept s s') {th : ThreadId} {p : ProcId}
    (hth : s.ThreadOf th p) : s'.ThreadOf th p :=
  ⟨hth.1.trans_le h.nextId, fun thr hthr => hth.2 thr (h.threads ▸ hthr)⟩

namespace RefsOnly

variable {s s' s'' : State}

theorem refl (s : State) : RefsOnly s s :=
  ⟨le_rfl, rfl, rfl, rfl, rfl, rfl, fun _ h => ⟨_, h, rfl, rfl, rfl⟩, fun _ _ => Iff.rfl⟩

theorem trans (h : RefsOnly s s') (h' : RefsOnly s' s'') : RefsOnly s s'' where
  nextId := h.nextId.trans h'.nextId
  procs := h'.procs.trans h.procs
  threads := h'.threads.trans h.threads
  txns := h'.txns.trans h.txns
  area := h'.area.trans h.area
  threadsOf := h'.threadsOf.trans h.threadsOf
  nodes := by
    intro n nd'' hn hnd''
    obtain ⟨nd', hnd', hp', hptr', hc'⟩ := h'.nodes (hn.trans_le h.nextId) hnd''
    obtain ⟨nd, hnd, hp, hptr, hc⟩ := h.nodes hn hnd'
    exact ⟨nd, hnd, hp'.trans hp, hptr'.trans hptr, hc'.trans hc⟩
  txnItems := fun q t => (h'.txnItems q t).trans (h.txnItems q t)

theorem ownedBy (h : RefsOnly s s') {n : NodeId} {p : ProcId} (hn : s.OwnedBy n p) :
    s'.OwnedBy n p := by
  refine ⟨hn.1.trans_le h.nextId, fun nd' hnd' => ?_⟩
  obtain ⟨nd, hnd, hp, _⟩ := h.nodes hn.1 hnd'
  exact hp.trans (hn.2 nd hnd)

theorem stacksKept (h : RefsOnly s s') : StacksKept s s' :=
  ⟨h.nextId, h.procs, h.threads, h.txns, h.area, h.threadsOf, h.txnItems⟩

theorem queueOwner (h : RefsOnly s s') (q : Queue) : s'.queueOwner q = s.queueOwner q := by
  cases q <;> simp [State.queueOwner, h.threads]

theorem coherent (h : RefsOnly s s') {L : Layout} {d : Option ProcId} (hc : Coherent L d s)
    (htables : RefTables s') (hqueues : NodeQueues s') : Coherent L d s' where
  tables := htables
  queues := hqueues
  targets := by
    intro p b n hb hn hd
    rw [State.HasBuffer, h.area] at hb
    exact h.ownedBy (hc.targets hb hn hd)
  areas := fun p => h.area ▸ hc.areas p
  threads_lt := fun hth => (hc.threads_lt (h.threads ▸ hth)).trans_le h.nextId
  threadsOf := fun hth => h.stacksKept.threadOf (hc.threadsOf (h.threadsOf ▸ hth))

theorem of_node {n : NodeId} {nd nd' : Node} {td : Queue → List Work} (hnd : s.nodes n = some nd)
    (hproc : nd'.proc = nd.proc) (hptr : nd'.ptr = nd.ptr) (hcookie : nd'.cookie = nd.cookie)
    (htd : ∀ q t, .transaction t ∈ td q ↔ .transaction t ∈ s.todo q) :
    RefsOnly s { s with nodes := Function.update s.nodes n (some nd'), todo := td } := by
  refine ⟨le_rfl, rfl, rfl, rfl, rfl, rfl, ?_, htd⟩
  intro m md' _ hm
  by_cases hmn : m = n
  · subst hmn
    simp only [Function.update_self, Option.some.injEq] at hm
    subst hm
    exact ⟨nd, hnd, hproc, hptr, hcookie⟩
  · simp only [Function.update_of_ne hmn] at hm
    exact ⟨md', hm, rfl, rfl, rfl⟩

theorem of_nodeKept {n : NodeId} {nd nd' : Node} {new : Queue → Prop} (hnd : s.nodes n = some nd)
    (hkept : NodeKept s s' n nd nd' new) (hproc : nd'.proc = nd.proc) (hptr : nd'.ptr = nd.ptr)
    (hcookie : nd'.cookie = nd.cookie) : RefsOnly s s' := by
  obtain ⟨e, td, rfl, hmoved, -⟩ := hkept
  exact of_node hnd hproc hptr hcookie fun q t => hmoved.others q _ (by simp)

theorem of_nodeFreed {n : NodeId} {nd : Node} (hfreed : NodeFreed s s' n nd) : RefsOnly s s' := by
  obtain ⟨td, ns, dead, rfl, hmoved, -, -⟩ := hfreed
  refine ⟨le_rfl, rfl, rfl, rfl, rfl, rfl, ?_, fun q t => hmoved.others q _ (by simp)⟩
  intro m md' _ hm
  by_cases hmn : m = n
  · simp [hmn] at hm
  · simp only [Function.update_of_ne hmn] at hm
    exact ⟨md', hm, rfl, rfl, rfl⟩

theorem of_refDeleted {r : RefId} {rf : Ref} {nd : Node} (hnd : s.nodes rf.node = some nd)
    (hdel : RefDeleted s s' r rf nd) : RefsOnly s s' := by
  obtain ⟨x, td, ns, dead, deaths, rfl, hx, hothers, -⟩ := hdel
  refine ⟨le_rfl, rfl, rfl, rfl, rfl, rfl, ?_, fun q t => hothers q _ (by simp) (by simp)⟩
  intro m md' _ hm
  by_cases hmn : m = rf.node
  · subst hmn
    rcases hx with ⟨e, rfl, -⟩ | ⟨rfl, -⟩
    · simp only [Function.update_self, Option.some.injEq] at hm
      subst hm
      exact ⟨nd, hnd, rfl, rfl, rfl⟩
    · simp at hm
  · simp only [Function.update_of_ne hmn] at hm
    exact ⟨md', hm, rfl, rfl, rfl⟩

theorem setRef (s : State) (r : RefId) (rf : Ref) : RefsOnly s (s.setRef r rf) :=
  ⟨le_rfl, rfl, rfl, rfl, rfl, rfl, fun _ h => ⟨_, h, rfl, rfl, rfl⟩, fun _ _ => Iff.rfl⟩

theorem addNode (s : State) (p : ProcId) (nd : Node) : RefsOnly s (addNode s p nd) := by
  refine ⟨Nat.le_succ _, rfl, rfl, rfl, rfl, rfl, ?_, fun _ _ => Iff.rfl⟩
  intro m md hm hmd
  change Function.update s.nodes s.nextId (some nd) m = some md at hmd
  rw [Function.update_of_ne hm.ne] at hmd
  exact ⟨md, hmd, rfl, rfl, rfl⟩

theorem addRef (s : State) (p : ProcId) {n : NodeId} {nd : Node} (hnd : s.nodes n = some nd) :
    RefsOnly s (addRef s p n nd) := by
  refine ⟨Nat.le_succ _, rfl, rfl, rfl, rfl, rfl, ?_, fun _ _ => Iff.rfl⟩
  intro m md _ hmd
  rcases addRef_nodes.mp hmd with ⟨rfl, rfl⟩ | ⟨-, hmd⟩
  · exact ⟨nd, hnd, rfl, rfl, rfl⟩
  · exact ⟨md, hmd, rfl, rfl, rfl⟩

end RefsOnly

/-! ### The lists of the owners -/

section Queues

variable {s s' : State}

theorem NodeQueues.congr (h : NodeQueues s)
    (htodo : ∀ n q, .node n ∈ s'.todo q → .node n ∈ s.todo q ∧ s'.queueOwner q = s.queueOwner q)
    (hnodes : ∀ {n nd}, s.nodes n = some nd → ∃ nd', s'.nodes n = some nd' ∧
      nd'.entry = nd.entry ∧ nd'.proc = nd.proc) : NodeQueues s' := by
  intro n q hmem
  obtain ⟨hmem, howner⟩ := htodo n q hmem
  obtain ⟨nd, p, hnd, hentry, hproc, hq⟩ := h _ _ hmem
  obtain ⟨nd', hnd', he, hp⟩ := hnodes hnd
  exact ⟨nd', p, hnd', he.trans hentry, hp.trans hproc, howner.trans hq⟩

theorem NodeQueues.nodeKept (h : NodeQueues s) {n : NodeId} {nd nd' : Node} {new : Queue → Prop}
    (hnd : s.nodes n = some nd) (hkept : NodeKept s s' n nd nd' new)
    (hproc : nd'.proc = nd.proc)
    (hnew : ∀ q, new q → ∃ p, nd.proc = some p ∧ s.queueOwner q = some p) : NodeQueues s' := by
  obtain ⟨e, td, rfl, hmoved, he⟩ := hkept
  have hown : ∀ q, .node n ∈ s.todo q → nd.entry = some q := by
    intro q hmem
    obtain ⟨md, p, hmd, hentry, -⟩ := h _ _ hmem
    obtain rfl : nd = md := by simpa [hnd] using hmd
    exact hentry
  intro m q hmem
  by_cases hmn : m = n
  · subst hmn
    have hentry := hmoved.own hown q hmem
    obtain ⟨p, hp, hq⟩ : ∃ p, nd.proc = some p ∧ s.queueOwner q = some p := by
      rcases he with ⟨-, hstay⟩ | ⟨q', hq', rfl⟩
      · obtain ⟨md, p, hmd, -, hp, hq⟩ := h _ _ (hstay q hmem)
        obtain rfl : nd = md := by simpa [hnd] using hmd
        exact ⟨p, hp, hq⟩
      · obtain rfl : q' = q := by simpa using hentry
        exact hnew q' hq'
    refine ⟨{ nd' with entry := e }, p, by simp, hentry, hproc.trans hp, ?_⟩
    cases q <;> exact hq
  · obtain ⟨md, p, hmd, hentry, hp, hq⟩ := h _ _ ((hmoved.others q _ (by simpa using hmn)).mp hmem)
    refine ⟨md, p, by simpa [hmn] using hmd, hentry, hp, ?_⟩
    cases q <;> exact hq

theorem NodeQueues.of_gone (h : NodeQueues s) {n : NodeId}
    (hitem : ∀ q, .node n ∉ s'.todo q)
    (hothers : ∀ q m, m ≠ n → .node m ∈ s'.todo q → .node m ∈ s.todo q)
    (howner : ∀ q, s'.queueOwner q = s.queueOwner q)
    (hnodes : ∀ m, m ≠ n → s'.nodes m = s.nodes m) : NodeQueues s' := by
  intro m q hmem
  have hmn : m ≠ n := by
    rintro rfl
    exact hitem q hmem
  obtain ⟨md, p, hmd, hentry, hp, hq⟩ := h _ _ (hothers q m hmn hmem)
  exact ⟨md, p, (hnodes m hmn).trans hmd, hentry, hp, (howner q).trans hq⟩

theorem NodeQueues.entry_eq (h : NodeQueues s) {n : NodeId} {nd : Node}
    (hnd : s.nodes n = some nd) : ∀ q, .node n ∈ s.todo q → nd.entry = some q := by
  intro q hmem
  obtain ⟨md, p, hmd, hentry, -⟩ := h _ _ hmem
  obtain rfl : nd = md := by simpa [hnd] using hmd
  exact hentry

theorem NodeQueues.nodeFreed (h : NodeQueues s) {n : NodeId} {nd nd' : Node}
    (hnd : s.nodes n = some nd) (hentry : nd'.entry = nd.entry) (hfreed : NodeFreed s s' n nd') :
    NodeQueues s' := by
  obtain ⟨td, ns, dead, rfl, hmoved, -, -⟩ := hfreed
  refine h.of_gone (n := n) ?_ ?_ (fun q => by cases q <;> rfl) fun m hm => by simp [hm]
  · intro q hmem
    cases hmoved.own (hentry ▸ h.entry_eq hnd) q hmem
  · exact fun q m hm hmem => (hmoved.others q _ (by simpa using hm)).mp hmem

theorem NodeQueues.refDeleted (h : NodeQueues s) {r : RefId} {rf : Ref} {nd : Node}
    (hnd : s.nodes rf.node = some nd) (hdel : RefDeleted s s' r rf nd) : NodeQueues s' := by
  obtain ⟨x, td, ns, dead, deaths, rfl, hx, hothers, -⟩ := hdel
  have hnode : ∀ q m, m ≠ rf.node → .node m ∈ td q → .node m ∈ s.todo q :=
    fun q m hm hmem => (hothers q _ (by simpa using hm) (by simp)).mp hmem
  rcases hx with ⟨e, rfl, -, rfl, rfl, he, hown⟩ | ⟨rfl, -, -, -, -, hnone⟩
  · intro m q hmem
    by_cases hmn : m = rf.node
    · subst hmn
      have hentry := hown (h.entry_eq hnd) q hmem
      obtain ⟨p, hp, hq⟩ : ∃ p, nd.proc = some p ∧ s.queueOwner q = some p := by
        rcases he with ⟨-, hstay⟩ | ⟨p, hp, rfl⟩
        · obtain ⟨md, p, hmd, -, hp, hq⟩ := h _ _ (hstay q hmem)
          obtain rfl : nd = md := by simpa [hnd] using hmd
          exact ⟨p, hp, hq⟩
        · obtain rfl : .proc p = q := by simpa using hentry
          exact ⟨p, hp, rfl⟩
      refine ⟨_, p, Function.update_self .., hentry, hp, ?_⟩
      cases q <;> exact hq
    · obtain ⟨md, p, hmd, hentry, hp, hq⟩ := h _ _ (hnode q m hmn hmem)
      refine ⟨md, p, by simpa [hmn] using hmd, hentry, hp, ?_⟩
      cases q <;> exact hq
  · refine h.of_gone (n := rf.node) ?_ ?_ (fun q => by cases q <;> rfl) fun m hm => by simp [hm]
    · exact hnone (h.entry_eq hnd)
    · exact hnode

end Queues

end Driver

end BinderForLinux
