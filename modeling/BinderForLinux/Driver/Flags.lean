import BinderForLinux.Driver.Changes.Parts

/-!
# What the owners of nodes know

The flags `has_*_ref` and `pending_*_ref` of a node are what its owner has been
told and has not yet acknowledged. They change only when the owner is told, when
it acknowledges, and when its node becomes the context manager; and a node with a
granted reference is not freed as long as its owner lives.
-/

namespace BinderForLinux

namespace Driver

open Library

/-- The pointer and the cookie of a node, and its flags. -/
def Node.flags (nd : Node) : (ℕ × ℕ) × (Bool × Bool) × (Bool × Bool) :=
  ((nd.ptr, nd.cookie), (nd.hasStrongRef, nd.pendingStrongRef), (nd.hasWeakRef, nd.pendingWeakRef))

/-- The flags of a node that has an owner, with the owner. -/
def State.known (s : State) (n : NodeId) :
    Option (ProcId × (ℕ × ℕ) × (Bool × Bool) × (Bool × Bool)) :=
  (s.nodes n).bind fun nd => nd.proc.map fun p => (p, nd.flags)

/-- Neither reference is granted, or the owner is the process `d` that is being taken
apart. -/
def Ungranted (d : Option ProcId)
    (x : Option (ProcId × (ℕ × ℕ) × (Bool × Bool) × (Bool × Bool))) : Prop :=
  ∀ y, x = some y → some y.1 = d ∨ y.2.2.1.1 = false ∧ y.2.2.2.1 = false

/-- Nodes keep their flags, or come and go without a granted reference. -/
def FlagsKept (d : Option ProcId) (s s' : State) : Prop :=
  ∀ n, s'.known n = s.known n ∨ Ungranted d (s.known n) ∧ Ungranted d (s'.known n)

section Flags

variable {L : Layout} {d : Option ProcId} {s s' s'' : State} {n : NodeId} {nd nd' : Node}
  {p : ProcId} {e : Event}

theorem known_eq_some {y : ProcId × (ℕ × ℕ) × (Bool × Bool) × (Bool × Bool)} :
    s.known n = some y ↔ ∃ nd, s.nodes n = some nd ∧ nd.proc = some y.1 ∧ nd.flags = y.2 := by
  simp only [State.known, Option.bind_eq_some_iff, Option.map_eq_some_iff]
  constructor
  · rintro ⟨nd, hnd, p, hp, rfl⟩
    exact ⟨nd, hnd, hp, rfl⟩
  · rintro ⟨nd, hnd, hp, hf⟩
    exact ⟨nd, hnd, y.1, hp, by rw [hf]⟩

theorem known_of_node (hnd : s.nodes n = some nd) (hp : nd.proc = some p) :
    s.known n = some (p, nd.flags) :=
  known_eq_some.mpr ⟨nd, hnd, hp, rfl⟩

theorem ungranted_none : Ungranted d none := by
  rintro y ⟨⟩

theorem ungranted_of_nodes (hn : s.nodes n = none) : Ungranted d (s.known n) := by
  simp only [State.known, hn, Option.bind_none]
  exact ungranted_none

theorem FlagsKept.refl (s : State) : FlagsKept d s s := fun _ => .inl rfl

theorem FlagsKept.trans (h : FlagsKept d s s') (h' : FlagsKept d s' s'') : FlagsKept d s s'' := by
  intro n
  rcases h n with heq | ⟨hun, hun'⟩
  · rw [← heq]
    exact h' n
  · rcases h' n with heq' | ⟨-, hun''⟩
    · exact .inr ⟨hun, heq' ▸ hun'⟩
    · exact .inr ⟨hun, hun''⟩

theorem FlagsKept.of_nodes (h : s'.nodes = s.nodes) : FlagsKept d s s' :=
  fun n => .inl (by rw [State.known, State.known, h])

theorem FlagsKept.of_node (hother : ∀ m, m ≠ n → s'.nodes m = s.nodes m)
    (hn : s'.known n = s.known n ∨ Ungranted d (s.known n) ∧ Ungranted d (s'.known n)) :
    FlagsKept d s s' := by
  intro m
  by_cases hm : m = n
  · exact hm ▸ hn
  · exact .inl (by rw [State.known, State.known, hother m hm])

theorem FlagsKept.write (hnd : s.nodes n = some nd) (hother : ∀ m, m ≠ n → s'.nodes m = s.nodes m)
    (hnd' : s'.nodes n = some nd') (hproc : nd'.proc = nd.proc) (hflags : nd'.flags = nd.flags) :
    FlagsKept d s s' := by
  refine .of_node hother (.inl ?_)
  simp only [State.known, hnd, hnd', Option.bind_some, hproc, hflags]

theorem FlagsKept.of_nodeKept {new : Queue → Prop} (hnd : s.nodes n = some nd)
    (hkept : NodeKept s s' n nd nd' new) (hproc : nd'.proc = nd.proc)
    (hflags : nd'.flags = nd.flags) : FlagsKept d s s' := by
  obtain ⟨e, td, rfl, -, -⟩ := hkept
  exact .write hnd (fun m hm => Function.update_of_ne hm ..) (Function.update_self ..) hproc hflags

theorem FlagsKept.of_gone (hother : ∀ m, m ≠ n → s'.nodes m = s.nodes m)
    (hnone : s'.nodes n = none)
    (hfree : ∀ nd, s.nodes n = some nd →
      nd.proc = none ∨ nd.hasStrongRef = false ∧ nd.hasWeakRef = false) : FlagsKept d s s' := by
  refine .of_node hother (.inr ⟨?_, ungranted_of_nodes hnone⟩)
  intro y hy
  obtain ⟨nd, hnd, hp, hf⟩ := known_eq_some.mp hy
  rcases hfree nd hnd with hnone | hfree
  · rw [hnone] at hp
    cases hp
  · right
    rw [← hf]
    exact hfree

theorem FlagsKept.incRef (ht : RefTables s) {r : RefId} {rf : Ref} {strong ok : Bool}
    {target : Option Queue} (hrf : s.refs r = some rf)
    (hinc : binderIncRef s r strong target = .ok (ok, s')) : FlagsKept d s s' := by
  obtain ⟨nd, hnd⟩ := ht.ref_node hrf
  obtain ⟨s₀, hkept, rfl, -⟩ := incRef_spec hinc hrf hnd
  have h₁ : FlagsKept d s s₀ := by
    refine .of_nodeKept hnd hkept ?_ ?_
    · split
      · cases strong <;> rfl
      · rfl
    · split
      · cases strong <;> rfl
      · rfl
  exact h₁.trans (.of_nodes rfl)

theorem FlagsKept.deleteRef {r : RefId} (hdel : binderDeleteRef s r = .ok s') :
    FlagsKept d s s' := by
  obtain ⟨rf, nd, -, hnd, x, td, ns, dead, deaths, rfl, hx, -⟩ := binderDeleteRef_eq hdel
  have hother : ∀ m, m ≠ rf.node → Function.update s.nodes rf.node x m = s.nodes m :=
    fun m hm => Function.update_of_ne hm ..
  rcases hx with ⟨e, rfl, -⟩ | ⟨rfl, hfree, -⟩
  · exact .write hnd hother (Function.update_self ..) rfl rfl
  · refine .of_gone hother (Function.update_self ..) fun md hmd => ?_
    obtain rfl : nd = md := by simpa [hnd] using hmd
    exact hfree.2.2.2.2

theorem FlagsKept.decRef (ht : RefTables s) {r : RefId} {rf : Ref} {strong : Bool}
    (hrf : s.refs r = some rf) (hdec : binderDecRef s r strong = .ok s') : FlagsKept d s s' := by
  obtain ⟨nd, hnd⟩ := ht.ref_node hrf
  rcases decRef_spec ht hdec hrf hnd with ⟨-, rfl⟩ | ⟨-, s₀, hkept, hrest⟩
  · exact .refl _
  · have h₁ : FlagsKept d s s₀ := by
      refine .of_nodeKept hnd hkept ?_ ?_
      · unfold Node.lost
        split <;> rfl
      · unfold Node.lost
        split <;> rfl
    have hmid : FlagsKept d s (s₀.setRef r (rf.dec strong)) := h₁.trans (.of_nodes rfl)
    rcases hrest with ⟨-, rfl⟩ | ⟨-, -, hdel⟩
    · exact hmid
    · exact hmid.trans (deleteRef hdel)

theorem FlagsKept.decNode {strong : Bool} (hnd : s.nodes n = some nd) :
    FlagsKept d s (decNode s n nd strong false) := by
  have hdec : Driver.decNode s n nd strong false = _ := rfl
  rcases decNode_eq hdec with ⟨-, hkept⟩ | ⟨hfree, hfreed⟩
  · exact .of_nodeKept hnd hkept (by simp) (by cases strong <;> rfl)
  · obtain ⟨td, ns, dead, heq, -⟩ := hfreed
    rw [heq]
    refine .of_gone (fun m hm => Function.update_of_ne hm ..) (Function.update_self ..) ?_
    intro md hmd
    obtain rfl : nd = md := by simpa [hnd] using hmd
    cases strong <;> exact hfree.2.2.2.2

/-- A node that owes its owner no command and is not in use grants nothing. -/
theorem ungranted_of_nodeCommand (hcmd : nodeCommand nd = none) (huse : nd.inUse = false) :
    nd.hasStrongRef = false ∧ nd.hasWeakRef = false := by
  obtain ⟨hrefs, hint, hls, hlw⟩ := Node.refs_of_not_inUse huse
  simp only [nodeCommand, hrefs, hint, hls, hlw] at hcmd
  cases hs : nd.hasStrongRef with
  | true => simp [hs] at hcmd
  | false =>
      cases hw : nd.hasWeakRef with
      | true => simp [hs, hw] at hcmd
      | false => exact ⟨rfl, rfl⟩

theorem Change.flags (hs : Coherent L d s) (h : Change L s e s') (he : e.okFor d)
    (hev : e.plain ∨ ∃ q, e = .gone q) : FlagsKept d s s' := by
  cases h with
  | idle h => exact .of_nodes h.nodes
  | area h _ => exact .of_nodes h.nodes
  | note hnd hmoved hsub hcounts =>
      simp only [Node.counts, Node.entries, Prod.mk.injEq] at hcounts
      obtain ⟨⟨hproc, -, hptr, hcookie⟩, -, ⟨hhs, hps⟩, hhw, hpw⟩ := hcounts
      refine .write hnd (fun m hm => Function.update_of_ne hm ..) (Function.update_self ..) hproc ?_
      rw [Node.flags, Node.flags, hptr, hcookie, hhs, hps, hhw, hpw]
  | tell => rcases hev with hev | ⟨q, ⟨⟩⟩; exact hev.elim
  | @forgetNode n nd hnd hproc hcmd huse =>
      obtain ⟨td, ns, dead, heq, -⟩ := nodeFreed_freeNode s n nd
      rw [heq]
      refine .of_gone (fun m hm => Function.update_of_ne hm ..) (Function.update_self ..) ?_
      intro md hmd
      obtain rfl : nd = md := by simpa [hnd] using hmd
      exact .inr (ungranted_of_nodeCommand hcmd huse)
  | @hold n nd strong c hnd hc =>
      exact .write hnd (fun m hm => Function.update_of_ne hm ..) (Function.update_self ..)
        (by cases strong <;> rfl) (by cases strong <;> rfl)
  | drop hnd hc => exact .decNode hnd
  | lostObject => exact .refl _
  | done => rcases hev with hev | ⟨q, ⟨⟩⟩; exact hev.elim
  | @newNode p ptr cookie hget hptr hcookie =>
      refine .of_node (n := s.nextId) (fun m hm => Function.update_of_ne hm ..) (.inr ⟨?_, ?_⟩)
      · refine ungranted_of_nodes ?_
        cases hnd : s.nodes s.nextId with
        | none => rfl
        | some nd => exact absurd (hs.tables.node_lt hnd) (lt_irrefl _)
      · intro y hy
        obtain ⟨nd, hnd, -, hf⟩ := known_eq_some.mp hy
        have hfresh : (addNode s p (Node.fresh p ptr cookie)).nodes s.nextId =
            some (Node.fresh p ptr cookie) := Function.update_self ..
        obtain rfl : Node.fresh p ptr cookie = nd := by simpa [hfresh] using hnd
        right
        rw [← hf]
        exact ⟨rfl, rfl⟩
  | newManager => rcases hev with hev | ⟨q, ⟨⟩⟩; exact hev.elim
  | newRef hnd hfind hdesc =>
      exact .write hnd (fun m hm => Function.update_of_ne hm ..) (Function.update_self ..) rfl rfl
  | holdRef hrf hnd hinc htarget => exact .incRef hs.tables hrf hinc
  | takeRef hrf hinc => exact .incRef hs.tables hrf hinc
  | dropRef hrf hdec => exact .decRef hs.tables hrf hdec
  | lostHandle => exact .refl _
  | giveRef hrf hdec => exact .decRef hs.tables hrf hdec
  | deleteRef hrf hdel => exact .deleteRef hdel
  | @orphan p n nd hnd hproc hidle =>
      obtain rfl := he _ rfl
      refine .of_node (n := n) (fun m hm => ?_) (.inr ⟨?_, ?_⟩)
      · unfold Driver.orphan
        split <;> simp [State.setNode, hm]
      · intro y hy
        obtain ⟨md, hmd, hp, -⟩ := known_eq_some.mp hy
        obtain rfl : nd = md := by simpa [hnd] using hmd
        exact .inl (hp.symm.trans hproc)
      · have hnone : (Driver.orphan s p n nd).known n = none := by
          unfold Driver.orphan
          split <;> simp [State.known, State.setNode, Node.orphaned]
        rw [hnone]
        exact ungranted_none
  | dropManager => exact .of_nodes rfl

theorem Changes.flags {es : List Event} (hes : Changes L s es s') (hs : Coherent L d s)
    (hok : ∀ e ∈ es, e.okFor d ∧ (e.plain ∨ ∃ q, e = .gone q)) : FlagsKept d s s' := by
  induction hes with
  | nil => exact .refl _
  | @cons s s₁ s' e es hstep _ ih =>
      obtain ⟨he, hev⟩ := hok e List.mem_cons_self
      exact (hstep.flags hs he hev).trans
        (ih (hs.change hstep he) fun e' he' => hok e' (List.mem_cons_of_mem _ he'))

theorem Walk.flags {ok : Event → Prop} {D : Prop} (hw : Walk L ok D s s') (hs : Coherent L d s)
    (hok : ∀ e, ok e → e.plain) : FlagsKept d s s' := by
  obtain ⟨es, hes, hev, -⟩ := hw
  exact hes.flags hs fun e he => ⟨(hok e (hev e he)).stays.okFor, .inl (hok e (hev e he))⟩

theorem Departs.flags (h : Departs L p s s') (hs : Coherent L (some p) s) :
    FlagsKept (some p) s s' := by
  obtain ⟨_, ⟨es, hes, hev, -⟩, -⟩ := h
  refine hes.flags hs fun e he => ⟨(hev e he).okFor, ?_⟩
  have hdep := hev e he
  cases e with
  | gone q => exact .inr ⟨q, rfl⟩
  | _ => first | exact .inl trivial | exact hdep.elim

/-! ### Parts -/

/-- The pointer of the node that a return command is about. -/
def ReturnCommand.nodePtr : ReturnCommand → Option ℕ
  | .increfs ptr _ => some ptr
  | .acquire ptr _ => some ptr
  | .release ptr _ => some ptr
  | .decrefs ptr _ => some ptr
  | _ => none

def doneOf (ptr cookie : ℕ) (strong : Bool) : Command :=
  if strong then .acquireDone ptr cookie else .increfsDone ptr cookie

def Obs.aside : Obs → Prop
  | .delivered _ _ _ cmd => cmd.nodePtr = none
  | .wrote _ _ c => ∀ ptr cookie strong, c ≠ doneOf ptr cookie strong
  | .managed _ => False
  | .released _ => False
  | _ => True

/-- What a part does to the flags of nodes; `K` tells which copies to user space it
makes. -/
inductive FlagStep (K : (ℕ → Bool) → Prop) (s : State) : List Obs → State → Prop
  | kept {o : List Obs} {s' : State} (hkept : FlagsKept none s s') (ho : ∀ x ∈ o, x.aside) :
      FlagStep K s o s'
  | tell {n : NodeId} {nd nd' : Node} {p : ProcId} {cmd : ReturnCommand} (th : ThreadId)
      (hnd : s.nodes n = some nd) (hproc : nd.proc = some p)
      (hcmd : nodeCommand nd = some (cmd, nd')) :
      FlagStep K s [.delivered p th (some (.node n)) cmd] (s.setNode n nd')
  /-- The owner was not told, because the command could not be stored. -/
  | lost {n : NodeId} {nd nd' : Node} {p : ProcId} {cmd : ReturnCommand} {ptr : ℕ}
      {writable : ℕ → Bool} (hnd : s.nodes n = some nd) (hproc : nd.proc = some p)
      (hcmd : nodeCommand nd = some (cmd, nd')) (hK : K writable)
      (hw : (writable ptr && writable (ptr + 4) && writable (ptr + 12)) = false) :
      FlagStep K s [] (s.setNode n nd')
  | ack {n : NodeId} {nd : Node} {p : ProcId} {strong : Bool} {o : List Obs} {s' : State}
      (th : ThreadId) (hnd : s.nodes n = some nd) (hproc : nd.proc = some p)
      (hpending : nd.pending strong = true)
      (hkept : FlagsKept none (s.setNode n (nd.clearPending strong)) s')
      (ho : ∀ x ∈ o, x.aside) :
      FlagStep K s (.wrote p th (doneOf nd.ptr nd.cookie strong) :: o) s'
  /-- An acknowledgement of nothing. -/
  | ignored {p : ProcId} {ptr cookie : ℕ} {strong : Bool} {o : List Obs} (th : ThreadId)
      (hnone : ∀ n nd, s.nodes n = some nd → nd.proc = some p → nd.ptr = ptr →
        nd.cookie = cookie → nd.pending strong = false)
      (ho : ∀ x ∈ o, x.aside) : FlagStep K s (.wrote p th (doneOf ptr cookie strong) :: o) s
  | manage {p : ProcId} (uid : Option ℕ) (hget : binderGetNode s p 0 = none) :
      FlagStep K s [.managed p] (withManager s p uid)
  | release {p : ProcId} {s' : State} (hkept : FlagsKept (some p) s s') (hgone : Gone p s') :
      FlagStep K s [.released p] s'

theorem aside_of_retryLog {th : ThreadId} {size ptr : ℕ} {writable : ℕ → Bool} :
    ∀ x ∈ retryLog s p th size ptr writable, x.aside := by
  intro x hx
  unfold retryLog at hx
  split at hx
  · cases hx
  · split at hx
    · split at hx
      · rcases List.mem_cons.mp hx with rfl | hx
        · rfl
        · split at hx
          · cases hx
          · obtain rfl := List.mem_singleton.mp hx
            rfl
      · obtain rfl := List.mem_singleton.mp hx
        rfl
    · cases hx

theorem readItem_nodePtr {th : ThreadId} {q : Queue} {w : Work} {ptr ptr' : ℕ}
    {writable : ℕ → Bool} {cmds : List ReturnCommand} (hw : ∀ n, w ≠ .node n)
    (hrun : readItem L s p th q w ptr writable = .ok (some (ptr', cmds), s')) :
    ∀ cmd ∈ cmds, cmd.nodePtr = none := by
  cases w with
  | transaction t =>
      simp only [readItem, readTransaction, except_bind_eq_ok, deref_eq_ok] at hrun
      obtain ⟨tx, htx, hrun⟩ := hrun
      split at hrun
      · cases hrun
      · simp only [except_bind_eq_ok] at hrun
        obtain ⟨b, -, tr, -, hrun⟩ := hrun
        split at hrun
        · simp at hrun
        · split at hrun
          · simp only [except_bind_eq_ok, except_pure_eq_ok, Prod.mk.injEq,
              Option.some.injEq] at hrun
            obtain ⟨_, -, ⟨-, rfl⟩, -⟩ := hrun
            simp [ReturnCommand.nodePtr]
          · simp only [except_bind_eq_ok, except_pure_eq_ok, Prod.mk.injEq,
              Option.some.injEq] at hrun
            obtain ⟨_, -, ⟨-, rfl⟩, -⟩ := hrun
            intro cmd hcmd
            obtain rfl := List.mem_singleton.mp hcmd
            split <;> rfl
  | transactionComplete t =>
      simp only [readItem, Except.ok.injEq] at hrun
      split at hrun
      · cases hrun
        simp [ReturnCommand.nodePtr]
      · cases hrun
  | node n => exact absurd rfl (hw n)
  | death i =>
      simp only [readItem, readDeath] at hrun
      cases hde : s.deaths i with
      | none => simp [hde, deref, Except.map, bind, Except.bind] at hrun
      | some de =>
          simp only [deref, hde, bind, Except.bind, pure, Except.pure] at hrun
          split at hrun
          · simp [Except.map] at hrun
          · split at hrun
            · simp only [Except.map, Except.ok.injEq, Prod.mk.injEq, Option.some.injEq] at hrun
              obtain ⟨⟨-, rfl⟩, -⟩ := hrun
              simp [ReturnCommand.nodePtr]
            · simp only [Except.map, Except.ok.injEq, Prod.mk.injEq, Option.some.injEq] at hrun
              obtain ⟨⟨-, rfl⟩, -⟩ := hrun
              simp [ReturnCommand.nodePtr]

variable {K : (ℕ → Bool) → Prop}

theorem readNode_flags (hs : Coherent L none s) {th : ThreadId} {q : Queue} {ptr : ℕ}
    {writable : ℕ → Bool} (hK : K writable) {x : Option (ℕ × List ReturnCommand)}
    (hmem : .node n ∈ s.todo q)
    (hq : s.queueOwner q = some p) (hrun : readNode s p n ptr writable = .ok (x, s')) :
    FlagStep K s ((x.elim [] Prod.snd).map (.delivered p th (some (.node n)))) s' := by
  simp only [readNode, except_bind_eq_ok, deref_eq_ok] at hrun
  obtain ⟨nd, hnd, hrun⟩ := hrun
  obtain ⟨nd', p', hnd', -, hproc, hq'⟩ := hs.queues n q hmem
  obtain rfl : nd = nd' := by simpa [hnd] using hnd'
  obtain rfl : p = p' := by simpa [hq] using hq'
  cases hcmd : nodeCommand nd with
  | some y =>
      obtain ⟨cmd, nd'⟩ := y
      simp only [hcmd] at hrun
      split at hrun
      · simp only [except_pure_eq_ok, Prod.mk.injEq] at hrun
        obtain ⟨rfl, rfl⟩ := hrun
        exact .tell th hnd hproc hcmd
      · rename_i hwr
        simp only [except_pure_eq_ok, Prod.mk.injEq] at hrun
        obtain ⟨rfl, rfl⟩ := hrun
        exact .lost hnd hproc hcmd hK (by simpa using hwr)
  | none =>
      simp only [hcmd] at hrun
      have hself : ({ nd with proc := some p } : Node) = nd := by rw [← hproc]
      split at hrun
      · simp only [except_pure_eq_ok, Prod.mk.injEq] at hrun
        obtain ⟨rfl, rfl⟩ := hrun
        obtain ⟨hch, -, -⟩ := unlinkNode_change (L := L) hs.queues hnd
        exact .kept (hch.flags hs (Event.isQuiet.stays _ rfl).okFor (.inl trivial)) (by simp)
      · rename_i huse
        simp only [except_pure_eq_ok, Prod.mk.injEq, hself] at hrun
        obtain ⟨rfl, rfl⟩ := hrun
        have hch : Change L s .quiet (freeNode s n nd) :=
          Change.forgetNode hnd (by simp [hproc]) hcmd (by simpa using huse)
        exact .kept (hch.flags hs (Event.isQuiet.stays _ rfl).okFor (.inl trivial)) (by simp)

theorem readItem_flags (hs : Coherent L none s) {th : ThreadId} {thr : Thread} {wait : Bool}
    {q : Queue} {w : Work} {ptr : ℕ} {writable : ℕ → Bool} (hK : K writable)
    {x : Option (ℕ × List ReturnCommand)} (hthr : s.threads th = some thr) (hproc : thr.proc = p)
    (hnext : nextWork s p th wait = some (q, w))
    (hrun : readItem L s p th q w ptr writable = .ok (x, s')) :
    FlagStep K s ((x.elim [] Prod.snd).map (.delivered p th (some w))) s' := by
  by_cases hw : ∃ n, w = .node n
  · obtain ⟨n, rfl⟩ := hw
    exact readNode_flags hs hK (nextWork_eq hnext).1 (nextWork_owner hthr hproc hnext) hrun
  · have hw' : ∀ n, w ≠ .node n := fun n hn => hw ⟨n, hn⟩
    refine .kept (.of_nodes (readItem_idle hs.grounded hw' hrun).nodes) ?_
    cases x with
    | none => simp
    | some y =>
        intro o ho
        obtain ⟨cmd, hcmd, rfl⟩ := List.mem_map.mp ho
        exact readItem_nodePtr hw' hrun cmd hcmd

theorem aside_of_commandLog {th : ThreadId} (c : Command) :
    ∀ x ∈ (commandLog s s' p th c).tail, x.aside := by
  intro x hx
  rcases List.mem_append.mp hx with hx | hx
  · unfold acceptedLog at hx
    split at hx
    · cases hx
    · split at hx
      · cases hx
      · obtain rfl := List.mem_singleton.mp hx
        trivial
  · unfold deathLog at hx
    split at hx
    · split at hx
      · cases hx
      · split at hx
        · obtain rfl := List.mem_singleton.mp hx
          trivial
        · cases hx
    · split at hx
      · cases hx
      · split at hx
        · cases hx
        · split at hx
          · obtain rfl := List.mem_singleton.mp hx
            trivial
          · cases hx
    · split at hx
      · cases hx
      · obtain rfl := List.mem_singleton.mp hx
        trivial
    · cases hx

theorem doneCommand_flags (hs : Coherent L none s) {ptr cookie : ℕ} {strong : Bool} {o : List Obs}
    (th : ThreadId) (ho : ∀ x ∈ o, x.aside) (hrun : doneCommand s p ptr cookie strong = .ok s') :
    FlagStep K s (.wrote p th (doneOf ptr cookie strong) :: o) s' := by
  simp only [doneCommand] at hrun
  cases hget : binderGetNode s p ptr with
  | none =>
      simp only [hget, except_pure_eq_ok] at hrun
      subst hrun
      refine .ignored th (fun n nd hnd hproc hptr => ?_) ho
      exact absurd hptr (hs.tables.getNode_none hget hnd hproc)
  | some n =>
      simp only [hget, except_bind_eq_ok, deref_eq_ok] at hrun
      obtain ⟨nd, hnd, hrun⟩ := hrun
      obtain ⟨nd', hnd', hproc, hptr⟩ := hs.tables.getNode hget
      obtain rfl : nd = nd' := by simpa [hnd] using hnd'
      have honly : ∀ {m md}, s.nodes m = some md → md.proc = some p → md.ptr = ptr → md = nd := by
        intro m md hmd hp hq
        obtain rfl := hs.tables.ptr_inj hmd hnd (hp.trans hproc.symm) (by simp [hp])
          (hq.trans hptr.symm)
        simpa [hnd] using hmd.symm
      split at hrun
      · rename_i hcookie
        simp only [except_pure_eq_ok] at hrun
        subst hrun
        refine .ignored th (fun m md hmd hp hq hc => ?_) ho
        obtain rfl := honly hmd hp hq
        exact absurd hc.symm hcookie
      · rename_i hcookie
        have hc : nd.cookie = cookie := (not_not.mp hcookie).symm
        have hignore : nd.pending strong = false → s' = s →
            FlagStep K s (.wrote p th (doneOf ptr cookie strong) :: o) s' := by
          rintro hpend rfl
          refine .ignored th (fun m md hmd hp hq _ => ?_) ho
          rw [honly hmd hp hq, hpend]
        have hack : nd.pending strong = true →
            binderDecNode (s.setNode n (nd.clearPending strong)) n strong false = .ok s' →
            FlagStep K s (.wrote p th (doneOf ptr cookie strong) :: o) s' := by
          intro hpend hdec
          simp only [binderDecNode, except_bind_eq_ok, deref_eq_ok, except_pure_eq_ok] at hdec
          obtain ⟨nd₁, hnd₁, rfl⟩ := hdec
          rw [← hptr, ← hc]
          exact .ack th hnd hproc hpend (.decNode hnd₁) ho
        split at hrun
        · rename_i hst
          subst hst
          split at hrun
          · rename_i hpend
            simp only [except_pure_eq_ok] at hrun
            exact hignore (by simpa [Node.pending] using hpend) hrun.symm
          · rename_i hpend
            exact hack (by simpa [Node.pending] using hpend) hrun
        · rename_i hst
          obtain rfl : strong = false := by simpa using hst
          split at hrun
          · rename_i hpend
            simp only [except_pure_eq_ok] at hrun
            exact hignore (by simpa [Node.pending] using hpend) hrun.symm
          · rename_i hpend
            exact hack (by simpa [Node.pending] using hpend) hrun

theorem execCommand_flags (hs : Coherent L none s) {th : ThreadId} {thr : Thread} {c : Command}
    (hthr : s.threads th = some thr) (hproc : thr.proc = p)
    (hrun : execCommand L s p th c = .ok s') : FlagStep K s (commandLog s s' p th c) s' := by
  have hcons : commandLog s s' p th c = .wrote p th c :: (commandLog s s' p th c).tail := rfl
  by_cases hdone : ∃ ptr cookie strong, c = doneOf ptr cookie strong
  · obtain ⟨ptr, cookie, strong, rfl⟩ := hdone
    rw [hcons]
    refine doneCommand_flags hs th (aside_of_commandLog _) ?_
    cases strong <;> exact hrun
  · have hq : s.queueOwner (.thread th) = some p := by
      rw [queueOwner_thread hthr, hproc]
    have hplain : ∀ e, Event.serves s p c e → e.plain := by
      rintro e (he | he)
      · exact he
      · cases c with
        | increfsDone ptr cookie => exact absurd ⟨ptr, cookie, false, rfl⟩ hdone
        | acquireDone ptr cookie => exact absurd ⟨ptr, cookie, true, rfl⟩ hdone
        | _ => exact he.elim
    refine .kept ((execCommand_walk hs (by simp) hq hrun).flags hs hplain) ?_
    rw [hcons]
    intro x hx
    rcases List.mem_cons.mp hx with rfl | hx
    · exact fun ptr cookie strong hc => hdone ⟨ptr, cookie, strong, hc⟩
    · exact aside_of_commandLog c x hx

theorem Part.flags {C : Condition} {o : List Obs} (hs : Coherent L none s)
    (hpart : Part L C s o s') : FlagStep (fun w => ∃ s p th, C s p th (.copy w)) s o s' := by
  have hidle : Idle L s s' → FlagStep (fun w => ∃ s p th, C s p th (.copy w)) s [] s' :=
    fun hi => .kept (.of_nodes hi.nodes) (by simp)
  cases hpart with
  | «open» pid => exact hidle (binderOpen_idle hs.grounded pid)
  | mmap hp hposs hrun => exact hidle (mmapProc_idle hs hposs hrun)
  | getThread hp hrun => exact hidle (binderGetThread_idle hs hrun)
  | command hthr hproc herr hC hrun => exact execCommand_flags hs hthr hproc hrun
  | retry hthr hproc hC hrun =>
      exact .kept (.of_nodes (readRetry_idle hs.grounded hrun).nodes) aside_of_retryLog
  | wakeUp hthr hproc hread hpr => exact hidle (wakeUp_idle hs.grounded hthr)
  | item hthr hproc hnext hC hrun =>
      obtain ⟨s₀, hC⟩ := hC
      exact readItem_flags hs ⟨s₀, _, _, hC⟩ hthr hproc hnext hrun
  | itemFault hthr hproc hnext hC hrun =>
      obtain ⟨s₀, hC⟩ := hC
      exact readItem_flags hs ⟨s₀, _, _, hC⟩ hthr hproc hnext hrun
  | readDone hthr hproc hrun => exact hidle (readDone_idle hs.grounded hrun)
  | ioctlReturn hrun => exact hidle (ioctlReturn_idle hs.grounded hrun)
  | setProc hpr pr' => exact hidle (hs.grounded.idle_setProc _ pr')
  | @setContextMgr p euid security alloc s' hrun =>
      rcases setContextMgr_cases hrun with ⟨uid, rfl⟩ | ⟨hctx, hget, uid, rfl⟩
      · rw [if_pos rfl]
        exact hidle (hs.grounded.idle_misc le_rfl fun _ _ hmem => hmem)
      · have hne : (withManager s p uid).contextMgrNode ≠ s.contextMgrNode := by
          rw [hctx]
          simp [withManager]
        rw [if_neg hne]
        exact .manage uid hget
  | freeThread hthr hproc hC hrun =>
      refine .kept ((binderFreeThread_walk (D := True) hs hrun).flags hs fun e he => ?_) (by simp)
      cases he
      trivial
  | setFiles files => exact hidle (hs.grounded.idle_misc le_rfl fun _ _ hmem => hmem)
  | vmaClose p => exact hidle (vmaClose_idle hs.grounded p)
  | setLooper hthr looper => exact hidle (hs.grounded.idle_setThread hthr rfl)
  | release hrun =>
      obtain ⟨hdep, -, hgone⟩ := binderDeferredRelease_departs hs hrun
      exact .release (hdep.flags hs.exempt) hgone

end Flags

end Driver

end BinderForLinux
