import BinderForLinux.Driver.Books.Runs

/-!
# The protocol with the owner of a node

`Grants` is the protocol as its owner sees it, for one pointer of one process: each
of the two references is not granted, granted and not yet acknowledged, or
granted. `Grants.next` follows it along the observations and is `none` where a
command comes out of turn. In every run whose offsets name disjoint objects and
whose copies to user space succeed it never is, and the flags of the node are the
state of the protocol.
-/

namespace BinderForLinux

namespace Driver

open Library

/-- One of the two references of an owner, with the cookie it was granted with. -/
inductive Phase
  | idle
  | pending (cookie : ℕ)
  | granted (cookie : ℕ)
deriving DecidableEq, Repr

structure Grants where
  weak : Phase
  strong : Phase
deriving DecidableEq, Repr

namespace Grants

def idle : Grants := ⟨.idle, .idle⟩

/-- A return command about the node is delivered to its owner. `BR_INCREFS` and
`BR_DECREFS` alternate, and so do `BR_ACQUIRE` and `BR_RELEASE`, within them; what
takes a reference back waits for the acknowledgement of what granted it. -/
def deliver (g : Grants) : ReturnCommand → Option Grants
  | .increfs _ cookie => if g.weak = .idle then some { g with weak := .pending cookie } else none
  | .acquire _ cookie =>
      if g.strong = .idle ∧ (g.weak = .pending cookie ∨ g.weak = .granted cookie) then
        some { g with strong := .pending cookie }
      else none
  | .release _ cookie =>
      if g.strong = .granted cookie then some { g with strong := .idle } else none
  | .decrefs _ cookie =>
      if g.weak = .granted cookie ∧ g.strong = .idle then some { g with weak := .idle } else none
  | _ => some g

/-- The owner executes a command; an acknowledgement of nothing is no news. -/
def acknowledge (g : Grants) (ptr : ℕ) : Command → Grants
  | .increfsDone ptr' cookie =>
      if ptr' = ptr ∧ g.weak = .pending cookie then { g with weak := .granted cookie } else g
  | .acquireDone ptr' cookie =>
      if ptr' = ptr ∧ g.strong = .pending cookie then { g with strong := .granted cookie } else g
  | _ => g

/-- The protocol for the pointer `ptr` of the process `p`. The node of the context
manager starts with both references granted; a process that went away holds none. -/
def next (p : ProcId) (ptr : ℕ) (g : Grants) : Obs → Option Grants
  | .delivered q _ _ cmd => if q = p ∧ cmd.nodePtr = some ptr then g.deliver cmd else some g
  | .wrote q _ c => some (if q = p then g.acknowledge ptr c else g)
  | .managed q =>
      if q = p ∧ ptr = 0 then if g = idle then some ⟨.granted 0, .granted 0⟩ else none
      else some g
  | .released q => some (if q = p then idle else g)
  | _ => some g

/-- The protocol along some observations; `none` when one of them comes out of
turn. -/
def run (p : ProcId) (ptr : ℕ) (g : Grants) (h : List Obs) : Option Grants :=
  h.foldlM (next p ptr) g

end Grants

/-! ### The flags of a node as a state of the protocol -/

def Phase.ofFlags (cookie : ℕ) (x : Bool × Bool) : Phase :=
  match x with
  | (false, _) => .idle
  | (true, true) => .pending cookie
  | (true, false) => .granted cookie

def grantsOf (x : (ℕ × ℕ) × (Bool × Bool) × (Bool × Bool)) : Grants :=
  ⟨.ofFlags x.1.2 x.2.2, .ofFlags x.1.2 x.2.1⟩

/-- What the flags say about the pointer `ptr` of the process `p`. -/
def State.grants (s : State) (p : ProcId) (ptr : ℕ) : Grants :=
  match (binderGetNode s p ptr).bind s.nodes with
  | some nd => grantsOf nd.flags
  | none => .idle

section Grants

variable {L : Layout} {C : Condition} {s s' : State} {p : ProcId} {ptr : ℕ} {n : NodeId}
  {nd nd' : Node} {h o : List Obs} {g : Grants}

theorem grants_of_node (ht : RefTables s) (hnd : s.nodes n = some nd) (hp : nd.proc = some p) :
    s.grants p nd.ptr = grantsOf nd.flags := by
  have hget : binderGetNode s p nd.ptr = some n := by
    cases hget : binderGetNode s p nd.ptr with
    | none => exact absurd rfl (ht.getNode_none hget hnd hp)
    | some m =>
        obtain ⟨md, hmd, hq, hptr⟩ := ht.getNode hget
        rw [ht.ptr_inj hmd hnd (hq.trans hp.symm) (by simp [hq]) hptr]
  simp [State.grants, hget, hnd]

theorem grants_of_none (ht : RefTables s)
    (hnone : ∀ n nd, s.nodes n = some nd → nd.proc = some p → nd.ptr ≠ ptr) :
    s.grants p ptr = .idle := by
  cases hget : binderGetNode s p ptr with
  | none => simp [State.grants, hget]
  | some n =>
      obtain ⟨nd, hnd, hp, hptr⟩ := ht.getNode hget
      exact absurd hptr (hnone n nd hnd hp)

theorem grantsOf_idle {x : (ℕ × ℕ) × (Bool × Bool) × (Bool × Bool)} (hs : x.2.1.1 = false)
    (hw : x.2.2.1 = false) : grantsOf x = .idle := by
  obtain ⟨⟨_, _⟩, ⟨_, _⟩, ⟨_, _⟩⟩ := x
  simp only at hs hw
  subst hs hw
  rfl

theorem FlagsKept.grants {d : Option ProcId} (hk : FlagsKept d s s') (ht : RefTables s)
    (ht' : RefTables s') (hd : some p ≠ d) : s'.grants p ptr = s.grants p ptr := by
  -- a node that grants something in one state is the same node in the other
  have hone : ∀ {s₁ s₂ : State}, RefTables s₁ → RefTables s₂ → FlagsKept d s₁ s₂ →
      s₁.grants p ptr ≠ .idle → s₂.grants p ptr = s₁.grants p ptr := by
    intro s₁ s₂ ht₁ ht₂ hk hne
    obtain ⟨n, nd, hnd, hp, rfl⟩ :
        ∃ n nd, s₁.nodes n = some nd ∧ nd.proc = some p ∧ nd.ptr = ptr := by
      by_contra hno
      exact hne (grants_of_none ht₁ fun n nd hnd hp hptr => hno ⟨n, nd, hnd, hp, hptr⟩)
    rw [grants_of_node ht₁ hnd hp] at hne ⊢
    have hknown := known_of_node hnd hp
    rcases hk n with heq | ⟨hun, -⟩
    · rw [hknown] at heq
      obtain ⟨nd', hnd', hp', hflags⟩ := known_eq_some.mp heq
      have hptr : nd'.ptr = nd.ptr := congrArg (fun x => x.1.1) hflags
      rw [← hptr, grants_of_node ht₂ hnd' hp', hflags]
    · rcases hun _ hknown with hq | ⟨hs, hw⟩
      · exact absurd hq hd
      · exact absurd (grantsOf_idle hs hw) hne
  have hsymm : FlagsKept d s' s := by
    intro n
    rcases hk n with heq | ⟨hun, hun'⟩
    · exact .inl heq.symm
    · exact .inr ⟨hun', hun⟩
  by_cases hidle : s.grants p ptr = .idle
  · by_cases hidle' : s'.grants p ptr = .idle
    · rw [hidle, hidle']
    · exact (hone ht' ht hsymm hidle').symm
  · exact hone ht ht' hk hidle

theorem Grants.next_aside {x : Obs} (hx : x.aside) (g : Grants) : g.next p ptr x = some g := by
  cases x with
  | delivered q th w cmd =>
      have : cmd.nodePtr ≠ some ptr := by
        rw [show cmd.nodePtr = none from hx]
        simp
      simp [Grants.next, this]
  | wrote q th c =>
      have hc : g.acknowledge ptr c = g := by
        cases c with
        | increfsDone ptr' cookie => exact absurd rfl (hx ptr' cookie false)
        | acquireDone ptr' cookie => exact absurd rfl (hx ptr' cookie true)
        | _ => rfl
      simp [Grants.next, hc]
  | managed q => exact hx.elim
  | released q => exact hx.elim
  | _ => rfl

theorem Grants.run_aside (ho : ∀ x ∈ o, x.aside) (g : Grants) : g.run p ptr o = some g := by
  induction o with
  | nil => rfl
  | cons x o ih =>
      simp only [Grants.run, List.foldlM_cons, Option.bind_eq_bind,
        next_aside (ho x List.mem_cons_self), Option.bind_some]
      exact ih fun y hy => ho y (List.mem_cons_of_mem _ hy)

theorem Grants.run_append (g : Grants) (h o : List Obs) :
    g.run p ptr (h ++ o) = (g.run p ptr h).bind fun g' => g'.run p ptr o := by
  simp [Grants.run, List.foldlM_append]

theorem Grants.run_cons (g : Grants) (x : Obs) (o : List Obs) :
    g.run p ptr (x :: o) = (g.next p ptr x).bind fun g' => g'.run p ptr o := by
  simp [Grants.run, List.foldlM_cons]

theorem grants_congr (ht : RefTables s) (ht' : RefTables s')
    (hsame : ∀ m md, md.proc = some p → md.ptr = ptr →
      (s'.nodes m = some md ↔ s.nodes m = some md)) : s'.grants p ptr = s.grants p ptr := by
  by_cases hex : ∃ n nd, s.nodes n = some nd ∧ nd.proc = some p ∧ nd.ptr = ptr
  · obtain ⟨n, nd, hnd, hp, hptr⟩ := hex
    have hnd' := (hsame n nd hp hptr).mpr hnd
    subst hptr
    rw [grants_of_node ht hnd hp, grants_of_node ht' hnd' hp]
  · rw [grants_of_none ht fun n nd hnd hp hptr => hex ⟨n, nd, hnd, hp, hptr⟩,
      grants_of_none ht' fun n nd hnd hp hptr => hex ⟨n, nd, (hsame n nd hp hptr).mp hnd, hp, hptr⟩]

theorem grants_setNode_of_ne (ht : RefTables s) (ht' : RefTables (s.setNode n nd'))
    (hnd : s.nodes n = some nd) (hproc : nd'.proc = nd.proc) (hptr : nd'.ptr = nd.ptr)
    (hne : ¬ (nd.proc = some p ∧ nd.ptr = ptr)) :
    (s.setNode n nd').grants p ptr = s.grants p ptr := by
  refine grants_congr ht ht' fun m md hp hq => ?_
  by_cases hm : m = n
  · subst hm
    have h₁ : md ≠ nd' := by
      rintro rfl
      exact hne ⟨hproc ▸ hp, hptr ▸ hq⟩
    have h₂ : md ≠ nd := by
      rintro rfl
      exact hne ⟨hp, hq⟩
    simp [State.setNode, hnd, Ne.symm h₁, Ne.symm h₂]
  · simp [State.setNode, hm]

theorem deliver_nodeCommand {cmd : ReturnCommand} (hcmd : nodeCommand nd = some (cmd, nd'))
    (hpend : ∀ strong, nd.localRefs strong = 0 → nd.pending strong = false) :
    cmd.nodePtr = some nd.ptr ∧ (grantsOf nd.flags).deliver cmd = some (grantsOf nd'.flags) := by
  have hstrong : nd.localStrongRefs = 0 → nd.pendingStrongRef = false := hpend true
  have hweak : nd.localWeakRefs = 0 → nd.pendingWeakRef = false := hpend false
  simp only [nodeCommand] at hcmd
  split at hcmd
  · rename_i hcond
    have hhas : nd.hasWeakRef = false := by simp_all
    cases hcmd
    simp [ReturnCommand.nodePtr, Grants.deliver, grantsOf, Node.flags, Phase.ofFlags, hhas]
  · rename_i hfirst
    split at hcmd
    · rename_i hcond
      have hhas : nd.hasStrongRef = false := by simp_all
      have hhw : nd.hasWeakRef = true := by simp_all
      cases hcmd
      cases hp : nd.pendingWeakRef <;>
        simp [ReturnCommand.nodePtr, Grants.deliver, grantsOf, Node.flags, Phase.ofFlags, hhas, hhw,
          hp]
    · split at hcmd
      · rename_i hcond
        have hhas : nd.hasStrongRef = true := by simp_all
        have hp : nd.pendingStrongRef = false := hstrong (by simp_all)
        cases hcmd
        simp [ReturnCommand.nodePtr, Grants.deliver, grantsOf, Node.flags, Phase.ofFlags, hhas, hp]
      · rename_i hthird
        split at hcmd
        · rename_i hcond
          have hhw : nd.hasWeakRef = true := by simp_all
          have hp : nd.pendingWeakRef = false := hweak (by simp_all)
          have hhas : nd.hasStrongRef = false := by simp_all
          cases hcmd
          simp [ReturnCommand.nodePtr, Grants.deliver, grantsOf, Node.flags, Phase.ofFlags, hhas,
            hhw, hp]
        · cases hcmd

theorem acknowledge_pending {strong : Bool} (hpend : nd.pending strong = true)
    (hhas : nd.hasRef strong = true) :
    (grantsOf nd.flags).acknowledge nd.ptr (doneOf nd.ptr nd.cookie strong) =
      grantsOf (nd.clearPending strong).flags := by
  cases strong
  · have h₁ : nd.pendingWeakRef = true := hpend
    have h₂ : nd.hasWeakRef = true := hhas
    simp [doneOf, Grants.acknowledge, grantsOf, Node.flags, Phase.ofFlags, Node.clearPending, h₁,
      h₂]
  · have h₁ : nd.pendingStrongRef = true := hpend
    have h₂ : nd.hasStrongRef = true := hhas
    simp [doneOf, Grants.acknowledge, grantsOf, Node.flags, Phase.ofFlags, Node.clearPending, h₁,
      h₂]

theorem acknowledge_other {ptr' cookie : ℕ} {strong : Bool} (hne : ptr' ≠ ptr) (g : Grants) :
    g.acknowledge ptr (doneOf ptr' cookie strong) = g := by
  cases strong <;> simp [doneOf, Grants.acknowledge, hne]

theorem Books.pending_of_localRefs (hb : Books none s.claimCount s) (hnd : s.nodes n = some nd)
    (hp : nd.proc = some p) (strong : Bool) (hzero : nd.localRefs strong = 0) :
    nd.pending strong = false :=
  (hb.eq_zero_of_localRefs hnd hp (by simp) strong hzero).2.2.1

theorem FlagStep.grants {K : (ℕ → Bool) → Prop} (hstep : FlagStep K s o s')
    (hK : ∀ w, K w → ∀ i, w i = true) (hs : Coherent L none s) (hs' : Coherent L none s')
    (hb : Books none s.claimCount s) : (s.grants p ptr).run p ptr o = some (s'.grants p ptr) := by
  cases hstep with
  | kept hkept ho =>
      rw [Grants.run_aside ho, hkept.grants hs.tables hs'.tables (by simp)]
  | @tell n nd nd' q cmd th hnd hq hcmd =>
      obtain ⟨hptr, hdeliver⟩ := deliver_nodeCommand hcmd (hb.pending_of_localRefs hnd hq)
      have hkeep := (nodeCommand_eq hcmd).1
      have hproc' : nd'.proc = nd.proc := congrArg Prod.fst hkeep
      have hptr' : nd'.ptr = nd.ptr := congrArg (fun x => x.2.2.1) hkeep
      rw [Grants.run_cons, Grants.next]
      by_cases hsame : q = p ∧ nd.ptr = ptr
      · obtain ⟨rfl, rfl⟩ := hsame
        have hnew : (s.setNode n nd').nodes n = some nd' := Function.update_self ..
        rw [if_pos ⟨rfl, hptr⟩, grants_of_node hs.tables hnd hq, hdeliver, ← hptr',
          grants_of_node hs'.tables hnew (hproc'.trans hq)]
        rfl
      · have hno : ¬ (q = p ∧ cmd.nodePtr = some ptr) := by simpa [hptr] using hsame
        rw [if_neg hno, grants_setNode_of_ne hs.tables hs'.tables hnd hproc' hptr'
          (by simpa [hq] using hsame)]
        rfl
  | lost hnd hq hcmd hKw hw => simp [hK _ hKw] at hw
  | @ack n nd q st o s' th hnd hq hpending hkept ho =>
      have hclear : (nd.clearPending st).proc = nd.proc ∧ (nd.clearPending st).ptr = nd.ptr := by
        cases st <;> exact ⟨rfl, rfl⟩
      have hmid : Coherent L none (s.setNode n (nd.clearPending st)) := by
        refine hs.setNode hnd ?_ ?_ ?_ (by simp [hq]) <;> cases st <;> rfl
      rw [Grants.run_cons, Grants.next, Option.bind_some, Grants.run_aside ho,
        hkept.grants hmid.tables hs'.tables (by simp)]
      by_cases hsame : q = p ∧ nd.ptr = ptr
      · obtain ⟨rfl, rfl⟩ := hsame
        have hnew : (s.setNode n (nd.clearPending st)).nodes n = some (nd.clearPending st) :=
          Function.update_self ..
        have hgrants := grants_of_node hmid.tables hnew (hclear.1.trans hq)
        rw [hclear.2] at hgrants
        rw [if_pos rfl, grants_of_node hs.tables hnd hq, hgrants,
          acknowledge_pending hpending (hb.pending hnd hq (by simp) st hpending)]
      · rw [grants_setNode_of_ne hs.tables hmid.tables hnd hclear.1 hclear.2
          (by simpa [hq] using hsame)]
        split
        · rename_i hqp
          rw [acknowledge_other fun hptr => hsame ⟨hqp, hptr⟩]
        · rfl
  | @ignored q ptr' cookie st o th hnone ho =>
      rw [Grants.run_cons, Grants.next, Option.bind_some, Grants.run_aside ho]
      split
      · rename_i hqp
        subst hqp
        by_cases hptr : ptr' = ptr
        · subst hptr
          -- an acknowledgement that the protocol takes is one that the driver takes
          by_cases hex : ∃ n nd, s.nodes n = some nd ∧ nd.proc = some q ∧ nd.ptr = ptr'
          · obtain ⟨n, nd, hnd, hq, rfl⟩ := hex
            rw [grants_of_node hs.tables hnd hq]
            have hpend := hnone n nd hnd hq rfl
            cases st
            · have hphase : Phase.ofFlags nd.cookie (nd.hasWeakRef, nd.pendingWeakRef) ≠
                  .pending cookie := by
                intro heq
                cases h₁ : nd.hasWeakRef <;> cases h₂ : nd.pendingWeakRef <;>
                  simp [Phase.ofFlags, h₁, h₂] at heq
                simpa [Node.pending, h₂] using hpend heq
              simp [doneOf, Grants.acknowledge, grantsOf, Node.flags, hphase]
            · have hphase : Phase.ofFlags nd.cookie (nd.hasStrongRef, nd.pendingStrongRef) ≠
                  .pending cookie := by
                intro heq
                cases h₁ : nd.hasStrongRef <;> cases h₂ : nd.pendingStrongRef <;>
                  simp [Phase.ofFlags, h₁, h₂] at heq
                simpa [Node.pending, h₂] using hpend heq
              simp [doneOf, Grants.acknowledge, grantsOf, Node.flags, hphase]
          · rw [grants_of_none hs.tables fun n nd hnd hp hptr => hex ⟨n, nd, hnd, hp, hptr⟩]
            cases st <;> simp [doneOf, Grants.acknowledge, Grants.idle]
        · rw [acknowledge_other hptr]
      · rfl
  | @manage q uid hget =>
      have hnew : (withManager s q uid).nodes s.nextId = some (Node.fresh q 0 0).managing := by
        simp [withManager, State.setNode]
      rw [Grants.run_cons, Grants.next]
      by_cases hsame : q = p ∧ ptr = 0
      · obtain ⟨rfl, rfl⟩ := hsame
        have hidle : s.grants q 0 = .idle :=
          grants_of_none hs.tables fun n nd hnd hp => hs.tables.getNode_none hget hnd hp
        have hgrants : (withManager s q uid).grants q 0 = ⟨.granted 0, .granted 0⟩ :=
          grants_of_node hs'.tables hnew rfl
        rw [if_pos ⟨rfl, rfl⟩, if_pos hidle, hgrants]
        rfl
      · rw [if_neg hsame]
        refine congrArg some (grants_congr hs.tables hs'.tables fun m md hp hptr => ?_).symm
        by_cases hm : m = s.nextId
        · subst hm
          have h₁ : s.nodes s.nextId ≠ some md := fun hmd =>
            lt_irrefl _ (hs.tables.node_lt hmd)
          have h₂ : (Node.fresh q 0 0).managing ≠ md := by
            rintro rfl
            exact hsame ⟨by simpa [Node.managing, Node.fresh] using hp,
              by simpa [Node.managing, Node.fresh] using hptr.symm⟩
          simp [hnew, h₁, h₂]
        · simp [withManager, addNode, State.setNode, hm]
  | @release q s' hkept hgone =>
      rw [Grants.run_cons, Grants.next, Option.bind_some]
      by_cases hqp : q = p
      · subst hqp
        rw [if_pos rfl, grants_of_none hs'.tables fun n nd hnd hp =>
          absurd hp (hgone.nodes n nd hnd)]
        rfl
      · rw [if_neg hqp, hkept.grants hs.tables hs'.tables (by simpa using Ne.symm hqp)]
        rfl

/-- Offsets name disjoint objects, and what a read stores can be stored. -/
def soundly : Condition := fun _ _ _ r =>
  match r with
  | .command c => c.disjoint
  | .copy writable => ∀ i, writable i = true
  | .exit => True

/-- The owners of nodes are told in turn: the commands and acknowledgements for each
pointer of each process follow the protocol, and the flags of the node, if there is
one, are the state that the protocol has reached. -/
theorem grants_of_reach
    (hreach : Reach (loggedStep L) (fun x a => ActOk disjointly L x.1 a ∧ a.copies)
      (State.init, []) (s, h)) :
    ∀ p ptr, Grants.idle.run p ptr h = some (s.grants p ptr) := by
  have hsound :
      Reach (loggedStep L) (fun x a => ActOk soundly L x.1 a) (State.init, []) (s, h) := by
    refine hreach.mono fun x a hok => hok.1.and_copies hok.2 fun {s p th r} hr hw => ?_
    cases r with
    | command c => exact hr
    | exit => trivial
    | copy w => exact hw w rfl
  refine (logged_invariant (I := fun h s => Books none s.claimCount s ∧
    ∀ p ptr, Grants.idle.run p ptr h = some (s.grants p ptr)) hsound ⟨books_init, ?_⟩ ?_).2.2
  · intro p ptr
    rfl
  · rintro h₁ s₁ o s₂ hs₁ ⟨hb₁, hrun⟩ hpart
    refine ⟨hpart.books id hs₁ hb₁, fun p ptr => ?_⟩
    rw [Grants.run_append, hrun p ptr, Option.bind_some]
    exact (hpart.flags hs₁).grants (fun w hw => by
      obtain ⟨_, _, _, hw⟩ := hw
      exact hw) hs₁ (hpart.coherent hs₁) hb₁

end Grants

/-- Process 1 sends a binder object to the context manager and reads what is to be
said about it, then acknowledges it. -/
def binderKept : List Act :=
  binderSent ++ [.read 1 20, .goOn 4, .write 1 20 [.increfsDone 16 32, .acquireDone 16 32]]

theorem grants_binderKept : ∃ s h,
    runChecked (loggedStep Layout.x86) (fun x a => ActOk disjointly Layout.x86 x.1 a)
        (State.init, []) binderKept = some (s, h) ∧
      Grants.idle.run 1 16 h = some ⟨.granted 32, .granted 32⟩ ∧
      ∀ p ptr, Grants.idle.run p ptr h = some (s.grants p ptr) := by
  obtain ⟨⟨s, h⟩, hrun, hgrants⟩ := Option.map_eq_some_iff.mp
    (show (runChecked (loggedStep Layout.x86) (fun x a => ActOk disjointly Layout.x86 x.1 a)
      (State.init, []) binderKept).map (fun x => Grants.idle.run 1 16 x.2) =
        some (some ⟨.granted 32, .granted 32⟩) by decide +kernel)
  refine ⟨s, h, hrun, hgrants, grants_of_reach (reach_of_runChecked_of_forall hrun ?_)⟩
  simp [binderKept, binderSent, twoProcesses, Act.copies, Act.write, Act.read, Act.goOn]

/-- Process 1 calls the context manager and gets a binder in the reply, whose node is
announced to its owner. It then sends an object of its own, at an offset that is
given twice: the first pass makes it a handle, and the second takes it for the
handle that process 1 has for the other node. So one count is taken for two objects,
and the buffer gives back two. -/
def earlyRelease : List Act :=
  twoProcesses ++
    [.write 1 20 [.transaction (.plain 0 0 (fun _ => 0) []) TxnEnv.granted],
      .read 0 10, .goOn 2,
      .write 0 10 [.reply (.plain 0 0 (Data.object (.binder true) 64 64) [0]) TxnEnv.granted],
      .read 0 10, .goOn 2,
      .write 1 20 [.transaction (.plain 0 1 (Data.object (.binder true) 128 128) [0, 0])
        TxnEnv.granted],
      .read 0 10, .goOn 2, .write 0 10 [.freeBuffer 4280], .write 1 20 [.release 1],
      .read 0 10, .goOn 2]

/-- The owner is told to release what it has not yet acknowledged. -/
theorem earlyRelease_outOfTurn : (∀ a ∈ earlyRelease, a.copies) ∧ ∃ s h,
    runActions (loggedStep Layout.x86) (State.init, []) earlyRelease = .ok (s, h) ∧
      Grants.idle.run 0 64 h = none := by
  constructor
  · simp [earlyRelease, twoProcesses, Act.copies, Act.write, Act.read, Act.goOn]
  · cases hrun : runActions (loggedStep Layout.x86) (State.init, []) earlyRelease with
    | error e =>
        have : (runActions (loggedStep Layout.x86) (State.init, []) earlyRelease).toOption.isSome =
            true := by decide +kernel
        simp [hrun, Except.toOption] at this
    | ok x =>
        have : (runActions (loggedStep Layout.x86) (State.init, []) earlyRelease).toOption.map
            (fun x => Grants.idle.run 0 64 x.2) = some none := by decide +kernel
        rw [hrun] at this
        exact ⟨x.1, x.2, rfl, by simpa [Except.toOption] using this⟩

end Driver

end BinderForLinux
