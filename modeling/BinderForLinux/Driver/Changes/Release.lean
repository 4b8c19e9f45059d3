import BinderForLinux.Driver.Changes.Read
import BinderForLinux.Driver.Step

/-!
# Threads and processes that go away, as changes

A thread that exits is idle but for the work items of nodes on its list. A
process that is taken apart loses its nodes, its references and its buffers, and
nothing that is claimed in the buffers of other processes changes.
-/

namespace BinderForLinux

namespace Driver

open Library

section Threads

variable {L : Layout} {d : Option ProcId} {s s' : State} {p : ProcId} {th : ThreadId} {D : Prop}

theorem Grounded.idle_threads (h : Grounded L s) {k : ℕ} {threads : ThreadId → Option Thread}
    {threadsOf : ProcId → List ThreadId} (hk : s.nextId ≤ k)
    (hitems : ∀ th, threads th ≠ s.threads th → ∀ n, .node n ∉ s.todo (.thread th))
    (hlt : ∀ th thr, threads th = some thr → th < k)
    (hproc : ∀ th thr', th < s.nextId → threads th = some thr' →
      ∃ thr, s.threads th = some thr ∧ thr'.proc = thr.proc)
    (hof : ∀ p th, th ∈ threadsOf p → th ∈ s.threadsOf p ∨
      (th < k ∧ ∀ thr, threads th = some thr → thr.proc = p)) :
    Idle L s { s with
      nextId := k
      threads := threads
      threadsOf := threadsOf } where
  nextId := hk
  nodes := rfl
  nodesOf := rfl
  refsByDesc := rfl
  refsByNode := rfl
  deadNodes := rfl
  contextMgrNode := rfl
  refs := fun _ => rfl
  nodeItems := by
    refine fun n q hmem => ⟨hmem, ?_⟩
    cases q with
    | thread th =>
        have hsame : threads th = s.threads th := by
          by_contra hne
          exact hitems th hne n hmem
        simp [State.queueOwner, hsame]
    | _ => rfl
  areas := h.areas
  threads_lt := fun {th thr} hth => hlt th thr hth
  threadProcs := fun {th thr'} hth hthr => hproc th thr' hth hthr
  threadsOf := fun {p th} hth => hof p th hth
  contents := rfl

theorem binderGetThread_idle (hs : Coherent L d s) {pid : ℕ} {alloc : Bool}
    {x : Option ThreadId} (hrun : binderGetThread s p pid alloc = (x, s')) : Idle L s s' := by
  unfold binderGetThread at hrun
  split at hrun
  · cases hrun
    exact Idle.refl hs.grounded
  · split at hrun
    · cases hrun
      exact Idle.refl hs.grounded
    · cases hrun
      have hfresh : s.threads s.nextId = none := by
        cases hthr : s.threads s.nextId with
        | none => rfl
        | some thr => exact absurd (hs.threads_lt hthr) (lt_irrefl _)
      refine hs.grounded.idle_threads (Nat.le_succ _) ?_ ?_ ?_ ?_
      · intro th hne n hmem
        have hth : th = s.nextId := by
          by_contra hth
          exact hne (Function.update_of_ne hth ..)
        subst hth
        obtain ⟨nd, q, -, -, -, hq⟩ := hs.queues n _ hmem
        simp [State.queueOwner, hfresh] at hq
      · intro th thr hth
        by_cases heq : th = s.nextId
        · exact heq ▸ Nat.lt_succ_self _
        · simp only [State.setThread, Function.update_of_ne heq] at hth
          exact Nat.lt_succ_of_lt (hs.threads_lt hth)
      · intro th thr' hlt hth
        simp only [State.setThread, Function.update_of_ne hlt.ne] at hth
        exact ⟨thr', hth, rfl⟩
      · intro q th hth
        by_cases hq : q = p
        · subst hq
          rw [Function.update_self] at hth
          rcases mem_insertByKey.mp hth with rfl | hth
          · refine .inr ⟨Nat.lt_succ_self _, fun thr hthr => ?_⟩
            simp only [State.setThread, Function.update_self, Option.some.injEq] at hthr
            exact hthr ▸ rfl
          · exact .inl hth
        · rw [Function.update_of_ne hq] at hth
          exact .inl hth

theorem binderGetThread_threadOf (hs : Coherent L d s) {pid : ℕ} {alloc : Bool}
    (hrun : binderGetThread s p pid alloc = (some th, s')) : s'.ThreadOf th p := by
  unfold binderGetThread at hrun
  split at hrun
  · rename_i th' hfind
    cases hrun
    exact hs.threadsOf (List.mem_of_find?_eq_some hfind)
  · split at hrun
    · cases hrun
    · cases hrun
      refine ⟨Nat.lt_succ_self _, fun thr hthr => ?_⟩
      simp only [State.setThread, Function.update_self, Option.some.injEq] at hthr
      exact hthr ▸ rfl

/-! ### The work of a list that goes away -/

/-- Nodes and references stay with their processes, and items are at most taken
off their lists. -/
structure Unlinks (s s' : State) : Prop where
  items : ∀ n q, .node n ∈ s'.todo q → .node n ∈ s.todo q
  nodes : ∀ n nd', s'.nodes n = some nd' → ∃ nd, s.nodes n = some nd ∧ nd'.proc = nd.proc
  refs : ∀ r rf', s'.refs r = some rf' → ∃ rf, s.refs r = some rf ∧ rf'.proc = rf.proc

theorem Unlinks.trans {s'' : State} (h : Unlinks s s') (h' : Unlinks s' s'') :
    Unlinks s s'' where
  items := fun n q hmem => h.items n q (h'.items n q hmem)
  nodes := by
    intro n nd'' hnd''
    obtain ⟨nd', hnd', hp'⟩ := h'.nodes n nd'' hnd''
    obtain ⟨nd, hnd, hp⟩ := h.nodes n nd' hnd'
    exact ⟨nd, hnd, hp'.trans hp⟩
  refs := by
    intro r rf'' hrf''
    obtain ⟨rf', hrf', hp'⟩ := h'.refs r rf'' hrf''
    obtain ⟨rf, hrf, hp⟩ := h.refs r rf' hrf'
    exact ⟨rf, hrf, hp'.trans hp⟩

theorem TablesKept.unlinks (h : TablesKept L s s') : Unlinks s s' where
  items := fun n q hmem => (h.nodeItems n q hmem).1
  nodes := fun n nd' hnd' => ⟨nd', h.nodes ▸ hnd', rfl⟩
  refs := by
    intro r rf' hrf'
    obtain ⟨rf, hrf, hbare⟩ := map_eq_some_transfer (h.refs r) hrf'
    have hp : rf.bare.proc = rf'.bare.proc := congrArg Ref.proc hbare
    exact ⟨rf, hrf, hp.symm⟩

theorem releaseWork_idle (h : Grounded L s) {w : Work} (hw : ∀ n, w ≠ .node n)
    (hrun : releaseWork s w = .ok s') : Idle L s s' := by
  cases w with
  | transaction t =>
      simp only [releaseWork, except_bind_eq_ok, deref_eq_ok] at hrun
      obtain ⟨tx, htx, hrun⟩ := hrun
      split at hrun
      · cases hrun
      · simp only [except_bind_eq_ok] at hrun
        obtain ⟨b, hb, hrun⟩ := hrun
        split at hrun
        · exact binderSendFailedReply_idle h hrun
        · exact freeTxn_idle h hrun
  | transactionComplete t =>
      cases hrun
      exact Idle.refl h
  | death i =>
      simp only [releaseWork, except_bind_eq_ok, deref_eq_ok] at hrun
      obtain ⟨de, hde, hrun⟩ := hrun
      split at hrun
      · simp only [except_pure_eq_ok] at hrun
        exact hrun ▸ h.idle_setDeath i _
      · simp only [except_pure_eq_ok] at hrun
        subst hrun
        exact h.idle_misc le_rfl fun _ _ hmem => hmem
  | node n => exact absurd rfl (hw n)

theorem releaseWork_walk (hs : Coherent L d s) {w : Work}
    (hw : ∀ n, w = .node n → ∀ q, .node n ∉ s.todo q) (hrun : releaseWork s w = .ok s') :
    Walk L Event.isQuiet D s s' ∧ Unlinks s s' := by
  have hidle : (∀ n, w ≠ .node n) → Walk L Event.isQuiet D s s' ∧ Unlinks s s' := by
    intro hw
    have h := releaseWork_idle hs.grounded hw hrun
    exact ⟨Walk.idle h rfl, h.toTablesKept.unlinks⟩
  cases w with
  | transaction t => exact hidle (by simp)
  | transactionComplete t => exact hidle (by simp)
  | death i => exact hidle (by simp)
  | node n =>
      simp only [releaseWork, except_bind_eq_ok, deref_eq_ok, except_pure_eq_ok] at hrun
      obtain ⟨nd, hnd, rfl⟩ := hrun
      have hnone := hw n rfl
      refine ⟨Walk.quiet (RefsOnly.setNode hnd rfl) ?_ rfl, fun _ _ hmem => hmem, ?_,
        fun r rf hrf => ⟨rf, hrf, rfl⟩⟩
      · exact Change.note hnd
          ⟨fun _ _ _ => Iff.rfl, fun _ q hmem => absurd hmem (hnone q)⟩ (fun _ hmem => hmem) rfl
      · intro m md' hmd'
        by_cases hmn : m = n
        · subst hmn
          simp only [State.setNode, Function.update_self, Option.some.injEq] at hmd'
          exact ⟨nd, hnd, hmd' ▸ rfl⟩
        · simp only [State.setNode, Function.update_of_ne hmn] at hmd'
          exact ⟨md', hmd', rfl⟩

theorem releaseWorks_idle (h : Grounded L s) {ws : List Work} (hws : ∀ n, .node n ∉ ws)
    (hrun : releaseWorks s ws = .ok s') : Idle L s s' := by
  induction ws generalizing s with
  | nil =>
      obtain rfl : s = s' := by simpa [releaseWorks] using hrun
      exact Idle.refl h
  | cons w ws ih =>
      simp only [releaseWorks, except_bind_eq_ok] at hrun
      obtain ⟨s₁, hw, hrun⟩ := hrun
      have h₁ := releaseWork_idle h
        (fun n hn => hws n (List.mem_cons.mpr (.inl hn.symm))) hw
      exact h₁.trans (ih h₁.grounded (fun n hn => hws n (List.mem_cons_of_mem _ hn)) hrun)

theorem releaseWorks_walk (hs : Coherent L d s) {ws : List Work}
    (hws : ∀ n, .node n ∈ ws → ∀ q, .node n ∉ s.todo q) (hrun : releaseWorks s ws = .ok s') :
    Walk L Event.isQuiet D s s' ∧ Unlinks s s' := by
  induction ws generalizing s with
  | nil =>
      obtain rfl : s = s' := by simpa [releaseWorks] using hrun
      exact ⟨Walk.refl s, (Idle.refl hs.grounded).toTablesKept.unlinks⟩
  | cons w ws ih =>
      simp only [releaseWorks, except_bind_eq_ok] at hrun
      obtain ⟨s₁, hw, hrun⟩ := hrun
      obtain ⟨h₁, hsub₁⟩ := releaseWork_walk (D := D) hs
        (fun n hn => hws n (hn ▸ List.mem_cons_self ..)) hw
      obtain ⟨h₂, hsub₂⟩ := ih (h₁.coherent hs Event.isQuiet.stays)
        (fun n hn q hmem => hws n (List.mem_cons_of_mem _ hn) q (hsub₁.items n q hmem)) hrun
      exact ⟨h₁.trans h₂, hsub₁.trans hsub₂⟩

theorem binderReleaseWork_walk (hs : Coherent L d s) {q : Queue}
    (hrun : binderReleaseWork s q = .ok s') :
    Walk L Event.isQuiet D s s' ∧ Unlinks s s' ∧ ∀ n, .node n ∉ s'.todo q := by
  have h₁ : Idle L s (s.setTodo q []) := hs.grounded.idle_setTodo (by simp)
  have hempty : ∀ n, .node n ∉ (s.setTodo q []).todo q := by simp [State.setTodo]
  obtain ⟨h₂, hsub⟩ := releaseWorks_walk (D := D) (hs.idle h₁) (by
    intro n hn q' hmem
    by_cases hq : q' = q
    · exact hempty n (hq ▸ hmem)
    · -- linked on one list, the item is on no other
      obtain ⟨nd, -, hnd, hentry, -⟩ := hs.queues n q hn
      obtain ⟨nd', -, hnd', hentry', -⟩ := hs.queues n q' (h₁.nodeItems n q' hmem).1
      rw [hnd] at hnd'
      cases hnd'
      rw [hentry] at hentry'
      exact hq (Option.some.inj hentry').symm) hrun
  exact ⟨h₁.quiet.trans h₂,
    h₁.toTablesKept.unlinks.trans hsub, fun n hmem => hempty n (hsub.items n q hmem)⟩

/-! ### Threads that exit -/

theorem freeThreadWalk_idle (h : Grounded L s) {fuel : ℕ} {stack : Option TxnId}
    (hrun : freeThreadWalk fuel s th stack = .ok s') : Idle L s s' := by
  induction fuel generalizing s stack with
  | zero =>
      cases stack with
      | none =>
          obtain rfl : s = s' := by simpa [freeThreadWalk] using hrun
          exact Idle.refl h
      | some t => cases hrun
  | succ fuel ih =>
      cases stack with
      | none =>
          obtain rfl : s = s' := by simpa [freeThreadWalk] using hrun
          exact Idle.refl h
      | some t =>
          simp only [freeThreadWalk, except_bind_eq_ok, deref_eq_ok] at hrun
          obtain ⟨tx, htx, hrun⟩ := hrun
          split at hrun
          · simp only [except_bind_eq_ok] at hrun
            obtain ⟨s₁, hdetach, hrun⟩ := hrun
            have h₁ := detachBuffer_idle h hdetach
            have h₂ := h₁.trans (h₁.grounded.idle_setTxn t
              { tx with toProc := none, toThread := none, buffer := none })
            exact h₂.trans (ih h₂.grounded hrun)
          · split at hrun
            · have h₁ := h.idle_setTxn t { tx with fromThread := none }
              exact h₁.trans (ih h₁.grounded hrun)
            · cases hrun

theorem failOwed_idle (h : Grounded L s) {owed : Option TxnId}
    (hrun : failOwed s owed = .ok s') : Idle L s s' := by
  cases owed with
  | none =>
      obtain rfl : s = s' := by simpa [failOwed] using hrun
      exact Idle.refl h
  | some t => exact binderSendFailedReply_idle h hrun

theorem binderFreeThread_walk (hs : Coherent L d s)
    (hrun : binderFreeThread s p th = .ok s') : Walk L Event.isQuiet D s s' := by
  simp only [binderFreeThread, except_bind_eq_ok, deref_eq_ok, except_pure_eq_ok] at hrun
  obtain ⟨thr, hthr, owed, -, s₁, hwalk, s₂, howed, s₃, hrel, rfl⟩ := hrun
  have h₀ : Idle L s { s with
      threadsOf := Function.update s.threadsOf p ((s.threadsOf p).filter (· ≠ th)) } := by
    refine hs.grounded.idle_threads le_rfl (fun _ hne => absurd rfl hne)
      (fun _ _ hth => hs.threads_lt hth) (fun _ _ _ hth => ⟨_, hth, rfl⟩) fun q th' hth' => .inl ?_
    by_cases hq : q = p
    · subst hq
      rw [Function.update_self] at hth'
      exact List.mem_of_mem_filter hth'
    · rwa [Function.update_of_ne hq] at hth'
  have h₁ := h₀.trans (freeThreadWalk_idle h₀.grounded hwalk)
  have h₂ := h₁.trans (failOwed_idle h₁.grounded howed)
  obtain ⟨h₃, -, hnone⟩ := binderReleaseWork_walk (D := D) (hs.idle h₂) hrel
  have hs₃ := h₃.coherent (hs.idle h₂) Event.isQuiet.stays
  have h₄ : Idle L s₃ { s₃ with threads := Function.update s₃.threads th none } := by
    refine hs₃.grounded.idle_threads le_rfl ?_ ?_ ?_ fun _ _ => .inl
    · intro th' hne n hmem
      by_cases heq : th' = th
      · exact hnone n (heq ▸ hmem)
      · exact hne (Function.update_of_ne heq ..)
    · intro th' thr' hth'
      by_cases heq : th' = th
      · simp [heq] at hth'
      · rw [Function.update_of_ne heq] at hth'
        exact hs₃.threads_lt hth'
    · intro th' thr' _ hth'
      by_cases heq : th' = th
      · simp [heq] at hth'
      · rw [Function.update_of_ne heq] at hth'
        exact ⟨thr', hth', rfl⟩
  exact (h₂.quiet.trans h₃).trans h₄.quiet

theorem freeThreads_walk (hs : Coherent L d s) {ths : List ThreadId}
    (hrun : freeThreads p s ths = .ok s') : Walk L Event.isQuiet D s s' := by
  induction ths generalizing s with
  | nil =>
      obtain rfl : s = s' := by simpa [freeThreads] using hrun
      exact Walk.refl s
  | cons th ths ih =>
      simp only [freeThreads, except_bind_eq_ok] at hrun
      obtain ⟨s₁, hfree, hrun⟩ := hrun
      have h₁ := binderFreeThread_walk (D := D) hs hfree
      exact h₁.trans (ih (h₁.coherent hs Event.isQuiet.stays) hrun)

end Threads

/-! ### Processes that go away -/

def Event.departs (p : ProcId) : Event → Prop
  | .quiet => True
  | .area => True
  | .gone q => q = p
  | _ => False

/-- A piece of the driver that takes the process `p` apart: the books of the other
processes stay even. -/
def Departs (L : Layout) (p : ProcId) (s s' : State) : Prop :=
  ∃ δ, Moves L (Event.departs p) s s' δ ∧ ∀ c : Claim, c.proc ≠ p → δ c = 0

section Departs

variable {L : Layout} {s s' s'' : State} {p : ProcId}

theorem Event.departs.okFor {e : Event} (h : e.departs p) : e.okFor (some p) := by
  rintro q rfl
  exact congrArg some (Eq.symm h)

theorem Departs.trans (h : Departs L p s s') (h' : Departs L p s' s'') : Departs L p s s'' := by
  obtain ⟨δ, hm, hδ⟩ := h
  obtain ⟨δ', hm', hδ'⟩ := h'
  exact ⟨_, hm.trans hm', fun c hc => by rw [hδ c hc, hδ' c hc, add_zero]⟩

theorem Departs.coherent (h : Departs L p s s') (hs : Coherent L (some p) s) :
    Coherent L (some p) s' := by
  obtain ⟨_, ⟨es, hes, hev, -⟩, -⟩ := h
  exact hes.coherent hs fun e he => (hev e he).okFor

theorem Walk.departs (h : Walk L Event.isQuiet True s s') : Departs L p s s' := by
  refine ⟨fun _ => 0, h.moves.mono fun e he => ?_, fun _ _ => rfl⟩
  cases he
  trivial

theorem Idle.departs (h : Idle L s s') : Departs L p s s' :=
  Walk.departs (Walk.idle h rfl)

theorem Change.departs (h : Change L s (.gone p) s') (hc : s'.contents = s.contents) :
    Departs L p s s' :=
  ⟨_, Moves.single h rfl rfl rfl, fun c _ => by simp [State.claims, hc]⟩

end Departs

section Release

variable {L : Layout} {s s' : State} {p : ProcId}

theorem dropContextMgr_departs (hs : Coherent L (some p) s)
    (hrun : dropContextMgr s p = .ok s') : Departs L p s s' := by
  unfold dropContextMgr at hrun
  split at hrun
  · cases hrun
    exact (Idle.refl hs.grounded).departs
  · rename_i n hctx
    simp only [except_bind_eq_ok, deref_eq_ok, except_pure_eq_ok] at hrun
    obtain ⟨nd, hnd, rfl⟩ := hrun
    split
    · rename_i hproc
      exact (Change.dropManager hctx hnd hproc).departs rfl
    · exact (Idle.refl hs.grounded).departs

theorem notifyDeath_idle (h : Grounded L s) {rs : List RefId}
    (hrun : notifyDeath s rs = .ok s') : Idle L s s' := by
  induction rs generalizing s with
  | nil =>
      obtain rfl : s = s' := by simpa [notifyDeath] using hrun
      exact Idle.refl h
  | cons r rs ih =>
      simp only [notifyDeath, except_bind_eq_ok, deref_eq_ok] at hrun
      obtain ⟨rf, hrf, hrun⟩ := hrun
      split at hrun
      · exact ih h hrun
      · rename_i i hdeath
        simp only [except_bind_eq_ok, deref_eq_ok, bugOn_eq_ok] at hrun
        obtain ⟨de, hde, -, -, hrun⟩ := hrun
        have h₁ := h.idle_setDeath i
          { de with workType := .deadBinder, entry := some (.proc rf.proc) }
        have h₂ := h₁.trans (h₁.grounded.idle_listAddTail (.proc rf.proc) (w := .death i) (by simp))
        exact h₂.trans (ih h₂.grounded hrun)

theorem Idle.withNodesOf (h : Idle L s s') (ns : ProcId → List NodeId) :
    Idle L { s with nodesOf := ns } { s' with nodesOf := ns } where
  nextId := h.nextId
  nodes := h.nodes
  nodesOf := rfl
  refsByDesc := h.refsByDesc
  refsByNode := h.refsByNode
  deadNodes := h.deadNodes
  contextMgrNode := h.contextMgrNode
  refs := h.refs
  nodeItems := by
    intro n q hmem
    obtain ⟨hmem, hq⟩ := h.nodeItems n q hmem
    refine ⟨hmem, ?_⟩
    cases q <;> exact hq
  areas := h.areas
  threads_lt := h.threads_lt
  threadProcs := h.threadProcs
  threadsOf := h.threadsOf
  contents := h.contents

theorem binderNodeRelease_departs (hs : Coherent L (some p) s) {n : NodeId}
    (hn : n ∈ s.nodesOf p)
    (hrun : binderNodeRelease { s with
      nodesOf := Function.update s.nodesOf p ((s.nodesOf p).filter (· ≠ n)) } n = .ok s') :
    Departs L p s s' ∧
      s'.nodesOf = Function.update s.nodesOf p ((s.nodesOf p).filter (· ≠ n)) := by
  obtain ⟨nd, hnd, hproc⟩ := (hs.tables.nodesOf p n).mp hn
  simp only [binderNodeRelease, except_bind_eq_ok, deref_eq_ok] at hrun
  obtain ⟨nd', hnd', s₂, hrel, nd₂, hnd₂, hrun⟩ := hrun
  obtain rfl : nd = nd' := by simpa [hnd] using hnd'
  have hun : ∀ ns : ProcId → List NodeId, unlinkNode { s with nodesOf := ns } n nd =
      { unlinkNode s n nd with nodesOf := ns } := by
    intro ns
    unfold unlinkNode
    cases nd.entry <;> rfl
  rw [hun] at hrel
  -- the node is taken off its list, and then its asynchronous work is dropped
  obtain ⟨hch, hr, hnone⟩ := unlinkNode_change (L := L) hs.queues hnd
  have h₁ : Departs L p s (unlinkNode s n nd) := Walk.departs (Walk.quiet hr hch rfl)
  have hs₁ := h₁.coherent hs
  have hasync : ∀ m, .node m ∉ (unlinkNode s n nd).todo (.async n) := by
    intro m hmem
    obtain ⟨_, _, _, _, _, hq⟩ := hs₁.queues m _ hmem
    cases hq
  have hs₁' : Grounded L { unlinkNode s n nd with
      nodesOf := Function.update s.nodesOf p ((s.nodesOf p).filter (· ≠ n)) } :=
    ⟨hs₁.areas, hs₁.threads_lt⟩
  have hwork := (hs₁'.idle_setTodo (q := .async n) (by simp)).trans
    (releaseWorks_idle (hs₁'.idle_setTodo (by simp)).grounded hasync hrel)
  have hnodesOf : s₂.nodesOf =
      Function.update s.nodesOf p ((s.nodesOf p).filter (· ≠ n)) := hwork.nodesOf
  have h₂ : Departs L p s { s₂ with nodesOf := s.nodesOf } := by
    refine h₁.trans (Idle.departs ?_)
    exact (hun s.nodesOf).symm ▸ hwork.withNodesOf s.nodesOf
  have hs₂ := h₂.coherent hs
  have hproc₂ : nd₂.proc = some p := by
    have hmem : n ∈ ({ s₂ with nodesOf := s.nodesOf } : State).nodesOf p := hn
    obtain ⟨nd₃, hnd₃, hproc₃⟩ := (hs₂.tables.nodesOf p n).mp hmem
    obtain rfl : nd₂ = nd₃ := by simpa [hnd₂] using hnd₃
    exact hproc₃
  have horphan : Change L { s₂ with nodesOf := s.nodesOf } (.gone p)
      (orphan { s₂ with nodesOf := s.nodesOf } p n nd₂) :=
    Change.orphan hnd₂ hproc₂ fun q hmem => hnone q (hwork.nodeItems n q hmem).1
  have h₃ := h₂.trans (horphan.departs (by unfold orphan; split <;> rfl))
  unfold orphan at h₃
  simp only [← hnodesOf] at h₃
  split at hrun
  · rename_i hrefs
    simp only [except_pure_eq_ok] at hrun
    subst hrun
    simp only [hrefs, ↓reduceIte] at h₃
    exact ⟨h₃, hnodesOf⟩
  · rename_i hrefs
    simp only [hrefs, Bool.false_eq_true, ↓reduceIte] at h₃
    have h₄ := notifyDeath_idle (h₃.coherent hs).grounded hrun
    exact ⟨h₃.trans h₄.departs, h₄.nodesOf.trans hnodesOf⟩

theorem releaseNodes_departs (hs : Coherent L (some p) s) {ns : List NodeId} (hnodup : ns.Nodup)
    (hns : ∀ n, n ∈ s.nodesOf p ↔ n ∈ ns) (hrun : releaseNodes p s ns = .ok s') :
    Departs L p s s' ∧ s'.nodesOf p = [] := by
  induction ns generalizing s with
  | nil =>
      obtain rfl : s = s' := by simpa [releaseNodes] using hrun
      exact ⟨(Idle.refl hs.grounded).departs, List.eq_nil_iff_forall_not_mem.mpr (by simp [hns])⟩
  | cons n ns ih =>
      simp only [releaseNodes, except_bind_eq_ok] at hrun
      obtain ⟨s₁, hrel, hrun⟩ := hrun
      obtain ⟨h₁, hnodesOf⟩ := binderNodeRelease_departs hs
        ((hns n).mpr (List.mem_cons_self ..)) hrel
      obtain ⟨hn, hnodup⟩ := List.nodup_cons.mp hnodup
      obtain ⟨h₂, hnil⟩ := ih (h₁.coherent hs) hnodup (by
        intro m
        rw [hnodesOf, Function.update_self, List.mem_filter, hns, List.mem_cons]
        constructor
        · rintro ⟨rfl | hm, hne⟩
          · simp at hne
          · exact hm
        · intro hm
          refine ⟨.inr hm, ?_⟩
          simp only [ne_eq, decide_eq_true_eq]
          rintro rfl
          exact hn hm) hrun
      exact ⟨h₁.trans h₂, hnil⟩

theorem deleteRefs_departs (hs : Coherent L (some p) s) {rs : List RefId}
    (hrs : ∀ r rf, s.refs r = some rf → (rf.proc = p ↔ r ∈ rs))
    (hrun : deleteRefs s rs = .ok s') :
    Departs L p s s' ∧ (∀ r rf, s'.refs r = some rf → rf.proc ≠ p) ∧
      ∀ q, (s'.nodesOf q).Sublist (s.nodesOf q) := by
  induction rs generalizing s with
  | nil =>
      obtain rfl : s = s' := by simpa [deleteRefs] using hrun
      exact ⟨(Idle.refl hs.grounded).departs, fun r rf hrf => by simp [hrs r rf hrf],
        fun _ => List.Sublist.refl _⟩
  | cons r rs ih =>
      simp only [deleteRefs, except_bind_eq_ok] at hrun
      obtain ⟨s₁, hdel, hrun⟩ := hrun
      obtain ⟨rf, nd, hrf, hnd, hform⟩ := binderDeleteRef_eq hdel
      obtain rfl : rf.proc = p := (hrs r rf hrf).mpr (List.mem_cons_self ..)
      have h₁ : Departs L rf.proc s s₁ :=
        (Change.deleteRef hrf hdel).departs (RefsOnly.deleteRef hdel).contents
      obtain ⟨x, td, ns, dead, deaths, rfl, hx, -⟩ := hform
      have hsub : ∀ q, (ns q).Sublist (s.nodesOf q) := by
        rcases hx with ⟨e, -, -, rfl, -⟩ | ⟨-, -, hsub, -⟩
        · exact fun _ => List.Sublist.refl _
        · exact hsub
      obtain ⟨h₂, hnone, hsub₂⟩ := ih (h₁.coherent hs) (by
        intro r' rf' hrf'
        by_cases hr : r' = r
        · simp [hr] at hrf'
        · simp only [Function.update_of_ne hr] at hrf'
          rw [hrs r' rf' hrf', List.mem_cons, or_iff_right hr]) hrun
      exact ⟨h₁.trans h₂, hnone, fun q => (hsub₂ q).trans (hsub q)⟩

theorem freeBuffers_departs (hs : Coherent L (some p) s) {as : List ℕ}
    (hrun : freeBuffers L p s as = .ok s') : Departs L p s s' ∧ TablesKept L s s' := by
  induction as generalizing s with
  | nil =>
      obtain rfl : s = s' := by simpa [freeBuffers] using hrun
      exact ⟨(Idle.refl hs.grounded).departs, (Idle.refl hs.grounded).toTablesKept⟩
  | cons a as ih =>
      simp only [freeBuffers, except_bind_eq_ok] at hrun
      obtain ⟨b, hb, s₁, hdetach, ar, hfree, hrun⟩ := hrun
      have h₁ := detachTransaction_idle hs.grounded hdetach
      have hs₁ := hs.idle h₁
      obtain ⟨b₁, hb₁, -⟩ := deref_of_contents (hs₁.areas p) h₁.contents hb
      have h₂ : Departs L p s₁ (s₁.setArea p ar) := by
        refine ⟨_, freeBuf_moves _ hs₁ hb₁ hfree trivial, fun c hc => ?_⟩
        have : (contentClaims p b₁.content).count c = 0 :=
          List.count_eq_zero.mpr fun hmem => hc (bufferClaims_proc hmem)
        rw [this]
        rfl
      have hk : TablesKept L s₁ (s₁.setArea p ar) :=
        TablesKept.setArea hs₁.grounded (contents_freeBuf (hs₁.areas p) hb₁ hfree).1
      obtain ⟨h₃, hk₃⟩ := ih (h₂.coherent hs₁) hrun
      exact ⟨(h₁.departs.trans h₂).trans h₃, (h₁.toTablesKept.trans hk).trans hk₃⟩

theorem Coherent.exempt (h : Coherent L none s) : Coherent L (some p) s :=
  ⟨h.tables, h.queues, fun hb hn _ => h.targets hb hn (by simp), h.areas, h.threads_lt,
    h.threadsOf⟩

theorem Coherent.unmapped (h : Coherent L (some p) s) (harea : s.area p = Area.unmapped) :
    Coherent L none s := by
  refine ⟨h.tables, h.queues, fun {q b n} hb hn _ => ?_, h.areas, h.threads_lt, h.threadsOf⟩
  by_cases hq : q = p
  · subst hq
    rw [State.HasBuffer, harea] at hb
    simp [Area.unmapped] at hb
  · exact h.targets hb hn (by simpa using hq)

/-- Nothing is left of the process. -/
structure Gone (p : ProcId) (s : State) : Prop where
  area : s.area p = Area.unmapped
  nodes : ∀ n nd, s.nodes n = some nd → nd.proc ≠ some p
  refs : ∀ r rf, s.refs r = some rf → rf.proc ≠ p

theorem binderDeferredRelease_departs (hs : Coherent L none s)
    (hrun : binderDeferredRelease L s p = .ok s') :
    Departs L p s s' ∧ Coherent L none s' ∧ Gone p s' := by
  simp only [binderDeferredRelease, except_bind_eq_ok, bugOn_eq_ok, except_pure_eq_ok] at hrun
  obtain ⟨-, -, -, -, s₁, hctx, s₂, hthreads, s₃, hnodes, s₄, hrefs, s₅, hwork, s₆, hdeaths, s₇,
    hbufs, rfl⟩ := hrun
  have h₁ := dropContextMgr_departs hs.exempt hctx
  have h₂ := h₁.trans (Walk.departs (freeThreads_walk (h₁.coherent hs.exempt) hthreads))
  have hs₂ := h₂.coherent hs.exempt
  obtain ⟨h₃, hnil⟩ := releaseNodes_departs hs₂ (hs₂.tables.nodesOf_nodup p) (fun _ => Iff.rfl)
    hnodes
  have hs₃ := h₃.coherent hs₂
  obtain ⟨h₄, hnone, hsub⟩ := deleteRefs_departs hs₃ (fun r rf hrf => by
    rw [hs₃.tables.byDesc]
    simp [hrf]) hrefs
  have hs₄ := h₄.coherent hs₃
  obtain ⟨w₅, hun₅, -⟩ := binderReleaseWork_walk (D := True) hs₄ hwork
  have hs₅ := w₅.coherent hs₄ Event.isQuiet.stays
  obtain ⟨w₆, hun₆, -⟩ := binderReleaseWork_walk (D := True) hs₅ hdeaths
  have hs₆ := w₆.coherent hs₅ Event.isQuiet.stays
  obtain ⟨h₇, hk₇⟩ := freeBuffers_departs hs₆ hbufs
  have hs₇ := h₇.coherent hs₆
  have hk₈ : TablesKept L s₇ { s₇.setArea p Area.unmapped with
      procs := Function.update s₇.procs p none } :=
    (TablesKept.setArea hs₇.grounded (.inl rfl)).trans
      ((TablesKept.setArea (p := p) hs₇.grounded (.inl rfl)).grounded.idle_misc le_rfl
        fun _ _ hmem => hmem).toTablesKept
  have h₈ : Departs L p s₇ { s₇.setArea p Area.unmapped with
      procs := Function.update s₇.procs p none } := by
    refine ⟨_, Moves.single (Change.area hk₈ ?_) trivial rfl rfl, fun c hc => ?_⟩
    · intro q b n hb hn
      by_cases hq : q = p
      · subst hq
        simp [State.HasBuffer, State.setArea, Area.unmapped] at hb
      · simp only [State.HasBuffer, State.setArea, Function.update_of_ne hq] at hb
        exact .inl ⟨b, hb, hn⟩
    · simp [State.claims, State.contents, State.setArea, hc]
  have hun := ((hun₅.trans hun₆).trans hk₇.unlinks).trans hk₈.unlinks
  have harea : ({ s₇.setArea p Area.unmapped with
      procs := Function.update s₇.procs p none } : State).area p = Area.unmapped :=
    Function.update_self ..
  refine ⟨(((((h₂.trans h₃).trans h₄).trans w₅.departs).trans w₆.departs).trans h₇).trans h₈,
    (h₈.coherent hs₇).unmapped harea, harea, ?_, ?_⟩
  · intro n nd hnd hproc
    obtain ⟨nd₄, hnd₄, hp₄⟩ := hun.nodes n nd hnd
    have hmem : n ∈ s₄.nodesOf p := (hs₄.tables.nodesOf p n).mpr ⟨nd₄, hnd₄, hp₄.symm.trans hproc⟩
    have := (hsub p).subset hmem
    simp [hnil] at this
  · intro r rf hrf hproc
    obtain ⟨rf₄, hrf₄, hp₄⟩ := hun.refs r rf hrf
    exact hnone r rf₄ hrf₄ (hp₄.symm.trans hproc)

end Release

end Driver

end BinderForLinux
