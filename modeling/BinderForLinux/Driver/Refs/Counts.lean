import BinderForLinux.Driver.Refs.Coherent

/-!
# Taking and giving back counts

The operations on counts keep a coherent state coherent. Each has one lemma that
says what it leaves: a node `nd'` in the place of `nd`, a reference `rf'` in the
place of `rf`, or neither.
-/

namespace BinderForLinux

namespace Driver

open Library

section Counts

variable {L : Layout} {d : Option ProcId} {s s' : State} {n : NodeId} {nd nd' : Node}
  {new : Queue → Prop}

theorem nodeKept_refl (hnd : s.nodes n = some nd) : NodeKept s s n nd nd new := by
  refine ⟨nd.entry, s.todo, ?_, NodeMoved.refl s n _, .inl (ItemStays.refl s n _)⟩
  rw [Function.update_eq_self_iff.mpr hnd.symm]

theorem NodeKept.of_setRef {s₁ : State} {r : RefId} {rf : Ref}
    (h : NodeKept (s.setRef r rf) s₁ n nd nd' new) :
    ∃ s₀, NodeKept s s₀ n nd nd' new ∧ s₁ = s₀.setRef r rf := by
  obtain ⟨e, td, rfl, hmoved, he⟩ := h
  exact ⟨_, ⟨e, td, rfl, ⟨hmoved.others, hmoved.own⟩, he⟩, rfl⟩

@[simp] theorem Node.inc_entries (nd : Node) (strong internal : Bool) :
    (nd.inc strong internal).entries = nd.entries := by
  cases strong <;> cases internal <;> rfl

@[simp] theorem Node.dec_entries (nd : Node) (strong internal : Bool) :
    (nd.dec strong internal).entries = nd.entries := by
  cases strong <;> cases internal <;> rfl

@[simp] theorem Node.inc_ptr (nd : Node) (strong internal : Bool) :
    (nd.inc strong internal).ptr = nd.ptr := by
  cases strong <;> cases internal <;> rfl

@[simp] theorem Node.dec_ptr (nd : Node) (strong internal : Bool) :
    (nd.dec strong internal).ptr = nd.ptr := by
  cases strong <;> cases internal <;> rfl

@[simp] theorem Ref.inc_entries (rf : Ref) (strong : Bool) :
    (rf.inc strong).entries = rf.entries := by
  cases strong <;> rfl

@[simp] theorem Ref.dec_entries (rf : Ref) (strong : Bool) :
    (rf.dec strong).entries = rf.entries := by
  cases strong <;> rfl

/-! ### Nodes -/

/-- A node with an owner that changes in all but what it is entered under. -/
theorem Coherent.nodeKept (h : Coherent L d s) (hnd : s.nodes n = some nd)
    (hkept : NodeKept s s' n nd nd' new) (hentries : nd'.entries = nd.entries)
    (hstrong : nd'.internalStrongRefs = nd.internalStrongRefs)
    (hdead : nd.proc = none → nd'.localStrongRefs = 0 ∧ nd'.localWeakRefs = 0)
    (hnew : ∀ q, new q → ∃ p, nd.proc = some p ∧ s.queueOwner q = some p) : Coherent L d s' := by
  have hproc : nd'.proc = nd.proc := congrArg Prod.fst hentries
  have hptr : nd'.ptr = nd.ptr := congrArg (fun x => x.2.2.1) hentries
  have hcookie : nd'.cookie = nd.cookie := congrArg (fun x => x.2.2.2) hentries
  exact (RefsOnly.of_nodeKept hnd hkept hproc hptr hcookie).coherent h
    (h.tables.nodeKept hnd hkept hentries hstrong hdead) (h.queues.nodeKept hnd hkept hproc hnew)

theorem Coherent.nodeFreed (h : Coherent L d s) (hnd : s.nodes n = some nd)
    (hfreed : NodeFreed s s' n nd') (hproc : nd'.proc = nd.proc) (hentry : nd'.entry = nd.entry)
    (hrefs : nd.refs = []) : Coherent L d s' :=
  (RefsOnly.of_nodeFreed hfreed).coherent h (h.tables.nodeFreed hnd hfreed hproc hrefs)
    (h.queues.nodeFreed hnd hentry hfreed)

theorem Coherent.setNode (h : Coherent L d s) (hnd : s.nodes n = some nd)
    (hentry : nd'.entry = nd.entry) (hentries : nd'.entries = nd.entries)
    (hstrong : nd'.internalStrongRefs = nd.internalStrongRefs)
    (hdead : nd.proc = none → nd'.localStrongRefs = 0 ∧ nd'.localWeakRefs = 0) :
    Coherent L d (s.setNode n nd') :=
  have hkept : NodeKept s (s.setNode n nd') n nd nd' fun _ => False := nodeKept_setNode hentry
  h.nodeKept hnd hkept hentries hstrong hdead fun _ hf => hf.elim

theorem Coherent.decNode (h : Coherent L d s) (hnd : s.nodes n = some nd) {p : ProcId}
    (hproc : nd.proc = some p) (strong : Bool) : Coherent L d (decNode s n nd strong false) := by
  rcases decNode_eq (s := s) (n := n) rfl with
    ⟨-, hkept⟩ | ⟨hfree, hfreed⟩
  · refine h.nodeKept hnd hkept (by simp) ?_ (by simp [hproc]) ?_
    · cases strong <;> rfl
    · rintro q ⟨p', hp', rfl⟩
      exact ⟨p', hp', rfl⟩
  · exact h.nodeFreed hnd hfreed (by simp) (by simp) (by simpa using hfree.2.1)

/-! ### References -/

theorem incRef_spec {r : RefId} {strong ok : Bool} {target : Option Queue}
    (h : binderIncRef s r strong target = .ok (ok, s')) {rf : Ref} (hrf : s.refs r = some rf)
    (hnd : s.nodes rf.node = some nd) :
    ∃ s₀, NodeKept s s₀ rf.node nd
        (if ok = true ∧ rf.count strong = 0 then nd.inc strong true else nd)
        (fun q => target = some q) ∧
      s' = s₀.setRef r (if ok then rf.inc strong else rf) ∧
      (ok = false → rf.count strong = 0 ∧ target = none ∧
        (incRefused s rf.node nd strong true target ∨
          strong = false ∧ nd.hasWeakRef = false ∧ nd.entry = none)) := by
  obtain ⟨rf', hrf', hcases⟩ := binderIncRef_eq h
  obtain rfl : rf = rf' := by simpa [hrf] using hrf'
  rcases hcases with ⟨hcount, rfl, rfl⟩ | ⟨nd', hcount, hnd', hcase⟩
  · refine ⟨s, ?_, by simp, by simp [hcount]⟩
    simpa [hcount] using nodeKept_refl hnd
  · obtain rfl : nd = nd' := by simpa [hnd] using hnd'
    rcases hcase with ⟨rfl, hno, s₁, hkept, rfl⟩ | ⟨rfl, rfl, hwhy, hkept⟩
    · exact ⟨s₁, by simpa [hcount] using hkept, by simp, by simp⟩
    · refine ⟨s', ?_, ?_, by simp [hcount, hwhy]⟩
      · obtain ⟨e, td, rfl, hmoved, he⟩ := hkept
        exact ⟨e, td, by simp, hmoved, .inl (by simpa using he)⟩
      · obtain ⟨e, td, rfl, -, -⟩ := hkept
        have hsame : Function.update s.refs r (some rf) = s.refs :=
          Function.update_eq_self_iff.mpr hrf.symm
        simp [State.setRef, hsame]

/-- The node of a reference after `binder_dec_ref` counted down on it. -/
def Node.lost (nd : Node) (rf : Ref) (strong : Bool) : Node :=
  if strong = true ∧ rf.strong = 1 then nd.dec true true else nd

theorem decRef_spec (hc : RefTables s) {r : RefId} {strong : Bool}
    (h : binderDecRef s r strong = .ok s') {rf : Ref} (hrf : s.refs r = some rf)
    (hnd : s.nodes rf.node = some nd) :
    (rf.count strong = 0 ∧ s' = s) ∨
      (rf.count strong ≠ 0 ∧ ∃ s₀,
        NodeKept s s₀ rf.node nd (nd.lost rf strong)
          (fun q => ∃ p, nd.proc = some p ∧ q = .proc p) ∧
        ((((rf.dec strong).strong ≠ 0 ∨ (rf.dec strong).weak ≠ 0) ∧
            s' = s₀.setRef r (rf.dec strong)) ∨
          ((rf.dec strong).strong = 0 ∧ (rf.dec strong).weak = 0 ∧
            binderDeleteRef (s₀.setRef r (rf.dec strong)) r = .ok s'))) := by
  obtain ⟨rf', hrf', hcases⟩ := binderDecRef_eq h
  obtain rfl : rf = rf' := by simpa [hrf] using hrf'
  rcases hcases with hzero | ⟨hcount, s₁, hgive, hrest⟩
  · exact .inl hzero
  · refine .inr ⟨hcount, ?_⟩
    have hkept : ∃ s₀, NodeKept s s₀ rf.node nd (nd.lost rf strong)
        (fun q => ∃ p, nd.proc = some p ∧ q = .proc p) ∧ s₁ = s₀.setRef r (rf.dec strong) := by
      by_cases hlast : strong = true ∧ rf.strong = 1
      · obtain ⟨rfl, hone⟩ := hlast
        have hnode : (rf.dec true).node = rf.node := rfl
        simp only [giveLast, Ref.dec, hone, binderDecNode, except_bind_eq_ok, deref_eq_ok,
          except_pure_eq_ok, State.setRef, ↓reduceIte, Bool.true_and, Nat.sub_self,
          decide_true] at hgive
        obtain ⟨nd₁, hnd₁, hdec⟩ := hgive
        obtain rfl : nd = nd₁ := by simpa [hnd] using hnd₁
        rcases decNode_eq hdec with ⟨-, hkept⟩ | ⟨hfree, -⟩
        · have hlost : nd.lost rf true = nd.dec true true := by simp [Node.lost, hone]
          rw [hlost]
          refine NodeKept.of_setRef (s := s) ?_
          simpa [State.setRef, Ref.dec, hone] using hkept
        · -- the node still lists the reference
          have hmem : r ∈ nd.refs := (hc.mem_refs hnd r).mpr ⟨rf, hrf, rfl⟩
          have hnil : nd.refs = [] := by simpa using hfree.2.1
          rw [hnil] at hmem
          cases hmem
      · have hlost : nd.lost rf strong = nd := by simp [Node.lost, hlast]
        have hs₁ : s₁ = s.setRef r (rf.dec strong) := by
          have hno : ¬ (strong = true ∧ (rf.dec strong).strong = 0) := by
            rintro ⟨rfl, hz⟩
            simp [Ref.dec, Ref.count] at hz hcount
            exact hlast ⟨rfl, by omega⟩
          simpa [giveLast, hno] using hgive.symm
        exact ⟨s, by rw [hlost]; exact nodeKept_refl hnd, hs₁⟩
    obtain ⟨s₀, hkept, rfl⟩ := hkept
    exact ⟨s₀, hkept, hrest⟩

theorem Coherent.countRef (h : Coherent L d s) {r : RefId} {rf rf' : Ref}
    (hrf : s.refs r = some rf) (hnd : s.nodes rf.node = some nd)
    (hkept : NodeKept s s' rf.node nd nd' new) (hentries : nd'.entries = nd.entries)
    (hrf' : rf'.entries = rf.entries)
    (hstrong : nd'.internalStrongRefs =
      nd.internalStrongRefs - (if rf.strong ≠ 0 then 1 else 0) + (if rf'.strong ≠ 0 then 1 else 0))
    (hlocal : nd'.localStrongRefs = nd.localStrongRefs ∧ nd'.localWeakRefs = nd.localWeakRefs)
    (hnew : ∀ q, new q → ∃ p, nd.proc = some p ∧ s.queueOwner q = some p) :
    Coherent L d (s'.setRef r rf') := by
  have hproc : nd'.proc = nd.proc := congrArg Prod.fst hentries
  have hptr : nd'.ptr = nd.ptr := congrArg (fun x => x.2.2.1) hentries
  have hcookie : nd'.cookie = nd.cookie := congrArg (fun x => x.2.2.2) hentries
  refine ((RefsOnly.of_nodeKept hnd hkept hproc hptr hcookie).trans
    (RefsOnly.setRef s' r rf')).coherent h ?_ ?_
  · refine h.tables.countRef hrf hnd hkept hentries hrf' hstrong fun hp => ?_
    rw [hlocal.1, hlocal.2]
    exact (h.tables.dead_refs hnd hp).2
  · have hq : NodeQueues s' := h.queues.nodeKept hnd hkept hproc hnew
    exact hq

theorem Coherent.incRef (h : Coherent L d s) {r : RefId} {rf : Ref} {strong ok : Bool}
    {target : Option Queue} (hinc : binderIncRef s r strong target = .ok (ok, s'))
    (hrf : s.refs r = some rf) (hnd : s.nodes rf.node = some nd)
    (hnew : ∀ q, target = some q → ∃ p, nd.proc = some p ∧ s.queueOwner q = some p) :
    Coherent L d s' := by
  obtain ⟨s₀, hkept, rfl, -⟩ := incRef_spec hinc hrf hnd
  refine h.countRef hrf hnd hkept (by split <;> simp) (by split <;> simp) ?_ ?_ hnew
  · cases ok <;> cases strong <;> simp [Ref.inc, Ref.count, Node.inc]
    split <;> simp
  · split
    · cases strong <;> exact ⟨rfl, rfl⟩
    · exact ⟨rfl, rfl⟩

theorem Coherent.deleteRef (h : Coherent L d s) {r : RefId}
    (hdel : binderDeleteRef s r = .ok s') : Coherent L d s' := by
  obtain ⟨rf, nd, hrf, hnd, hdel⟩ := binderDeleteRef_eq hdel
  exact (RefsOnly.of_refDeleted hnd hdel).coherent h (h.tables.refDeleted hrf hnd hdel)
    (h.queues.refDeleted hnd hdel)

theorem Coherent.decRef (h : Coherent L d s) {r : RefId} {rf : Ref} {strong : Bool}
    (hdec : binderDecRef s r strong = .ok s') (hrf : s.refs r = some rf) : Coherent L d s' := by
  obtain ⟨nd, hnd⟩ := h.tables.ref_node hrf
  rcases decRef_spec h.tables hdec hrf hnd with ⟨-, rfl⟩ | ⟨hcount, s₀, hkept, hrest⟩
  · exact h
  · have hmid : Coherent L d (s₀.setRef r (rf.dec strong)) := by
      refine h.countRef hrf hnd hkept (by unfold Node.lost; split <;> simp) (by simp) ?_ ?_ ?_
      · cases strong with
        | false => simp [Node.lost, Ref.dec]
        | true =>
            simp only [Ref.count, ↓reduceIte] at hcount
            by_cases hone : rf.strong = 1
            · simp [Node.lost, Node.dec, Ref.dec, hone]
            · have hne : rf.strong - 1 ≠ 0 := by omega
              simp [Node.lost, Ref.dec, hone, hcount, hne]
      · unfold Node.lost
        split
        · exact ⟨rfl, rfl⟩
        · exact ⟨rfl, rfl⟩
      · rintro q ⟨p, hp, rfl⟩
        exact ⟨p, hp, rfl⟩
    rcases hrest with ⟨-, rfl⟩ | ⟨-, -, hdel⟩
    · exact hmid
    · exact hmid.deleteRef hdel

end Counts

end Driver

end BinderForLinux
