import BinderForLinux.Driver.Refs

/-!
# The reference operations in closed form

Each operation on nodes and references is shown to be one record update of the
state: which fields it writes, and what it writes there. The later modules read
an invariant off these forms and never unfold the operations themselves. What
happens to the work item of a node is summed up in `NodeMoved`.
-/

namespace BinderForLinux

namespace Driver

open Library

/-- The work item of `n`, linked as `old` says, is now linked as `e` says in the
lists `td`; all other items are where they were. -/
structure NodeMoved (s : State) (n : NodeId) (old e : Option Queue)
    (td : Queue → List Work) : Prop where
  others : ∀ q w, w ≠ .node n → (w ∈ td q ↔ w ∈ s.todo q)
  own : (∀ q, .node n ∈ s.todo q → old = some q) → ∀ q, .node n ∈ td q → e = some q

theorem NodeMoved.refl (s : State) (n : NodeId) (e : Option Queue) :
    NodeMoved s n e e s.todo :=
  ⟨fun _ _ _ => Iff.rfl, fun h => h⟩

/-- The work item of `n` is still linked as `old` says, on no list that it was not
on before. -/
def ItemStays (s : State) (n : NodeId) (old e : Option Queue) (td : Queue → List Work) : Prop :=
  e = old ∧ ∀ q, .node n ∈ td q → .node n ∈ s.todo q

theorem ItemStays.refl (s : State) (n : NodeId) (e : Option Queue) :
    ItemStays s n e e s.todo :=
  ⟨rfl, fun _ h => h⟩

/-- The node `nd` at `n` has become `nd'`, with its work item where it was or on
one of the lists `new`. Nothing else changed. -/
def NodeKept (s s' : State) (n : NodeId) (nd nd' : Node) (new : Queue → Prop) : Prop :=
  ∃ e td, s' = { s with
      nodes := Function.update s.nodes n (some { nd' with entry := e })
      todo := td } ∧
    NodeMoved s n nd.entry e td ∧ (ItemStays s n nd.entry e td ∨ ∃ q, new q ∧ e = some q)

/-- The node `nd` at `n` is gone from its tree or from the dead nodes, and its
work item from its list. -/
def NodeFreed (s s' : State) (n : NodeId) (nd : Node) : Prop :=
  ∃ td ns dead, s' = { s with
      nodes := Function.update s.nodes n none
      todo := td
      nodesOf := ns
      deadNodes := dead } ∧
    NodeMoved s n nd.entry none td ∧
    (∀ p, (ns p).Sublist (s.nodesOf p)) ∧
    (∀ p m, m ∈ ns p ↔ m ∈ s.nodesOf p ∧ (m ≠ n ∨ nd.proc ≠ some p)) ∧
    ∀ m, m ∈ dead ↔ m ∈ s.deadNodes ∧ (m ≠ n ∨ nd.proc ≠ none)

section Nodes

variable {s : State} {n : NodeId} {nd nd' : Node} {new : Queue → Prop}

theorem nodeKept_setNode (h : nd'.entry = nd.entry) :
    NodeKept s (s.setNode n nd') n nd nd' new :=
  ⟨nd.entry, s.todo, by rw [← h]; rfl, NodeMoved.refl s n _, .inl (ItemStays.refl s n _)⟩

theorem unlinkNode_eq (s : State) (n : NodeId) (nd : Node) :
    ∃ td, unlinkNode s n nd =
        { s with nodes := Function.update s.nodes n (some { nd with entry := none }), todo := td } ∧
      NodeMoved s n nd.entry none td := by
  cases hentry : nd.entry with
  | none =>
      exact ⟨s.todo, by simp [unlinkNode, hentry, State.setNode], NodeMoved.refl s n none⟩
  | some q =>
      refine ⟨Function.update s.todo q ((s.todo q).filter (· ≠ .node n)), ?_, ?_, ?_⟩
      · simp [unlinkNode, hentry, State.setNode, State.listDel, State.setTodo]
      · intro q' w hw
        by_cases hq : q' = q
        · subst hq
          simp [hw]
        · simp [Function.update_of_ne hq]
      · intro h q' hmem
        by_cases hq : q' = q
        · subst hq
          simp at hmem
        · rw [Function.update_of_ne hq] at hmem
          have := h q' hmem
          simp_all

theorem linkNode_eq (s : State) (n : NodeId) (nd : Node) (q : Queue) :
    ∃ td, linkNode s n nd q =
        { s with
          nodes := Function.update s.nodes n (some { nd with entry := some q }), todo := td } ∧
      NodeMoved s n none (some q) td := by
  refine ⟨Function.update s.todo q (s.todo q ++ [.node n]), ?_, ⟨?_, ?_⟩⟩
  · simp [linkNode, State.setNode, State.listAddTail, State.setTodo]
  · intro q' w hw
    by_cases hq : q' = q
    · subst hq
      simp [hw]
    · simp [Function.update_of_ne hq]
  · intro h q' hmem
    by_cases hq : q' = q
    · rw [hq]
    · rw [Function.update_of_ne hq] at hmem
      cases h q' hmem

theorem nodeKept_linkNode {q : Queue} (hentry : nd.entry = none) (hq : new q) :
    NodeKept s (linkNode s n nd' q) n nd nd' new := by
  obtain ⟨td, hlink, hmoved⟩ := linkNode_eq s n nd' q
  exact ⟨some q, td, hlink, hentry ▸ hmoved, .inr ⟨q, hq, rfl⟩⟩

theorem nodeKept_relinkNode {q : Queue} (hentry : nd'.entry = nd.entry) (hq : new q) :
    NodeKept s (linkNode (unlinkNode s n nd') n { nd' with entry := none } q) n nd nd' new := by
  obtain ⟨td, hun, hmoved⟩ := unlinkNode_eq s n nd'
  obtain ⟨td', hlink, hmoved'⟩ := linkNode_eq (unlinkNode s n nd') n { nd' with entry := none } q
  refine ⟨some q, td', ?_, ⟨?_, ?_⟩, .inr ⟨q, hq, rfl⟩⟩
  · rw [hlink, hun]
    simp
  · intro q' w hw
    rw [hmoved'.others q' w hw, hun]
    exact hmoved.others q' w hw
  · intro h q' hmem
    refine hmoved'.own (fun q'' hmem' => ?_) q' hmem
    rw [hun] at hmem'
    exact hmoved.own (hentry ▸ h) q'' hmem'

@[simp] theorem Node.inc_entry (nd : Node) (strong internal : Bool) :
    (nd.inc strong internal).entry = nd.entry := by
  cases strong <;> cases internal <;> rfl

@[simp] theorem Node.inc_hasStrongRef (nd : Node) (strong internal : Bool) :
    (nd.inc strong internal).hasStrongRef = nd.hasStrongRef := by
  cases strong <;> cases internal <;> rfl

@[simp] theorem Node.inc_hasWeakRef (nd : Node) (strong internal : Bool) :
    (nd.inc strong internal).hasWeakRef = nd.hasWeakRef := by
  cases strong <;> cases internal <;> rfl

@[simp] theorem Node.inc_proc (nd : Node) (strong internal : Bool) :
    (nd.inc strong internal).proc = nd.proc := by
  cases strong <;> cases internal <;> rfl

@[simp] theorem Node.inc_refs (nd : Node) (strong internal : Bool) :
    (nd.inc strong internal).refs = nd.refs := by
  cases strong <;> cases internal <;> rfl

@[simp] theorem Node.dec_entry (nd : Node) (strong internal : Bool) :
    (nd.dec strong internal).entry = nd.entry := by
  cases strong <;> cases internal <;> rfl

@[simp] theorem Node.dec_hasStrongRef (nd : Node) (strong internal : Bool) :
    (nd.dec strong internal).hasStrongRef = nd.hasStrongRef := by
  cases strong <;> cases internal <;> rfl

@[simp] theorem Node.dec_hasWeakRef (nd : Node) (strong internal : Bool) :
    (nd.dec strong internal).hasWeakRef = nd.hasWeakRef := by
  cases strong <;> cases internal <;> rfl

@[simp] theorem Node.dec_proc (nd : Node) (strong internal : Bool) :
    (nd.dec strong internal).proc = nd.proc := by
  cases strong <;> cases internal <;> rfl

@[simp] theorem Node.dec_refs (nd : Node) (strong internal : Bool) :
    (nd.dec strong internal).refs = nd.refs := by
  cases strong <;> cases internal <;> rfl

/-- The strong internal increments that `binder_inc_node` refuses: the first
one, without a list to announce it on. -/
def incRefused (s : State) (n : NodeId) (nd : Node) (strong internal : Bool)
    (target : Option Queue) : Prop :=
  strong = true ∧ internal = true ∧ target = none ∧ nd.internalStrongRefs = 0 ∧
    ¬ (s.contextMgrNode = some n ∧ nd.hasStrongRef = true)

/-- What `binder_inc_node` does. A weak increment that it reports as refused is
counted all the same. -/
theorem incNode_eq (s : State) (n : NodeId) (nd : Node) (strong internal : Bool)
    (target : Option Queue) :
    (incRefused s n nd strong internal target ∧
        incNode s n nd strong internal target = (false, s)) ∨
      ∃ ok s', incNode s n nd strong internal target = (ok, s') ∧
        ¬ incRefused s n nd strong internal target ∧
        NodeKept s s' n nd (nd.inc strong internal) (fun q => target = some q) ∧
        (ok = false → strong = false ∧ target = none ∧ nd.hasWeakRef = false ∧
          nd.entry = none) := by
  unfold incRefused
  cases strong with
  | true =>
      cases target with
      | none =>
          by_cases hrefuse : internal = true ∧ nd.internalStrongRefs = 0 ∧
              ¬ (s.contextMgrNode = some n ∧ nd.hasStrongRef = true)
          · obtain ⟨rfl, hzero, hctx⟩ := hrefuse
            left
            refine ⟨⟨rfl, rfl, rfl, hzero, hctx⟩, ?_⟩
            simp only [incNode]
            simp [hzero]
            simpa using hctx
          · right
            refine ⟨true, s.setNode n (nd.inc true internal), ?_, by tauto,
              nodeKept_setNode (by simp), by simp⟩
            simp only [incNode, ↓reduceIte]
            rw [if_neg]
            simpa using hrefuse
      | some q =>
          right
          cases hhas : nd.hasStrongRef with
          | true =>
              exact ⟨true, s.setNode n (nd.inc true internal), by simp [incNode, hhas], by simp,
                nodeKept_setNode (by simp), by simp⟩
          | false =>
              exact ⟨true, _, by simp [incNode, hhas], by simp,
                nodeKept_relinkNode (by simp) rfl, by simp⟩
  | false =>
      right
      by_cases hlink : nd.hasWeakRef = false ∧ nd.entry = none
      · cases target with
        | none =>
            exact ⟨false, s.setNode n (nd.inc false internal), by simp [incNode, hlink], by simp,
              nodeKept_setNode (by simp), by simp [hlink]⟩
        | some q =>
            exact ⟨true, _, by simp [incNode, hlink], by simp,
              nodeKept_linkNode hlink.2 rfl, by simp⟩
      · refine ⟨true, s.setNode n (nd.inc false internal), ?_, by simp,
          nodeKept_setNode (by simp), by simp⟩
        simp only [incNode, Bool.false_eq_true, ↓reduceIte]
        rw [if_neg]
        simpa using hlink

theorem nodeFreed_freeNode (s : State) (n : NodeId) (nd : Node) :
    NodeFreed s (freeNode s n nd) n nd := by
  obtain ⟨td, hun, hmoved⟩ := unlinkNode_eq s n nd
  cases hproc : nd.proc with
  | none =>
      refine ⟨td, s.nodesOf, s.deadNodes.filter (· ≠ n), ?_, hmoved,
        fun _ => List.Sublist.refl _, by simp [hproc], by simp [hproc]⟩
      simp [freeNode, hun, hproc]
  | some p =>
      refine ⟨td, Function.update s.nodesOf p ((s.nodesOf p).filter (· ≠ n)), s.deadNodes, ?_,
        hmoved, fun p' => ?_, ?_, by simp [hproc]⟩
      · simp [freeNode, hun, hproc]
      · by_cases hp : p' = p
        · subst hp
          simp
        · simp [hp]
      · intro p' m
        by_cases hp : p' = p
        · subst hp
          simp [hproc]
        · have : p ≠ p' := fun h => hp h.symm
          simp [Function.update_of_ne hp, this, hproc]

/-- When `binder_dec_node` frees the node it has counted down to `nd`. -/
def Node.freeable (nd : Node) (strong : Bool) : Prop :=
  nd.held strong = false ∧ nd.refs = [] ∧ nd.localStrongRefs = 0 ∧ nd.localWeakRefs = 0 ∧
    (nd.proc = none ∨ nd.hasStrongRef = false ∧ nd.hasWeakRef = false)

/-- What `binder_dec_node` does: it keeps the node, announcing the change to the
owner if need be, or frees it. -/
theorem decNode_eq {s' : State} {strong internal : Bool}
    (h : decNode s n nd strong internal = s') :
    (¬ (nd.dec strong internal).freeable strong ∧
        NodeKept s s' n nd (nd.dec strong internal)
          (fun q => ∃ p, nd.proc = some p ∧ q = .proc p)) ∨
      ((nd.dec strong internal).freeable strong ∧
        NodeFreed s s' n (nd.dec strong internal)) := by
  subst h
  have hset : NodeKept s (s.setNode n (nd.dec strong internal)) n nd (nd.dec strong internal)
      (fun q => ∃ p, nd.proc = some p ∧ q = .proc p) := nodeKept_setNode (by simp)
  have hfreed := nodeFreed_freeNode s n (nd.dec strong internal)
  by_cases hf : (nd.dec strong internal).freeable strong
  · right
    refine ⟨hf, ?_⟩
    obtain ⟨hheld, hrefs, hls, hlw, hflags⟩ := hf
    convert hfreed using 1
    cases hp : nd.proc with
    | none => simp_all [decNode]
    | some p => simp_all [decNode]
  · left
    refine ⟨hf, ?_⟩
    cases hheld : (nd.dec strong internal).held strong with
    | true =>
        convert hset using 1
        simp [decNode, hheld]
    | false =>
        cases hp : nd.proc with
        | none =>
            rw [hp] at hset
            convert hset using 1
            simp_all [decNode, Node.freeable]
        | some p =>
            by_cases hhas : nd.hasStrongRef = true ∨ nd.hasWeakRef = true
            · cases he : nd.entry with
              | some q =>
                  rw [hp] at hset
                  convert hset using 1
                  simp_all [decNode]
              | none =>
                  have hlink : NodeKept s (linkNode s n (nd.dec strong internal) (.proc p)) n nd
                      (nd.dec strong internal) (fun q => ∃ p', some p = some p' ∧ q = .proc p') :=
                    nodeKept_linkNode he ⟨p, rfl, rfl⟩
                  convert hlink using 1
                  simp_all [decNode]
            · rw [hp] at hset
              convert hset using 1
              simp_all [decNode, Node.freeable]

end Nodes

/-! ### References -/

theorem mem_insertByKey {key : ℕ → ℕ} {x y : ℕ} {l : List ℕ} :
    y ∈ insertByKey key x l ↔ y = x ∨ y ∈ l := by
  induction l with
  | nil => simp [insertByKey]
  | cons z l ih =>
      simp only [insertByKey]
      split
      · simp
      · simp only [List.mem_cons, ih]
        tauto

section Refs

variable {s s' : State}

/-- The node without the reference `r`, which took its strong count along. -/
def Node.dropRef (nd : Node) (r : RefId) (rf : Ref) : Node :=
  { nd with
    internalStrongRefs := nd.internalStrongRefs - (if rf.strong = 0 then 0 else 1)
    refs := nd.refs.filter (· ≠ r) }

/-- What `binder_delete_ref` leaves of the state: the reference `r` is gone from
the trees of its process and from its node, which is kept or freed, and so is its
death notification. -/
def RefDeleted (s s' : State) (r : RefId) (rf : Ref) (nd : Node) : Prop :=
  ∃ x td ns dead deaths, s' = { eraseRef s r rf.proc with
      refs := Function.update s.refs r none
      nodes := Function.update s.nodes rf.node x
      todo := td
      nodesOf := ns
      deadNodes := dead
      deaths := deaths } ∧
    ((∃ e, x = some { nd.dropRef r rf with entry := e } ∧ ¬ (nd.dropRef r rf).freeable false ∧
        ns = s.nodesOf ∧ dead = s.deadNodes ∧
        (ItemStays s rf.node nd.entry e td ∨ ∃ p, nd.proc = some p ∧ e = some (.proc p)) ∧
        ((∀ q, .node rf.node ∈ s.todo q → nd.entry = some q) →
          ∀ q, .node rf.node ∈ td q → e = some q)) ∨
      (x = none ∧ (nd.dropRef r rf).freeable false ∧
        (∀ p, (ns p).Sublist (s.nodesOf p)) ∧
        (∀ p m, m ∈ ns p ↔ m ∈ s.nodesOf p ∧ (m ≠ rf.node ∨ nd.proc ≠ some p)) ∧
        (∀ m, m ∈ dead ↔ m ∈ s.deadNodes ∧ (m ≠ rf.node ∨ nd.proc ≠ none)) ∧
        ((∀ q, .node rf.node ∈ s.todo q → nd.entry = some q) → ∀ q, .node rf.node ∉ td q))) ∧
    (∀ q w, w ≠ .node rf.node → (∀ d, rf.death = some d → w ≠ .death d) →
      (w ∈ td q ↔ w ∈ s.todo q)) ∧
    (∀ q d, rf.death = some d → .death d ∈ td q → .death d ∈ s.todo q)

theorem freeDeathOf_eq {death : Option DeathId} (h : freeDeathOf s death = .ok s') :
    ∃ td deaths, s' = { s with todo := td, deaths := deaths } ∧
      (∀ q w, (∀ d, death = some d → w ≠ .death d) → (w ∈ td q ↔ w ∈ s.todo q)) ∧
      ∀ q w, w ∈ td q → w ∈ s.todo q := by
  cases death with
  | none =>
      obtain rfl : s = s' := by simpa [freeDeathOf] using h
      exact ⟨s.todo, s.deaths, rfl, fun _ _ _ => Iff.rfl, fun _ _ h => h⟩
  | some d =>
      simp only [freeDeathOf, except_bind_eq_ok, deref_eq_ok, except_pure_eq_ok] at h
      obtain ⟨de, hde, rfl⟩ := h
      cases hentry : de.entry with
      | none =>
          refine ⟨s.todo, Function.update s.deaths d none, ?_, fun _ _ _ => Iff.rfl,
            fun _ _ h => h⟩
          simp [unlinkDeath, hentry]
      | some q =>
          refine ⟨Function.update s.todo q ((s.todo q).filter (· ≠ .death d)),
            Function.update s.deaths d none, ?_, ?_, ?_⟩
          · simp [unlinkDeath, hentry, State.listDel, State.setTodo]
          · intro q' w hw
            have hne : w ≠ .death d := hw d rfl
            by_cases hq : q' = q
            · subst hq
              simp [hne]
            · simp [Function.update_of_ne hq]
          · intro q' w hw
            by_cases hq : q' = q
            · subst hq
              simp only [Function.update_self] at hw
              exact List.mem_of_mem_filter hw
            · rwa [Function.update_of_ne hq] at hw

/-- The first half of `binder_delete_ref`: the strong count goes. The node
cannot be freed here, since it is read right after. -/
theorem dropStrong_eq {rf : Ref} {nd₁ : Node} {s₁ : State} (h : dropStrong s rf = .ok s₁)
    (hnd₁ : s₁.nodes rf.node = some nd₁) :
    ∃ nd e td, s.nodes rf.node = some nd ∧
      s₁ = { s with nodes := Function.update s.nodes rf.node (some nd₁), todo := td } ∧
      nd₁ = { nd with
        internalStrongRefs := nd.internalStrongRefs - (if rf.strong = 0 then 0 else 1)
        entry := e } ∧
      NodeMoved s rf.node nd.entry e td ∧
      (ItemStays s rf.node nd.entry e td ∨ ∃ p, nd.proc = some p ∧ e = some (.proc p)) := by
  by_cases hstrong : rf.strong = 0
  · obtain rfl : s = s₁ := by simpa [dropStrong, hstrong] using h
    refine ⟨nd₁, nd₁.entry, s.todo, hnd₁, ?_, by simp [hstrong], NodeMoved.refl s _ _,
      .inl (ItemStays.refl s _ _)⟩
    rw [Function.update_eq_self_iff.mpr hnd₁.symm]
  · simp only [dropStrong, hstrong, ↓reduceIte, binderDecNode, except_bind_eq_ok, deref_eq_ok,
      except_pure_eq_ok] at h
    obtain ⟨nd, hnd, h⟩ := h
    rcases decNode_eq h with ⟨_, e, td, rfl, hmoved, he⟩ | ⟨_, td, ns, dead, rfl, _⟩
    · obtain rfl : _ = nd₁ := by simpa using hnd₁
      refine ⟨nd, e, td, hnd, rfl, ?_, hmoved, ?_⟩
      · simp [Node.dec, hstrong]
      · rcases he with hstay | ⟨_, ⟨p, hp, rfl⟩, rfl⟩
        · exact .inl hstay
        · exact .inr ⟨p, hp, rfl⟩
    · simp at hnd₁

theorem binderDeleteRef_eq {r : RefId} (h : binderDeleteRef s r = .ok s') :
    ∃ rf nd, s.refs r = some rf ∧ s.nodes rf.node = some nd ∧ RefDeleted s s' r rf nd := by
  simp only [binderDeleteRef, binderDecNode, except_bind_eq_ok, deref_eq_ok,
    except_pure_eq_ok] at h
  obtain ⟨rf, hrf, s₁, hdrop, nd₁, hnd₁, s₂, ⟨nd₂, hnd₂, hdec⟩, s₃, hdeath, rfl⟩ := h
  obtain ⟨nd, e₁, td₁, hnd, rfl, rfl, hmoved₁, he₁⟩ := dropStrong_eq hdrop hnd₁
  obtain ⟨td₃, dd, rfl, hothers₃, hsub₃⟩ := freeDeathOf_eq hdeath
  simp only [State.setNode, Function.update_self, Option.some.injEq] at hnd₂
  subst hnd₂
  refine ⟨rf, nd, hrf, hnd, ?_⟩
  have hothers₁ := hmoved₁.others
  have hown₁ := hmoved₁.own
  rcases decNode_eq hdec with ⟨hkeep, e₂, td₂, rfl, hmoved₂, he₂⟩ |
      ⟨hfree, td₂, ns, dead, rfl, hmoved₂, hsub, hns, hdead⟩
  · refine ⟨_, td₃, s.nodesOf, s.deadNodes, dd, ?_, .inl ⟨e₂, rfl, ?_, rfl, rfl, ?_, ?_⟩, ?_, ?_⟩
    · simp [eraseRef, State.setNode, Node.dropRef, Node.dec]
    · exact hkeep
    · rcases he₂ with ⟨rfl, hstay₂⟩ | ⟨_, ⟨p, hp, rfl⟩, rfl⟩
      · rcases he₁ with ⟨he, hstay₁⟩ | hlink
        · exact .inl ⟨he, fun q hmem => hstay₁ q (hstay₂ q (hsub₃ q _ hmem))⟩
        · exact .inr hlink
      · exact .inr ⟨p, hp, rfl⟩
    · exact fun hq q hmem => hmoved₂.own (hmoved₁.own hq) q (hsub₃ q _ hmem)
    · intro q w hw hd
      exact ((hothers₃ q w hd).trans (hmoved₂.others q w hw)).trans (hmoved₁.others q w hw)
    · intro q d _ hmem
      exact (hmoved₁.others q _ (by simp)).mp ((hmoved₂.others q _ (by simp)).mp (hsub₃ q _ hmem))
  · refine ⟨none, td₃, ns, dead, dd, ?_, .inr ⟨rfl, ?_, hsub, hns, hdead, ?_⟩, ?_, ?_⟩
    · simp [eraseRef, State.setNode]
    · exact hfree
    · intro hq q hmem
      cases hmoved₂.own (hmoved₁.own hq) q (hsub₃ q _ hmem)
    · intro q w hw hd
      exact ((hothers₃ q w hd).trans (hmoved₂.others q w hw)).trans (hmoved₁.others q w hw)
    · intro q d _ hmem
      exact (hmoved₁.others q _ (by simp)).mp ((hmoved₂.others q _ (by simp)).mp (hsub₃ q _ hmem))

/-- What `binder_inc_ref` does: it refuses, or counts on the reference and, the
first time, on the node. -/
theorem binderIncRef_eq {r : RefId} {strong ok : Bool} {target : Option Queue}
    (h : binderIncRef s r strong target = .ok (ok, s')) :
    ∃ rf, s.refs r = some rf ∧
      ((rf.count strong ≠ 0 ∧ ok = true ∧ s' = s.setRef r (rf.inc strong)) ∨
        ∃ nd, rf.count strong = 0 ∧ s.nodes rf.node = some nd ∧
          ((ok = true ∧ ¬ incRefused s rf.node nd strong true target ∧
              ∃ s₁, NodeKept s s₁ rf.node nd (nd.inc strong true) (fun q => target = some q) ∧
                s' = s₁.setRef r (rf.inc strong)) ∨
            (ok = false ∧ target = none ∧
              (incRefused s rf.node nd strong true target ∨
                strong = false ∧ nd.hasWeakRef = false ∧ nd.entry = none) ∧
              NodeKept s s' rf.node nd nd (fun _ => False)))) := by
  simp only [binderIncRef, except_bind_eq_ok, deref_eq_ok, except_pure_eq_ok] at h
  obtain ⟨rf, hrf, ⟨ok', s₁⟩, htake, heq⟩ := h
  simp only [Prod.mk.injEq] at heq
  obtain ⟨rfl, rfl⟩ := heq
  refine ⟨rf, hrf, ?_⟩
  by_cases hcount : rf.count strong = 0
  · right
    simp only [takeFirst, hcount, ↓reduceIte, binderIncNode, except_bind_eq_ok, deref_eq_ok,
      except_pure_eq_ok] at htake
    obtain ⟨nd, hnd, htake⟩ := htake
    refine ⟨nd, hcount, hnd, ?_⟩
    rcases incNode_eq s rf.node nd strong true target with ⟨href, heq⟩ |
        ⟨ok, s₂, heq, hno, hkept, hfalse⟩
    · obtain ⟨rfl, rfl⟩ : false = ok' ∧ s = s₁ := by simpa [heq] using htake
      right
      refine ⟨rfl, href.2.2.1, .inl href, nd.entry, s.todo, ?_, NodeMoved.refl _ _ _,
        .inl (ItemStays.refl _ _ _)⟩
      rw [Function.update_eq_self_iff.mpr hnd.symm]
      rfl
    · obtain ⟨rfl, rfl⟩ : ok = ok' ∧ s₂ = s₁ := by simpa [heq] using htake
      cases ok with
      | true => exact .inl ⟨rfl, hno, s₂, hkept, rfl⟩
      | false =>
          obtain ⟨rfl, rfl, hweak, hentry⟩ := hfalse rfl
          refine .inr ⟨rfl, rfl, .inr ⟨rfl, hweak, hentry⟩, ?_⟩
          obtain ⟨e, td, rfl, hmoved, he⟩ := hkept
          exact ⟨e, td, rfl, hmoved, .inl (by simpa using he)⟩
  · left
    obtain ⟨rfl, rfl⟩ : true = ok' ∧ s = s₁ := by simpa [takeFirst, hcount] using htake
    exact ⟨hcount, rfl, rfl⟩

/-- What `binder_dec_ref` does: nothing when the count is zero; else it counts
down on the reference, with the last strong count on the node, and deletes a
reference without counts. -/
theorem binderDecRef_eq {r : RefId} {strong : Bool} (h : binderDecRef s r strong = .ok s') :
    ∃ rf, s.refs r = some rf ∧
      ((rf.count strong = 0 ∧ s' = s) ∨
        (rf.count strong ≠ 0 ∧ ∃ s₁, giveLast (s.setRef r (rf.dec strong)) (rf.dec strong) strong =
            .ok s₁ ∧
          ((((rf.dec strong).strong ≠ 0 ∨ (rf.dec strong).weak ≠ 0) ∧ s' = s₁) ∨
            ((rf.dec strong).strong = 0 ∧ (rf.dec strong).weak = 0 ∧
              binderDeleteRef s₁ r = .ok s')))) := by
  simp only [binderDecRef, except_bind_eq_ok, deref_eq_ok] at h
  obtain ⟨rf, hrf, h⟩ := h
  refine ⟨rf, hrf, ?_⟩
  by_cases hcount : rf.count strong = 0
  · left
    simp only [hcount, ↓reduceIte, except_pure_eq_ok] at h
    exact ⟨hcount, h.symm⟩
  · right
    simp only [hcount, ↓reduceIte, except_bind_eq_ok] at h
    obtain ⟨s₁, hlast, h⟩ := h
    refine ⟨hcount, s₁, hlast, ?_⟩
    split at h
    · rename_i hzero
      simp only [Bool.and_eq_true, decide_eq_true_eq] at hzero
      exact .inr ⟨hzero.1, hzero.2, h⟩
    · rename_i hzero
      simp only [Bool.and_eq_true, decide_eq_true_eq] at hzero
      simp only [except_pure_eq_ok] at h
      exact .inl ⟨by tauto, h.symm⟩

/-- What `binder_get_ref_for_node` does: it finds the reference, fails, or makes
a new one. -/
theorem binderGetRefForNode_eq {p : ProcId} {n : NodeId} {alloc : Bool} {x : Option RefId}
    (h : binderGetRefForNode s p n alloc = .ok (x, s')) :
    (∃ r, findRefForNode s p n = some r ∧ x = some r ∧ s' = s) ∨
      (findRefForNode s p n = none ∧ x = none ∧ s' = s) ∨
      ∃ nd, findRefForNode s p n = none ∧ newDesc s p n ∉ s.descs p ∧ s.nodes n = some nd ∧
        x = some s.nextId ∧ s' = addRef s p n nd := by
  cases hfind : findRefForNode s p n with
  | some r =>
      left
      simp only [binderGetRefForNode, hfind, Except.ok.injEq, Prod.mk.injEq] at h
      exact ⟨r, rfl, h.1.symm, h.2.symm⟩
  | none =>
      right
      cases alloc with
      | false =>
          left
          simp [binderGetRefForNode, hfind] at h
          exact ⟨rfl, h.1.symm, h.2.symm⟩
      | true =>
          right
          simp only [binderGetRefForNode, hfind, Bool.not_true, Bool.false_eq_true, ↓reduceIte,
            except_bind_eq_ok, bugOn_eq_ok, deref_eq_ok, except_pure_eq_ok, Prod.mk.injEq,
            decide_eq_false_iff_not] at h
          obtain ⟨_, hdesc, nd, hnd, rfl, rfl⟩ := h
          exact ⟨nd, rfl, hdesc, hnd, rfl, rfl⟩

end Refs

end Driver

end BinderForLinux
