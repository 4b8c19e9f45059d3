import BinderForLinux.Driver.Changes.Buffers
import BinderForLinux.Driver.Release

/-!
# What operations on nodes and references leave alone

They write no thread, no transaction and no buffer, and move no transaction from
one list to another. A death notification goes away only together with the
reference that asked for it.
-/

namespace BinderForLinux

namespace Driver

open Library

def Work.isNode : Work → Bool
  | .node _ => true
  | _ => false

def Work.isTxn : Work → Bool
  | .transaction _ => true
  | .transactionComplete _ => true
  | _ => false

/-- What operations on nodes never change of a node. -/
def Node.identity (nd : Node) : Option ProcId × ℕ × ℕ × Bool × Bool :=
  (nd.proc, nd.ptr, nd.cookie, nd.hasAsyncTransaction, nd.acceptFds)

/-- Only nodes and their work items are touched. -/
structure NodesOnly (s s' : State) : Prop where
  rest : s' = { s with
    nodes := s'.nodes
    nodesOf := s'.nodesOf
    todo := s'.todo
    deadNodes := s'.deadNodes }
  items : ∀ q, (s'.todo q).filter (!Work.isNode ·) = (s.todo q).filter (!Work.isNode ·)
  nodes : ∀ {n nd'}, s'.nodes n = some nd' →
    ∃ nd, s.nodes n = some nd ∧ nd'.identity = nd.identity

/-- The death notification, the places where it is queued and the reference that asked
for it are as before. -/
structure DeathStill (s s' : State) (d : DeathId) : Prop where
  deaths : s'.deaths d = s.deaths d
  items : ∀ q, (s'.todo q).count (.death d) = (s.todo q).count (.death d)
  refs : ∀ {r rf}, r < s.nextId → s.refs r = some rf → rf.death = some d →
    ∃ rf', s'.refs r = some rf' ∧ rf'.entries = rf.entries ∧ rf'.death = some d

structure Still (s s' : State) : Prop where
  nextId : s.nextId ≤ s'.nextId
  rest : s' = { s with
    nextId := s'.nextId
    nodes := s'.nodes
    refs := s'.refs
    deaths := s'.deaths
    files := s'.files
    nodesOf := s'.nodesOf
    refsByDesc := s'.refsByDesc
    refsByNode := s'.refsByNode
    todo := s'.todo
    deadNodes := s'.deadNodes }
  items : ∀ q, (s'.todo q).filter Work.isTxn = (s.todo q).filter Work.isTxn
  nodes : ∀ {n nd'}, s'.nodes n = some nd' →
    (∃ nd, s.nodes n = some nd ∧ nd'.identity = nd.identity) ∨
      s.nextId ≤ n ∧ nd'.hasAsyncTransaction = false
  refs : ∀ {r rf'}, s'.refs r = some rf' →
    (∃ rf, s.refs r = some rf ∧ rf'.entries = rf.entries ∧ rf'.death = rf.death) ∨
      s.nextId ≤ r ∧ rf'.death = none
  deaths : ∀ d, DeathStill s s' d ∨
    (s'.deaths d = none ∧
      (∃ r rf, s.refs r = some rf ∧ rf.death = some d ∧ (r < s.nextId → s'.refs r = none)) ∧
      ∀ q, .death d ∈ s'.todo q → .death d ∈ s.todo q ∧ ∀ de, s.deaths d = some de →
        de.entry ≠ some q)

section NodesOnly

variable {s s' s'' : State} {n : NodeId} {nd : Node}

theorem NodesOnly.refl (s : State) : NodesOnly s s :=
  ⟨rfl, fun _ => rfl, fun h => ⟨_, h, rfl⟩⟩

theorem NodesOnly.trans (h : NodesOnly s s') (h' : NodesOnly s' s'') : NodesOnly s s'' where
  rest := by
    have := h'.rest
    rw [h.rest] at this
    exact this
  items := fun q => (h'.items q).trans (h.items q)
  nodes := by
    intro n nd'' hnd''
    obtain ⟨nd', hnd', hid'⟩ := h'.nodes hnd''
    obtain ⟨nd, hnd, hid⟩ := h.nodes hnd'
    exact ⟨nd, hnd, hid'.trans hid⟩

theorem NodesOnly.setNode (hnd : s.nodes n = some nd) {nd' : Node}
    (hid : nd'.identity = nd.identity) : NodesOnly s (s.setNode n nd') := by
  refine ⟨rfl, fun _ => rfl, fun {m md'} hmd' => ?_⟩
  by_cases hm : m = n
  · subst hm
    simp only [State.setNode, Function.update_self, Option.some.injEq] at hmd'
    exact ⟨nd, hnd, hmd' ▸ hid⟩
  · simp only [State.setNode, Function.update_of_ne hm] at hmd'
    exact ⟨md', hmd', rfl⟩

theorem filter_listDel (q q' : Queue) :
    ((s.listDel q (.node n)).todo q').filter (!Work.isNode ·) =
      (s.todo q').filter (!Work.isNode ·) := by
  by_cases hq : q' = q
  · subst hq
    simp only [State.listDel, State.setTodo, Function.update_self, List.filter_filter]
    refine List.filter_congr fun w _ => ?_
    cases w <;> simp [Work.isNode]
  · simp [State.listDel, State.setTodo, hq]

theorem filter_listAddTail (q q' : Queue) :
    ((s.listAddTail q (.node n)).todo q').filter (!Work.isNode ·) =
      (s.todo q').filter (!Work.isNode ·) := by
  by_cases hq : q' = q
  · subst hq
    simp [State.listAddTail, State.setTodo, Work.isNode]
  · simp [State.listAddTail, State.setTodo, hq]

theorem unlinkNode_only (hnd : s.nodes n = some nd) {nd' : Node}
    (hid : nd'.identity = nd.identity) :
    NodesOnly s (unlinkNode s n nd') := by
  unfold unlinkNode
  cases nd'.entry with
  | none => exact NodesOnly.setNode hnd hid
  | some q =>
      have hdel : NodesOnly s (s.listDel q (.node n)) :=
        ⟨rfl, filter_listDel q, fun h => ⟨_, h, rfl⟩⟩
      have hset : NodesOnly (s.listDel q (.node n))
          ((s.listDel q (.node n)).setNode n { nd' with entry := none }) :=
        NodesOnly.setNode (s := s.listDel q (.node n)) (show s.nodes n = some nd from hnd) hid
      exact hdel.trans hset

theorem linkNode_only (hnd : s.nodes n = some nd) {nd' : Node} (hid : nd'.identity = nd.identity)
    (q : Queue) : NodesOnly s (linkNode s n nd' q) := by
  have hset : NodesOnly s (s.setNode n { nd' with entry := some q }) := NodesOnly.setNode hnd hid
  exact hset.trans ⟨rfl, filter_listAddTail q, fun h => ⟨_, h, rfl⟩⟩

@[simp] theorem Node.inc_identity (nd : Node) (strong internal : Bool) :
    (nd.inc strong internal).identity = nd.identity := by
  cases strong <;> cases internal <;> rfl

@[simp] theorem Node.dec_identity (nd : Node) (strong internal : Bool) :
    (nd.dec strong internal).identity = nd.identity := by
  cases strong <;> cases internal <;> rfl

theorem incNode_only (hnd : s.nodes n = some nd) (strong internal : Bool)
    (target : Option Queue) : NodesOnly s (incNode s n nd strong internal target).2 := by
  unfold incNode
  split
  · split
    · exact NodesOnly.refl s
    · cases target with
      | none => exact NodesOnly.setNode hnd (by simp)
      | some q =>
          simp only
          split
          · exact NodesOnly.setNode hnd (by simp)
          · have h₁ : NodesOnly s (unlinkNode s n (nd.inc true internal)) :=
              unlinkNode_only hnd (by simp)
            obtain ⟨td, hun, -⟩ := unlinkNode_eq s n (nd.inc true internal)
            have hnd₁ : (unlinkNode s n (nd.inc true internal)).nodes n =
                some { nd.inc true internal with entry := none } := by
              rw [hun]
              exact Function.update_self ..
            exact h₁.trans (linkNode_only hnd₁ rfl q)
  · simp only
    split
    · cases target with
      | none => exact NodesOnly.setNode hnd (by simp)
      | some q => exact linkNode_only hnd (by simp) q
    · exact NodesOnly.setNode hnd (by simp)

theorem freeNode_only (hnd : s.nodes n = some nd) {nd' : Node} (hid : nd'.identity = nd.identity) :
    NodesOnly s (freeNode s n nd') := by
  obtain ⟨td, ns, dead, heq, -⟩ := nodeFreed_freeNode s n nd'
  have h₁ := unlinkNode_only hnd hid
  refine ⟨by rw [heq], ?_, fun {m md'} hmd' => ?_⟩
  · have htodo : (freeNode s n nd').todo = (unlinkNode s n nd').todo := by
      unfold freeNode
      cases nd'.proc <;> rfl
    rw [htodo]
    exact h₁.items
  · rw [heq] at hmd'
    by_cases hm : m = n
    · simp [hm] at hmd'
    · simp only [Function.update_of_ne hm] at hmd'
      exact ⟨md', hmd', rfl⟩

theorem decNode_only (hnd : s.nodes n = some nd) (strong internal : Bool) :
    NodesOnly s (decNode s n nd strong internal) := by
  have hset : NodesOnly s (s.setNode n (nd.dec strong internal)) :=
    NodesOnly.setNode hnd (by simp)
  have hfree : NodesOnly s (freeNode s n (nd.dec strong internal)) := freeNode_only hnd (by simp)
  simp only [decNode]
  split
  · exact hset
  · split
    · split
      · split
        · exact linkNode_only hnd (by simp) _
        · exact hset
      · split
        · exact hfree
        · exact hset
    · split
      · exact hfree
      · exact hset

theorem binderIncNode_only {strong internal ok : Bool} {target : Option Queue}
    (hrun : binderIncNode s n strong internal target = .ok (ok, s')) : NodesOnly s s' := by
  simp only [binderIncNode, except_bind_eq_ok, deref_eq_ok, except_pure_eq_ok] at hrun
  obtain ⟨nd, hnd, heq⟩ := hrun
  have := incNode_only hnd strong internal target
  rwa [heq] at this

theorem binderDecNode_only {strong internal : Bool}
    (hrun : binderDecNode s n strong internal = .ok s') : NodesOnly s s' := by
  simp only [binderDecNode, except_bind_eq_ok, deref_eq_ok, except_pure_eq_ok] at hrun
  obtain ⟨nd, hnd, rfl⟩ := hrun
  exact decNode_only hnd strong internal

end NodesOnly

section Still

variable {s s' s'' : State}

theorem DeathStill.mem_iff {d : DeathId} (h : DeathStill s s' d) (q : Queue) :
    .death d ∈ s'.todo q ↔ .death d ∈ s.todo q := by
  rw [← List.count_pos_iff, h.items q, List.count_pos_iff]

theorem DeathStill.trans {d : DeathId} (h : DeathStill s s' d) (hnext : s.nextId ≤ s'.nextId)
    (h' : DeathStill s' s'' d) : DeathStill s s'' d where
  deaths := h'.deaths.trans h.deaths
  items := fun q => (h'.items q).trans (h.items q)
  refs := by
    intro r rf hr hrf hd
    obtain ⟨rf', hrf', he', hd'⟩ := h.refs hr hrf hd
    obtain ⟨rf'', hrf'', he'', hd''⟩ := h'.refs (hr.trans_le hnext) hrf' hd'
    exact ⟨rf'', hrf'', he''.trans he', hd''⟩

theorem Still.refl (s : State) : Still s s :=
  ⟨le_rfl, rfl, fun _ => rfl, fun h => .inl ⟨_, h, rfl⟩, fun h => .inl ⟨_, h, rfl, rfl⟩,
    fun _ => .inl ⟨rfl, fun _ => rfl, fun _ hrf hd => ⟨_, hrf, rfl, hd⟩⟩⟩

theorem Still.trans (h : Still s s') (h' : Still s' s'') : Still s s'' where
  nextId := h.nextId.trans h'.nextId
  rest := by
    have := h'.rest
    rw [h.rest] at this
    exact this
  items := fun q => (h'.items q).trans (h.items q)
  nodes := by
    intro n nd'' hnd''
    rcases h'.nodes hnd'' with ⟨nd', hnd', hid'⟩ | ⟨hlt, hasync⟩
    · rcases h.nodes hnd' with ⟨nd, hnd, hid⟩ | ⟨hlt, hasync⟩
      · exact .inl ⟨nd, hnd, hid'.trans hid⟩
      · refine .inr ⟨hlt, ?_⟩
        exact (congrArg (fun x => x.2.2.2.1) hid').trans hasync
    · exact .inr ⟨h.nextId.trans hlt, hasync⟩
  refs := by
    intro r rf'' hrf''
    rcases h'.refs hrf'' with ⟨rf', hrf', he', hd'⟩ | ⟨hlt, hd⟩
    · rcases h.refs hrf' with ⟨rf, hrf, he, hd⟩ | ⟨hlt, hd⟩
      · exact .inl ⟨rf, hrf, he'.trans he, hd'.trans hd⟩
      · exact .inr ⟨hlt, hd'.trans hd⟩
    · exact .inr ⟨h.nextId.trans hlt, hd⟩
  deaths := by
    intro d
    have hstays : ∀ {r}, r < s.nextId → s'.refs r = none → s''.refs r = none := by
      intro r hr hnone
      cases hrf : s''.refs r with
      | none => rfl
      | some rf'' =>
          rcases h'.refs hrf with ⟨rf', hrf', -⟩ | ⟨hlt, -⟩
          · rw [hnone] at hrf'
            cases hrf'
          · exact absurd (hr.trans_le h.nextId) (not_lt.mpr hlt)
    rcases h.deaths d with hstill | ⟨hnone, ⟨r, rf, hrf, hd, hgone⟩, hitems⟩
    · rcases h'.deaths d with hstill' | ⟨hnone', ⟨r, rf', hrf', hd, hgone⟩, hitems'⟩
      · exact .inl (hstill.trans h.nextId hstill')
      · refine .inr ⟨hnone', ?_, fun q hq => ?_⟩
        · rcases h.refs hrf' with ⟨rf, hrf, -, hdeath⟩ | ⟨-, hdeath⟩
          · exact ⟨r, rf, hrf, hdeath.symm.trans hd, fun hr => hgone (hr.trans_le h.nextId)⟩
          · rw [hdeath] at hd
            cases hd
        · obtain ⟨hmem, hentry⟩ := hitems' q hq
          exact ⟨(hstill.mem_iff q).mp hmem, fun de hde => hentry de (hstill.deaths.trans hde)⟩
    · right
      rcases h'.deaths d with hstill' | ⟨hnone', -, hitems'⟩
      · exact ⟨hstill'.deaths.trans hnone, ⟨r, rf, hrf, hd, fun hr => hstays hr (hgone hr)⟩,
          fun q hq => hitems q ((hstill'.mem_iff q).mp hq)⟩
      · exact ⟨hnone', ⟨r, rf, hrf, hd, fun hr => hstays hr (hgone hr)⟩,
          fun q hq => hitems q (hitems' q hq).1⟩

theorem NodesOnly.death_count (h : NodesOnly s s') (d : DeathId) (q : Queue) :
    (s'.todo q).count (.death d) = (s.todo q).count (.death d) := by
  have hfilter : ∀ l : List Work,
      l.count (.death d) = (l.filter (!Work.isNode ·)).count (.death d) := by
    intro l
    rw [List.count_filter rfl]
  rw [hfilter, h.items, ← hfilter]

theorem NodesOnly.still (h : NodesOnly s s') : Still s s' where
  nextId := by rw [h.rest]
  rest := by
    have := h.rest
    rw [this]
  items := by
    intro q
    have hfilter : ∀ l : List Work, l.filter Work.isTxn =
        (l.filter (!Work.isNode ·)).filter Work.isTxn := by
      intro l
      rw [List.filter_filter]
      refine List.filter_congr fun w _ => ?_
      cases w <;> rfl
    rw [hfilter, h.items, ← hfilter]
  nodes := fun hnd => .inl (h.nodes hnd)
  refs := by
    intro r rf' hrf'
    rw [h.rest] at hrf'
    exact .inl ⟨rf', hrf', rfl, rfl⟩
  deaths := by
    refine fun d => .inl ⟨?_, h.death_count d, fun {r rf} _ hrf hd => ⟨rf, ?_, rfl, hd⟩⟩
    · rw [h.rest]
    · rw [h.rest]
      exact hrf

theorem Still.files (s : State) (files : ProcId → Option (ℕ → Option File)) :
    Still s { s with files := files } :=
  ⟨le_rfl, rfl, fun _ => rfl, fun h => .inl ⟨_, h, rfl⟩, fun h => .inl ⟨_, h, rfl, rfl⟩,
    fun _ => .inl ⟨rfl, fun _ => rfl, fun _ hrf hd => ⟨_, hrf, rfl, hd⟩⟩⟩

theorem Still.addNode (s : State) (p : ProcId) {nd : Node}
    (hasync : nd.hasAsyncTransaction = false) :
    Still s (addNode s p nd) := by
  refine ⟨Nat.le_succ _, rfl, fun _ => rfl, fun {m md} hmd => ?_, fun h => .inl ⟨_, h, rfl, rfl⟩,
    fun _ => .inl ⟨rfl, fun _ => rfl, fun _ hrf hd => ⟨_, hrf, rfl, hd⟩⟩⟩
  change Function.update s.nodes s.nextId (some nd) m = some md at hmd
  by_cases hm : m = s.nextId
  · subst hm
    simp only [Function.update_self, Option.some.injEq] at hmd
    exact .inr ⟨le_rfl, hmd ▸ hasync⟩
  · rw [Function.update_of_ne hm] at hmd
    exact .inl ⟨md, hmd, rfl⟩

theorem Still.addRef (s : State) (p : ProcId) {n : NodeId} {nd : Node}
    (hnd : s.nodes n = some nd) : Still s (addRef s p n nd) := by
  refine ⟨Nat.le_succ _, rfl, fun _ => rfl, fun {m md} hmd => .inl ?_, fun {r rf} hrf => ?_,
    fun _ => .inl ⟨rfl, fun _ => rfl, fun {r rf} hr hrf hd => ⟨rf, ?_, rfl, hd⟩⟩⟩
  · rcases addRef_nodes.mp hmd with ⟨rfl, rfl⟩ | ⟨-, hmd⟩
    · exact ⟨nd, hnd, rfl⟩
    · exact ⟨md, hmd, rfl⟩
  · change Function.update s.refs s.nextId _ r = some rf at hrf
    by_cases hr : r = s.nextId
    · subst hr
      simp only [Function.update_self, Option.some.injEq] at hrf
      exact .inr ⟨le_rfl, hrf ▸ rfl⟩
    · rw [Function.update_of_ne hr] at hrf
      exact .inl ⟨rf, hrf, rfl, rfl⟩
  · exact (Function.update_of_ne (Nat.ne_of_lt hr) ..).trans hrf

theorem Still.setRef {r : RefId} {rf rf' : Ref} (hrf : s.refs r = some rf)
    (hentries : rf'.entries = rf.entries) (hdeath : rf'.death = rf.death) :
    Still s (s.setRef r rf') := by
  refine ⟨le_rfl, rfl, fun _ => rfl, fun h => .inl ⟨_, h, rfl⟩, fun {q qf} hqf => .inl ?_,
    fun d => .inl ⟨rfl, fun _ => rfl, fun {q qf} _ hqf hd => ?_⟩⟩
  · by_cases hq : q = r
    · subst hq
      simp only [State.setRef, Function.update_self, Option.some.injEq] at hqf
      exact ⟨rf, hrf, hqf ▸ hentries, hqf ▸ hdeath⟩
    · simp only [State.setRef, Function.update_of_ne hq] at hqf
      exact ⟨qf, hqf, rfl, rfl⟩
  · by_cases hq : q = r
    · subst hq
      obtain rfl : rf = qf := Option.some.inj (hrf.symm.trans hqf)
      exact ⟨rf', Function.update_self .., hentries, hdeath.trans hd⟩
    · exact ⟨qf, (Function.update_of_ne hq ..).trans hqf, rfl, hd⟩

theorem Still.eraseRef (s : State) (r : RefId) (p : ProcId) : Still s (eraseRef s r p) :=
  ⟨le_rfl, rfl, fun _ => rfl, fun h => .inl ⟨_, h, rfl⟩, fun h => .inl ⟨_, h, rfl, rfl⟩,
    fun _ => .inl ⟨rfl, fun _ => rfl, fun _ hrf hd => ⟨_, hrf, rfl, hd⟩⟩⟩

/-! ### References -/

theorem takeFirst_only {rf : Ref} {strong ok : Bool} {target : Option Queue}
    (hrun : takeFirst s rf strong target = .ok (ok, s')) : NodesOnly s s' := by
  unfold takeFirst at hrun
  split at hrun
  · exact binderIncNode_only hrun
  · simp only [Except.ok.injEq, Prod.mk.injEq] at hrun
    exact hrun.2 ▸ NodesOnly.refl s

@[simp] theorem Ref.inc_death (rf : Ref) (strong : Bool) : (rf.inc strong).death = rf.death := by
  cases strong <;> rfl

@[simp] theorem Ref.dec_death (rf : Ref) (strong : Bool) : (rf.dec strong).death = rf.death := by
  cases strong <;> rfl

theorem binderIncRef_still {r : RefId} {strong ok : Bool} {target : Option Queue}
    (hrun : binderIncRef s r strong target = .ok (ok, s')) : Still s s' := by
  simp only [binderIncRef, except_bind_eq_ok, deref_eq_ok, except_pure_eq_ok] at hrun
  obtain ⟨rf, hrf, ⟨ok', s₁⟩, htake, heq⟩ := hrun
  simp only [Prod.mk.injEq] at heq
  obtain ⟨rfl, rfl⟩ := heq
  have h₁ := takeFirst_only htake
  split
  · have hrf₁ : s₁.refs r = some rf := by
      rw [h₁.rest]
      exact hrf
    exact h₁.still.trans (Still.setRef hrf₁ (by simp) (by simp))
  · exact h₁.still

theorem freeDeathOf_still {r : RefId} {rf : Ref} (hrf : s.refs r = some rf)
    (hrun : freeDeathOf s rf.death = .ok s') :
    Still s { s' with refs := Function.update s'.refs r none } := by
  have hrefs : ∀ {q qf}, Function.update s.refs r none q = some qf → ∃ qf₀, s.refs q = some qf₀ ∧
      qf.entries = qf₀.entries ∧ qf.death = qf₀.death := by
    intro q qf hqf
    by_cases hq : q = r
    · simp [hq] at hqf
    · rw [Function.update_of_ne hq] at hqf
      exact ⟨qf, hqf, rfl, rfl⟩
  have hforth : ∀ {q qf e}, s.refs q = some qf → qf.death = some e → rf.death ≠ some e →
      ∃ qf', Function.update s.refs r none q = some qf' ∧ qf'.entries = qf.entries ∧
        qf'.death = some e := by
    intro q qf e hqf he hne
    refine ⟨qf, ?_, rfl, he⟩
    rw [Function.update_of_ne, hqf]
    rintro rfl
    obtain rfl : rf = qf := Option.some.inj (hrf.symm.trans hqf)
    exact hne he
  cases hdeath : rf.death with
  | none =>
      obtain rfl : s = s' := by simpa [freeDeathOf, hdeath] using hrun
      exact ⟨le_rfl, rfl, fun _ => rfl, fun h => .inl ⟨_, h, rfl⟩, fun h => .inl (hrefs h),
        fun _ => .inl ⟨rfl, fun _ => rfl, fun _ hqf he => hforth hqf he (by simp [hdeath])⟩⟩
  | some d =>
      simp only [hdeath, freeDeathOf, except_bind_eq_ok, deref_eq_ok, except_pure_eq_ok] at hrun
      obtain ⟨de, hde, rfl⟩ := hrun
      have hun : ∃ td, unlinkDeath s d de = { s with todo := td } ∧
          (∀ q, (td q).filter Work.isTxn = (s.todo q).filter Work.isTxn) ∧
          (∀ q e, e ≠ d → (td q).count (.death e) = (s.todo q).count (.death e)) ∧
          ∀ q, .death d ∈ td q → .death d ∈ s.todo q ∧ de.entry ≠ some q := by
        cases hentry : de.entry with
        | none =>
            exact ⟨s.todo, by simp [unlinkDeath, hentry], fun _ => rfl, fun _ _ _ => rfl,
              fun q h => ⟨h, by simp⟩⟩
        | some q₀ =>
            refine ⟨Function.update s.todo q₀ ((s.todo q₀).filter (· ≠ .death d)), ?_, ?_, ?_, ?_⟩
            · simp [unlinkDeath, hentry, State.listDel, State.setTodo]
            · intro q
              by_cases hq : q = q₀
              · subst hq
                rw [Function.update_self, List.filter_filter]
                refine List.filter_congr fun w _ => ?_
                cases w <;> simp [Work.isTxn]
              · rw [Function.update_of_ne hq]
            · intro q e he
              by_cases hq : q = q₀
              · subst hq
                rw [Function.update_self, List.count_filter (by simpa using he)]
              · rw [Function.update_of_ne hq]
            · intro q hmem
              by_cases hq : q = q₀
              · subst hq
                simp at hmem
              · rw [Function.update_of_ne hq] at hmem
                exact ⟨hmem, fun h => hq (Option.some.inj h).symm⟩
      obtain ⟨td, hun, hitems, hother, hself⟩ := hun
      rw [hun]
      refine ⟨le_rfl, rfl, hitems, fun h => .inl ⟨_, h, rfl⟩, fun h => .inl (hrefs h), fun e => ?_⟩
      by_cases he : e = d
      · subst he
        refine .inr ⟨Function.update_self ..,
          ⟨r, rf, hrf, hdeath, fun _ => Function.update_self ..⟩,
          fun q hmem => ⟨(hself q hmem).1, fun de' hde' => ?_⟩⟩
        obtain rfl : de = de' := by simpa [hde] using hde'
        exact (hself q hmem).2
      · refine .inl ⟨Function.update_of_ne he .., fun q => hother q e he, fun _ hqf hd => ?_⟩
        exact hforth hqf hd (by rw [hdeath]; simpa using Ne.symm he)

theorem dropStrong_only {rf : Ref} (hrun : dropStrong s rf = .ok s') : NodesOnly s s' := by
  unfold dropStrong at hrun
  split at hrun
  · simp only [Except.ok.injEq] at hrun
    exact hrun ▸ NodesOnly.refl s
  · exact binderDecNode_only hrun

theorem binderDeleteRef_still {r : RefId} (hrun : binderDeleteRef s r = .ok s') : Still s s' := by
  simp only [binderDeleteRef, except_bind_eq_ok, deref_eq_ok, except_pure_eq_ok] at hrun
  obtain ⟨rf, hrf, s₁, hdrop, nd, hnd, s₂, hdec, s₃, hdeath, rfl⟩ := hrun
  have h₁ := dropStrong_only hdrop
  have h₂ : NodesOnly s₁ (s₁.setNode rf.node { nd with refs := nd.refs.filter (· ≠ r) }) :=
    NodesOnly.setNode hnd rfl
  have h₁₃ := (h₁.trans h₂).trans (binderDecNode_only hdec)
  have hrf₂ : s₂.refs r = some rf := by
    rw [h₁₃.rest]
    exact hrf
  exact ((Still.eraseRef s r rf.proc).trans h₁₃.still).trans (freeDeathOf_still hrf₂ hdeath)

theorem binderDecRef_still {r : RefId} {strong : Bool} (hrun : binderDecRef s r strong = .ok s') :
    Still s s' := by
  simp only [binderDecRef, except_bind_eq_ok, deref_eq_ok] at hrun
  obtain ⟨rf, hrf, hrun⟩ := hrun
  split at hrun
  · simp only [except_pure_eq_ok] at hrun
    exact hrun ▸ Still.refl s
  · simp only [except_bind_eq_ok] at hrun
    obtain ⟨s₁, hlast, hrun⟩ := hrun
    have h₁ : Still s (s.setRef r (rf.dec strong)) := Still.setRef hrf (by simp) (by simp)
    have h₂ : NodesOnly (s.setRef r (rf.dec strong)) s₁ := by
      unfold giveLast at hlast
      split at hlast
      · exact binderDecNode_only hlast
      · simp only [Except.ok.injEq] at hlast
        exact hlast ▸ NodesOnly.refl _
    have h₁₂ := h₁.trans h₂.still
    split at hrun
    · exact h₁₂.trans (binderDeleteRef_still hrun)
    · simp only [except_pure_eq_ok] at hrun
      exact hrun ▸ h₁₂

theorem binderGetRefForNode_still {p : ProcId} {n : NodeId} {alloc : Bool} {x : Option RefId}
    (hrun : binderGetRefForNode s p n alloc = .ok (x, s')) : Still s s' := by
  rcases binderGetRefForNode_eq hrun with ⟨r, -, -, rfl⟩ | ⟨-, -, rfl⟩ | ⟨nd, -, -, hnd, -, rfl⟩
  · exact Still.refl _
  · exact Still.refl _
  · exact Still.addRef s p hnd

/-! ### Translating and releasing objects -/

theorem objectNode_still {c : TranslateCtx} {k : ℕ} {data : Data} {off : ℕ} {x : Option NodeId}
    (hrun : objectNode c k s data off = .ok (x, s')) : Still s s' := by
  unfold objectNode at hrun
  split at hrun
  · simp only [Except.ok.injEq, Prod.mk.injEq] at hrun
    exact hrun.2 ▸ Still.refl s
  · split at hrun
    · rename_i hnew
      simp only [Except.ok.injEq, Prod.mk.injEq] at hrun
      unfold binderNewNode at hnew
      split at hnew
      · simp only [Prod.mk.injEq, true_and] at hnew
        exact hrun.2 ▸ hnew ▸ Still.refl s
      · simp at hnew
    · rename_i n s₁ hnew
      simp only [except_bind_eq_ok, deref_eq_ok, except_pure_eq_ok, Prod.mk.injEq] at hrun
      obtain ⟨nd, hnd, -, rfl⟩ := hrun
      unfold binderNewNode at hnew
      split at hnew
      · simp at hnew
      · simp only [Prod.mk.injEq, Option.some.injEq] at hnew
        obtain ⟨rfl, rfl⟩ := hnew
        have hset : Function.update s.nodes s.nextId (some (Node.fresh c.proc (data.binder off)
            (data.cookie off))) s.nextId = some nd := hnd
        simp only [Function.update_self, Option.some.injEq] at hset
        have h : Still s (addNode s c.proc
            (Node.fresh c.proc (data.binder off) (data.cookie off))) := Still.addNode s c.proc rfl
        refine ⟨h.nextId, rfl, fun _ => rfl, fun {m md} hmd => ?_,
          fun hr => .inl ⟨_, hr, rfl, rfl⟩,
            fun _ => .inl ⟨rfl, fun _ => rfl, fun _ hrf hd => ⟨_, hrf, rfl, hd⟩⟩⟩
        by_cases hm : m = s.nextId
        · subst hm
          simp only [State.setNode, Function.update_self, Option.some.injEq] at hmd
          exact .inr ⟨le_rfl, by rw [← hmd, ← hset]; rfl⟩
        · simp only [State.setNode, Function.update_of_ne hm] at hmd
          exact h.nodes hmd

theorem translateBinder_still {c : TranslateCtx} {k : ℕ} {data data' : Data} {off : ℕ}
    {strong ok : Bool} (hrun : translateBinder c k s data off strong = .ok (ok, s', data')) :
    Still s s' := by
  simp only [translateBinder, except_bind_eq_ok] at hrun
  obtain ⟨⟨x, s₁⟩, hnode, hrun⟩ := hrun
  have h₁ := objectNode_still hnode
  cases x with
  | none =>
      simp only [except_pure_eq_ok, Prod.mk.injEq] at hrun
      exact hrun.2.1 ▸ h₁
  | some n =>
      simp only [except_bind_eq_ok, deref_eq_ok] at hrun
      obtain ⟨nd, -, hrun⟩ := hrun
      split at hrun
      · simp only [except_pure_eq_ok, Prod.mk.injEq] at hrun
        exact hrun.2.1 ▸ h₁
      · split at hrun
        · simp only [except_pure_eq_ok, Prod.mk.injEq] at hrun
          exact hrun.2.1 ▸ h₁
        · simp only [except_bind_eq_ok] at hrun
          obtain ⟨⟨y, s₂⟩, hget, hrun⟩ := hrun
          have h₂ := h₁.trans (binderGetRefForNode_still hget)
          cases y with
          | none =>
              simp only [except_pure_eq_ok, Prod.mk.injEq] at hrun
              exact hrun.2.1 ▸ h₂
          | some r =>
              simp only [except_bind_eq_ok, except_pure_eq_ok, Prod.mk.injEq] at hrun
              obtain ⟨rf, -, ⟨ok', s₃⟩, hinc, -, rfl, -⟩ := hrun
              exact h₂.trans (binderIncRef_still hinc)

theorem translateHandle_still {c : TranslateCtx} {k : ℕ} {data data' : Data} {off : ℕ}
    {strong ok : Bool} (hrun : translateHandle c k s data off strong = .ok (ok, s', data')) :
    Still s s' := by
  simp only [translateHandle] at hrun
  cases hget : binderGetRef s c.proc (data.handle off) with
  | none =>
      simp only [hget, except_pure_eq_ok, Prod.mk.injEq] at hrun
      exact hrun.2.1 ▸ Still.refl s
  | some r =>
      simp only [hget] at hrun
      split at hrun
      · simp only [except_pure_eq_ok, Prod.mk.injEq] at hrun
        exact hrun.2.1 ▸ Still.refl s
      · simp only [except_bind_eq_ok, deref_eq_ok] at hrun
        obtain ⟨rf, -, nd, -, hrun⟩ := hrun
        split at hrun
        · simp only [except_bind_eq_ok, except_pure_eq_ok, Prod.mk.injEq] at hrun
          obtain ⟨⟨ok', s₁⟩, hinc, -, rfl, -⟩ := hrun
          exact (binderIncNode_only hinc).still
        · simp only [except_bind_eq_ok] at hrun
          obtain ⟨⟨y, s₁⟩, hnew, hrun⟩ := hrun
          have h₁ := binderGetRefForNode_still hnew
          cases y with
          | none =>
              simp only [except_pure_eq_ok, Prod.mk.injEq] at hrun
              exact hrun.2.1 ▸ h₁
          | some r' =>
              simp only [except_bind_eq_ok, except_pure_eq_ok, Prod.mk.injEq] at hrun
              obtain ⟨rf', -, ⟨ok', s₂⟩, hinc, -, rfl, -⟩ := hrun
              exact h₁.trans (binderIncRef_still hinc)

theorem translateFd_still {c : TranslateCtx} {k : ℕ} {data data' : Data} {off : ℕ} {ok : Bool}
    (hrun : translateFd c k s data off = (ok, s', data')) : Still s s' := by
  have hsame : ∀ {x : Bool × State × Data}, x.2.1 = s → x = (ok, s', data') → Still s s' := by
    rintro _ hx rfl
    exact hx ▸ Still.refl _
  unfold translateFd at hrun
  split at hrun
  · exact hsame rfl hrun
  · split at hrun
    · exact hsame rfl hrun
    · split at hrun
      · exact hsame rfl hrun
      · split at hrun
        · exact hsame rfl hrun
        · simp only [Prod.mk.injEq] at hrun
          exact hrun.2.1 ▸ Still.files s _

theorem translateObject_still {c : TranslateCtx} {k : ℕ} {data data' : Data} {off : ℕ} {ok : Bool}
    (hrun : translateObject c k s data off = .ok (ok, s', data')) : Still s s' := by
  unfold translateObject at hrun
  split at hrun
  · simp only [Except.ok.injEq, Prod.mk.injEq] at hrun
    exact hrun.2.1 ▸ Still.refl s
  · split at hrun
    · exact translateBinder_still hrun
    · exact translateHandle_still hrun
    · simp only [Except.ok.injEq] at hrun
      exact translateFd_still hrun
    · simp only [Except.ok.injEq, Prod.mk.injEq] at hrun
      exact hrun.2.1 ▸ Still.refl s

theorem translateObjects_still {c : TranslateCtx} {k : ℕ} {data data' : Data} {offs : List ℕ}
    {x : Option ℕ} (hrun : translateObjects c k s data offs = .ok (x, s', data')) : Still s s' := by
  induction offs generalizing k s data with
  | nil =>
      simp only [translateObjects, Except.ok.injEq, Prod.mk.injEq] at hrun
      exact hrun.2.1 ▸ Still.refl s
  | cons off offs ih =>
      simp only [translateObjects, except_bind_eq_ok] at hrun
      obtain ⟨⟨ok, s₁, data₁⟩, hobj, hrun⟩ := hrun
      have h₁ := translateObject_still hobj
      split at hrun
      · exact h₁.trans (ih hrun)
      · simp only [except_pure_eq_ok, Prod.mk.injEq] at hrun
        exact hrun.2.1 ▸ h₁

theorem fillBuffer_still {c : TranslateCtx} {tr : TransactionData} {data' : Data} {x : Option ℕ}
    (hrun : fillBuffer c s tr = .ok (x, s', data')) : Still s s' := by
  unfold fillBuffer at hrun
  split at hrun
  · simp only [Except.ok.injEq, Prod.mk.injEq] at hrun
    exact hrun.2.1 ▸ Still.refl s
  · exact translateObjects_still hrun

theorem holdTarget_still {node : Option NodeId} (hrun : holdTarget s node = .ok s') :
    Still s s' := by
  cases node with
  | none =>
      obtain rfl : s = s' := by simpa [holdTarget] using hrun
      exact Still.refl s
  | some n =>
      simp only [holdTarget] at hrun
      cases hinc : binderIncNode s n true false none with
      | error e => simp [hinc, Except.map] at hrun
      | ok x =>
          obtain ⟨ok, s₁⟩ := x
          simp only [hinc, Except.map, Except.ok.injEq] at hrun
          exact hrun ▸ (binderIncNode_only hinc).still

theorem releaseObject_still {p : ProcId} {dataSize off : ℕ} {data : Data} {failed : Bool}
    (hrun : releaseObject s p dataSize data failed off = .ok s') : Still s s' := by
  have hsame : (Except.ok s : Except Fault State) = .ok s' → Still s s' := by
    rintro ⟨⟩
    exact Still.refl s
  unfold releaseObject at hrun
  split at hrun
  · exact hsame hrun
  · split at hrun
    · split at hrun
      · exact hsame hrun
      · exact (binderDecNode_only hrun).still
    · split at hrun
      · exact hsame hrun
      · exact binderDecRef_still hrun
    · simp only [Except.ok.injEq] at hrun
      split at hrun
      · unfold taskCloseFd at hrun
        split at hrun
        · exact hrun ▸ Still.refl s
        · exact hrun ▸ Still.files s _
      · exact hrun ▸ Still.refl s
    · exact hsame hrun

theorem releaseObjects_still {p : ProcId} {dataSize : ℕ} {data : Data} {failed : Bool}
    {offs : List ℕ} (hrun : releaseObjects s p dataSize data failed offs = .ok s') :
    Still s s' := by
  induction offs generalizing s with
  | nil =>
      obtain rfl : s = s' := by simpa [releaseObjects] using hrun
      exact Still.refl s
  | cons off offs ih =>
      simp only [releaseObjects, except_bind_eq_ok] at hrun
      obtain ⟨s₁, hobj, hrun⟩ := hrun
      exact (releaseObject_still hobj).trans (ih hrun)

theorem bufferRelease_still {p : ProcId} {b : Buffer} {failedAt : Option ℕ}
    (hrun : binderTransactionBufferRelease s p b failedAt = .ok s') : Still s s' := by
  simp only [binderTransactionBufferRelease, except_bind_eq_ok] at hrun
  obtain ⟨s₁, htarget, hrun⟩ := hrun
  have h₁ : Still s s₁ := by
    unfold releaseTarget at htarget
    split at htarget
    · exact (binderDecNode_only htarget).still
    · simp only [Except.ok.injEq] at htarget
      exact htarget ▸ Still.refl s
  exact h₁.trans (releaseObjects_still hrun)

/-! ### Commands -/

theorem incCommand_still {p : ProcId} {handle : ℕ} {strong alloc : Bool}
    (hrun : incCommand s p handle strong alloc = .ok s') : Still s s' := by
  simp only [incCommand, except_bind_eq_ok] at hrun
  obtain ⟨⟨x, s₁⟩, href, hrun⟩ := hrun
  have h₁ : Still s s₁ := by
    unfold incCommandRef at href
    split at href
    · simp only [except_bind_eq_ok] at href
      obtain ⟨⟨y, s₂⟩, hget, href⟩ := href
      cases y with
      | none => cases href
      | some r =>
          simp only [except_pure_eq_ok, Prod.mk.injEq] at href
          exact href.2 ▸ binderGetRefForNode_still hget
    · simp only [Except.ok.injEq, Prod.mk.injEq] at href
      exact href.2 ▸ Still.refl s
  cases x with
  | none =>
      simp only [except_pure_eq_ok] at hrun
      exact hrun ▸ h₁
  | some r =>
      simp only [except_bind_eq_ok, except_pure_eq_ok] at hrun
      obtain ⟨⟨ok, s₂⟩, hinc, rfl⟩ := hrun
      exact h₁.trans (binderIncRef_still hinc)

theorem decCommand_still {p : ProcId} {handle : ℕ} {strong : Bool}
    (hrun : decCommand s p handle strong = .ok s') : Still s s' := by
  unfold decCommand at hrun
  split at hrun
  · simp only [Except.ok.injEq] at hrun
    exact hrun ▸ Still.refl s
  · exact binderDecRef_still hrun

theorem doneCommand_still {p : ProcId} {ptr cookie : ℕ} {strong : Bool}
    (hrun : doneCommand s p ptr cookie strong = .ok s') : Still s s' := by
  have hsame : (pure s : Except Fault State) = .ok s' → Still s s' := by
    intro h
    simp only [except_pure_eq_ok] at h
    exact h ▸ Still.refl s
  simp only [doneCommand] at hrun
  split at hrun
  · exact hsame hrun
  · simp only [except_bind_eq_ok, deref_eq_ok] at hrun
    obtain ⟨nd, hnd, hrun⟩ := hrun
    split at hrun
    · exact hsame hrun
    · split at hrun
      · split at hrun
        · exact hsame hrun
        · have h₁ : NodesOnly s (s.setNode _ { nd with pendingStrongRef := false }) :=
            NodesOnly.setNode hnd rfl
          exact (h₁.trans (binderDecNode_only hrun)).still
      · split at hrun
        · exact hsame hrun
        · have h₁ : NodesOnly s (s.setNode _ { nd with pendingWeakRef := false }) :=
            NodesOnly.setNode hnd rfl
          exact (h₁.trans (binderDecNode_only hrun)).still

theorem notifyDeath_rest {rs : List RefId} (hrun : notifyDeath s rs = .ok s') :
    s' = { s with deaths := s'.deaths, todo := s'.todo } ∧
      ∀ q, (s'.todo q).filter Work.isTxn = (s.todo q).filter Work.isTxn := by
  induction rs generalizing s with
  | nil =>
      obtain rfl : s = s' := by simpa [notifyDeath] using hrun
      exact ⟨rfl, fun q => rfl⟩
  | cons r rs ih =>
      simp only [notifyDeath, except_bind_eq_ok, deref_eq_ok] at hrun
      obtain ⟨rf, hrf, hrun⟩ := hrun
      split at hrun
      · exact ih hrun
      · simp only [except_bind_eq_ok, deref_eq_ok] at hrun
        obtain ⟨de, hde, _, _, hrun⟩ := hrun
        obtain ⟨hrest, hitems⟩ := ih hrun
        refine ⟨hrest, fun q => (hitems q).trans ?_⟩
        by_cases hq : q = .proc rf.proc
        · subst hq
          simp [State.listAddTail, State.setTodo, State.setDeath, Work.isTxn]
        · simp [State.listAddTail, State.setTodo, State.setDeath, hq]

end Still

end Driver

end BinderForLinux
