import BinderForLinux.Driver.Pool
import BinderForLinux.Driver.Routes

/-!
# Processes and their own nodes

No process has a reference to one of its own nodes, as long as nobody uses handle 0
while it is the context manager: a transaction turns a handle of the receiver's own
node into the binder, and a reference to another node is no reference of its owner.
Then nobody sends a transaction to itself either.
-/

namespace BinderForLinux

namespace Driver

open Library

/-- No process has a reference to a node of its own. -/
def State.Foreign (s : State) : Prop :=
  ∀ r rf nd, s.refs r = some rf → s.nodes rf.node = some nd → nd.proc ≠ some rf.proc

def RefsFrom (s s' : State) : Prop :=
  ∀ r rf', s'.refs r = some rf' → ∃ rf, s.refs r = some rf ∧ rf'.entries = rf.entries

section Foreign

variable {L : Layout} {C : Condition} {d : Option ProcId} {s s' s'' : State} {e : Event}
  {p : ProcId} {th : ThreadId}

theorem RefsFrom.of_eq (h : s'.refs = s.refs) : RefsFrom s s' :=
  fun _ _ hrf => ⟨_, h ▸ hrf, rfl⟩

theorem RefsFrom.trans (h : RefsFrom s s') (h' : RefsFrom s' s'') : RefsFrom s s'' := by
  intro r rf'' hrf''
  obtain ⟨rf', hrf', he'⟩ := h' r rf'' hrf''
  obtain ⟨rf, hrf, he⟩ := h r rf' hrf'
  exact ⟨rf, hrf, he'.trans he⟩

theorem RefsFrom.setRef {r : RefId} {rf rf' : Ref} (hrf : s.refs r = some rf)
    (he : rf'.entries = rf.entries) : RefsFrom s (s.setRef r rf') := by
  intro q qf hqf
  by_cases hq : q = r
  · subst hq
    simp only [State.setRef, Function.update_self, Option.some.injEq] at hqf
    exact ⟨rf, hrf, hqf ▸ he⟩
  · simp only [State.setRef, Function.update_of_ne hq] at hqf
    exact ⟨qf, hqf, rfl⟩

theorem RefsFrom.of_nodeKept {n : NodeId} {nd nd' : Node} {new : Queue → Prop}
    (h : NodeKept s s' n nd nd' new) : RefsFrom s s' := by
  obtain ⟨_, _, rfl, -⟩ := h
  exact .of_eq rfl

theorem RefsFrom.incRef (ht : RefTables s) {r : RefId} {rf : Ref} {strong ok : Bool}
    {target : Option Queue} (hrf : s.refs r = some rf)
    (hinc : binderIncRef s r strong target = .ok (ok, s')) : RefsFrom s s' := by
  obtain ⟨nd, hnd⟩ := ht.ref_node hrf
  obtain ⟨s₀, hkept, rfl, -⟩ := incRef_spec hinc hrf hnd
  have hrf₀ : s₀.refs r = some rf := by
    obtain ⟨_, _, rfl, -⟩ := hkept
    exact hrf
  refine (RefsFrom.of_nodeKept hkept).trans (RefsFrom.setRef hrf₀ ?_)
  split
  · simp
  · rfl

theorem RefsFrom.deleteRef {r : RefId} (hdel : binderDeleteRef s r = .ok s') :
    RefsFrom s s' := by
  obtain ⟨rf, nd, -, -, x, td, ns, dead, deaths, rfl, -⟩ := binderDeleteRef_eq hdel
  intro q qf hqf
  by_cases hq : q = r
  · simp [hq] at hqf
  · simp only [Function.update_of_ne hq] at hqf
    exact ⟨qf, hqf, rfl⟩

theorem RefsFrom.decRef (ht : RefTables s) {r : RefId} {rf : Ref} {strong : Bool}
    (hrf : s.refs r = some rf) (hdec : binderDecRef s r strong = .ok s') : RefsFrom s s' := by
  obtain ⟨nd, hnd⟩ := ht.ref_node hrf
  rcases decRef_spec ht hdec hrf hnd with ⟨-, rfl⟩ | ⟨-, s₀, hkept, hrest⟩
  · exact .of_eq rfl
  · have hrf₀ : s₀.refs r = some rf := by
      obtain ⟨_, _, rfl, -⟩ := hkept
      exact hrf
    have hmid : RefsFrom s (s₀.setRef r (rf.dec strong)) :=
      (RefsFrom.of_nodeKept hkept).trans (RefsFrom.setRef hrf₀ (by simp))
    rcases hrest with ⟨-, rfl⟩ | ⟨-, -, hdel⟩
    · exact hmid
    · exact hmid.trans (.deleteRef hdel)

theorem freeNode_refs (s : State) (n : NodeId) (nd : Node) : (freeNode s n nd).refs = s.refs := by
  obtain ⟨_, _, _, heq, -⟩ := nodeFreed_freeNode s n nd
  rw [heq]

theorem decNode_refs (s : State) (n : NodeId) (nd : Node) (strong internal : Bool) :
    (decNode s n nd strong internal).refs = s.refs := by
  rcases @decNode_eq s n nd _ strong internal rfl with
    ⟨-, _, _, heq, -⟩ | ⟨-, _, _, _, heq, -⟩
  · rw [heq]
  · rw [heq]

theorem State.Foreign.kept (hf : s.Foreign) (ht : RefTables s) (hrefs : RefsFrom s s')
    (hnodes : ∀ {n nd'}, n < s.nextId → s'.nodes n = some nd' →
      ∃ nd, s.nodes n = some nd ∧ (nd'.proc = nd.proc ∨ nd'.proc = none)) : s'.Foreign := by
  intro r rf' nd' hrf' hnd'
  obtain ⟨rf, hrf, he⟩ := hrefs r rf' hrf'
  simp only [Ref.entries, Prod.mk.injEq] at he
  obtain ⟨hproc, hnode, -⟩ := he
  obtain ⟨nd₀, hnd₀⟩ := ht.ref_node hrf
  obtain ⟨nd, hnd, hp⟩ := hnodes (ht.node_lt hnd₀) (hnode ▸ hnd')
  rcases hp with hp | hp
  · rw [hp, hproc]
    exact hf r rf nd hrf hnd
  · simp [hp]

theorem Change.foreign (hs : Coherent L d s) (hch : Change L s e s')
    (hnew : ∀ q o, e = .newRef q o → o ≠ some q) (hf : s.Foreign) : s'.Foreign := by
  have hkept : TablesKept L s s' → s'.Foreign := by
    intro hk
    refine hf.kept hs.tables (fun r rf' hrf' => ?_) fun _ hnd' => ⟨_, hk.nodes ▸ hnd', .inl rfl⟩
    obtain ⟨rf, hrf, hbare⟩ := map_eq_some_transfer (hk.refs r) hrf'
    have he : rf.bare.entries = rf'.bare.entries := congrArg Ref.entries hbare
    exact ⟨rf, hrf, he.symm⟩
  have hstays : e.stays → RefsFrom s s' → s'.Foreign := by
    intro he hrefs
    rcases hch.frame_cases hs.tables with hidle | ⟨-, hk⟩ | ⟨⟨q, rfl⟩, -⟩ | hr
    · exact hkept hidle.toTablesKept
    · exact hkept hk
    · exact absurd rfl (he q)
    · exact hf.kept hs.tables hrefs fun hn hnd' => by
        obtain ⟨nd, hnd, hp, -⟩ := hr.nodes hn hnd'
        exact ⟨nd, hnd, .inl hp⟩
  cases hch with
  | idle h => exact hkept h.toTablesKept
  | area h _ => exact hkept h
  | note => exact hstays (by rintro _ ⟨⟩) (.of_eq rfl)
  | tell => exact hstays (by rintro _ ⟨⟩) (.of_eq rfl)
  | forgetNode => exact hstays (by rintro _ ⟨⟩) (.of_eq (freeNode_refs ..))
  | hold => exact hstays (by rintro _ ⟨⟩) (.of_eq rfl)
  | drop => exact hstays (by rintro _ ⟨⟩) (.of_eq (decNode_refs ..))
  | lostObject => exact hf
  | done => exact hstays (by rintro _ ⟨⟩) (.of_eq (decNode_refs ..))
  | newNode => exact hstays (by rintro _ ⟨⟩) (.of_eq rfl)
  | newManager => exact hstays (by rintro _ ⟨⟩) (.of_eq rfl)
  | @newRef p n nd hnd hfind hdesc =>
      intro r rf md hrf hmd
      have hold : ∀ {m md'}, (addRef s p n nd).nodes m = some md' →
          ∃ md, s.nodes m = some md ∧ md'.proc = md.proc := by
        intro m md' hmd'
        rcases addRef_nodes.mp hmd' with ⟨rfl, rfl⟩ | ⟨-, hmd⟩
        · exact ⟨nd, hnd, rfl⟩
        · exact ⟨md', hmd, rfl⟩
      obtain ⟨md₀, hmd₀, hp⟩ := hold hmd
      rw [hp]
      rcases hs.tables.addRef_refs.mp hrf with ⟨rfl, rfl⟩ | hrf
      · obtain rfl : nd = md₀ := Option.some.inj (hnd.symm.trans hmd₀)
        exact hnew p nd.proc rfl
      · exact hf r rf md₀ hrf hmd₀
  | @holdRef r rf nd strong ok target s' hrf hnd hinc htarget =>
      exact hstays (by cases ok <;> rintro _ ⟨⟩) (.incRef hs.tables hrf hinc)
  | takeRef hrf hinc => exact hstays (by rintro _ ⟨⟩) (.incRef hs.tables hrf hinc)
  | dropRef hrf hdec => exact hstays (by rintro _ ⟨⟩) (.decRef hs.tables hrf hdec)
  | lostHandle => exact hf
  | giveRef hrf hdec => exact hstays (by rintro _ ⟨⟩) (.decRef hs.tables hrf hdec)
  | deleteRef hrf hdel =>
      refine hf.kept hs.tables (.deleteRef hdel) fun hn hnd' => ?_
      obtain ⟨nd, hnd, hp, -⟩ := (RefsOnly.deleteRef hdel).nodes hn hnd'
      exact ⟨nd, hnd, .inl hp⟩
  | @orphan p n nd hnd hproc hidle =>
      refine hf.kept hs.tables (.of_eq ?_) fun {m md'} _ hmd' => ?_
      · unfold Driver.orphan
        split <;> rfl
      · unfold Driver.orphan at hmd'
        by_cases hm : m = n
        · subst hm
          refine ⟨nd, hnd, ?_⟩
          split at hmd'
          · simp at hmd'
          · simp only [State.setNode, Function.update_self, Option.some.injEq] at hmd'
            exact .inr (hmd' ▸ rfl)
        · refine ⟨md', ?_, .inl rfl⟩
          split at hmd'
          · simpa [hm] using hmd'
          · simpa [State.setNode, hm] using hmd'
  | dropManager => exact hf

theorem Changes.foreign {es : List Event} (hes : Changes L s es s') (hs : Coherent L d s)
    (hok : ∀ e ∈ es, e.okFor d ∧ ∀ q o, e = .newRef q o → o ≠ some q) (hf : s.Foreign) :
    s'.Foreign := by
  refine (hes.invariant (P := fun s => Coherent L d s ∧ s.Foreign) ⟨hs, hf⟩ ?_).2
  rintro s₁ e s₂ he ⟨hs₁, hf₁⟩ hstep
  obtain ⟨hev, hnew⟩ := hok e he
  exact ⟨hs₁.change hstep hev, hstep.foreign hs₁ hnew hf₁⟩

end Foreign

/-! ### Transactions -/

section New

variable {L : Layout} {C : Condition} {d : Option ProcId} {s s' : State} {h o : List Obs}
  {p : ProcId} {th : ThreadId} {t u : TxnId} {tx : Transaction} {tg : Target}
  {tr : TransactionData} {reply : Bool} {env : TxnEnv} {e : ReturnError}

theorem binderPopTransaction_routes {target : Option ThreadId}
    (hrun : binderPopTransaction s target t = .ok s') : RoutesKept s s' := by
  simp only [binderPopTransaction, except_bind_eq_ok] at hrun
  obtain ⟨s₁, hpop, hfree⟩ := hrun
  have h₁ : RoutesKept s s₁ := by
    cases target with
    | none =>
        obtain rfl : s = s₁ := by simpa [popStack] using hpop
        exact .refl s
    | some th =>
        simp only [popStack, except_bind_eq_ok, deref_eq_ok, except_pure_eq_ok] at hpop
        obtain ⟨thr, hthr, _, _, tx, _, _, _, rfl⟩ := hpop
        exact .setThread hthr rfl
  exact h₁.trans (freeTxn_routes hfree)

theorem failReplyTo_routes {thr : Thread} (hrun : failReplyTo s th thr t e = .ok s') :
    RoutesKept s s' := by
  unfold failReplyTo at hrun
  split at hrun
  · cases hrun
    exact .refl s
  · simp only [except_bind_eq_ok, deref_eq_ok, except_pure_eq_ok] at hrun
    obtain ⟨s₁, hpop, thr₁, hthr₁, rfl⟩ := hrun
    exact (binderPopTransaction_routes hpop).trans (.setThread hthr₁ rfl)

theorem failedReplyLoop_routes {fuel : ℕ} (hrun : failedReplyLoop fuel s t e = .ok s') :
    RoutesKept s s' := by
  induction fuel generalizing s t with
  | zero => cases hrun
  | succ fuel ih =>
      simp only [failedReplyLoop, except_bind_eq_ok, deref_eq_ok] at hrun
      obtain ⟨tx, htx, hrun⟩ := hrun
      cases hfrom : tx.fromThread with
      | some th =>
          simp only [hfrom, except_bind_eq_ok, deref_eq_ok] at hrun
          obtain ⟨thr, hthr, hrun⟩ := hrun
          have h₁ : RoutesKept s (s.setThread th thr.shiftError) :=
            .setThread hthr (congrArg Prod.fst (shiftError_pool thr))
          exact h₁.trans (failReplyTo_routes hrun)
      | none =>
          simp only [hfrom, except_bind_eq_ok] at hrun
          obtain ⟨s₁, hpop, hrun⟩ := hrun
          have h₁ := binderPopTransaction_routes hpop
          cases hparent : tx.fromParent with
          | none =>
              obtain rfl : s₁ = s' := by simpa [hparent] using hrun
              exact h₁
          | some next =>
              simp only [hparent] at hrun
              exact h₁.trans (ih hrun)

theorem transactionFailed_routes {irt : Option TxnId}
    (hrun : transactionFailed s th e irt = .ok s') : RoutesKept s s' := by
  simp only [transactionFailed, except_bind_eq_ok, deref_eq_ok] at hrun
  obtain ⟨thr, hthr, _, _, hrun⟩ := hrun
  cases irt with
  | some irt =>
      simp only [binderSendFailedReply, except_bind_eq_ok] at hrun
      obtain ⟨tx, _, _, _, hrun⟩ := hrun
      have h₁ : RoutesKept s (s.setThread th { thr with returnError := .transactionComplete }) :=
        .setThread hthr rfl
      exact h₁.trans (failedReplyLoop_routes hrun)
  | none =>
      simp only [except_pure_eq_ok] at hrun
      exact hrun ▸ .setThread hthr rfl

theorem commitStacks_routes {oneWay : Bool} {q : Queue} {parent : Option TxnId}
    (hrun : commitStacks s th t tg reply oneWay = .ok (q, parent, s')) : RoutesKept s s' := by
  simp only [commitStacks] at hrun
  cases reply with
  | true =>
      simp only [↓reduceIte] at hrun
      split at hrun
      · cases hrun
      · simp only [except_bind_eq_ok, except_pure_eq_ok, Prod.mk.injEq] at hrun
        obtain ⟨s₁, hpop, -, -, rfl⟩ := hrun
        exact binderPopTransaction_routes hpop
  | false =>
      cases oneWay with
      | false =>
          simp only [Bool.false_eq_true, ↓reduceIte, Bool.not_false, except_bind_eq_ok,
            deref_eq_ok, except_pure_eq_ok, Prod.mk.injEq] at hrun
          obtain ⟨thr, hthr, -, -, rfl⟩ := hrun
          exact .setThread hthr rfl
      | true =>
          simp only [Bool.false_eq_true, ↓reduceIte, Bool.not_true] at hrun
          split at hrun
          · cases hrun
          · simp only [except_bind_eq_ok, except_pure_eq_ok, Prod.mk.injEq] at hrun
            obtain ⟨⟨q', s₁⟩, hasync, -, -, rfl⟩ := hrun
            obtain ⟨nd, -, ⟨-, -, rfl⟩ | ⟨-, -, rfl⟩⟩ := asyncTarget_eq hasync
            · exact .refl _
            · exact .of_eq le_rfl rfl rfl fun _ => rfl

theorem sendToTarget_new (hrun : sendToTarget L s p th t tg tr reply env = .ok s')
    (htx : s'.txns u = some tx) :
    (∃ tx₀, s.txns u = some tx₀ ∧ tx.Follows tx₀) ∨ tx.sender = p ∧ tx.toProc = some tg.proc := by
  simp only [sendToTarget, except_bind_eq_ok] at hrun
  obtain ⟨⟨x, ar⟩, -, hrun⟩ := hrun
  cases x with
  | none =>
      have h₁ : RoutesKept s (s.setArea tg.proc ar) := .of_eq le_rfl rfl rfl fun _ => rfl
      exact .inl ((h₁.trans (transactionFailed_routes hrun)).txns htx)
  | some a =>
      simp only [except_bind_eq_ok] at hrun
      obtain ⟨s₁, hhold, _, -, ⟨y, s₂, data⟩, hfill, hrun⟩ := hrun
      have h₀ : RoutesKept s ((s.setArea tg.proc ar).updateBuffer tg.proc a Buffer.cleared) :=
        .of_eq le_rfl rfl rfl fun _ => rfl
      have h₂ := (h₀.trans (Calm.routes (holdTarget_still hhold).calm)).trans
        (Calm.routes (fillBuffer_still hfill).calm)
      cases y with
      | none =>
          simp only [commitTransaction, except_bind_eq_ok, except_pure_eq_ok] at hrun
          obtain ⟨_, -, _, -, ⟨q, parent, s₃⟩, hstacks, rfl⟩ := hrun
          have h₃ := h₂.trans (commitStacks_routes hstacks)
          change Function.update s₃.txns t (some (newTransaction p th tg tr reply env a parent)) u =
            some tx at htx
          by_cases hu : u = t
          · subst hu
            simp only [Function.update_self, Option.some.injEq] at htx
            exact .inr ⟨htx ▸ rfl, htx ▸ rfl⟩
          · rw [Function.update_of_ne hu] at htx
            exact .inl (h₃.txns htx)
      | some k =>
          simp only [unwindBuffer, except_bind_eq_ok, except_pure_eq_ok] at hrun
          obtain ⟨s₃, ⟨_, -, s₄, hrel, ar', -, rfl⟩, hrun⟩ := hrun
          have h₃ : RoutesKept s₄ (s₄.setArea tg.proc ar') := .of_eq le_rfl rfl rfl fun _ => rfl
          have h₄ := ((h₂.trans (Calm.routes (bufferRelease_still hrel).calm)).trans h₃).trans
            (transactionFailed_routes hrun)
          exact .inl (h₄.txns htx)

theorem binderTransaction_new (hrun : binderTransaction L s p th tr reply env = .ok s')
    (htx : s'.txns u = some tx) :
    (∃ tx₀, s.txns u = some tx₀ ∧ tx.Follows tx₀) ∨
      ∃ tg s₁, selectTarget s p th tr reply env = .ok (.target tg, s₁) ∧ tx.sender = p ∧
        tx.toProc = some tg.proc := by
  simp only [binderTransaction, except_bind_eq_ok] at hrun
  obtain ⟨⟨sel, s₁⟩, hsel, hrun⟩ := hrun
  have h₁ : RoutesKept s s₁ := by
    rcases selectTarget_state hsel with rfl | ⟨thr, x, hthr, rfl⟩
    · exact .refl _
    · exact .setThread hthr rfl
  cases sel with
  | refused e irt => exact .inl ((h₁.trans (transactionFailed_routes hrun)).txns htx)
  | target tg =>
      simp only at hrun
      split at hrun
      · exact .inl ((h₁.trans (transactionFailed_routes hrun)).txns htx)
      · rcases sendToTarget_new hrun htx with ⟨tx₁, htx₁, hf⟩ | hnew
        · obtain ⟨tx₀, htx₀, hf₀⟩ := h₁.txns htx₁
          exact .inl ⟨tx₀, htx₀, hf₀.trans hf⟩
        · exact .inr ⟨tg, s₁, hsel, hnew⟩

/-- The transaction was there before, from the same process to the same one. -/
def Originates (s s' : State) : Prop :=
  ∀ u tx', s'.txns u = some tx' → ∃ tx, s.txns u = some tx ∧ tx'.sender = tx.sender ∧
    (tx'.toProc = tx.toProc ∨ tx'.toProc = none)

theorem RoutesKept.originates (hk : RoutesKept s s') : Originates s s' := by
  intro u tx' htx'
  obtain ⟨tx, htx, hf⟩ := hk.txns htx'
  exact ⟨tx, htx, hf.sender, hf.target.imp (fun h => h.1) fun h => h.1⟩

theorem Originates.trans {s'' : State} (h : Originates s s') (h' : Originates s' s'') :
    Originates s s'' := by
  intro u tx'' htx''
  obtain ⟨tx', htx', hs', hp'⟩ := h' u tx'' htx''
  obtain ⟨tx, htx, hs, hp⟩ := h u tx' htx'
  refine ⟨tx, htx, hs'.trans hs, ?_⟩
  rcases hp' with hp' | hp'
  · exact hp.imp hp'.trans hp'.trans
  · exact .inr hp'

theorem Received.originates (hdel : Received s s') : Originates s s' := by
  obtain @⟨p, th, q, t, thr, ws, tx, x, -, -, -, -, htx, -, -, hrest⟩ := hdel
  intro u ux hux
  rw [hrest] at hux
  by_cases hu : u = t
  · subst hu
    simp only [Function.update_self, Option.some.injEq] at hux
    subst hux
    exact ⟨tx, htx, rfl, .inl rfl⟩
  · simp only [Function.update_of_ne hu] at hux
    exact ⟨ux, hux, rfl, .inl rfl⟩

theorem Queued.originates {b : Buffer} {x : ProcId × ℕ} {q : Queue}
    (hq : Queued s s' th t tg tx b x q) (hu : u ≠ t) : s'.txns u = s.txns u := by
  rw [hq.rest]
  exact Function.update_of_ne hu ..

theorem Transacted.originates (hsent : Transacted s p th t s') {tx' : Transaction} (hu : u ≠ t)
    (htx' : s'.txns u = some tx') :
    ∃ tx, s.txns u = some tx ∧ tx'.sender = tx.sender ∧
      (tx'.toProc = tx.toProc ∨ tx'.toProc = none) := by
  have hcalm : ∀ {s₁}, Calm s s₁ → s₁.txns u = some tx' → _ :=
    fun hc htx₁ => (Calm.routes hc).originates u tx' htx₁
  cases hsent with
  | failed h => exact hcalm h htx'
  | call h _ _ hq => exact hcalm h ((hq.originates hu).symm.trans htx')
  | oneWay h _ _ _ _ _ hq => exact hcalm h ((hq.originates hu).symm.trans htx')
  | waiting h _ _ _ _ _ hq => exact hcalm h ((hq.originates hu).symm.trans htx')
  | reply h _ _ _ hq => exact hcalm h ((hq.originates hu).symm.trans htx')

theorem WorkStep.originates (hstep : WorkStep C d s o s') (hs : Linked s) (ht : TakesTurns C d h s)
    (hv : Served C d h s) (ho : ∀ x ∈ o, x.isAccepted = false) : Originates s s' := by
  rcases hstep.routes_or ht hv with hk | hdel | ⟨p, th, thr, hthr, hproc, hsent⟩
  · exact hk.originates
  · exact hdel.originates
  · intro u tx' htx'
    have hfresh : s.txns s.nextId = none := by
      cases htx : s.txns s.nextId with
      | none => rfl
      | some tx => exact absurd (hs.txns_lt htx) (lt_irrefl _)
    refine hsent.originates ?_ htx'
    rintro rfl
    rw [hstep.txns_none ho hfresh] at htx'
    cases htx'

/-- What is known of a state that a run reaches. -/
abbrev Settled (C : Condition) (d : Option ProcId) (h : List Obs) (s : State) : Prop :=
  (TakesTurns C d h s ∧ Deaths C d h s ∧ Served C d h s) ∧ Routed s

theorem WorkSteps.originates (L : Layout) (hsteps : WorkSteps C d s o s') (hs : Linked s)
    (hI : Settled C d h s) (ho : ∀ x ∈ o, x.isAccepted = false) : Originates s s' := by
  obtain ⟨es, hes, rfl⟩ := hsteps
  induction hes generalizing h with
  | nil s => exact (RoutesKept.refl s).originates
  | @cons s s₁ s' o es hstep _ ih =>
      have hnone : ∀ x ∈ o, x.isAccepted = false :=
        fun x hx => ho x (List.mem_flatten.mpr ⟨o, List.mem_cons_self, hx⟩)
      refine (hstep.originates hs hI.1.1 hI.1.2.2 hnone).trans (ih (hstep.linked hs)
        ((routed_steady (L := L)).step hs hI hstep) fun x hx => ho x ?_)
      obtain ⟨o', ho', hx⟩ := List.mem_flatten.mp hx
      exact List.mem_flatten.mpr ⟨o', List.mem_cons_of_mem _ ho', hx⟩

theorem Part.originates_or (hpart : Part L C s o s') (hs : Coherent L none s) (hlinked : Linked s)
    (hI : Settled C none h s) : Originates s s' ∨
      ∃ p th thr c, s.threads th = some thr ∧ thr.proc = p ∧ C s p th (.command c) ∧
        c.transacts = true ∧ execCommand L s p th c = .ok s' := by
  have hsteps : (∀ x ∈ o, x.isAccepted = false) → Originates s s' := by
    intro ho
    rcases hpart.steps hs hlinked with hw | ⟨p, -, -, hw⟩
    · exact hw.originates L hlinked hI ho
    · exact hw.originates L hlinked ((routed_steady (L := L)).exempt hI) (by simp)
  cases hpart with
  | @command p th thr c _ hthr hproc herr hC hrun =>
      cases hc : c.transacts with
      | true => exact .inr ⟨p, th, thr, c, hthr, hproc, hC, hc, hrun⟩
      | false =>
          have hw := execCommand_deathSteps hs hthr hproc hC hc hrun
          exact .inl (hw.originates L hlinked hI (deathLog_isAccepted s p c))
  | retry =>
      refine .inl (hsteps fun x hx => ?_)
      obtain ⟨e, rfl⟩ := mem_retryLog hx
      rfl
  | item =>
      refine .inl (hsteps fun x hx => ?_)
      obtain ⟨cmd, -, rfl⟩ := List.mem_map.mp hx
      rfl
  | setContextMgr =>
      refine .inl (hsteps fun x hx => ?_)
      split at hx
      · cases hx
      · rw [List.mem_singleton.mp hx]
        rfl
  | release =>
      refine .inl (hsteps fun x hx => ?_)
      rw [List.mem_singleton.mp hx]
      rfl
  | _ => exact .inl (hsteps (by simp))

/-! ### Nobody refers or sends to itself -/

/-- No process refers to a node of its own, and none sends to itself. -/
structure NoSelf (s : State) : Prop where
  refs : ∀ r rf nd, s.refs r = some rf → s.nodes rf.node = some nd → nd.proc ≠ some rf.proc
  txns : ∀ t tx, s.txns t = some tx → tx.toProc ≠ some tx.sender

def State.manages (s : State) (p : ProcId) : Bool :=
  (s.contextMgrNode.bind s.nodes).any fun nd => nd.proc = some p

def Command.usesManager : Command → Bool
  | .increfs handle _ => handle = 0
  | .acquire handle _ => handle = 0
  | .transaction tr _ => tr.handle = 0
  | _ => false

/-- No process uses handle 0 while it is the context manager itself. -/
def sparingSelf : Condition := fun s p _ r =>
  match r with
  | .command c => c.usesManager = true → s.manages p = false
  | _ => True

instance (s : State) (p : ProcId) (th : ThreadId) (r : Request) :
    Decidable (sparingSelf s p th r) :=
  Request.casesOn (motive := fun r => Decidable (sparingSelf s p th r)) r
    (fun c => inferInstanceAs (Decidable (c.usesManager = true → s.manages p = false)))
    (inferInstanceAs (Decidable True)) fun _ => inferInstanceAs (Decidable True)

theorem not_manages {n : NodeId} {nd : Node} (h : s.manages p = false)
    (hctx : s.contextMgrNode = some n) (hnd : s.nodes n = some nd) : nd.proc ≠ some p := by
  simpa [State.manages, hctx, hnd] using h

theorem selectTarget_ne {s₁ : State} (hs : Coherent L none s) (hlinked : Linked s)
    (hr : Routed s) (ha : NoSelf s) {thr : Thread} (hthr : s.threads th = some thr)
    (hproc : thr.proc = p) (hzero : reply = false → tr.handle = 0 → s.manages p = false)
    (hrun : selectTarget s p th tr reply env = .ok (.target tg, s₁)) : tg.proc ≠ p := by
  cases reply with
  | true =>
      obtain ⟨thr', irt, tx, target, tthr, hthr', hstack, htx, hto, hfrom, htthr, -, rfl, rfl⟩ :=
        selectReplyTarget_eq hrun
      obtain rfl : thr = thr' := Option.some.inj (hthr.symm.trans hthr')
      have hk : RoutesKept s (s.setThread th { thr with transactionStack := tx.toParent }) :=
        .setThread hthr rfl
      have hsender : tthr.proc = tx.sender := (hk.threadOf (hr.sender htx hfrom)).2 tthr htthr
      obtain ⟨p', hp', hof⟩ := hr.server htx ((hlinked.stack hthr hstack).2 tx htx) hto
      have hp : p' = p := (hof.2 thr hthr).symm.trans hproc
      intro heq
      refine ha.txns irt tx htx ?_
      rw [hp', hp, ← hsender]
      exact congrArg some heq.symm
  | false =>
      simp only [selectTarget, Bool.false_eq_true, ↓reduceIte, except_bind_eq_ok,
        except_pure_eq_ok, Prod.mk.injEq] at hrun
      obtain ⟨_, hsel, rfl, rfl⟩ := hrun
      obtain ⟨n, nd, hnode, -, -, hnd, hnproc, -⟩ := selectCallTarget_eq hsel
      rintro rfl
      unfold targetNodeOf at hnode
      split at hnode
      · cases hget : binderGetRef s tg.proc tr.handle with
        | none => simp [hget] at hnode
        | some r =>
            obtain ⟨rf, hrf, hp, -⟩ := hs.tables.getRef hget
            simp only [hget, except_bind_eq_ok, deref_eq_ok, except_pure_eq_ok,
              Except.ok.injEq] at hnode
            obtain ⟨rf', hrf', rfl⟩ := hnode
            obtain rfl : rf = rf' := Option.some.inj (hrf.symm.trans hrf')
            exact ha.refs r rf nd hrf hnd (hp ▸ hnproc)
      · rename_i hhandle
        cases hctx : s.contextMgrNode with
        | none => simp [hctx] at hnode
        | some m =>
            obtain rfl : m = n := by simpa [hctx] using hnode
            exact not_manages (hzero rfl (not_not.mp hhandle)) hctx hnd hnproc

theorem execCommand_foreign (hs : Coherent L none s) (hlinked : Linked s) (hr : Routed s)
    (ha : NoSelf s) {thr : Thread} (hthr : s.threads th = some thr) (hproc : thr.proc = p)
    {c : Command} (hzero : c.usesManager = true → s.manages p = false)
    (hrun : execCommand L s p th c = .ok s') :
    ∃ es, Changes L s es s' ∧ ∀ e ∈ es, e.stays ∧ ∀ q o, e = .newRef q o → o ≠ some q := by
  have hth : s.queueOwner (.thread th) = some p := hproc ▸ queueOwner_thread hthr
  have hwalk : ∀ {ok : Event → Prop}, Walk L ok True s s' →
      (∀ e, ok e → e.stays ∧ ∀ q o, e = .newRef q o → o ≠ some q) →
      ∃ es, Changes L s es s' ∧ ∀ e ∈ es, e.stays ∧ ∀ q o, e = .newRef q o → o ≠ some q := by
    rintro ok ⟨es, hes, hev, -⟩ hok
    exact ⟨es, hes, fun e he => hok e (hev e he)⟩
  have hidle : Idle L s s' →
      ∃ es, Changes L s es s' ∧ ∀ e ∈ es, e.stays ∧ ∀ q o, e = .newRef q o → o ≠ some q :=
    fun h => hwalk (show Walk L Event.isQuiet True s s' from h.quiet) (by
      rintro _ rfl
      exact ⟨by rintro _ ⟨⟩, by rintro _ _ ⟨⟩⟩)
  have htxn : ∀ {tr reply env}, (reply = false → tr.handle = 0 → s.manages p = false) →
      binderTransaction L s p th tr reply env = .ok s' →
      ∃ es, Changes L s es s' ∧ ∀ e ∈ es, e.stays ∧ ∀ q o, e = .newRef q o → o ≠ some q := by
    intro tr reply env hz hrun
    rcases binderTransaction_walk hs hth hrun with h | ⟨tg, s₁, hsel, ⟨es, hes, hev, -⟩⟩
    · exact hidle h
    · refine ⟨es, hes, fun e he => ⟨Event.transacts.stays e (hev e he), ?_⟩⟩
      rintro q o rfl
      obtain ⟨rfl, ho | ho⟩ := hev _ he
      · rw [ho]
        exact fun heq => selectTarget_ne hs hlinked hr ha hthr hproc hz hsel
          (Option.some.inj heq).symm
      · exact ho
  have hinc : ∀ {handle strong alloc}, (handle = 0 → s.manages p = false) →
      incCommand s p handle strong alloc = .ok s' →
      ∃ es, Changes L s es s' ∧ ∀ e ∈ es, e.stays ∧ ∀ q o, e = .newRef q o → o ≠ some q := by
    intro handle strong alloc hz hrun
    refine hwalk (incCommand_walk hs hrun) fun e he => ⟨Event.counts.stays e he.1, ?_⟩
    rintro q o rfl
    obtain ⟨hhandle, n, nd, hctx, hnd, rfl⟩ := he.2 q o rfl
    obtain rfl : q = p := he.1
    exact not_manages (hz hhandle) hctx hnd
  have hdec : ∀ {handle strong}, decCommand s p handle strong = .ok s' →
      ∃ es, Changes L s es s' ∧ ∀ e ∈ es, e.stays ∧ ∀ q o, e = .newRef q o → o ≠ some q := by
    intro handle strong hrun
    refine hwalk (decCommand_walk hs hrun) ?_
    rintro _ rfl
    exact ⟨by rintro _ ⟨⟩, by rintro _ _ ⟨⟩⟩
  have hdone : ∀ {ptr cookie strong}, doneCommand s p ptr cookie strong = .ok s' →
      ∃ es, Changes L s es s' ∧ ∀ e ∈ es, e.stays ∧ ∀ q o, e = .newRef q o → o ≠ some q := by
    intro ptr cookie strong hrun
    refine hwalk (doneCommand_walk hs hrun) ?_
    rintro _ ⟨n, nd, rfl, -⟩
    exact ⟨by rintro _ ⟨⟩, by rintro _ _ ⟨⟩⟩
  cases c with
  | increfs h alloc => exact hinc (fun hh => hzero (by simpa [Command.usesManager] using hh)) hrun
  | acquire h alloc => exact hinc (fun hh => hzero (by simpa [Command.usesManager] using hh)) hrun
  | release h => exact hdec hrun
  | decrefs h => exact hdec hrun
  | increfsDone ptr cookie => exact hdone hrun
  | acquireDone ptr cookie => exact hdone hrun
  | freeBuffer dataPtr =>
      refine hwalk (freeBufferCommand_walk hs (by simp) hrun) fun e he =>
        ⟨Event.sheds.stays e he, ?_⟩
      rintro q o rfl
      exact he.elim
  | transaction tr env =>
      exact htxn (fun _ hh => hzero (by simpa [Command.usesManager] using hh)) hrun
  | reply tr env => exact htxn (by simp) hrun
  | registerLooper => exact hidle (registerLooperCommand_idle hs.grounded hrun)
  | enterLooper => exact hidle (enterLooperCommand_idle hs.grounded hrun)
  | exitLooper => exact hidle (exitLooperCommand_idle hs.grounded hrun)
  | requestDeathNotification h cookie alloc =>
      exact hidle (requestDeathCommand_idle hs.grounded hrun)
  | clearDeathNotification h cookie => exact hidle (clearDeathCommand_idle hs.grounded hrun)
  | deadBinderDone cookie => exact hidle (deadBinderDoneCommand_idle hs.grounded hrun)
  | invalid =>
      obtain rfl : s = s' := by simpa [execCommand] using hrun
      exact ⟨[], .nil s, by simp⟩

theorem Part.foreign (hpart : Part L sparingSelf s o s') (hs : Coherent L none s)
    (hlinked : Linked s) (hr : Routed s) (ha : NoSelf s) : s'.Foreign := by
  have hf : s.Foreign := ha.refs
  rcases hpart.internal_or hs with ⟨es, hes, hev, -⟩ |
    ⟨p, th, thr, c, hthr, hproc, -, hC, hrun, -⟩ | ⟨p, hrun, -⟩
  · refine hes.foreign hs (fun e he => ⟨(Event.internal.stays e (hev e he)).okFor, ?_⟩) hf
    rintro q o rfl
    rcases hev _ he with (hq | ⟨n, ⟨⟩⟩) | ⟨n, ⟨⟩⟩
    cases hq
  · obtain ⟨es, hes, hev⟩ := execCommand_foreign hs hlinked hr ha hthr hproc hC hrun
    exact hes.foreign hs (fun e he => ⟨(hev e he).1.okFor, (hev e he).2⟩) hf
  · obtain ⟨⟨_, ⟨es, hes, hev, -⟩, -⟩, -⟩ := binderDeferredRelease_departs hs hrun
    refine hes.foreign hs.exempt (fun e he => ⟨(hev e he).okFor, ?_⟩) hf
    rintro q o rfl
    exact (hev _ he).elim

theorem Part.noSelf (hpart : Part L sparingSelf s o s') (hs : Coherent L none s)
    (hlinked : Linked s) (hI : Settled sparingSelf none h s) (ha : NoSelf s) : NoSelf s' where
  refs := hpart.foreign hs hlinked hI.2 ha
  txns := by
    intro u tx' htx' hself
    have hold : ∀ {tx}, s.txns u = some tx → tx'.sender = tx.sender →
        (tx'.toProc = tx.toProc ∨ tx'.toProc = none) → False := by
      intro tx htx hsender hto
      rcases hto with hto | hto
      · exact ha.txns u tx htx (by rw [← hto, ← hsender]; exact hself)
      · rw [hto] at hself
        cases hself
    rcases hpart.originates_or hs hlinked hI with hkept |
      ⟨p, th, thr, c, hthr, hproc, hC, hc, hrun⟩
    · obtain ⟨tx, htx, hsender, hto⟩ := hkept u tx' htx'
      exact hold htx hsender hto
    · have htxn : ∀ {tr reply env}, (reply = false → tr.handle = 0 → s.manages p = false) →
          binderTransaction L s p th tr reply env = .ok s' → False := by
        intro tr reply env hz hrun
        rcases binderTransaction_new hrun htx' with ⟨tx, htx, hf⟩ | ⟨tg, s₁, hsel, hsender, hto⟩
        · exact hold htx hf.sender (hf.target.imp (fun h => h.1) fun h => h.1)
        · refine selectTarget_ne hs hlinked hI.2 ha hthr hproc hz hsel ?_
          rw [hto, hsender] at hself
          exact Option.some.inj hself
      cases c with
      | transaction tr env =>
          refine htxn (fun _ hh => ?_) hrun
          have hz : (Command.transaction tr env).usesManager = true → s.manages p = false := hC
          exact hz (by simpa [Command.usesManager] using hh)
      | reply tr env => exact htxn (by simp) hrun
      | _ => cases hc

end New

section Runs

variable {L : Layout} {C : Condition} {s : State}

/-- Every run has observations. -/
theorem exists_logged (hreach : Reach (step L) (ActOk C L) State.init s) :
    ∃ h, Reach (loggedStep L) (fun x a => ActOk C L x.1 a) (State.init, []) (s, h) := by
  induction hreach with
  | refl => exact ⟨[], .refl⟩
  | @tail s₁ s₂ a _ hok hstep ih =>
      obtain ⟨h, ih⟩ := ih
      exact ⟨h ++ observe L s₁ a, .tail ih hok (by simp [loggedStep, hstep, Except.map])⟩

/-- No process refers to itself or sends to itself, if the context manager spares
handle 0. -/
theorem noSelf_of_reach (hreach : Reach (step L) (ActOk sparingSelf L) State.init s) :
    NoSelf s := by
  obtain ⟨h, hlogged⟩ := exists_logged hreach
  refine (logged_invariant (I := fun h s => (Linked s ∧ Settled sparingSelf none h s) ∧ NoSelf s)
    hlogged ⟨⟨linked_init, ⟨takesTurns_init, deaths_init, served_init⟩, routed_init⟩, ?_⟩ ?_).2.2
  · exact ⟨by simp [State.init], by simp [State.init]⟩
  · rintro h₁ s₁ o s₂ hs₁ ⟨⟨hlinked, hI⟩, ha⟩ hpart
    exact ⟨hpart.keeps routed_steady hs₁ hlinked hI, hpart.noSelf hs₁ hlinked hI ha⟩

end Runs

/-- Process 1 counts on the context manager and calls it, and the context manager reads
the call. -/
def managerCalled : List Act :=
  twoProcesses ++ [.write 1 20 [.acquire 0 true,
    .transaction (.plain 0 0 (fun _ => 0) []) TxnEnv.granted], .read 0 10, .goOn 2]

theorem noSelf_managerCalled : ∃ s,
    runChecked (step Layout.x86) (ActOk sparingSelf Layout.x86) State.init managerCalled =
        some s ∧
      (∃ t, (s.txns t).map (fun tx => (tx.sender, tx.toProc)) = some (1, some 0)) ∧ NoSelf s := by
  have hrun : ∃ s, runChecked (step Layout.x86) (ActOk sparingSelf Layout.x86) State.init
      managerCalled = some s ∧
        (s.txns 6).map (fun tx => (tx.sender, tx.toProc)) = some (1, some 0) :=
    Option.map_eq_some_iff.mp (show (runChecked (step Layout.x86) (ActOk sparingSelf Layout.x86)
      State.init managerCalled).map (fun s => (s.txns 6).map fun tx => (tx.sender, tx.toProc)) =
        some (some (1, some 0)) by decide +kernel)
  obtain ⟨s, hs, htx⟩ := hrun
  exact ⟨s, hs, ⟨6, htx⟩, noSelf_of_reach (reach_of_runChecked hs)⟩

def managerCounts : List Act := twoProcesses ++ [.write 0 10 [.acquire 0 true]]

def managerCalls : List Act :=
  twoProcesses ++ [.write 0 10 [.transaction (.plain 0 0 (fun _ => 0) []) TxnEnv.granted]]

/-- It has a reference to its own node, or a call from itself. -/
theorem manager_refersToItself :
    (∃ s, Reach (step Layout.x86) (ActOk (fun _ _ _ _ => True) Layout.x86) State.init s ∧
      ∃ r rf nd, s.refs r = some rf ∧ s.nodes rf.node = some nd ∧ nd.proc = some rf.proc) ∧
    ∃ s, Reach (step Layout.x86) (ActOk (fun _ _ _ _ => True) Layout.x86) State.init s ∧
      ∃ t tx, s.txns t = some tx ∧ tx.toProc = some tx.sender := by
  have hany : ∀ {acts s}, runChecked (step Layout.x86) (fun _ _ => True) State.init acts = some s →
      Reach (step Layout.x86) (ActOk (fun _ _ _ _ => True) Layout.x86) State.init s :=
    fun hrun => (reach_of_runChecked hrun).mono fun s a _ =>
      actOk_of_forall (fun _ _ _ _ => trivial) Layout.x86 s a
  constructor
  · obtain ⟨s, hrun, hs⟩ := Option.map_eq_some_iff.mp
      (show (runChecked (step Layout.x86) (fun _ _ => True) State.init managerCounts).map
        (fun s => (s.refs 4).map fun rf => (rf.proc, (s.nodes rf.node).map Node.proc)) =
          some (some (0, some (some 0))) by decide +kernel)
    obtain ⟨rf, hrf, hfields⟩ := Option.map_eq_some_iff.mp hs
    simp only [Prod.mk.injEq] at hfields
    obtain ⟨nd, hnd, hproc⟩ := Option.map_eq_some_iff.mp hfields.2
    exact ⟨s, hany hrun, 4, rf, nd, hrf, hnd, by rw [hproc, hfields.1]⟩
  · obtain ⟨s, hrun, hs⟩ := Option.map_eq_some_iff.mp
      (show (runChecked (step Layout.x86) (fun _ _ => True) State.init managerCalls).map
        (fun s => (s.txns 4).map fun tx => (tx.sender, tx.toProc)) = some (some (0, some 0)) by
          decide +kernel)
    obtain ⟨tx, htx, hfields⟩ := Option.map_eq_some_iff.mp hs
    simp only [Prod.mk.injEq] at hfields
    exact ⟨s, hany hrun, 4, tx, htx, by rw [hfields.1, hfields.2]⟩

end Driver

end BinderForLinux
