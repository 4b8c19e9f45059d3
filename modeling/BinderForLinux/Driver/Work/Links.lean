import BinderForLinux.Driver.Work

/-!
# Transactions and buffers stay linked

Every step of work keeps the links between transactions, their buffers and the
stacks.
-/

namespace BinderForLinux

namespace Driver

open Library

section Links

variable {L : Layout} {C : Condition} {d : Option ProcId} {s s' : State} {o : List Obs} {p : ProcId}
  {th : ThreadId} {t : TxnId} {x : ProcId × ℕ} {b : Buffer}

theorem Linked.discarded (hs : Linked s) (hb : s.live x = some b)
    (hrest : s' = { s with txns := detachedTxns s b, area := s'.area })
    (hlive : s'.live = Function.update s.live x none) : Linked s' := by
  have htxns : ∀ {u ux'}, s'.txns u = some ux' → ∃ ux, s.txns u = some ux ∧
      ux'.needReply = ux.needReply ∧ ux'.flags = ux.flags ∧ ux'.fromParent = ux.fromParent ∧
      ux'.toParent = ux.toParent ∧ (b.transaction = some u ∧ ux'.buffer = none ∨
        b.transaction ≠ some u ∧ ux'.buffer = ux.buffer) := by
    intro u ux' hux'
    rw [hrest] at hux'
    unfold detachedTxns at hux'
    cases ht : b.transaction with
    | none =>
        simp only [ht] at hux'
        exact ⟨ux', hux', rfl, rfl, rfl, rfl, .inr ⟨by simp, rfl⟩⟩
    | some t =>
        simp only [ht] at hux'
        by_cases hut : u = t
        · subst hut
          rw [Function.update_self] at hux'
          obtain ⟨ux, hux, rfl⟩ := Option.map_eq_some_iff.mp hux'
          exact ⟨ux, hux, rfl, rfl, rfl, rfl, .inl ⟨rfl, rfl⟩⟩
        · rw [Function.update_of_ne hut] at hux'
          exact ⟨ux', hux', rfl, rfl, rfl, rfl, .inr ⟨by simpa using Ne.symm hut, rfl⟩⟩
  have hback : ∀ {u ux}, s.txns u = some ux → b.transaction ≠ some u → s'.txns u = some ux := by
    intro u ux hux hne
    rw [hrest]
    unfold detachedTxns
    cases ht : b.transaction with
    | none => exact hux
    | some t =>
        have hut : u ≠ t := fun h => hne (by rw [ht, h])
        simpa [Function.update_of_ne hut] using hux
  have hnext : s'.nextId = s.nextId := by rw [hrest]
  have hcall : ∀ {u}, s.IsCall u → s'.IsCall u := by
    refine fun {u} hu => ⟨hnext ▸ hu.1, fun ux' hux' => ?_⟩
    obtain ⟨ux, hux, hreply, -⟩ := htxns hux'
    exact hreply.trans (hu.2 ux hux)
  refine ⟨?_, ?_, ?_, ?_, ?_⟩
  · intro u ux' y hux' hy
    obtain ⟨ux, hux, hreply, hflags, -, -, ⟨-, hnone⟩ | ⟨hne, hbuf⟩⟩ := htxns hux'
    · rw [hnone] at hy
      cases hy
    · obtain ⟨c, hc, hcu, hm⟩ := hs.buffer hux (hbuf ▸ hy)
      refine ⟨c, ?_, hcu, by rwa [Transaction.Matches, hreply, hflags]⟩
      rw [hlive, Function.update_of_ne, hc]
      rintro rfl
      rw [hb] at hc
      cases hc
      exact hne hcu
  · intro y c u hc hu
    rw [hlive] at hc
    by_cases hyx : y = x
    · rw [hyx, Function.update_self] at hc
      cases hc
    · rw [Function.update_of_ne hyx] at hc
      obtain ⟨ux, hux, huy⟩ := hs.transaction hc hu
      refine ⟨ux, hback hux ?_, huy⟩
      intro hbu
      obtain ⟨ux', hux', hux''⟩ := hs.transaction hb hbu
      obtain rfl : ux = ux' := by simpa [hux] using hux'
      rw [huy] at hux''
      exact hyx (Option.some.inj hux'')
  · intro th thr u hthr hu
    rw [hrest] at hthr
    exact hcall (hs.stack hthr hu)
  · intro u ux' v hux' hv
    obtain ⟨ux, hux, -, -, hfrom, hto, -⟩ := htxns hux'
    rw [hfrom, hto] at hv
    exact hcall (hs.parents hux hv)
  · intro u ux' hux'
    obtain ⟨ux, hux, -⟩ := htxns hux'
    exact hnext ▸ hs.txns_lt hux

theorem Linked.allowed (hs : Linked s) (hb : s.live x = some b)
    (hrest : s' = { s with todo := s'.todo, area := s'.area })
    (hlive : s'.live = Function.update s.live x (some { b with allowUserFree := true })) :
    Linked s' := by
  have htxns : s'.txns = s.txns := by rw [hrest]
  have hnext : s'.nextId = s.nextId := by rw [hrest]
  have hcall : ∀ {u}, s.IsCall u → s'.IsCall u := by
    refine fun {u} hu => ⟨hnext ▸ hu.1, fun ux hux => hu.2 ux (htxns ▸ hux)⟩
  refine ⟨?_, ?_, ?_, fun hux hv => hcall (hs.parents (htxns ▸ hux) hv),
    fun hux => hnext ▸ hs.txns_lt (htxns ▸ hux)⟩
  · intro u ux y hux hy
    obtain ⟨c, hc, hcu, hm⟩ := hs.buffer (htxns ▸ hux) hy
    rw [hlive]
    by_cases hyx : y = x
    · subst hyx
      obtain rfl : b = c := by simpa [hb] using hc
      exact ⟨_, Function.update_self .., hcu, hm⟩
    · exact ⟨c, by rw [Function.update_of_ne hyx, hc], hcu, hm⟩
  · intro y c u hc hu
    rw [hlive] at hc
    rw [htxns]
    by_cases hyx : y = x
    · subst hyx
      rw [Function.update_self] at hc
      cases hc
      exact hs.transaction hb hu
    · rw [Function.update_of_ne hyx] at hc
      exact hs.transaction hc hu
  · intro th thr u hthr hu
    rw [hrest] at hthr
    exact hcall (hs.stack hthr hu)

theorem Linked.finished (hs : Linked s) {tx : Transaction} (htx : s.txns t = some tx)
    (hx : tx.buffer = some x) (hb : s.live x = some b)
    (hrest : s' = { s with
      todo := s'.todo, txns := Function.update s.txns t none, area := s'.area })
    (hlive : s'.live = Function.update s.live x
      (some { b with allowUserFree := true, transaction := none })) : Linked s' := by
  have hct : b.transaction = some t := by
    obtain ⟨c, hc, hct, -⟩ := hs.buffer htx hx
    rwa [Option.some.inj (hb.symm.trans hc)]
  have htxns : s'.txns = Function.update s.txns t none := by rw [hrest]
  have hnext : s'.nextId = s.nextId := by rw [hrest]
  have hold : ∀ {u ux}, s'.txns u = some ux → s.txns u = some ux ∧ u ≠ t := by
    intro u ux hux
    rw [htxns] at hux
    by_cases hut : u = t
    · simp [hut] at hux
    · exact ⟨by simpa [Function.update_of_ne hut] using hux, hut⟩
  have hcall : ∀ {u}, s.IsCall u → s'.IsCall u :=
    fun {u} hu => ⟨hnext ▸ hu.1, fun ux hux => hu.2 ux (hold hux).1⟩
  refine ⟨?_, ?_, ?_, fun hux hv => hcall (hs.parents (hold hux).1 hv),
    fun hux => hnext ▸ hs.txns_lt (hold hux).1⟩
  · intro u ux y hux hy
    obtain ⟨hux, hut⟩ := hold hux
    obtain ⟨c, hc, hcu, hm⟩ := hs.buffer hux hy
    refine ⟨c, ?_, hcu, hm⟩
    rw [hlive, Function.update_of_ne, hc]
    rintro rfl
    rw [← Option.some.inj (hb.symm.trans hc), hct] at hcu
    exact hut (Option.some.inj hcu).symm
  · intro y c u hc hu
    rw [hlive] at hc
    by_cases hyx : y = x
    · subst hyx
      rw [Function.update_self] at hc
      cases hc
      cases hu
    · rw [Function.update_of_ne hyx] at hc
      obtain ⟨ux, hux, huy⟩ := hs.transaction hc hu
      refine ⟨ux, ?_, huy⟩
      rw [htxns, Function.update_of_ne, hux]
      rintro rfl
      obtain rfl : tx = ux := by simpa [htx] using hux
      rw [hx] at huy
      exact hyx (Option.some.inj huy).symm
  · intro th thr u hthr hu
    rw [hrest] at hthr
    exact hcall (hs.stack hthr hu)

theorem Linked.setTodo (hs : Linked s) (td : Queue → List Work) : Linked { s with todo := td } :=
  hs.congr le_rfl (fun h => .inr ⟨_, h, rfl⟩) rfl (live_congr rfl)

/-- Nodes, references, death notifications and lists of work are no links. -/
theorem Linked.others (hs : Linked s) (hnext : s.nextId ≤ s'.nextId)
    (hthreads : s'.threads = s.threads) (htxns : s'.txns = s.txns) (harea : s'.area = s.area) :
    Linked s' :=
  hs.congr hnext (fun h => .inr ⟨_, hthreads ▸ h, rfl⟩) htxns (live_congr harea)

theorem Transacted.linked (h : Transacted s p th t s') (hs : Linked s) (ht : t = s.nextId) :
    Linked s' := by
  have hnew : ∀ {s₁}, Calm s s₁ → ∀ u, s₁.Mentions u → u ≠ t := by
    rintro s₁ hc u hu rfl
    have hlt := (hs.mentions (Calm.mentions hc hu)).1
    exact absurd ht hlt.ne
  cases h with
  | failed h => exact h.linked hs
  | @call s₁ _ thr tg tx b x n h haddr hthr hq hnode hsender hfrom hparent hreply =>
      have hs₁ := Calm.linked h hs
      have hcall : s₁.IsCall t :=
        ⟨hq.lt, fun tx htx => by simp [show s₁.txns t = none from hq.fresh] at htx⟩
      refine hq.linked (hs₁.setThread ?_) (fun u hu => .inl hreply) fun u hu => ?_
      · rintro u ⟨⟩
        exact hcall
      · exact ⟨hs₁.stack hthr (hparent ▸ hu), hreply⟩
  | @oneWay s₁ _ tg tx b x n nd h hnode hnd hnlt hproc hasync hq hsender hfrom hparent hflags =>
      have hs₁ : Linked (s₁.setNode n { nd with hasAsyncTransaction := true }) :=
        (Calm.linked h hs).others le_rfl rfl rfl rfl
      exact hq.linked hs₁ (fun u hu => .inr (hnew h u hu)) (by simp [hparent])
  | waiting h hnode hnd hnlt hproc hasync hq hsender hfrom hparent hflags =>
      exact hq.linked (Calm.linked h hs) (fun u hu => .inr (hnew h u hu)) (by simp [hparent])
  | reply h haddr hnode hthread hq hsender hfrom hparent hirt =>
      exact hq.linked (Calm.linked h hs) (fun u hu => .inr (hnew h u hu)) (by simp [hparent])

theorem registerDeath_linked (hs : Linked s) (r : RefId) (rf : Ref) (cookie : ℕ) :
    Linked (registerDeath s r rf cookie) :=
  hs.others (Nat.le_succ _) rfl rfl rfl

theorem queueDeath_linked (hs : Linked s) (e : DeathId) (de : Death) (ty : DeathWork) (q : Queue) :
    Linked (queueDeath s e de ty q) :=
  hs.others le_rfl rfl rfl rfl

theorem unlinkDeath_eq (s : State) (e : DeathId) (de : Death) :
    unlinkDeath s e de = { s with todo := (unlinkDeath s e de).todo } := by
  unfold unlinkDeath
  split <;> rfl

theorem notifyDeath_linked (hs : Linked s) {rs : List RefId} (hrun : notifyDeath s rs = .ok s') :
    Linked s' := by
  have hrest := (notifyDeath_rest hrun).1
  exact hs.others (by rw [hrest]) (by rw [hrest]) (by rw [hrest]) (by rw [hrest])

theorem Advanced.rest {s₁ : State} (h : Advanced s th b s₁) :
    s₁ = { s with nodes := s₁.nodes, todo := s₁.todo } := by
  cases h <;> rfl

theorem Dropped.linked {w : Work} (h : Dropped s w s') (hs : Linked s) : Linked s' := by
  cases h with
  | call hcall h => exact h.linked hs
  | transaction htx hcall hrun =>
      obtain ⟨tx, s₁, htx, hdetach, rfl⟩ := freeTxn_eq hrun
      exact hs.detached htx hdetach (by simp)
  | complete => exact hs
  | deadBinder => exact hs.others le_rfl rfl rfl rfl
  | death => exact hs.others le_rfl rfl rfl rfl
  | node => exact hs.others le_rfl rfl rfl rfl

theorem WorkStep.linked (h : WorkStep C d s o s') (hs : Linked s) : Linked s' := by
  cases h with
  | calm h => exact Calm.linked h hs
  | sent hd ht _ _ h => exact h.linked hs ht
  | @freed p th thr a b s₁ _ hd hthr hproc hclean hb huser hadv hrest hlive =>
      have hs₁ : Linked { s₁ with txns := s.txns, area := s.area } := by
        rw [hadv.rest]
        exact hs.others le_rfl rfl rfl rfl
      refine hs₁.discarded (x := (p, a)) (b := b) ((congrFun (live_congr rfl) _).trans hb) ?_ ?_
      · rw [hrest]
        rfl
      · exact hlive.trans (congrArg (fun l => Function.update l (p, a) none) (live_congr rfl).symm)
  | noMemory hd hthr => exact hs.setThread fun t ht => hs.stack hthr ht
  | requested => exact registerDeath_linked hs ..
  | requestedDead => exact queueDeath_linked (registerDeath_linked hs ..) ..
  | cleared =>
      refine queueDeath_linked ?_ ..
      exact hs.others le_rfl rfl rfl rfl
  | clearedQueued => exact hs.others le_rfl rfl rfl rfl
  | acked =>
      rw [unlinkDeath_eq]
      exact hs.others le_rfl rfl rfl rfl
  | ackedClear =>
      rw [unlinkDeath_eq]
      exact hs.others le_rfl rfl rfl rfl
  | complete => exact hs.others le_rfl rfl rfl rfl
  | clearDone => exact hs.others le_rfl rfl rfl rfl
  | deadBinder => exact hs.others le_rfl rfl rfl rfl
  | @receivedCall p th thr q t ws tx b x tr _ hd howner hq hthr hproc htx hx hb hcall hrest hlive =>
      have hs₁ : Linked { s with todo := (s.listDel q (.transaction t)).todo, area := s'.area } :=
        hs.allowed hb rfl ((live_congr rfl).trans hlive)
      rw [hrest]
      have hs₂ : Linked (State.setTxn
          { s with todo := (s.listDel q (.transaction t)).todo, area := s'.area } t
          { tx with toParent := thr.transactionStack, toThread := some th }) := by
        refine hs₁.setTxn htx rfl rfl rfl ?_
        rintro u (hu | hu)
        · exact hs.parents htx (.inl hu)
        · exact hs.stack hthr hu
      refine @Linked.setThread _ th hs₂ { thr with transactionStack := some t } ?_
      · rintro u ⟨⟩
        refine ⟨hs.txns_lt htx, fun ux hux => ?_⟩
        simp only [State.setTxn, Function.update_self, Option.some.injEq] at hux
        exact hux ▸ hcall
  | received hd howner hq htx hx hb hcall hcmd hrest hlive =>
      refine hs.finished htx hx hb ?_ hlive
      rw [hrest]
  | dropped hq h => exact h.linked (hs.others le_rfl rfl rfl rfl)
  | @threadGone th thr hthr =>
      refine hs.congr le_rfl (fun {th' thr'} hthr' => ?_) rfl (live_congr rfl)
      by_cases heq : th' = th
      · simp [heq] at hthr'
      · simp only [Function.update_of_ne heq] at hthr'
        exact .inr ⟨thr', hthr', rfl⟩
  | threadNew hd hstack =>
      refine hs.congr (Nat.le_succ _) (fun {th' thr'} hthr' => ?_) rfl (live_congr rfl)
      by_cases heq : th' = s.nextId
      · simp only [heq, State.setThread, Function.update_self, Option.some.injEq] at hthr'
        exact .inl (hthr' ▸ hstack)
      · simp only [State.setThread, Function.update_of_ne heq] at hthr'
        exact .inr ⟨thr', hthr', rfl⟩
  | nodeGone => exact hs.others le_rfl rfl rfl rfl
  | nodeDies hd hnd hproc hrefs hq hdead hasync hrun =>
      refine notifyDeath_linked ?_ hrun
      exact hs.others le_rfl rfl rfl rfl
  | bufferGone hd hb hrest hlive => exact hs.discarded hb hrest hlive

theorem WorkSteps.linked (h : WorkSteps C d s o s') (hs : Linked s) : Linked s' := by
  obtain ⟨es, hes, -⟩ := h
  exact hes.invariant hs fun _ _ _ _ hs h => h.linked hs

end Links

end Driver

end BinderForLinux
