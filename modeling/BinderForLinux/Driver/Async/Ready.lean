import BinderForLinux.Driver.Asserts

/-!
# One-way transactions do not stall

While the flag of a node is set, someone has the turn who will pass it on: a
transaction on a list that the owner of the node reads, or a buffer that the owner
may free. A thread that exits with a one-way transaction on its list takes the turn
along, so that this is for runs in which no thread does.
-/

namespace BinderForLinux

namespace Driver

open Library

/-- The turn at the node `n` of the process `p` is with a transaction that the process
will read or with a buffer that it may free. -/
def Ready (h : List Obs) (s : State) (p : ProcId) (n : NodeId) : Prop :=
  (∃ t q, t ∈ acceptedFor n h ∧ s.queueOwner q = some p ∧ .transaction t ∈ s.todo q) ∨
    ∃ a b, s.live (p, a) = some b ∧ b.asyncTransaction = true ∧ b.targetNode = some n ∧
      b.transaction = none ∧ b.allowUserFree = true

/-- A thread that exits has only calls and replies on its list. -/
def Condition.sparesOneWays (C : Condition) : Prop :=
  ∀ s p th t tx, C s p th .exit → .transaction t ∈ s.todo (.thread th) → s.txns t = some tx →
    tx.needReply = false → ∃ x b, tx.buffer = some x ∧ s.live x = some b ∧ b.targetNode = none

/-- Only accepted one-way transactions wait at a node, and those who wait are served. -/
structure Served (C : Condition) (d : Option ProcId) (h : List Obs) (s : State) : Prop where
  waits : ∀ {n w}, w ∈ s.todo (.async n) → w.isTxn = true →
    ∃ t, w = .transaction t ∧ t ∈ acceptedFor n h
  ready : C.sparesOneWays → ∀ {n nd p}, s.nodes n = some nd → nd.proc = some p → d ≠ some p →
    nd.hasAsyncTransaction = true → Ready h s p n

/-- One-way transactions stay where they are, on lists that belong to the same process as
before, and delivered ones keep their buffers. -/
structure Unmoved (d : Option ProcId) (h : List Obs) (s s' : State) : Prop where
  item : ∀ {q p t}, .transaction t ∈ s.todo q → isOneWay h t = true → s.queueOwner q = some p →
    d ≠ some p → .transaction t ∈ s'.todo q ∧ s'.queueOwner q = some p
  held : ∀ {p a b n}, s.live (p, a) = some b → b.asyncTransaction = true →
    b.targetNode = some n → b.transaction = none → d ≠ some p → s'.live (p, a) = some b

/-- Nothing is added to the lists of the nodes either, and no flag is set. -/
structure Carried (d : Option ProcId) (h : List Obs) (s s' : State) : Prop
    extends Unmoved d h s s' where
  node : ∀ {n nd' p}, s'.nodes n = some nd' → nd'.proc = some p →
    nd'.hasAsyncTransaction = true → d ≠ some p →
      ∃ nd, s.nodes n = some nd ∧ nd.proc = some p ∧ nd.hasAsyncTransaction = true
  async : ∀ {n w}, w ∈ s'.todo (.async n) → w.isTxn = true → w ∈ s.todo (.async n)

section Carried

variable {L : Layout} {C : Condition} {d : Option ProcId} {h o : List Obs} {s s' s'' : State}
  {p : ProcId} {th : ThreadId} {n : NodeId} {t : TxnId} {x : ProcId × ℕ} {b : Buffer} {q : Queue}
  {w : Work} {ws : List Work}

theorem mem_acceptedFor_append (ht : t ∈ acceptedFor n h) : t ∈ acceptedFor n (h ++ o) := by
  rw [acceptedFor_append]
  exact List.mem_append_left _ ht

theorem Unmoved.ready (hc : Unmoved d h s s') (hd : d ≠ some p) (hr : Ready h s p n) :
    Ready (h ++ o) s' p n := by
  rcases hr with ⟨t, q, ht, howner, hmem⟩ | ⟨a, b, hb, hasync, hnode, hnone, huser⟩
  · obtain ⟨hmem', howner'⟩ := hc.item hmem (isOneWay_iff.mpr ⟨n, ht⟩) howner hd
    exact .inl ⟨t, q, mem_acceptedFor_append ht, howner', hmem'⟩
  · exact .inr ⟨a, b, hc.held hb hasync hnode hnone hd, hasync, hnode, hnone, huser⟩

theorem Served.kept (hv : Served C d h s) (hc : Carried d h s s') :
    Served C d (h ++ o) s' where
  waits := by
    intro n w hw htxn
    obtain ⟨t, rfl, ht⟩ := hv.waits (hc.async hw htxn) htxn
    exact ⟨t, rfl, mem_acceptedFor_append ht⟩
  ready := by
    intro hC n nd' p hnd' hproc hd hflag
    obtain ⟨nd, hnd, hproc, hflag⟩ := hc.node hnd' hproc hflag hd
    exact hc.toUnmoved.ready hd (hv.ready hC hnd hproc hd hflag)

theorem Served.unobserved (hv : Served C d h s) (hc : Carried d h s s') : Served C d h s' := by
  have hserved := hv.kept (o := []) hc
  rwa [List.append_nil] at hserved

theorem Carried.trans (hc : Carried d h s s') (hc' : Carried d h s' s'') : Carried d h s s'' where
  item := by
    intro q p t hmem hone howner hd
    obtain ⟨hmem', howner'⟩ := hc.item hmem hone howner hd
    exact hc'.item hmem' hone howner' hd
  held := fun hb hasync hnode hnone hd =>
    hc'.held (hc.held hb hasync hnode hnone hd) hasync hnode hnone hd
  node := by
    intro n nd'' p hnd'' hproc hflag hd
    obtain ⟨nd', hnd', hproc', hflag'⟩ := hc'.node hnd'' hproc hflag hd
    exact hc.node hnd' hproc' hflag' hd
  async := fun hw htxn => hc.async (hc'.async hw htxn) htxn

theorem Carried.refl (s : State) : Carried d h s s :=
  ⟨⟨fun hmem _ howner _ => ⟨hmem, howner⟩, fun hb _ _ _ _ => hb⟩,
    fun hnd hproc hflag _ => ⟨_, hnd, hproc, hflag⟩, fun hw _ => hw⟩

theorem threads_setThread {thr thr' : Thread} (hthr : s.threads th = some thr)
    (hsame : thr'.proc = thr.proc) {u : ThreadId} {ur : Thread} (hur : s.threads u = some ur) :
    ∃ ur', (s.setThread th thr').threads u = some ur' ∧ ur'.proc = ur.proc := by
  by_cases hu : u = th
  · subst hu
    obtain rfl := Option.some.inj (hthr.symm.trans hur)
    exact ⟨thr', Function.update_self .., hsame⟩
  · exact ⟨ur, (Function.update_of_ne hu ..).trans hur, rfl⟩

theorem queueOwner_of_threads (hthreads : ∀ {th thr}, s.threads th = some thr →
      ∃ thr', s'.threads th = some thr' ∧ thr'.proc = thr.proc)
    (howner : s.queueOwner q = some p) : s'.queueOwner q = some p := by
  cases q with
  | proc => exact howner
  | thread th =>
      obtain ⟨thr, hthr, hproc⟩ := Option.map_eq_some_iff.mp howner
      obtain ⟨thr', hthr', hsame⟩ := hthreads hthr
      exact Option.map_eq_some_iff.mpr ⟨thr', hthr', hsame.trans hproc⟩
  | async => cases howner
  | deliveredDeath => cases howner

theorem Carried.of_items
    (hitems : ∀ q, (s'.todo q).filter Work.isTxn = (s.todo q).filter Work.isTxn)
    (hthreads : ∀ {th thr}, s.threads th = some thr →
      ∃ thr', s'.threads th = some thr' ∧ thr'.proc = thr.proc)
    (hheld : ∀ {p a b n}, s.live (p, a) = some b → b.asyncTransaction = true →
      b.targetNode = some n → b.transaction = none → d ≠ some p → s'.live (p, a) = some b)
    (hnodes : ∀ {n nd' p}, s'.nodes n = some nd' → nd'.proc = some p →
      nd'.hasAsyncTransaction = true → d ≠ some p →
        ∃ nd, s.nodes n = some nd ∧ nd.proc = some p ∧ nd.hasAsyncTransaction = true) :
    Carried d h s s' := by
  have hmem : ∀ {q w}, w.isTxn = true → (w ∈ s'.todo q ↔ w ∈ s.todo q) := by
    intro q w hw
    have hiff : w ∈ (s'.todo q).filter Work.isTxn ↔ w ∈ (s.todo q).filter Work.isTxn := by
      rw [hitems]
    simpa only [List.mem_filter, hw, and_true] using hiff
  exact ⟨⟨fun hw _ howner _ => ⟨(hmem rfl).mpr hw, queueOwner_of_threads hthreads howner⟩,
    hheld⟩, hnodes, fun hw htxn => (hmem htxn).mp hw⟩

theorem Carried.of_eq (hitems : ∀ q, (s'.todo q).filter Work.isTxn = (s.todo q).filter Work.isTxn)
    (hthreads : s'.threads = s.threads) (hlive : s'.live = s.live) (hnodes : s'.nodes = s.nodes) :
    Carried d h s s' :=
  .of_items hitems (fun hthr => ⟨_, hthreads ▸ hthr, rfl⟩) (fun hb _ _ _ _ => hlive ▸ hb)
    fun hnd hproc hflag _ => ⟨_, hnodes ▸ hnd, hproc, hflag⟩

/-! ### Calm steps -/

theorem UnwindStep.carried (hstep : UnwindStep s s') (hs : Linked s) : Carried d h s s' := by
  have hrest := hstep.rest
  refine .of_items (fun q => by rw [hrest]) (fun hthr => hstep.thread hthr) ?_ ?_
  · intro p a b n hb _ _ hnone _
    rcases hstep.live hs (p, a) with heq | ⟨b₀, u, hb₀, hbu, -⟩
    · exact heq.trans hb
    · obtain rfl := Option.some.inj (hb₀.symm.trans hb)
      rw [hnone] at hbu
      cases hbu
  · intro n nd' p hnd' hproc hflag _
    rw [hrest] at hnd'
    exact ⟨nd', hnd', hproc, hflag⟩

theorem Carried.of_buffer {z : Option Buffer} (hrest : s' = { s with
      txns := s'.txns
      area := s'.area })
    (hlive : s'.live = Function.update s.live x z)
    (hx : ∀ b n, s.live x = some b → b.asyncTransaction = true → b.targetNode ≠ some n) :
    Carried d h s s' := by
  refine .of_items (fun q => by rw [hrest]) (fun hthr => ⟨_, by rw [hrest]; exact hthr, rfl⟩) ?_
    fun hnd hproc hflag _ => ⟨_, by rw [hrest] at hnd; exact hnd, hproc, hflag⟩
  intro p a b n hb hasync hnode _ _
  rw [hlive]
  by_cases hpa : (p, a) = x
  · exact absurd hnode (hx b n (hpa ▸ hb) hasync)
  · rwa [Function.update_of_ne hpa]

theorem CalmStep.carried (hstep : CalmStep s s') (hs : Linked s) : Carried d h s s' := by
  cases hstep with
  | still hstill =>
      refine .of_items hstill.items (fun hthr => ⟨_, by rw [hstill.rest]; exact hthr, rfl⟩)
        (fun hb _ _ _ _ => by rw [hstill.live]; exact hb) fun {n nd' p} hnd' hproc hflag _ => ?_
      rcases hstill.nodes hnd' with ⟨nd, hnd, hid⟩ | ⟨-, hnot⟩
      · exact ⟨nd, hnd, (congrArg Prod.fst hid).symm.trans hproc,
          (congrArg (fun x => x.2.2.2.1) hid).symm.trans hflag⟩
      · rw [hnot] at hflag
        cases hflag
  | unwind hun => exact hun.carried hs
  | @thread th thr thr' hthr hsame =>
      exact .of_items (fun q => rfl) (threads_setThread hthr (congrArg Prod.fst hsame))
        (fun hb _ _ _ _ => hb) fun hnd hproc hflag _ => ⟨_, hnd, hproc, hflag⟩
  | fields hnext hrest hlive =>
      exact .of_eq (fun q => by rw [hrest]) (by rw [hrest]) hlive (by rw [hrest])
  | alloc hx hb hrest hlive =>
      refine .of_buffer (by rw [hrest]) hlive ?_
      intro b' n hb'
      rw [hx] at hb'
      cases hb'
  | discard hx hb hrest hlive =>
      refine .of_buffer (by rw [hrest]) hlive ?_
      intro b' n hb' _
      rw [← Option.some.inj (hx.symm.trans hb'), hb.2.1]
      simp

theorem Calm.carried (hcalm : Calm s s') (hs : Linked s) : Carried d h s s' := by
  induction hcalm with
  | refl => exact .refl s
  | tail hsteps hstep ih => exact ih.trans (hstep.carried (Calm.linked hsteps hs))

/-! ### Sending -/

theorem Target.queue_ne_async {tg : Target} : tg.queue ≠ .async n := by
  unfold Target.queue
  split <;> simp

section Queued

variable {tg : Target} {tx : Transaction} (hq : Queued s s' th t tg tx b x q)
include hq

theorem Queued.mem_todo {q' : Queue} (hw : w ∈ s'.todo q') :
    w ∈ s.todo q' ∨ q' = q ∧ w = .transaction t ∨ q' = .thread th := by
  rw [hq.rest] at hw
  rcases mem_listAddTail hw with hw | ⟨hthread, -⟩
  · exact (mem_listAddTail hw).imp id .inl
  · exact .inr (.inr hthread)

theorem Queued.mem_queue : .transaction t ∈ s'.todo q := by
  have htodo : s'.todo = ((s.listAddTail q (.transaction t)).listAddTail (.thread th)
      (.transactionComplete t)).todo := by rw [hq.rest]
  rw [htodo]
  exact mem_listAddTail_of_mem mem_listAddTail_self

theorem Queued.unmoved : Unmoved d h s s' := by
  obtain ⟨b₀, hb₀, hidle⟩ := hq.idle
  have hthreads : s'.threads = s.threads := by rw [hq.rest]
  refine ⟨fun {q' p u} hmem _ howner _ => ⟨?_, ?_⟩, ?_⟩
  · rw [hq.rest]
    exact mem_listAddTail_of_mem (mem_listAddTail_of_mem hmem)
  · exact queueOwner_of_threads (fun hthr => ⟨_, hthreads ▸ hthr, rfl⟩) howner
  · intro p a c n hc _ hnode _ _
    rw [hq.live]
    by_cases hpa : (p, a) = x
    · rw [hpa, hb₀] at hc
      rw [← Option.some.inj hc, hidle.2.1] at hnode
      cases hnode
    · rwa [Function.update_of_ne hpa]

theorem Queued.carried (hne : ∀ n, q ≠ .async n) : Carried d h s s' := by
  refine ⟨hq.unmoved, fun {n nd' p} hnd hproc hflag _ => ?_, fun {n w} hw _ => ?_⟩
  · rw [hq.rest] at hnd
    exact ⟨nd', hnd, hproc, hflag⟩
  · rcases hq.mem_todo hw with hw | ⟨hasync, -⟩ | hthread
    · exact hw
    · exact absurd hasync.symm (hne n)
    · cases hthread

end Queued

variable {tg : Target} {tx : Transaction} {nd : Node}

theorem Served.oneWay (hv : Served C none h s) (hnd : s.nodes n = some nd)
    (hproc : nd.proc = some tg.proc)
    (hq : Queued (s.setNode n { nd with hasAsyncTransaction := true }) s' th t tg tx b x
      (.proc tg.proc)) : Served C none (h ++ [.accepted p th t (some n) true]) s' := by
  have hnodes : s'.nodes = (s.setNode n { nd with hasAsyncTransaction := true }).nodes := by
    rw [hq.rest]
  refine ⟨fun {m w} hw htxn => ?_, fun hC {m md p'} hmd hmproc hd hflag => ?_⟩
  · rcases hq.mem_todo hw with hw | ⟨hasync, -⟩ | hthread
    · obtain ⟨u, rfl, hu⟩ := hv.waits (w := w) hw htxn
      exact ⟨u, rfl, mem_acceptedFor_append hu⟩
    · cases hasync
    · cases hthread
  · rw [hnodes] at hmd
    by_cases hm : m = n
    · subst hm
      obtain rfl : { nd with hasAsyncTransaction := true } = md := by
        simpa [State.setNode] using hmd
      obtain rfl : tg.proc = p' := Option.some.inj (hproc.symm.trans hmproc)
      refine .inl ⟨t, .proc tg.proc, mem_acceptedFor_accepted.mpr (.inr ⟨rfl, rfl⟩), rfl, ?_⟩
      exact hq.mem_queue
    · simp only [State.setNode, Function.update_of_ne hm] at hmd
      have hsame : Ready h (s.setNode n { nd with hasAsyncTransaction := true }) p' m :=
        hv.ready hC hmd hmproc hd hflag
      exact hq.unmoved.ready hd hsame

theorem Served.waiting (hv : Served C none h s) (hq : Queued s s' th t tg tx b x (.async n)) :
    Served C none (h ++ [.accepted p th t (some n) true]) s' := by
  refine ⟨fun {m w} hw htxn => ?_, fun hC {m md p'} hmd hmproc hd hflag => ?_⟩
  · rcases hq.mem_todo hw with hw | ⟨hasync, rfl⟩ | hthread
    · obtain ⟨u, rfl, hu⟩ := hv.waits hw htxn
      exact ⟨u, rfl, mem_acceptedFor_append hu⟩
    · cases hasync
      exact ⟨t, rfl, mem_acceptedFor_accepted.mpr (.inr ⟨rfl, rfl⟩)⟩
    · cases hthread
  · rw [hq.rest] at hmd
    exact hq.unmoved.ready hd (hv.ready hC hmd hmproc hd hflag)

theorem Transacted.served (hsent : Transacted s p th t s') (heq : t = s.nextId) (hs : Linked s)
    (hv : Served C none h s) : Served C none (h ++ acceptedLog s s' p th) s' := by
  cases hsent with
  | failed hcalm => exact hv.kept (Calm.carried hcalm hs)
  | @call s₁ _ thr tg tx b x n hcalm haddr hthr hq =>
      have hstack : Carried none h s₁ (s₁.setThread th { thr with transactionStack := some t }) :=
        .of_items (fun q => rfl) (threads_setThread hthr (by rfl)) (fun hb _ _ _ _ => hb)
          fun hnd hproc hflag _ => ⟨_, hnd, hproc, hflag⟩
      exact hv.kept ((Calm.carried hcalm hs).trans (hstack.trans
        (hq.carried fun n => Target.queue_ne_async)))
  | @oneWay s₁ _ tg tx b x n nd hcalm hnode hnd hlt hproc hasync hq hsender hfrom hparent hflags =>
      rw [hq.acceptedLog heq, hfrom, hnode, hflags]
      exact (hv.unobserved (Calm.carried hcalm hs)).oneWay hnd hproc hq
  | @waiting s₁ _ tg tx b x n nd hcalm hnode hnd hlt hproc hasync hq hsender hfrom hparent hflags =>
      rw [hq.acceptedLog heq, hfrom, hnode, hflags]
      exact (hv.unobserved (Calm.carried hcalm hs)).waiting hq
  | reply hcalm haddr hnode hthread hq =>
      exact hv.kept ((Calm.carried hcalm hs).trans (hq.carried (by simp)))

/-! ### Freeing -/

theorem Unmoved.of_freed {a : ℕ} (hb : s.live (p, a) = some b)
    (hnode : b.targetNode = some n) (hlive : s'.live = Function.update s.live (p, a) none)
    (hitems : ∀ {q t}, .transaction t ∈ s.todo q → q ≠ .async n → .transaction t ∈ s'.todo q)
    (hthreads : s'.threads = s.threads) {m : NodeId} (hm : m ≠ n) {p' : ProcId}
    (hr : Ready h s p' m) : Ready h s' p' m := by
  rcases hr with ⟨t, q, ht, howner, hmem⟩ | ⟨a', c, hc, hasync, hcnode, hnone, huser⟩
  · refine .inl ⟨t, q, ht, ?_, hitems hmem ?_⟩
    · exact queueOwner_of_threads (fun hthr => ⟨_, hthreads ▸ hthr, rfl⟩) howner
    · rintro rfl
      cases howner
  · refine .inr ⟨a', c, ?_, hasync, hcnode, hnone, huser⟩
    rw [hlive, Function.update_of_ne]
    · exact hc
    · intro heq
      rw [heq, hb] at hc
      rw [Option.some.inj hc, hcnode] at hnode
      exact hm (Option.some.inj hnode)

theorem Advanced.served {a : ℕ} {thr : Thread} {s₁ : State} (hadv : Advanced s th b s₁)
    (ht : TakesTurns C none h s) (hok : Deaths C none h s)
    (hv : Served C none h s) (hthr : s.threads th = some thr) (hproc : thr.proc = p)
    (hclean : ∀ n m, .node m ∉ s.todo (.async n)) (hb : s.live (p, a) = some b)
    (hrest : s' = { s₁ with txns := detachedTxns s b, area := s'.area })
    (hlive : s'.live = Function.update s.live (p, a) none) : Served C none h s' := by
  cases hadv with
  | idle hidle =>
      refine hv.unobserved (.of_buffer (by rw [hrest]) hlive fun c n hc hasync => ?_)
      rw [← Option.some.inj (hb.symm.trans hc)] at hasync ⊢
      rw [hidle hasync]
      simp
  | @last n nd hasync hnode hnd hflag hnil =>
      refine ⟨fun {m w} hw htxn => ?_, fun hC {m md p'} hmd hmproc hd hmflag => ?_⟩
      · rw [hrest] at hw
        exact hv.waits hw htxn
      · have hnodes : s'.nodes = (s.setNode n { nd with hasAsyncTransaction := false }).nodes := by
          rw [hrest]
        rw [hnodes] at hmd
        by_cases hm : m = n
        · subst hm
          obtain rfl : { nd with hasAsyncTransaction := false } = md := by
            simpa [State.setNode] using hmd
          cases hmflag
        · simp only [State.setNode, Function.update_of_ne hm] at hmd
          refine Unmoved.of_freed hb hnode hlive (fun hmem _ => ?_) (by rw [hrest]; rfl) hm
            (hv.ready hC hmd hmproc hd hmflag)
          rw [hrest]
          exact hmem
  | @next n nd w ws hasync hnode hnd hflag hq =>
      have htodo : s'.todo = ((s.setTodo (.async n) ws).listAddTail (.thread th) w).todo := by
        rw [hrest]
      have hthreads : s'.threads = s.threads := by
        rw [hrest]
        rfl
      have hwork : w.isTxn = true := by
        cases w with
        | node m => exact absurd (hq ▸ List.mem_cons_self) (hclean n m)
        | death e => exact absurd (hq ▸ List.mem_cons_self) (hok.not_async n)
        | _ => rfl
      obtain ⟨t, rfl, hacc⟩ := hv.waits (hq ▸ List.mem_cons_self) hwork
      refine ⟨fun {m w} hw htxn => ?_, fun hC {m md p'} hmd hmproc hd hmflag => ?_⟩
      · rw [htodo] at hw
        rcases mem_listAddTail hw with hw | ⟨hthread, -⟩
        · by_cases hm : m = n
          · subst hm
            simp only [State.setTodo, Function.update_self] at hw
            exact hv.waits (hq ▸ List.mem_cons_of_mem _ hw) htxn
          · have hne : Queue.async m ≠ .async n := by simpa using hm
            simp only [State.setTodo, Function.update_of_ne hne] at hw
            exact hv.waits hw htxn
        · cases hthread
      · have hmd : s.nodes m = some md := by
          rw [hrest] at hmd
          exact hmd
        by_cases hm : m = n
        · subst hm
          obtain rfl : p' = p := ht.owner hb hasync hnode hmd hmproc
          refine .inl ⟨t, .thread th, hacc, ?_, ?_⟩
          · rw [State.queueOwner, hthreads, hthr, Option.map_some, hproc]
          · rw [htodo]
            exact mem_listAddTail_self
        · refine Unmoved.of_freed hb hnode hlive (fun {q u} hmem hne => ?_) hthreads hm
            (hv.ready hC hmd hmproc hd hmflag)
          rw [htodo]
          refine mem_listAddTail_of_mem ?_
          simpa only [State.setTodo, Function.update_of_ne hne] using hmem

/-! ### Reading and dropping -/

theorem mem_listDel {w' : Work} {q' : Queue} (hw : w' ∈ s.todo q') (hne : w' ≠ w) :
    w' ∈ (s.listDel q w).todo q' := by
  by_cases hq : q' = q
  · subst hq
    simp only [State.listDel, State.setTodo, Function.update_self]
    exact List.mem_filter.mpr ⟨hw, by simpa using hne⟩
  · simpa only [State.listDel, State.setTodo, Function.update_of_ne hq] using hw

theorem mem_of_listDel {w' : Work} {q' : Queue} (hw : w' ∈ (s.listDel q w).todo q') :
    w' ∈ s.todo q' := by
  by_cases hq : q' = q
  · subst hq
    simp only [State.listDel, State.setTodo, Function.update_self] at hw
    exact (List.mem_filter.mp hw).1
  · simpa only [State.listDel, State.setTodo, Function.update_of_ne hq] using hw

theorem Carried.delivered {tx : Transaction} {thr : Thread} {tx' : Option Transaction}
    {st : Option TxnId} {b' : Buffer} (hs : Linked s) (hone : isOneWay h t = false)
    (hthr : s.threads th = some thr) (htx : s.txns t = some tx) (hx : tx.buffer = some x)
    (hrest : s' = { s with
      todo := (s.listDel q (.transaction t)).todo
      txns := Function.update s.txns t tx'
      threads := Function.update s.threads th (some { thr with transactionStack := st })
      area := s'.area })
    (hlive : s'.live = Function.update s.live x (some b')) : Carried d h s s' := by
  have htodo : s'.todo = (s.listDel q (.transaction t)).todo := by rw [hrest]
  have hthreads : s'.threads = (s.setThread th { thr with transactionStack := st }).threads := by
    rw [hrest]
    rfl
  refine ⟨⟨fun {q' p u} hmem hu howner _ => ⟨?_, ?_⟩, fun {p a c n} hc _ _ hnone _ => ?_⟩,
    fun hnd hproc hflag _ => ⟨_, by rw [hrest] at hnd; exact hnd, hproc, hflag⟩,
    fun {n w} hw _ => ?_⟩
  · rw [htodo]
    refine mem_listDel hmem ?_
    rintro ⟨⟩
    rw [hone] at hu
    cases hu
  · refine queueOwner_of_threads (fun {u ur} hur => ?_) howner
    rw [hthreads]
    exact threads_setThread hthr (by rfl) hur
  · rw [hlive, Function.update_of_ne]
    · exact hc
    · rintro rfl
      obtain ⟨b₀, hb₀, hbt, -⟩ := hs.buffer htx hx
      rw [Option.some.inj (hb₀.symm.trans hc), hnone] at hbt
      cases hbt
  · rw [htodo] at hw
    exact mem_of_listDel hw

/-- The one-way transaction at the front of a list is delivered, and its buffer may be
freed. -/
theorem Served.received {tx : Transaction} {cmd : ReturnCommand} (hv : Served C none h s)
    (ht : TakesTurns C none h s) (hs : Linked s) (htx : s.txns t = some tx)
    (hx : tx.buffer = some x) (hb : s.live x = some b)
    (hrest : s' = { s with
      todo := (s.listDel q (.transaction t)).todo
      txns := Function.update s.txns t none
      area := s'.area })
    (hlive : s'.live = Function.update s.live x
      (some { b with allowUserFree := true, transaction := none })) :
    Served C none (h ++ [.delivered p th (some (.transaction t)) cmd]) s' := by
  have hbt : b.transaction = some t := by
    obtain ⟨c, hc, hct, -⟩ := hs.buffer htx hx
    rwa [← Option.some.inj (hb.symm.trans hc)] at hct
  have htodo : s'.todo = (s.listDel q (.transaction t)).todo := by rw [hrest]
  have hasync : ∀ {n w}, w ∈ s'.todo (.async n) → w ∈ s.todo (.async n) := by
    intro n w hw
    rw [htodo] at hw
    exact mem_of_listDel hw
  have hthreads : s'.threads = s.threads := by rw [hrest]
  refine ⟨fun {n w} hw htxn => ?_, fun hC {n nd p'} hnd hproc hd hflag => ?_⟩
  · obtain ⟨u, rfl, hu⟩ := hv.waits (hasync hw) htxn
    exact ⟨u, rfl, mem_acceptedFor_append hu⟩
  · rw [hrest] at hnd
    rcases hv.ready hC hnd hproc hd hflag with ⟨u, q', hu, howner', hmem⟩ |
      ⟨a, c, hc, hcasync, hcnode, hnone, huser⟩
    · by_cases hut : u = t
      · -- the turn passes from the transaction to its buffer
        subst hut
        obtain ⟨c, hc, hcasync, hcnode⟩ := ht.filled hu htx hx
        obtain rfl := Option.some.inj (hb.symm.trans hc)
        obtain rfl : p' = x.1 := ht.owner hb hcasync hcnode hnd hproc
        refine .inr ⟨x.2, { b with allowUserFree := true, transaction := none }, ?_, hcasync,
          hcnode, rfl, rfl⟩
        rw [hlive, Function.update_self]
      · refine .inl ⟨u, q', mem_acceptedFor_append hu, ?_, ?_⟩
        · exact queueOwner_of_threads (fun hthr => ⟨_, hthreads ▸ hthr, rfl⟩) howner'
        · rw [htodo]
          exact mem_listDel hmem (by simpa using hut)
    · refine .inr ⟨a, c, ?_, hcasync, hcnode, hnone, huser⟩
      rw [hlive, Function.update_of_ne]
      · exact hc
      · rintro rfl
        have hcb : c = b := Option.some.inj (hc.symm.trans hb)
        rw [hcb, hbt] at hnone
        cases hnone

theorem Carried.dropItem (hq : s.todo q = w :: ws)
    (hw : ∀ t p, w = .transaction t → isOneWay h t = true → s.queueOwner q = some p → d = some p) :
    Carried d h s (s.setTodo q ws) := by
  refine ⟨⟨fun {q' p t} hmem hone howner hd => ⟨?_, howner⟩, fun hb _ _ _ _ => hb⟩,
    fun hnd hproc hflag _ => ⟨_, hnd, hproc, hflag⟩, fun {n w'} hw' _ => ?_⟩
  · by_cases hq' : q' = q
    · subst hq'
      simp only [State.setTodo, Function.update_self]
      rw [hq, List.mem_cons] at hmem
      rcases hmem with rfl | hmem
      · exact absurd (hw t p rfl hone howner) hd
      · exact hmem
    · simpa only [State.setTodo, Function.update_of_ne hq'] using hmem
  · by_cases hq' : .async n = q
    · subst hq'
      simp only [State.setTodo, Function.update_self] at hw'
      exact hq ▸ List.mem_cons_of_mem _ hw'
    · simpa only [State.setTodo, Function.update_of_ne hq'] using hw'

theorem freeTxn_carried (hs : Linked s) (hrun : freeTxn s t = .ok s') : Carried d h s s' := by
  obtain ⟨tx, s₁, htx, hdetach, rfl⟩ := freeTxn_eq hrun
  obtain ⟨hs₁, hlive⟩ := detachBuffer_live hdetach
  refine .of_items (fun q => by rw [hs₁]) (fun hthr => ⟨_, by rw [hs₁]; exact hthr, rfl⟩) ?_
    fun hnd hproc hflag _ => ⟨_, by rw [hs₁] at hnd; exact hnd, hproc, hflag⟩
  intro p a c n hc _ _ hnone _
  have hlive' : ({ s₁ with txns := Function.update s₁.txns t none } : State).live (p, a) =
      s₁.live (p, a) := rfl
  rw [hlive', hlive]
  split
  · rename_i hx
    obtain ⟨b, hb, hbt, -⟩ := hs.buffer htx hx
    rw [Option.some.inj (hb.symm.trans hc), hnone] at hbt
    cases hbt
  · exact hc

theorem MayDrop.not_oneWay (hmay : MayDrop C d s q (.transaction t)) (hs : Linked s)
    (ht : TakesTurns C d h s) (hC : C.sparesOneWays) (hmem : .transaction t ∈ s.todo q)
    (hone : isOneWay h t = true) (howner : s.queueOwner q = some p) : d = some p := by
  cases hmay with
  | proc hd => exact hd.trans howner
  | deliveredDeath => cases howner
  | thread hd hthr hproc =>
      rw [queueOwner_thread hthr, hproc] at howner
      exact hd.trans howner
  | async => cases howner
  | exit hexit hw hearlier =>
      obtain ⟨n, hacc⟩ := isOneWay_iff.mp hone
      obtain ⟨tx, htx⟩ := Option.ne_none_iff_exists'.mp
        (ht.exists_of_mem (mem_oneWaysOn_of_mem hone hmem))
      obtain ⟨tx₀, htx₀, hreply, -, hsame⟩ := hearlier.txn htx
      have hplain := hreply.trans (ht.plain hacc htx)
      obtain ⟨x, b₀, hx, hb₀, hnone⟩ := hC _ _ _ _ _ hexit hw htx₀ hplain
      obtain rfl := hsame hplain
      obtain ⟨b, hb, hbt, -⟩ := hs.buffer htx hx
      obtain ⟨c, hc, -, hnode⟩ := ht.filled hacc htx hx
      obtain rfl := Option.some.inj (hb.symm.trans hc)
      obtain rfl := Option.some.inj (hb₀.symm.trans (hearlier.buffer hb hbt))
      rw [hnode] at hnone
      cases hnone

theorem Dropped.carried (hdrop : Dropped s w s') (hs : Linked s) : Carried d h s s' := by
  cases hdrop with
  | call _ hun => exact Calm.carried (Unwound.calm hun) hs
  | transaction _ _ hrun => exact freeTxn_carried hs hrun
  | complete => exact .refl s
  | deadBinder => exact .of_eq (fun q => rfl) rfl (live_congr rfl) rfl
  | death => exact .of_eq (fun q => rfl) rfl (live_congr rfl) rfl
  | @node n nd hnd =>
      refine .of_items (fun q => rfl) (fun hthr => ⟨_, hthr, rfl⟩) (fun hb _ _ _ _ => hb)
        fun {m md p} hmd hproc hflag _ => ?_
      by_cases hm : m = n
      · simp only [State.setNode, hm, Function.update_self, Option.some.injEq] at hmd
        subst hmd
        exact ⟨nd, hm ▸ hnd, hproc, hflag⟩
      · simp only [State.setNode, Function.update_of_ne hm] at hmd
        exact ⟨md, hmd, hproc, hflag⟩

theorem Dropped.served (hdrop : Dropped (s.setTodo q ws) w s') (hs : Linked s)
    (ht : TakesTurns C d h s) (hv : Served C d h s) (hq : s.todo q = w :: ws)
    (hmay : MayDrop C d s q w) : Served C d h s' := by
  have hs₁ : Linked (s.setTodo q ws) := hs.others le_rfl rfl rfl rfl
  refine Served.unobserved ⟨fun {n w'} hw' htxn => ?_, fun hC => ?_⟩ (hdrop.carried hs₁)
  · refine hv.waits ?_ htxn
    by_cases hq' : .async n = q
    · subst hq'
      simp only [State.setTodo, Function.update_self] at hw'
      exact hq ▸ List.mem_cons_of_mem _ hw'
    · simpa only [State.setTodo, Function.update_of_ne hq'] using hw'
  · refine (hv.unobserved (.dropItem hq fun t p hwt hone howner => ?_)).ready hC
    subst hwt
    exact hmay.not_oneWay hs ht hC (hq ▸ List.mem_cons_self) hone howner

/-! ### All steps -/

theorem WorkStep.served (hstep : WorkStep C d s o s') (hs : Linked s) (ht : TakesTurns C d h s)
    (hok : Deaths C d h s) (hv : Served C d h s) : Served C d (h ++ o) s' := by
  cases hstep with
  | calm hcalm ho => exact hv.kept (Calm.carried hcalm hs)
  | sent hd heq _ _ hsent =>
      subst hd
      exact hsent.served heq hs hv
  | freed hd hthr hproc hclean hb huser hadv hrest hlive =>
      subst hd
      rw [List.append_nil]
      exact hadv.served ht hok hv hthr hproc hclean hb hrest hlive
  | noMemory hd hthr hproc =>
      exact hv.kept (.of_items (fun q => rfl) (threads_setThread hthr (by rfl))
        (fun hb _ _ _ _ => hb) fun hnd hproc hflag _ => ⟨_, hnd, hproc, hflag⟩)
  | requested => exact hv.kept (.of_eq (fun q => rfl) rfl (live_congr rfl) rfl)
  | requestedDead =>
      exact hv.kept (.of_eq (filter_todo_listAddTail rfl _) rfl (live_congr rfl) rfl)
  | cleared =>
      exact hv.kept (.of_eq (filter_todo_listAddTail rfl _) rfl (live_congr rfl) rfl)
  | clearedQueued => exact hv.kept (.of_eq (fun q => rfl) rfl (live_congr rfl) rfl)
  | @acked p e de =>
      refine hv.kept (.of_eq (filter_todo_unlinkDeath e de) ?_ (live_congr ?_) ?_)
      all_goals
        rw [unlinkDeath_eq]
        rfl
  | @ackedClear p th thr e de =>
      refine hv.kept (.of_eq (fun q => ?_) ?_ (live_congr ?_) ?_)
      · refine (filter_todo_listAddTail rfl _ q).trans ?_
        exact filter_todo_unlinkDeath e de q
      all_goals
        rw [unlinkDeath_eq]
        rfl
  | complete hd howner hq => exact hv.kept (.dropItem hq (by simp))
  | clearDone =>
      exact hv.kept (.of_eq (filter_todo_listDel rfl _) rfl (live_congr rfl) rfl)
  | @deadBinder p th q e de ws =>
      refine hv.kept (.of_eq (fun q' => ?_) rfl (live_congr rfl) rfl)
      by_cases hq' : q' = .deliveredDeath p
      · subst hq'
        simp only [State.setTodo, Function.update_self, List.filter_cons, Work.isTxn]
        exact filter_todo_listDel rfl q _
      · simp only [State.setTodo, Function.update_of_ne hq']
        exact filter_todo_listDel rfl q q'
  | received hd howner hq htx hx hb hcall hcmd hrest hlive =>
      subst hd
      exact hv.received ht hs htx hx hb hrest hlive
  | dropped hq hdrop hmay =>
      rw [List.append_nil]
      exact hdrop.served hs ht hv hq hmay
  | @nodeGone p n nd hd hnd =>
      refine hv.kept (.of_items (fun q => rfl) (fun hthr => ⟨_, hthr, rfl⟩)
        (fun hb _ _ _ _ => hb) fun {m md p} hmd hproc hflag _ => ⟨md, ?_, hproc, hflag⟩)
      by_cases hm : m = n
      · simp [hm] at hmd
      · simpa [Function.update_of_ne hm] using hmd
  | @receivedCall p th thr q t ws tx b x tr _ hd howner hq hthr hproc htx hx hb hcall hrest hlive =>
      have hone : isOneWay h t = false := by
        rw [Bool.eq_false_iff]
        intro hone
        obtain ⟨n, hacc⟩ := isOneWay_iff.mp hone
        rw [ht.plain hacc htx] at hcall
        cases hcall
      exact hv.kept (.delivered hs hone hthr htx hx hrest hlive)
  | @threadGone th thr hthr hq =>
      refine hv.kept ⟨⟨fun {q' p t} hmem _ howner _ => ⟨hmem, ?_⟩, fun hb _ _ _ _ => hb⟩,
        fun hnd hproc hflag _ => ⟨_, hnd, hproc, hflag⟩, fun hw _ => hw⟩
      cases q' with
      | thread th' =>
          have hne : th' ≠ th := by
            rintro rfl
            rw [hq] at hmem
            cases hmem
          simpa [State.queueOwner, Function.update_of_ne hne] using howner
      | _ => exact howner
  | @threadNew thr hd hstack he he₂ hfresh =>
      refine hv.kept (.of_items (fun q => rfl) (fun {th ur} hur => ⟨ur, ?_, rfl⟩)
        (fun hb _ _ _ _ => hb) fun hnd hproc hflag _ => ⟨_, hnd, hproc, hflag⟩)
      have hne : th ≠ s.nextId := by
        rintro rfl
        rw [hfresh] at hur
        cases hur
      exact (Function.update_of_ne hne ..).trans hur
  | @nodeDies p n nd nd' _ hd hnd hproc hrefs hq hdead hasync hrun =>
      obtain ⟨hrest, hitems⟩ := notifyDeath_rest hrun
      refine hv.kept (.of_items hitems (fun hthr => ⟨_, by rw [hrest]; exact hthr, rfl⟩)
        (fun hb _ _ _ _ => by rw [live_congr (show s'.area = s.area by rw [hrest])]; exact hb)
        fun {m md p'} hmd hmproc hflag _ => ⟨md, ?_, hmproc, hflag⟩)
      rw [hrest] at hmd
      by_cases hm : m = n
      · simp only [hm, Function.update_self, Option.some.injEq] at hmd
        rw [← hmd, hdead] at hmproc
        cases hmproc
      · simpa only [Function.update_of_ne hm] using hmd
  | @bufferGone p a b _ hd hb hrest hlive =>
      refine hv.kept (.of_items (fun q => by rw [hrest])
        (fun hthr => ⟨_, by rw [hrest]; exact hthr, rfl⟩) (fun {p' a' c n} hc _ _ _ hne => ?_)
        fun hnd hproc hflag _ => ⟨_, by rw [hrest] at hnd; exact hnd, hproc, hflag⟩)
      rw [hlive, Function.update_of_ne]
      · exact hc
      · rintro ⟨⟩
        exact hne hd

theorem served_init : Served C none [] State.init :=
  ⟨fun {n w} hw => by simp [State.init] at hw, fun _ {n nd p} hnd => by simp [State.init] at hnd⟩

theorem served_steady : Steady L C fun d h s =>
    TakesTurns C d h s ∧ Deaths C d h s ∧ Served C d h s where
  step := fun hs hI hstep => ⟨(takesTurns_steady (L := L)).step hs hI.1 hstep,
    (deaths_steady (L := L)).step hs hI.2.1 hstep, hstep.served hs hI.1 hI.2.1 hI.2.2⟩
  exempt := fun hI => ⟨(takesTurns_steady (L := L)).exempt hI.1,
    (deaths_steady (L := L)).exempt hI.2.1,
    hI.2.2.waits, fun hC _ _ _ hnd hproc _ hflag => hI.2.2.ready hC hnd hproc (by simp) hflag⟩
  gone := by
    rintro p h s hs hgone ⟨ht, hok, hv⟩
    refine ⟨takesTurns_steady.gone hs hgone ht, deaths_steady.gone hs hgone hok,
      fun {n w} hw htxn => ?_, fun hC {n nd p'} hnd hproc _ hflag => ?_⟩
    · obtain ⟨t, rfl, hacc⟩ := hv.waits hw htxn
      exact ⟨t, rfl, mem_acceptedFor_append hacc⟩
    · have hd : some p ≠ some p' := by
        rintro ⟨⟩
        exact hgone.nodes n nd hnd hproc
      have hsame : Unmoved (some p) h s s := (Carried.refl s).toUnmoved
      exact hsame.ready hd (hv.ready hC hnd hproc hd hflag)

end Carried

section Runs

variable {L : Layout} {C : Condition} {s : State} {h : List Obs}

/-- One-way transactions to a node are served one at a time: at most one has the turn, the
others wait at the node, and they are delivered in the order in which they were accepted.
None is lost unless a thread exits or a process is taken apart. Where the offsets of each
transaction name disjoint objects, the assertion of `BC_FREE_BUFFER` reads a node that is there,
and does not fail. -/
theorem inTurn_of_reach (hC : ∀ {s p th c}, C s p th (.command c) → c.disjoint)
    (hreach : Reach (loggedStep L) (fun x a => ActOk C L x.1 a) (State.init, []) (s, h))
    (n : NodeId) :
    (∀ k k', HasTurn none h s n k → HasTurn none h s n k' → k = k') ∧
    (∃ l : List TxnId, l.length ≤ 1 ∧ (∀ t, t ∈ l ↔ HasTurn none h s n (.queued t)) ∧
      (deliveredFor n h ++ l ++ s.oneWaysOn h (.async n)).Sublist (acceptedFor n h) ∧
      (C.noExit → (∀ p, .released p ∉ h) →
        deliveredFor n h ++ l ++ s.oneWaysOn h (.async n) = acceptedFor n h)) ∧
    ∀ a, ActOk C L s a → step L s a ≠ .error (.bug .threadWrite) ∧
      step L s a ≠ .error (.bug .threadWriteFreed) := by
  obtain ⟨-, -, ht⟩ := work_invariant takesTurns_steady takesTurns_init hreach
  obtain ⟨l, hlen, hmem, hsub, hexact⟩ := ht.order n
  exact ⟨fun k k' hk hk' => ht.one hk hk', ⟨l, hlen, hmem, hsub, hexact rfl⟩,
    fun a hact => ⟨threadWrite_asserts hreach hact, threadWriteFreed_asserts hC hreach hact⟩⟩

/-- The item is a one-way transaction: neither a call nor a reply. -/
def State.isOneWayItem (s : State) : Work → Bool
  | .transaction t => (s.txns t).any fun tx =>
      !tx.needReply && !(tx.buffer.bind s.live).any fun b => b.targetNode.isNone
  | _ => false

/-- No thread exits while a one-way transaction is on its list. -/
def sparingOneWays : Condition := fun s _ th r =>
  match r with
  | .exit => ((s.todo (.thread th)).any s.isOneWayItem) = false
  | _ => True

instance (s : State) (p : ProcId) (th : ThreadId) (r : Request) :
    Decidable (sparingOneWays s p th r) := by
  unfold sparingOneWays
  split <;> infer_instance

theorem sparingOneWays_spares : sparingOneWays.sparesOneWays := by
  intro s p th t tx hexit hmem htx hplain
  have hexit : ((s.todo (.thread th)).any s.isOneWayItem) = false := hexit
  have hitem := List.any_eq_false.mp hexit _ hmem
  simp only [State.isOneWayItem, htx, Option.any_some, hplain, Bool.not_false, Bool.true_and,
    Bool.not_eq_true', Bool.not_eq_false, Option.any_eq_true] at hitem
  obtain ⟨b, hb, hnone⟩ := hitem
  obtain ⟨x, hx, hlive⟩ := Option.bind_eq_some_iff.mp hb
  exact ⟨x, b, hx, hlive, Option.isNone_iff_eq_none.mp hnone⟩

/-- One-way transactions do not stall: as long as the flag of a node is set or a
transaction waits there, its owner has the turn in hand. -/
theorem ready_of_reach
    (hreach : Reach (loggedStep L) (fun x a => ActOk sparingOneWays L x.1 a) (State.init, [])
      (s, h))
    {n : NodeId} {nd : Node} {p : ProcId} (hnd : s.nodes n = some nd) (hproc : nd.proc = some p)
    (hbusy : nd.hasAsyncTransaction = true ∨ s.oneWaysOn h (.async n) ≠ []) : Ready h s p n := by
  obtain ⟨-, -, ht, -, hv⟩ := work_invariant served_steady
    ⟨takesTurns_init, deaths_init, served_init⟩ hreach
  refine hv.ready sparingOneWays_spares hnd hproc (by simp) ?_
  rcases hbusy with hflag | hne
  · exact hflag
  · obtain ⟨t, hmem⟩ := List.exists_mem_of_ne_nil _ hne
    exact ht.waiting_flag hmem hnd

end Runs

/-- Process 1 sends two one-way transactions to the context manager. -/
def oneWaysSent : List Act :=
  twoProcesses ++ [.write 1 20 [.transaction (.plain 0 1 (fun _ => 0) []) TxnEnv.granted],
    .write 1 20 [.transaction (.plain 0 1 (fun _ => 0) []) TxnEnv.granted]]

/-- The context manager has read the first of them. -/
def oneWayRead : List Act := oneWaysSent ++ [.read 0 10, .goOn 2]

/-- No thread exits, and offsets name disjoint objects. -/
def staying : Condition := fun s p th r => withoutExits s p th r ∧ disjointly s p th r

instance (s : State) (p : ProcId) (th : ThreadId) (r : Request) : Decidable (staying s p th r) := by
  unfold staying
  infer_instance

theorem inTurn_oneWayRead : ∃ s h,
    runChecked (loggedStep Layout.x86) (fun x a => ActOk staying Layout.x86 x.1 a)
        (State.init, []) oneWayRead = some (s, h) ∧
      acceptedFor 3 h = [5, 6] ∧ deliveredFor 3 h = [5] ∧ s.oneWaysOn h (.async 3) = [6] ∧
      (∀ t, ¬ HasTurn none h s 3 (.queued t)) ∧
      ∀ k, HasTurn none h s 3 k → k = .held (0, 4096) := by
  obtain ⟨⟨s, h⟩, hrun, hx⟩ := Option.map_eq_some_iff.mp
    (show (runChecked (loggedStep Layout.x86) (fun x a => ActOk staying Layout.x86 x.1 a)
      (State.init, []) oneWayRead).map (fun x => ([acceptedFor 3 x.2, deliveredFor 3 x.2,
        x.1.oneWaysOn x.2 (.async 3), x.2.filterMap Obs.releasedProc],
        (x.1.live (0, 4096)).map fun b => (b.asyncTransaction, b.targetNode, b.transaction))) =
      some ([[5, 6], [5], [6], []], some (true, some 3, none)) by decide +kernel)
  simp only [Prod.mk.injEq, List.cons.injEq, and_true] at hx
  obtain ⟨⟨hacc, hdel, hwait, hrel⟩, hlive⟩ := hx
  obtain ⟨b, hb, hfields⟩ := Option.map_eq_some_iff.mp hlive
  simp only [Prod.mk.injEq] at hfields
  obtain ⟨hasync, hnode, hnone⟩ := hfields
  obtain ⟨hone, ⟨l, -, hl, -, hexact⟩, -⟩ :=
    inTurn_of_reach (fun h => h.2) (reach_of_runChecked hrun) 3
  have hl₀ : l = [] := by
    have heq := hexact (fun _ _ _ hexit => hexit.1) fun p hp => by
      have hmem : p ∈ h.filterMap Obs.releasedProc := List.mem_filterMap.mpr ⟨_, hp, rfl⟩
      rw [hrel] at hmem
      cases hmem
    rw [hacc, hdel, hwait] at heq
    simpa using heq
  refine ⟨s, h, hrun, hacc, hdel, hwait, fun t ht => ?_, fun k hk => hone _ _ hk ?_⟩
  · have := (hl t).mpr ht
    rw [hl₀] at this
    cases this
  · exact ⟨b, hb, hasync, hnode, hnone, by simp⟩

/-- Process 0 sends a binder object in a reply and reads a one-way transaction that process 1
sends to its node. Process 1 then sends an object of its own, at an offset that is given twice: the
second pass takes it for the handle of the node, so that one count is taken and two are given back
with the buffer. Process 1 drops its handle, and the node is freed. -/
def freedTarget : List Act :=
  twoProcesses ++
    [.write 1 20 [.transaction (.plain 0 0 (fun _ => 0) []) TxnEnv.granted],
      .read 0 10, .goOn 2,
      .write 0 10 [.reply (.plain 0 0 (Data.object (.binder true) 64 64) [0]) TxnEnv.granted],
      .read 0 10, .goOn 2, .write 0 10 [.increfsDone 64 64, .acquireDone 64 64],
      .write 1 20 [.transaction (.plain 1 1 (fun _ => 0) []) TxnEnv.granted],
      .read 0 10, .goOn 2,
      .write 1 20 [.transaction (.plain 0 1 (Data.object (.binder true) 128 128) [0, 0])
        TxnEnv.granted],
      .read 0 10, .goOn 2, .write 0 10 [.freeBuffer 4384], .write 1 20 [.release 1],
      .read 0 10, .goOn 2]

/-- The one-way buffer is delivered and not freed, its node is freed, and the assertion of
`BC_FREE_BUFFER` reads the flag of the freed node. -/
theorem freedTarget_asserted : ∃ s h b,
    runActions (loggedStep Layout.x86) (State.init, []) freedTarget = .ok (s, h) ∧
      s.live (0, 4200) = some b ∧ b.allowUserFree = true ∧ b.asyncTransaction = true ∧
      b.targetNode = some 7 ∧ s.nodes 7 = none ∧
      step Layout.x86 s (.write 0 10 [.freeBuffer 4280]) = .error (.bug .threadWriteFreed) := by
  have hrun : (runActions (loggedStep Layout.x86) (State.init, []) freedTarget).toOption.map
      (fun x => ((x.1.live (0, 4200)).map fun b =>
          (b.allowUserFree, b.asyncTransaction, b.targetNode),
        (x.1.nodes 7).isNone,
        match step Layout.x86 x.1 (.write 0 10 [.freeBuffer 4280]) with
        | .error e => some e
        | .ok _ => none)) =
      some (some (true, true, some 7), true, some (.bug .threadWriteFreed)) := by decide +kernel
  cases hfinal : runActions (loggedStep Layout.x86) (State.init, []) freedTarget with
  | error e => simp [hfinal, Except.toOption] at hrun
  | ok x =>
      simp only [hfinal, Except.toOption, Option.map_some, Option.some.injEq, Prod.mk.injEq] at hrun
      obtain ⟨hlive, hnode, hstep⟩ := hrun
      obtain ⟨b, hb, hfields⟩ := Option.map_eq_some_iff.mp hlive
      simp only [Prod.mk.injEq] at hfields
      obtain ⟨huser, hasync, htarget⟩ := hfields
      refine ⟨x.1, x.2, b, rfl, hb, huser, hasync, htarget, Option.isNone_iff_eq_none.mp hnode, ?_⟩
      split at hstep
      · rename_i e herr
        rw [herr, Option.some.inj hstep]
      · cases hstep

theorem ready_oneWayRead : ∃ s h,
    runChecked (loggedStep Layout.x86) (fun x a => ActOk sparingOneWays Layout.x86 x.1 a)
        (State.init, []) oneWayRead = some (s, h) ∧ Ready h s 0 3 := by
  obtain ⟨⟨s, h⟩, hrun, hx⟩ := Option.map_eq_some_iff.mp
    (show (runChecked (loggedStep Layout.x86) (fun x a => ActOk sparingOneWays Layout.x86 x.1 a)
      (State.init, []) oneWayRead).map (fun x => (x.1.nodes 3).map fun nd =>
        (nd.proc, nd.hasAsyncTransaction)) = some (some (some 0, true)) by decide +kernel)
  obtain ⟨nd, hnd, hfields⟩ := Option.map_eq_some_iff.mp hx
  simp only [Prod.mk.injEq] at hfields
  exact ⟨s, h, hrun, ready_of_reach (reach_of_runChecked hrun) hnd hfields.1 (.inl hfields.2)⟩

/-- The context manager frees the first transaction, which moves the second to the list of
the thread, and the thread exits. -/
def oneWayLost : List Act :=
  oneWayRead ++ [.write 0 10 [.freeBuffer 4176], .ioctl 0 10 true .threadExit]

/-- The flag of the node is set for good. -/
theorem oneWayLost_stalls : ∃ s h nd,
    runChecked (loggedStep Layout.x86) (fun _ _ => True) (State.init, []) oneWayLost =
        some (s, h) ∧
      s.nodes 3 = some nd ∧ nd.proc = some 0 ∧ nd.hasAsyncTransaction = true ∧
      ¬ Ready h s 0 3 := by
  obtain ⟨⟨s, h⟩, hrun, hx⟩ := Option.map_eq_some_iff.mp
    (show (runChecked (loggedStep Layout.x86) (fun _ _ => True) (State.init, []) oneWayLost).map
      (fun x => ((x.1.nodes 3).map fun nd => (nd.proc, nd.hasAsyncTransaction),
        (acceptedFor 3 x.2).all fun t => (x.1.txns t).isNone,
        (x.1.area 0).buffers.any fun b => !b.free && b.allowUserFree)) =
      some (some (some 0, true), true, false) by decide +kernel)
  simp only [Prod.mk.injEq] at hx
  obtain ⟨hxn, htxns, hbufs⟩ := hx
  obtain ⟨nd, hnd, hfields⟩ := Option.map_eq_some_iff.mp hxn
  simp only [Prod.mk.injEq] at hfields
  have hreach : Reach (loggedStep Layout.x86)
      (fun x a => ActOk (fun _ _ _ _ => True) Layout.x86 x.1 a) (State.init, []) (s, h) :=
    (reach_of_runChecked hrun).mono fun x a _ =>
      actOk_of_forall (fun _ _ _ _ => trivial) Layout.x86 x.1 a
  obtain ⟨-, -, ht⟩ := work_invariant takesTurns_steady takesTurns_init hreach
  refine ⟨s, h, nd, hrun, hnd, hfields.1, hfields.2, ?_⟩
  rintro (⟨t, q, hacc, -, hmem⟩ | ⟨a, b, hb, -, -, -, huser⟩)
  · have hsome := ht.exists_of_mem (mem_oneWaysOn.mpr ⟨hmem, 3, hacc⟩)
    exact hsome (Option.isNone_iff_eq_none.mp (List.all_eq_true.mp htxns t hacc))
  · obtain ⟨hfind, hfree⟩ := derefBuffer_eq_ok.mp (live_eq_some.mp hb)
    have hno := List.any_eq_false.mp hbufs b (List.mem_of_find?_eq_some hfind)
    simp [hfree, huser] at hno

end Driver

end BinderForLinux
