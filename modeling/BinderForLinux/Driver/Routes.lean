import BinderForLinux.Driver.Async.Ready

/-!
# Where transactions come from and go to

A call is from a thread of its sender, it waits on a list of its target process, and
the thread that serves it belongs to that process.
-/

namespace BinderForLinux

namespace Driver

open Library

/-- The list is read by the process, if anybody reads it. -/
def State.QueueOf (s : State) : Queue → ProcId → Prop
  | .proc q, p => q = p
  | .thread th, p => s.ThreadOf th p
  | .async _, _ => False
  | .deliveredDeath _, _ => False

structure Routed (s : State) : Prop where
  threads_lt : ∀ {th thr}, s.threads th = some thr → th < s.nextId
  sender : ∀ {t tx th}, s.txns t = some tx → tx.fromThread = some th → s.ThreadOf th tx.sender
  server : ∀ {t tx th}, s.txns t = some tx → tx.needReply = true → tx.toThread = some th →
    ∃ p, tx.toProc = some p ∧ s.ThreadOf th p
  place : ∀ {t tx x}, s.txns t = some tx → tx.buffer = some x → tx.toProc = some x.1
  queued : ∀ {q t tx p}, .transaction t ∈ s.todo q → s.txns t = some tx → tx.needReply = true →
    tx.toProc = some p → s.QueueOf q p

/-- The transaction is the earlier one, of which a thread, a process or a buffer may be
gone. -/
structure Transaction.Follows (tx' tx : Transaction) : Prop where
  sender : tx'.sender = tx.sender
  needReply : tx'.needReply = tx.needReply
  fromThread : tx'.fromThread = tx.fromThread ∨ tx'.fromThread = none
  target : tx'.toProc = tx.toProc ∧ tx'.toThread = tx.toThread ∧
      (tx'.buffer = tx.buffer ∨ tx'.buffer = none) ∨
    tx'.toProc = none ∧ tx'.toThread = none ∧ tx'.buffer = none

/-- No call is made or put on a list, and no thread changes its process. -/
structure RoutesKept (s s' : State) : Prop where
  nextId : s.nextId ≤ s'.nextId
  threads : ∀ {th thr'}, s'.threads th = some thr' →
    (∃ thr, s.threads th = some thr ∧ thr'.proc = thr.proc) ∨ s.nextId ≤ th ∧ th < s'.nextId
  txns : ∀ {t tx'}, s'.txns t = some tx' → ∃ tx, s.txns t = some tx ∧ tx'.Follows tx
  items : ∀ {q t tx'}, .transaction t ∈ s'.todo q → s'.txns t = some tx' → tx'.needReply = true →
    .transaction t ∈ s.todo q

/-- A call is put on the stack of its reader. -/
inductive Received (s s' : State) : Prop
  | call {p : ProcId} {th : ThreadId} {q : Queue} {t : TxnId} {thr : Thread} {ws : List Work}
      {tx : Transaction} {x : ProcId × ℕ} (howner : s.queueOwner q = some p)
      (hq : s.todo q = .transaction t :: ws) (hthr : s.threads th = some thr)
      (hproc : thr.proc = p) (htx : s.txns t = some tx) (hx : tx.buffer = some x)
      (hcall : tx.needReply = true)
      (hrest : s' = { s with
        todo := (s.listDel q (.transaction t)).todo
        txns := Function.update s.txns t
          (some { tx with toParent := thr.transactionStack, toThread := some th })
        threads := Function.update s.threads th (some { thr with transactionStack := some t })
        area := s'.area })

section Kept

variable {L : Layout} {C : Condition} {d : Option ProcId} {s s' s'' : State} {h o : List Obs}
  {p : ProcId} {th : ThreadId} {t : TxnId} {tx tx' tx'' : Transaction} {b : Buffer} {q : Queue}
  {w : Work}

theorem Transaction.Follows.refl (tx : Transaction) : tx.Follows tx :=
  ⟨rfl, rfl, .inl rfl, .inl ⟨rfl, rfl, .inl rfl⟩⟩

theorem Transaction.Follows.trans (hf : tx'.Follows tx) (hf' : tx''.Follows tx') :
    tx''.Follows tx where
  sender := hf'.sender.trans hf.sender
  needReply := hf'.needReply.trans hf.needReply
  fromThread := by
    rcases hf'.fromThread with heq | hnone
    · exact hf.fromThread.imp heq.trans heq.trans
    · exact .inr hnone
  target := by
    rcases hf'.target with ⟨hp, hth, hb⟩ | hnone
    · rcases hf.target with ⟨hp₀, hth₀, hb₀⟩ | ⟨hp₀, hth₀, hb₀⟩
      · refine .inl ⟨hp.trans hp₀, hth.trans hth₀, ?_⟩
        rcases hb with hb | hb
        · exact hb₀.imp hb.trans hb.trans
        · exact .inr hb
      · refine .inr ⟨hp.trans hp₀, hth.trans hth₀, ?_⟩
        rcases hb with hb | hb
        · exact hb.trans hb₀
        · exact hb
    · exact .inr hnone

theorem RoutesKept.threadOf (hk : RoutesKept s s') (hth : s.ThreadOf th p) : s'.ThreadOf th p := by
  refine ⟨hth.1.trans_le hk.nextId, fun thr' hthr' => ?_⟩
  rcases hk.threads hthr' with ⟨thr, hthr, hp⟩ | ⟨hge, -⟩
  · exact hp.trans (hth.2 thr hthr)
  · exact absurd hth.1 (not_lt.mpr hge)

theorem RoutesKept.queueOf (hk : RoutesKept s s') (hq : s.QueueOf q p) : s'.QueueOf q p := by
  cases q with
  | thread th => exact hk.threadOf hq
  | _ => exact hq

theorem RoutesKept.trans (hk : RoutesKept s s') (hk' : RoutesKept s' s'') : RoutesKept s s'' where
  nextId := hk.nextId.trans hk'.nextId
  threads := by
    intro th thr'' hthr''
    rcases hk'.threads hthr'' with ⟨thr', hthr', hp'⟩ | ⟨hge, hlt⟩
    · rcases hk.threads hthr' with ⟨thr, hthr, hp⟩ | ⟨hge, hlt⟩
      · exact .inl ⟨thr, hthr, hp'.trans hp⟩
      · exact .inr ⟨hge, hlt.trans_le hk'.nextId⟩
    · exact .inr ⟨hk.nextId.trans hge, hlt⟩
  txns := by
    intro t tx'' htx''
    obtain ⟨tx', htx', hf'⟩ := hk'.txns htx''
    obtain ⟨tx, htx, hf⟩ := hk.txns htx'
    exact ⟨tx, htx, hf.trans hf'⟩
  items := by
    intro q t tx'' hmem htx'' hcall
    obtain ⟨tx', htx', hf'⟩ := hk'.txns htx''
    exact hk.items (hk'.items hmem htx'' hcall) htx' (hf'.needReply.symm.trans hcall)

theorem Routed.kept (hr : Routed s) (hk : RoutesKept s s') : Routed s' where
  threads_lt := by
    intro th thr' hthr'
    rcases hk.threads hthr' with ⟨thr, hthr, -⟩ | ⟨-, hlt⟩
    · exact (hr.threads_lt hthr).trans_le hk.nextId
    · exact hlt
  sender := by
    intro t tx' th htx' hfrom
    obtain ⟨tx, htx, hf⟩ := hk.txns htx'
    rcases hf.fromThread with heq | hnone
    · rw [hf.sender]
      exact hk.threadOf (hr.sender htx (heq.symm.trans hfrom))
    · rw [hnone] at hfrom
      cases hfrom
  server := by
    intro t tx' th htx' hcall hto
    obtain ⟨tx, htx, hf⟩ := hk.txns htx'
    rcases hf.target with ⟨hp, hth, -⟩ | ⟨-, hnone, -⟩
    · obtain ⟨p, htp, hof⟩ := hr.server htx (hf.needReply.symm.trans hcall) (hth.symm.trans hto)
      exact ⟨p, hp.trans htp, hk.threadOf hof⟩
    · rw [hnone] at hto
      cases hto
  place := by
    intro t tx' x htx' hx
    obtain ⟨tx, htx, hf⟩ := hk.txns htx'
    rcases hf.target with ⟨hp, -, hb | hb⟩ | ⟨-, -, hb⟩
    · exact hp.trans (hr.place htx (hb.symm.trans hx))
    · rw [hb] at hx
      cases hx
    · rw [hb] at hx
      cases hx
  queued := by
    intro q t tx' p hmem htx' hcall hto
    obtain ⟨tx, htx, hf⟩ := hk.txns htx'
    have hmem₀ := hk.items hmem htx' hcall
    rcases hf.target with ⟨hp, -⟩ | ⟨hnone, -⟩
    · exact hk.queueOf (hr.queued hmem₀ htx (hf.needReply.symm.trans hcall) (hp.symm.trans hto))
    · rw [hnone] at hto
      cases hto

theorem mem_of_items (hitems : ∀ q, (s'.todo q).filter Work.isTxn = (s.todo q).filter Work.isTxn)
    (hmem : .transaction t ∈ s'.todo q) : .transaction t ∈ s.todo q := by
  have hfilter : Work.transaction t ∈ (s'.todo q).filter Work.isTxn :=
    List.mem_filter.mpr ⟨hmem, rfl⟩
  rw [hitems] at hfilter
  exact (List.mem_filter.mp hfilter).1

theorem RoutesKept.of_items (hnext : s.nextId ≤ s'.nextId)
    (hthreads : ∀ {th thr'}, s'.threads th = some thr' →
      (∃ thr, s.threads th = some thr ∧ thr'.proc = thr.proc) ∨ s.nextId ≤ th ∧ th < s'.nextId)
    (htxns : s'.txns = s.txns)
    (hitems : ∀ q, (s'.todo q).filter Work.isTxn = (s.todo q).filter Work.isTxn) :
    RoutesKept s s' :=
  ⟨hnext, hthreads, fun htx => ⟨_, htxns ▸ htx, .refl _⟩, fun hmem _ _ => mem_of_items hitems hmem⟩

theorem RoutesKept.of_eq (hnext : s.nextId ≤ s'.nextId) (hthreads : s'.threads = s.threads)
    (htxns : s'.txns = s.txns)
    (hitems : ∀ q, (s'.todo q).filter Work.isTxn = (s.todo q).filter Work.isTxn) :
    RoutesKept s s' :=
  .of_items hnext (fun hthr => .inl ⟨_, hthreads ▸ hthr, rfl⟩) htxns hitems

theorem RoutesKept.refl (s : State) : RoutesKept s s := .of_eq le_rfl rfl rfl fun _ => rfl

theorem RoutesKept.setThread {thr thr' : Thread} (hthr : s.threads th = some thr)
    (hp : thr'.proc = thr.proc) : RoutesKept s (s.setThread th thr') := by
  refine .of_items le_rfl (fun {u ur} hur => .inl ?_) rfl fun _ => rfl
  by_cases hu : u = th
  · subst hu
    simp only [State.setThread, Function.update_self, Option.some.injEq] at hur
    exact ⟨thr, hthr, hur ▸ hp⟩
  · simp only [State.setThread, Function.update_of_ne hu] at hur
    exact ⟨ur, hur, rfl⟩

theorem RoutesKept.updateTxn (htx : s.txns t = some tx) {y : Option Transaction}
    (hy : ∀ tx', y = some tx' → tx'.Follows tx)
    (hrest : s' = { s with txns := Function.update s.txns t y, area := s'.area }) :
    RoutesKept s s' := by
  rw [hrest]
  refine ⟨le_rfl, fun hthr => .inl ⟨_, hthr, rfl⟩, fun {u ux} hux => ?_, fun hmem _ _ => hmem⟩
  by_cases hu : u = t
  · subst hu
    simp only [Function.update_self] at hux
    exact ⟨tx, htx, hy ux hux⟩
  · simp only [Function.update_of_ne hu] at hux
    exact ⟨ux, hux, .refl ux⟩

theorem freeTxn_routes (hrun : freeTxn s t = .ok s') : RoutesKept s s' := by
  obtain ⟨tx, s₁, htx, hdetach, rfl⟩ := freeTxn_eq hrun
  refine .updateTxn htx (y := none) (by simp) ?_
  rw [(detachBuffer_live hdetach).1]

theorem UnwindStep.routes (hstep : UnwindStep s s') : RoutesKept s s' := by
  cases hstep with
  | slots hthr => exact .setThread hthr rfl
  | stack hthr => exact .setThread hthr rfl
  | orphan htx hcall =>
      refine .updateTxn htx (fun tx' heq => ?_) rfl
      cases heq
      exact ⟨rfl, rfl, .inr rfl, .inl ⟨rfl, rfl, .inl rfl⟩⟩
  | @cut t tx s₁ htx hcall hdetach =>
      have hcut :
          Transaction.Follows { tx with toProc := none, toThread := none, buffer := none } tx :=
        ⟨rfl, rfl, .inl rfl, .inr ⟨rfl, rfl, rfl⟩⟩
      refine .updateTxn htx (y := some _) (fun tx' heq => Option.some.inj heq ▸ hcut) ?_
      rw [(detachBuffer_live hdetach).1]
      rfl
  | free hcall hrun => exact freeTxn_routes hrun

theorem CalmStep.routes (hstep : CalmStep s s') : RoutesKept s s' := by
  cases hstep with
  | still hstill =>
      exact .of_eq hstill.nextId (by rw [hstill.rest]) (by rw [hstill.rest]) hstill.items
  | unwind hun => exact hun.routes
  | thread hthr hsame => exact .setThread hthr (congrArg Prod.fst hsame)
  | fields hnext hrest => exact .of_eq hnext (by rw [hrest]) (by rw [hrest]) fun q => by rw [hrest]
  | alloc _ _ hrest =>
      exact .of_eq (by rw [hrest]) (by rw [hrest]) (by rw [hrest]) fun q => by rw [hrest]
  | discard _ _ hrest =>
      exact .of_eq (by rw [hrest]) (by rw [hrest]) (by rw [hrest]) fun q => by rw [hrest]

theorem Calm.routes (hcalm : Calm s s') : RoutesKept s s' := by
  induction hcalm with
  | refl => exact .refl s
  | tail _ hstep ih => exact ih.trans hstep.routes

theorem Unwound.routes (h : Unwound s s') : RoutesKept s s' := Calm.routes (Unwound.calm h)

theorem mem_of_tail {ws : List Work} {q' : Queue} (hq : s.todo q = w :: ws) {w' : Work}
    (hw : w' ∈ (s.setTodo q ws).todo q') : w' ∈ s.todo q' := by
  by_cases hq' : q' = q
  · subst hq'
    simp only [State.setTodo, Function.update_self] at hw
    exact hq ▸ List.mem_cons_of_mem _ hw
  · simpa only [State.setTodo, Function.update_of_ne hq'] using hw

theorem RoutesKept.of_todo {td : Queue → List Work} (hsub : ∀ q w, w ∈ td q → w ∈ s.todo q) :
    RoutesKept s { s with todo := td } :=
  ⟨le_rfl, fun hthr => .inl ⟨_, hthr, rfl⟩, fun htx => ⟨_, htx, .refl _⟩,
    fun hmem _ _ => hsub _ _ hmem⟩

theorem Dropped.routes (h : Dropped s w s') : RoutesKept s s' := by
  cases h with
  | call _ h => exact Unwound.routes h
  | transaction _ _ hrun => exact freeTxn_routes hrun
  | complete => exact .refl s
  | deadBinder => exact .of_eq le_rfl rfl rfl fun _ => rfl
  | death => exact .of_eq le_rfl rfl rfl fun _ => rfl
  | node => exact .of_eq le_rfl rfl rfl fun _ => rfl

theorem RoutesKept.detached (hrest : s' = { s with txns := detachedTxns s b, area := s'.area }) :
    RoutesKept s s' := by
  cases ht : b.transaction with
  | none =>
      have htxns : detachedTxns s b = s.txns := detachedTxns_of_none ht
      exact .of_eq (by rw [hrest]) (by rw [hrest]) (by rw [hrest]; exact htxns)
        fun q => by rw [hrest]
  | some t =>
      have hold : s'.txns = Function.update s.txns t
          ((s.txns t).map fun tx => { tx with buffer := none }) := by
        rw [hrest]
        simp [detachedTxns, ht]
      cases htx : s.txns t with
      | none =>
          refine .of_eq (by rw [hrest]) (by rw [hrest]) ?_ fun q => by rw [hrest]
          rw [hold, htx, Option.map_none, ← htx, Function.update_eq_self]
      | some tx =>
          have hcut : Transaction.Follows { tx with buffer := none } tx :=
            ⟨rfl, rfl, .inl rfl, .inl ⟨rfl, rfl, .inr rfl⟩⟩
          refine .updateTxn htx (y := some { tx with buffer := none })
            (fun tx' heq => Option.some.inj heq ▸ hcut) ?_
          rw [hrest]
          simp [detachedTxns, ht, htx]

/-! ### Sending -/

theorem Routed.threadOf (hr : Routed s) {thr : Thread} (hthr : s.threads th = some thr) :
    s.ThreadOf th thr.proc := by
  refine ⟨hr.threads_lt hthr, fun thr' hthr' => ?_⟩
  rw [Option.some.inj (hthr.symm.trans hthr')]

theorem Target.Addressed.queueOf {tg : Target} (haddr : tg.Addressed s) (hr : Routed s) :
    s.QueueOf tg.queue tg.proc := by
  unfold Target.queue
  cases hth : tg.thread with
  | none => exact rfl
  | some th =>
      obtain ⟨thr, hthr, hp⟩ := haddr th hth
      exact hp ▸ hr.threadOf hthr

/-- A new transaction comes from a thread of its sender, and a call goes where its
target says. -/
theorem Queued.routed {tg : Target} {x : ProcId × ℕ} (hq : Queued s s' th t tg tx b x q)
    (hr : Routed s) (hnew : ∀ q', .transaction t ∉ s.todo q')
    (hfrom : ∀ u, tx.fromThread = some u → s.ThreadOf u tx.sender)
    (hto : tx.needReply = true → s.QueueOf q tg.proc ∧
      ∀ u, tg.thread = some u → s.ThreadOf u tg.proc) : Routed s' := by
  have htxns : s'.txns = Function.update s.txns t (some tx) := by rw [hq.rest]
  have hthreads : s'.threads = s.threads := by rw [hq.rest]
  have hnext : s'.nextId = s.nextId := by rw [hq.rest]
  have hold : ∀ {u ux}, s'.txns u = some ux → (u = t ∧ ux = tx) ∨ (u ≠ t ∧ s.txns u = some ux) := by
    intro u ux hux
    rw [htxns] at hux
    by_cases hu : u = t
    · subst hu
      simp only [Function.update_self, Option.some.injEq] at hux
      exact .inl ⟨rfl, hux.symm⟩
    · simp only [Function.update_of_ne hu] at hux
      exact .inr ⟨hu, hux⟩
  have hof : ∀ {u p}, s.ThreadOf u p → s'.ThreadOf u p := by
    intro u p hu
    rwa [State.ThreadOf, hthreads, hnext]
  have hqueue : ∀ {q p}, s.QueueOf q p → s'.QueueOf q p := by
    intro q p h
    cases q with
    | thread u => exact hof h
    | _ => exact h
  constructor
  case threads_lt =>
    intro u ur hur
    rw [hnext]
    exact hr.threads_lt (hthreads ▸ hur)
  case sender =>
    intro u ux v hux hv
    rcases hold hux with ⟨rfl, rfl⟩ | ⟨-, hux⟩
    · exact hof (hfrom v hv)
    · exact hof (hr.sender hux hv)
  case server =>
    intro u ux v hux hcall hv
    rcases hold hux with ⟨rfl, rfl⟩ | ⟨-, hux⟩
    · exact ⟨tg.proc, hq.toProc, hof ((hto hcall).2 v (hq.toThread.symm.trans hv))⟩
    · obtain ⟨p, hp, hth⟩ := hr.server hux hcall hv
      exact ⟨p, hp, hof hth⟩
  case place =>
    intro u ux y hux hy
    rcases hold hux with ⟨rfl, rfl⟩ | ⟨-, hux⟩
    · rw [hq.buffer] at hy
      rw [hq.toProc, ← hq.place, Option.some.inj hy]
    · exact hr.place hux hy
  case queued =>
    intro q' u ux p hmem hux hcall hp
    have hmem₀ : .transaction u ∈ s.todo q' ∨ q' = q ∧ u = t := by
      rw [hq.rest] at hmem
      rcases mem_listAddTail hmem with hmem | ⟨-, ⟨⟩⟩
      rcases mem_listAddTail hmem with hmem | ⟨hq', heq⟩
      · exact .inl hmem
      · exact .inr ⟨hq', Work.transaction.inj heq⟩
    rcases hold hux with ⟨rfl, rfl⟩ | ⟨hne, hux⟩
    · obtain ⟨rfl, -⟩ := hmem₀.resolve_left (hnew q')
      rw [hq.toProc, Option.some.injEq] at hp
      exact hp ▸ hqueue (hto hcall).1
    · exact hqueue (hr.queued (hmem₀.resolve_right fun h => hne h.2) hux hcall hp)

theorem Transacted.routed (hsent : Transacted s p th t s') {thr : Thread}
    (hthr : s.threads th = some thr) (hproc : thr.proc = p)
    (hnew : ∀ q, .transaction t ∉ s.todo q) (hr : Routed s) : Routed s' := by
  have hcalm : ∀ {s₁}, Calm s s₁ → Routed s₁ ∧ (∀ q, .transaction t ∉ s₁.todo q) ∧
      s₁.ThreadOf th p := by
    intro s₁ hcalm
    have hk := Calm.routes hcalm
    exact ⟨hr.kept hk, fun q hmem => hnew q (mem_of_items (Calm.items hcalm) hmem),
      hk.threadOf (hproc ▸ hr.threadOf hthr)⟩
  have hplain : ∀ {s₁ tg tx b x q}, Queued s₁ s' th t tg tx b x q →
      (tg.node.isSome && !tfOneWay tx.flags) = false → tx.needReply = false := by
    intro s₁ tg tx b x q hq hnone
    rw [hq.agrees.1, hq.node]
    exact hnone
  cases hsent with
  | failed h => exact (hcalm h).1
  | @call s₁ _ thr₁ tg tx b x n h haddr hthr₁ hq hnode hsender hfrom hparent hreply =>
      obtain ⟨hr₁, hnew₁, hth₁⟩ := hcalm h
      have hk : RoutesKept s₁ (s₁.setThread th { thr₁ with transactionStack := some t }) :=
        .setThread hthr₁ rfl
      refine hq.routed (hr₁.kept hk) hnew₁ (fun u hu => ?_) fun _ => ⟨?_, fun u hu => ?_⟩
      · obtain rfl : th = u := Option.some.inj (hfrom.symm.trans hu)
        exact hsender ▸ hk.threadOf hth₁
      · exact hk.queueOf (haddr.queueOf hr₁)
      · obtain ⟨ur, hur, hp⟩ := haddr u hu
        exact hk.threadOf (hp ▸ hr₁.threadOf hur)
  | @oneWay s₁ _ tg tx b x n nd h hnode hnd hlt hnproc hasync hq hsender hfrom hparent hflags =>
      obtain ⟨hr₁, hnew₁, -⟩ := hcalm h
      have hk : RoutesKept s₁ (s₁.setNode n { nd with hasAsyncTransaction := true }) :=
        .of_eq le_rfl rfl rfl fun _ => rfl
      refine hq.routed (hr₁.kept hk) hnew₁ (by simp [hfrom]) fun hcall => ?_
      simp [hplain hq (by simp [hflags])] at hcall
  | waiting h hnode hnd hlt hnproc hasync hq hsender hfrom hparent hflags =>
      obtain ⟨hr₁, hnew₁, -⟩ := hcalm h
      refine hq.routed hr₁ hnew₁ (by simp [hfrom]) fun hcall => ?_
      simp [hplain hq (by simp [hflags])] at hcall
  | reply h haddr hnode hthread hq hsender hfrom hparent hirt =>
      obtain ⟨hr₁, hnew₁, -⟩ := hcalm h
      refine hq.routed hr₁ hnew₁ (by simp [hfrom]) fun hcall => ?_
      simp [hplain hq (by simp [hnode])] at hcall

/-! ### Reading -/

theorem State.QueueOf.eq_owner {p' : ProcId} (hq : s.QueueOf q p')
    (howner : s.queueOwner q = some p) : p' = p := by
  cases q with
  | proc q => exact hq.symm.trans (Option.some.inj howner)
  | thread u =>
      obtain ⟨ur, hur, hp⟩ := Option.map_eq_some_iff.mp howner
      exact (hq.2 ur hur).symm.trans hp
  | async n => cases howner
  | deliveredDeath q => cases howner

theorem Received.routed (hdel : Received s s') (hr : Routed s) : Routed s' := by
  obtain @⟨p, th, q, t, thr, ws, tx, x, howner, hq, hthr, hproc, htx, hx, hcall, hrest⟩ := hdel
  have hplace := hr.place htx hx
  have hp : x.1 = p :=
    (hr.queued (hq ▸ List.mem_cons_self) htx hcall hplace).eq_owner howner
  have hth : s.ThreadOf th p := hproc ▸ hr.threadOf hthr
  -- all but the new thread of the call is as before
  have hk : RoutesKept s (({ s with
      todo := (s.listDel q (.transaction t)).todo }.setThread th
        { thr with transactionStack := some t })) :=
    (RoutesKept.of_todo fun _ _ hw => mem_of_listDel hw).trans
      (.setThread (s := { s with todo := (s.listDel q (.transaction t)).todo }) hthr rfl)
  have hr₁ := hr.kept hk
  have hth₁ := hk.threadOf hth
  rw [hrest]
  have hold : ∀ {u ux}, Function.update s.txns t
      (some { tx with toParent := thr.transactionStack, toThread := some th }) u = some ux →
      ∃ ux₀, s.txns u = some ux₀ ∧ ux.sender = ux₀.sender ∧ ux.needReply = ux₀.needReply ∧
        ux.fromThread = ux₀.fromThread ∧ ux.toProc = ux₀.toProc ∧ ux.buffer = ux₀.buffer ∧
        (ux.toThread = ux₀.toThread ∨ u = t ∧ ux.toThread = some th) := by
    intro u ux hux
    by_cases hu : u = t
    · subst hu
      simp only [Function.update_self, Option.some.injEq] at hux
      subst hux
      exact ⟨tx, htx, rfl, rfl, rfl, rfl, rfl, .inr ⟨rfl, rfl⟩⟩
    · simp only [Function.update_of_ne hu] at hux
      exact ⟨ux, hux, rfl, rfl, rfl, rfl, rfl, .inl rfl⟩
  constructor
  case threads_lt => exact hr₁.threads_lt
  case sender =>
    intro u ux v hux hv
    obtain ⟨ux₀, hux₀, hs, -, hf, -⟩ := hold hux
    rw [hs]
    exact hr₁.sender hux₀ (hf.symm.trans hv)
  case server =>
    intro u ux v hux hc hv
    obtain ⟨ux₀, hux₀, -, hn, -, hto, -, hthread | ⟨rfl, hthread⟩⟩ := hold hux
    · obtain ⟨p', hp', hof⟩ := hr₁.server hux₀ (hn.symm.trans hc) (hthread.symm.trans hv)
      exact ⟨p', hto.trans hp', hof⟩
    · obtain rfl : tx = ux₀ := Option.some.inj (htx.symm.trans hux₀)
      obtain rfl : th = v := Option.some.inj (hthread.symm.trans hv)
      exact ⟨p, by rw [hto, hplace, hp], hth₁⟩
  case place =>
    intro u ux y hux hy
    obtain ⟨ux₀, hux₀, -, -, -, hto, hb, -⟩ := hold hux
    exact hto.trans (hr₁.place hux₀ (hb.symm.trans hy))
  case queued =>
    intro q' u ux p' hmem hux hc hp'
    obtain ⟨ux₀, hux₀, -, hn, -, hto, -⟩ := hold hux
    exact hr₁.queued hmem hux₀ (hn.symm.trans hc) (hto.symm.trans hp')

/-- Only one-way transactions wait at a node, so that no call is passed on when a buffer
is freed. -/
theorem Advanced.routes {s₁ : State} (hadv : Advanced s th b s₁)
    (hasync : ∀ {n t tx}, .transaction t ∈ s.todo (.async n) → s.txns t = some tx →
      tx.needReply = false) : RoutesKept s s₁ := by
  cases hadv with
  | idle => exact .refl s
  | last => exact .of_eq le_rfl rfl rfl fun _ => rfl
  | @next n nd w ws _ _ _ _ hq =>
      refine ⟨le_rfl, fun hthr => .inl ⟨_, hthr, rfl⟩, fun htx => ⟨_, htx, .refl _⟩, ?_⟩
      intro q t tx hmem htx hcall
      rcases mem_listAddTail hmem with hmem | ⟨-, rfl⟩
      · by_cases hqn : q = .async n
        · subst hqn
          simp only [State.setTodo, Function.update_self] at hmem
          rw [hq]
          exact List.mem_cons_of_mem _ hmem
        · simpa only [State.setTodo, Function.update_of_ne hqn] using hmem
      · rw [hasync (hq ▸ List.mem_cons_self) htx] at hcall
        cases hcall

theorem WorkStep.routes_or (hstep : WorkStep C d s o s') (ht : TakesTurns C d h s)
    (hv : Served C d h s) : RoutesKept s s' ∨ Received s s' ∨
      ∃ p th thr, s.threads th = some thr ∧ thr.proc = p ∧ Transacted s p th s.nextId s' := by
  cases hstep with
  | calm hcalm => exact .inl (Calm.routes hcalm)
  | sent hd heq hthr hproc hsent => exact .inr (.inr ⟨_, _, _, hthr, hproc, heq ▸ hsent⟩)
  | @freed p th thr a b s₁ _ hd hthr hproc hclean hb huser hadv hrest hlive =>
      have hk : RoutesKept s s₁ := hadv.routes fun {n t tx} hmem htx => by
        obtain ⟨u, heq, hacc⟩ := hv.waits hmem rfl
        obtain rfl := Work.transaction.inj heq
        exact ht.plain hacc htx
      have htxns : detachedTxns s b = detachedTxns s₁ b := by
        unfold detachedTxns
        rw [hadv.rest]
      refine .inl (hk.trans (.detached (b := b) ?_))
      rw [hrest, htxns]
  | noMemory hd hthr => exact .inl (.setThread hthr rfl)
  | requested => exact .inl (.of_eq (Nat.le_succ _) rfl rfl fun _ => rfl)
  | requestedDead =>
      exact .inl (.of_eq (Nat.le_succ _) rfl rfl (filter_todo_listAddTail rfl _))
  | cleared => exact .inl (.of_eq le_rfl rfl rfl (filter_todo_listAddTail rfl _))
  | clearedQueued => exact .inl (.of_eq le_rfl rfl rfl fun _ => rfl)
  | @acked p e de =>
      refine .inl (.of_eq ?_ ?_ ?_ (filter_todo_unlinkDeath e de))
      all_goals
        rw [unlinkDeath_eq]
        rfl
  | @ackedClear p th thr e de =>
      refine .inl (.of_eq ?_ ?_ ?_ fun q => ?_)
      · rw [unlinkDeath_eq]
        rfl
      · rw [unlinkDeath_eq]
        rfl
      · rw [unlinkDeath_eq]
        rfl
      · refine (filter_todo_listAddTail rfl _ q).trans ?_
        exact filter_todo_unlinkDeath e de q
  | complete hd howner hq =>
      refine .inl (.of_todo fun q' w hw => ?_)
      exact mem_of_tail hq hw
  | clearDone => exact .inl (.of_eq le_rfl rfl rfl (filter_todo_listDel rfl _))
  | @deadBinder p th q e de ws =>
      refine .inl (.of_eq le_rfl rfl rfl fun q' => ?_)
      by_cases hq' : q' = .deliveredDeath p
      · subst hq'
        simp only [State.setTodo, Function.update_self, List.filter_cons, Work.isTxn]
        exact filter_todo_listDel rfl q _
      · simp only [State.setTodo, Function.update_of_ne hq']
        exact filter_todo_listDel rfl q q'
  | receivedCall hd howner hq hthr hproc htx hx hb hcall hrest hlive =>
      exact .inr (.inl ⟨howner, hq, hthr, hproc, htx, hx, hcall, hrest⟩)
  | @received p th q t ws tx b x cmd _ hd howner hq htx hx hb hcall hcmd hrest hlive =>
      have hk : RoutesKept s { s with todo := (s.listDel q (.transaction t)).todo } :=
        .of_todo fun _ _ hw => mem_of_listDel hw
      refine .inl (hk.trans (.updateTxn htx (y := none) (by simp) ?_))
      rw [hrest]
  | @dropped q w ws _ hq h =>
      have hk : RoutesKept s (s.setTodo q ws) := .of_todo fun q' w hw => mem_of_tail hq hw
      exact .inl (hk.trans h.routes)
  | @threadGone th thr hthr =>
      refine .inl (.of_items le_rfl (fun {u ur} hur => .inl ⟨ur, ?_, rfl⟩) rfl fun _ => rfl)
      by_cases hu : u = th
      · simp [hu] at hur
      · simpa only [Function.update_of_ne hu] using hur
  | @threadNew thr hd hstack he he₂ hfresh =>
      refine .inl (.of_items (Nat.le_succ _) (fun {u ur} hur => ?_) rfl fun _ => rfl)
      by_cases hu : u = s.nextId
      · exact .inr ⟨hu.ge, by rw [hu]; exact Nat.lt_succ_self _⟩
      · simp only [State.setThread, Function.update_of_ne hu] at hur
        exact .inl ⟨ur, hur, rfl⟩
  | nodeGone => exact .inl (.of_eq le_rfl rfl rfl fun _ => rfl)
  | nodeDies hd hnd hproc hrefs hq hdead hasync hrun =>
      obtain ⟨hrest, hitems⟩ := notifyDeath_rest hrun
      exact .inl (.of_eq (by rw [hrest]) (by rw [hrest]) (by rw [hrest]) hitems)
  | bufferGone hd hb hrest => exact .inl (.detached hrest)

theorem WorkStep.routed (hstep : WorkStep C d s o s') (ht : TakesTurns C d h s)
    (hv : Served C d h s) (hr : Routed s) : Routed s' := by
  rcases hstep.routes_or ht hv with hk | hdel | ⟨p, th, thr, hthr, hproc, hsent⟩
  · exact hr.kept hk
  · exact hdel.routed hr
  · refine hsent.routed hthr hproc (fun q hmem => ?_) hr
    exact absurd (ht.item_lt hmem) (lt_irrefl _)

theorem routed_init : Routed State.init where
  threads_lt := by simp [State.init]
  sender := by simp [State.init]
  server := by simp [State.init]
  place := by simp [State.init]
  queued := by simp [State.init]

theorem routed_steady : Steady L C fun d h s =>
    (TakesTurns C d h s ∧ Deaths C d h s ∧ Served C d h s) ∧ Routed s where
  step := fun hs hI hstep =>
    ⟨(served_steady (L := L)).step hs hI.1 hstep, hstep.routed hI.1.1 hI.1.2.2 hI.2⟩
  exempt := fun hI => ⟨(served_steady (L := L)).exempt hI.1, hI.2⟩
  gone := fun hs hgone hI => ⟨served_steady.gone hs hgone hI.1, hI.2⟩

end Kept

end Driver

end BinderForLinux
