import BinderForLinux.Driver.Work.Commands

/-!
# The work of threads and processes that go away

An exiting thread unwinds its stack and then drops the items of its list one by one;
a process drops everything it has.
-/

namespace BinderForLinux

namespace Driver

open Library

section Release

variable {L : Layout} {C : Condition} {d : Option ProcId} {s s' s'' : State} {p : ProcId}
  {th : ThreadId} {q : Queue} {w : Work}

/-! ### Dropping a list -/

theorem Earlier.refl (s : State) : Earlier s s :=
  ⟨fun h => ⟨_, h, rfl⟩, fun h => ⟨_, h, rfl⟩, fun h => ⟨_, h, rfl, rfl⟩, rfl,
    fun h => ⟨_, h, rfl, rfl, fun _ => rfl⟩, fun hb _ => hb⟩

theorem Earlier.trans (h : Earlier s s') (h' : Earlier s' s'') : Earlier s s'' where
  thread := by
    intro th thr hthr
    obtain ⟨thr', hthr', hp'⟩ := h.thread hthr
    obtain ⟨thr'', hthr'', hp''⟩ := h'.thread hthr'
    exact ⟨thr'', hthr'', hp''.trans hp'⟩
  threadBack := by
    intro th thr'' hthr''
    obtain ⟨thr', hthr', hp'⟩ := h'.threadBack hthr''
    obtain ⟨thr, hthr, hp⟩ := h.threadBack hthr'
    exact ⟨thr, hthr, hp'.trans hp⟩
  node := by
    intro n nd hnd
    obtain ⟨nd', hnd', hp', hr'⟩ := h.node hnd
    obtain ⟨nd'', hnd'', hp'', hr''⟩ := h'.node hnd'
    exact ⟨nd'', hnd'', hp''.trans hp', hr''.trans hr'⟩
  refs := h'.refs.trans h.refs
  txn := by
    intro t tx'' htx''
    obtain ⟨tx', htx', hr', hf', hs'⟩ := h'.txn htx''
    obtain ⟨tx, htx, hr, hf, hs⟩ := h.txn htx'
    exact ⟨tx, htx, hr.trans hr', hf.trans hf', fun hplain =>
      (hs' (hr.symm.trans hplain)).trans (hs hplain)⟩
  buffer := fun hb ht => h.buffer (h'.buffer hb ht) ht

theorem detachBuffer_kept {buffer : Option (ProcId × ℕ)} (hrun : detachBuffer s buffer = .ok s')
    {x : ProcId × ℕ} {b : Buffer} {t : TxnId} (hb : s'.live x = some b)
    (ht : b.transaction = some t) : s.live x = some b := by
  rw [(detachBuffer_live hrun).2] at hb
  split at hb
  · obtain ⟨b₀, -, rfl⟩ := Option.map_eq_some_iff.mp hb
    cases ht
  · exact hb

theorem freeTxn_earlier {t : TxnId} (hrun : freeTxn s t = .ok s') : Earlier s s' := by
  obtain ⟨tx, s₁, htx, hdetach, rfl⟩ := freeTxn_eq hrun
  have hbuffer : ∀ {x b u}, ({ s₁ with txns := Function.update s₁.txns t none } : State).live x =
      some b → b.transaction = some u → s.live x = some b :=
    fun hb hu => detachBuffer_kept hdetach hb hu
  rw [(detachBuffer_live hdetach).1] at hbuffer ⊢
  refine ⟨fun h => ⟨_, h, rfl⟩, fun h => ⟨_, h, rfl⟩, fun h => ⟨_, h, rfl, rfl⟩, rfl,
    fun {u ux} hux => ?_, hbuffer⟩
  by_cases hut : u = t
  · simp [hut] at hux
  · simp only [Function.update_of_ne hut] at hux
    exact ⟨ux, hux, rfl, rfl, fun _ => rfl⟩

theorem UnwindStep.threadBack (h : UnwindStep s s') {thr' : Thread}
    (hthr : s'.threads th = some thr') :
    ∃ thr, s.threads th = some thr ∧ thr'.proc = thr.proc := by
  cases hth : s.threads th with
  | some thr =>
      obtain ⟨thr₁, hthr₁, hp⟩ := h.thread hth
      obtain rfl : thr' = thr₁ := Option.some.inj (hthr.symm.trans hthr₁)
      exact ⟨thr, rfl, hp⟩
  | none =>
      have hset : ∀ {u ur ur'}, s.threads u = some ur → (s.setThread u ur').threads th = none := by
        intro u ur ur' hur
        have hne : th ≠ u := by
          rintro rfl
          simp [hth] at hur
        simpa [State.setThread, Function.update_of_ne hne] using hth
      have hnone : s'.threads th = none := by
        cases h with
        | slots hur => exact hset hur
        | stack hur => exact hset hur
        | orphan => exact hth
        | cut _ _ hdetach =>
            rw [(detachBuffer_live hdetach).1]
            exact hth
        | free _ hrun =>
            obtain ⟨tx, s₁, -, hdetach, rfl⟩ := freeTxn_eq hrun
            rw [(detachBuffer_live hdetach).1]
            exact hth
      rw [hnone] at hthr
      cases hthr

theorem UnwindStep.earlier (h : UnwindStep s s') : Earlier s s' := by
  refine ⟨fun hthr => h.thread hthr, fun hthr => h.threadBack hthr,
    fun {n nd} hnd => ⟨nd, ?_, rfl, rfl⟩, by rw [h.rest], ?_, ?_⟩
  · rw [h.rest]
    exact hnd
  · intro u ux' hux'
    cases h with
    | slots => exact ⟨ux', hux', rfl, rfl, fun _ => rfl⟩
    | stack => exact ⟨ux', hux', rfl, rfl, fun _ => rfl⟩
    | @orphan t tx htx hcall =>
        by_cases hut : u = t
        · subst hut
          simp only [State.setTxn, Function.update_self, Option.some.injEq] at hux'
          refine ⟨tx, htx, hux' ▸ rfl, hux' ▸ rfl, fun hplain => ?_⟩
          rw [hcall.2 tx htx] at hplain
          cases hplain
        · simp only [State.setTxn, Function.update_of_ne hut] at hux'
          exact ⟨ux', hux', rfl, rfl, fun _ => rfl⟩
    | @cut t tx s₁ htx hcall hdetach =>
        rw [(detachBuffer_live hdetach).1] at hux'
        by_cases hut : u = t
        · subst hut
          simp only [State.setTxn, Function.update_self, Option.some.injEq] at hux'
          refine ⟨tx, htx, hux' ▸ rfl, hux' ▸ rfl, fun hplain => ?_⟩
          rw [hcall.2 tx htx] at hplain
          cases hplain
        · simp only [State.setTxn, Function.update_of_ne hut] at hux'
          exact ⟨ux', hux', rfl, rfl, fun _ => rfl⟩
    | free hcall hrun => exact (freeTxn_earlier hrun).txn hux'
  · intro x b u hb hu
    cases h with
    | slots => exact hb
    | stack => exact hb
    | orphan => exact hb
    | cut htx hcall hdetach => exact detachBuffer_kept hdetach hb hu
    | free hcall hrun => exact (freeTxn_earlier hrun).buffer hb hu

theorem Unwound.earlier (h : Unwound s s') : Earlier s s' := by
  induction h with
  | refl => exact Earlier.refl s
  | tail _ hstep ih => exact ih.trans hstep.earlier

theorem Earlier.setThreadsOf (s : State) (ths : ProcId → List ThreadId) :
    Earlier s { s with threadsOf := ths } :=
  ⟨fun h => ⟨_, h, rfl⟩, fun h => ⟨_, h, rfl⟩, fun h => ⟨_, h, rfl, rfl⟩, rfl,
    fun h => ⟨_, h, rfl, rfl, fun _ => rfl⟩, fun hb _ => hb⟩

theorem Earlier.setTodo (s : State) (td : Queue → List Work) : Earlier s { s with todo := td } :=
  ⟨fun h => ⟨_, h, rfl⟩, fun h => ⟨_, h, rfl⟩, fun h => ⟨_, h, rfl, rfl⟩, rfl,
    fun h => ⟨_, h, rfl, rfl, fun _ => rfl⟩, fun hb _ => hb⟩

theorem Earlier.setDeaths (s : State) (ds : DeathId → Option Death) :
    Earlier s { s with deaths := ds } :=
  ⟨fun h => ⟨_, h, rfl⟩, fun h => ⟨_, h, rfl⟩, fun h => ⟨_, h, rfl, rfl⟩, rfl,
    fun h => ⟨_, h, rfl, rfl, fun _ => rfl⟩, fun hb _ => hb⟩

theorem Dropped.earlier (h : Dropped s w s') : Earlier s s' := by
  cases h with
  | call _ h => exact h.earlier
  | transaction _ _ hrun => exact freeTxn_earlier hrun
  | complete => exact Earlier.refl s
  | deadBinder => exact Earlier.setDeaths s _
  | death => exact Earlier.setDeaths s _
  | @node n nd hnd =>
      refine ⟨fun h => ⟨_, h, rfl⟩, fun h => ⟨_, h, rfl⟩, fun {m md} hmd => ?_, rfl,
        fun h => ⟨_, h, rfl, rfl, fun _ => rfl⟩, fun hb _ => hb⟩
      by_cases hm : m = n
      · subst hm
        obtain rfl : nd = md := Option.some.inj (hnd.symm.trans hmd)
        exact ⟨_, Function.update_self .., rfl, rfl⟩
      · exact ⟨md, (Function.update_of_ne hm ..).trans hmd, rfl, rfl⟩

theorem MayDrop.later (h : MayDrop C d s q w) (he : Earlier s s') : MayDrop C d s' q w := by
  cases h with
  | proc hd => exact .proc hd
  | deliveredDeath hd => exact .deliveredDeath hd
  | thread hd hthr hproc =>
      obtain ⟨thr', hthr', hp⟩ := he.thread hthr
      exact .thread hd hthr' (hp.trans hproc)
  | async hd hnd hproc =>
      obtain ⟨nd', hnd', hp, -⟩ := he.node hnd
      exact .async hd hnd' (hp.trans hproc)
  | exit hC hw h => exact .exit hC hw (h.trans he)

theorem detachBuffer_setTodo {buffer : Option (ProcId × ℕ)} (hrun : detachBuffer s buffer = .ok s')
    (td : Queue → List Work) :
    detachBuffer { s with todo := td } buffer = .ok { s' with todo := td } := by
  rcases buffer with _ | ⟨bp, a⟩
  · obtain rfl : s = s' := by simpa [detachBuffer] using hrun
    rfl
  · simp only [detachBuffer, except_bind_eq_ok, except_pure_eq_ok] at hrun
    obtain ⟨b, hb, rfl⟩ := hrun
    have hb' : derefBuffer { s with todo := td } bp a = .ok b := hb
    simp only [detachBuffer, hb']
    rfl

theorem freeTxn_setTodo {t : TxnId} (hrun : freeTxn s t = .ok s') (td : Queue → List Work) :
    freeTxn { s with todo := td } t = .ok { s' with todo := td } := by
  obtain ⟨tx, s₁, htx, hdetach, rfl⟩ := freeTxn_eq hrun
  have htx' : deref ({ s with todo := td } : State).txns t = .ok tx := deref_eq_ok.mpr htx
  simp only [freeTxn, except_bind_ok htx', except_bind_ok (detachBuffer_setTodo hdetach td)]
  rfl

theorem UnwindStep.setTodo (h : UnwindStep s s') (td : Queue → List Work) :
    UnwindStep { s with todo := td } { s' with todo := td } := by
  cases h with
  | slots hthr he he₂ => exact @UnwindStep.slots { s with todo := td } _ _ _ _ hthr he he₂
  | stack hthr hx => exact @UnwindStep.stack { s with todo := td } _ _ _ hthr hx
  | orphan htx hcall => exact @UnwindStep.orphan { s with todo := td } _ _ htx hcall
  | @cut t tx s₁ htx hcall hdetach =>
      exact @UnwindStep.cut { s with todo := td } t tx { s₁ with todo := td } htx hcall
        (detachBuffer_setTodo hdetach td)
  | @free t _ hcall hrun =>
      exact @UnwindStep.free { s with todo := td } t _ hcall (freeTxn_setTodo hrun td)

theorem Unwound.setTodo (h : Unwound s s') (td : Queue → List Work) :
    Unwound { s with todo := td } { s' with todo := td } := by
  induction h with
  | refl => exact .refl
  | tail _ hstep ih => exact ih.tail (hstep.setTodo td)

theorem releaseWork_dropped (hs : Linked s) (hrun : releaseWork s w = .ok s')
    (td : Queue → List Work) :
    Dropped { s with todo := td } w { s' with todo := td } ∧ s'.todo = s.todo := by
  cases w with
  | transaction t =>
      simp only [releaseWork, except_bind_eq_ok, deref_eq_ok] at hrun
      obtain ⟨tx, htx, hrun⟩ := hrun
      cases hx : tx.buffer with
      | none => simp [hx] at hrun
      | some x =>
          obtain ⟨bp, a⟩ := x
          simp only [hx, except_bind_eq_ok] at hrun
          obtain ⟨b, hb, hrun⟩ := hrun
          obtain ⟨b', hb', -, hreply, -⟩ := hs.buffer htx hx
          obtain rfl : b = b' := Option.some.inj ((live_eq_some.mpr hb).symm.trans hb')
          split at hrun
          · rename_i hcall
            have hcall : s.IsCall t := by
              refine ⟨hs.txns_lt htx, fun tx' htx' => ?_⟩
              obtain rfl : tx = tx' := Option.some.inj (htx.symm.trans htx')
              exact hreply.trans hcall
            have h := binderSendFailedReply_unwound hs hcall (by simp) hrun
            exact ⟨.call hcall (h.setTodo td), by rw [h.rest]⟩
          · rename_i hcall
            refine ⟨@Dropped.transaction { s with todo := td } t tx _ htx
              (hreply.trans (by simpa using hcall)) (freeTxn_setTodo hrun td), ?_⟩
            obtain ⟨tx', s₁, htx', hdetach, rfl⟩ := freeTxn_eq hrun
            rw [(detachBuffer_live hdetach).1]
  | transactionComplete t =>
      obtain rfl : s = s' := by simpa [releaseWork] using hrun
      exact ⟨.complete, rfl⟩
  | node n =>
      simp only [releaseWork, except_bind_eq_ok, deref_eq_ok, except_pure_eq_ok] at hrun
      obtain ⟨nd, hnd, rfl⟩ := hrun
      exact ⟨@Dropped.node { s with todo := td } n nd hnd, rfl⟩
  | death e =>
      simp only [releaseWork, except_bind_eq_ok, deref_eq_ok] at hrun
      obtain ⟨de, hde, hrun⟩ := hrun
      split at hrun
      · rename_i hty
        simp only [except_pure_eq_ok] at hrun
        subst hrun
        exact ⟨@Dropped.deadBinder { s with todo := td } e de hde hty, rfl⟩
      · rename_i hty
        simp only [except_pure_eq_ok] at hrun
        subst hrun
        exact ⟨@Dropped.death { s with todo := td } e de hde hty, rfl⟩

theorem releaseWorks_steps {ws : List Work} (hs : Linked s) (hq : s.todo q = [])
    (hmay : ∀ w ∈ ws, MayDrop C d s q w) (hrun : releaseWorks s ws = .ok s') :
    WorkSteps C d (s.setTodo q ws) [] s' ∧ Earlier s s' ∧ s'.todo = s.todo := by
  induction ws generalizing s with
  | nil =>
      obtain rfl : s = s' := by simpa [releaseWorks] using hrun
      have hsame : s.setTodo q [] = s := by
        rw [State.setTodo, ← hq, Function.update_eq_self]
      exact ⟨hsame.symm ▸ WorkSteps.refl s, Earlier.refl s, rfl⟩
  | cons w ws ih =>
      simp only [releaseWorks, except_bind_eq_ok] at hrun
      obtain ⟨s₁, hwork, hrun⟩ := hrun
      obtain ⟨hdrop, htodo⟩ := releaseWork_dropped hs hwork (Function.update s.todo q ws)
      obtain ⟨hdrop₀, -⟩ := releaseWork_dropped hs hwork s.todo
      have heq : ({ s₁ with todo := s.todo } : State) = s₁ := by rw [← htodo]
      rw [heq] at hdrop₀
      have hearlier : Earlier s s₁ := hdrop₀.earlier
      have hlinked : Linked s₁ := hdrop₀.linked hs
      obtain ⟨hsteps, he, htd⟩ := ih hlinked (htodo ▸ hq)
        (fun w' hw' => (hmay w' (List.mem_cons_of_mem _ hw')).later hearlier) hrun
      refine ⟨?_, hearlier.trans he, htd.trans htodo⟩
      have hfirst : WorkStep C d (s.setTodo q (w :: ws)) [] (s₁.setTodo q ws) := by
        refine .dropped (w := w) (Function.update_self ..) ?_ ?_
        · have heq : (s.setTodo q (w :: ws)).setTodo q ws = s.setTodo q ws := by
            simp [State.setTodo]
          rw [heq, State.setTodo, State.setTodo, htodo]
          exact hdrop
        · exact (hmay w List.mem_cons_self).later (Earlier.setTodo s _)
      exact hfirst.steps.after hsteps

theorem binderReleaseWork_steps (hs : Linked s) (hmay : ∀ w ∈ s.todo q, MayDrop C d s q w)
    (hrun : binderReleaseWork s q = .ok s') :
    WorkSteps C d s [] s' ∧ Earlier s s' ∧ s'.todo q = [] := by
  have he : Earlier s (s.setTodo q []) := Earlier.setTodo s _
  obtain ⟨hsteps, he', htodo⟩ := releaseWorks_steps (C := C) (d := d) (hs.setTodo _)
    (Function.update_self ..) (fun w hw => (hmay w hw).later he) hrun
  have hsame : (s.setTodo q []).setTodo q (s.todo q) = s := by
    simp [State.setTodo]
  refine ⟨hsame ▸ hsteps, he.trans he', ?_⟩
  rw [htodo]
  exact Function.update_self ..

/-! ### Threads -/

theorem calm_setThreadsOf (s : State) (ths : ProcId → List ThreadId) :
    Calm s { s with threadsOf := ths } :=
  .single (.fields le_rfl rfl (live_congr rfl))

theorem binderFreeThread_steps (hs : Linked s)
    (hmay : ∀ w ∈ s.todo (.thread th), MayDrop C d s (.thread th) w)
    (hd : ∀ q thr, d = some q → s.threads th = some thr → thr.proc = q)
    (hrun : binderFreeThread s p th = .ok s') :
    WorkSteps C d s [] s' ∧ ∀ th' thr', s'.threads th' = some thr' →
      ∃ thr, s.threads th' = some thr ∧ thr'.proc = thr.proc := by
  simp only [binderFreeThread, except_bind_eq_ok, deref_eq_ok, except_pure_eq_ok] at hrun
  obtain ⟨thr, hthr, owed, howed, s₁, hwalk, s₂, hfail, s₃, hrel, rfl⟩ := hrun
  generalize hths : Function.update s.threadsOf p ((s.threadsOf p).filter (· ≠ th)) = ths at *
  have hs₀ : Linked { s with threadsOf := ths } := Calm.linked (calm_setThreadsOf s ths) hs
  have hstack : ∀ t, thr.transactionStack = some t →
      State.IsCall { s with threadsOf := ths } t := fun t ht => hs₀.stack hthr ht
  have hcall := owedReply_isCall hs₀ hthr howed
  have h₁ := freeThreadWalk_unwound hs₀ hstack hwalk
  have h₂ := failOwed_unwound (h₁.linked hs₀) (fun t ht => h₁.isCall (hcall t ht)) hfail
  have h₁₂ := h₁.trans h₂
  have hcalm : Calm s s₂ := (calm_setThreadsOf s ths).trans (Unwound.calm h₁₂)
  have hearlier : Earlier s s₂ := (Earlier.setThreadsOf s ths).trans (Unwound.earlier h₁₂)
  have htodo : s₂.todo = s.todo := by rw [Unwound.rest h₁₂]
  obtain ⟨h₃, he₃, hempty⟩ := binderReleaseWork_steps (C := C) (d := d) (Calm.linked hcalm hs)
    (fun w hw => (hmay w (htodo ▸ hw)).later hearlier) hrel
  obtain ⟨thr₃, hthr₃, hp⟩ := (hearlier.trans he₃).thread hthr
  have h₄ : WorkStep C d s₃ [] { s₃ with threads := Function.update s₃.threads th none } :=
    .threadGone hthr₃ hempty fun q hq => hp.trans (hd q thr hq hthr)
  refine ⟨(Calm.steps hcalm).after (h₃.after h₄.steps), fun th' thr' hthr' => ?_⟩
  by_cases heq : th' = th
  · simp [heq] at hthr'
  · simp only [Function.update_of_ne heq] at hthr'
    exact (hearlier.trans he₃).threadBack hthr'

theorem freeThreads_steps {ths : List ThreadId} (hs : Linked s)
    (hths : ∀ th ∈ ths, ∀ thr, s.threads th = some thr → thr.proc = p)
    (hrun : freeThreads p s ths = .ok s') : WorkSteps C (some p) s [] s' := by
  induction ths generalizing s with
  | nil =>
      obtain rfl : s = s' := by simpa [freeThreads] using hrun
      exact WorkSteps.refl s
  | cons th ths ih =>
      simp only [freeThreads, except_bind_eq_ok] at hrun
      obtain ⟨s₁, hfree, hrun⟩ := hrun
      have hthr := hfree
      simp only [binderFreeThread, except_bind_eq_ok, deref_eq_ok] at hthr
      obtain ⟨thr, hthr, -⟩ := hthr
      have hproc := hths th List.mem_cons_self thr hthr
      obtain ⟨h₁, hback⟩ := binderFreeThread_steps (C := C) (d := some p) hs
        (fun w _ => .thread rfl hthr hproc)
        (fun q thr' hq hthr' => (hths th List.mem_cons_self thr' hthr').trans (Option.some.inj hq))
        hfree
      refine h₁.after (ih (h₁.linked hs) (fun th' hth' thr' hthr' => ?_) hrun)
      obtain ⟨thr₀, hthr₀, hp⟩ := hback th' thr' hthr'
      exact hp.trans (hths th' (List.mem_cons_of_mem _ hth') thr₀ hthr₀)

/-! ### Nodes -/

/-- A node of a process that goes away, when the transactions that waited for it are
dropped. -/
theorem binderNodeRelease_emptied (hs : Coherent L (some p) s) (hlinked : Linked s) {n : NodeId}
    {nd : Node} (hn : n ∈ s.nodesOf p) (hnd : s.nodes n = some nd) {ns : ProcId → List NodeId}
    (hrel : binderReleaseWork (unlinkNode { s with nodesOf := ns } n nd) (.async n) = .ok s') :
    WorkSteps C (some p) s [] s' ∧ s'.todo (.async n) = [] ∧ ∃ nd', s'.nodes n = some nd' ∧
      nd'.proc = some p ∧ nd'.refs = nd.refs ∧
      ∀ r rf, s'.refs r = some rf → (rf.node = n ↔ r ∈ nd'.refs) := by
  obtain ⟨nd₀, hnd₀, hproc⟩ := (hs.tables.nodesOf p n).mp hn
  obtain rfl : nd = nd₀ := Option.some.inj (hnd.symm.trans hnd₀)
  have hun : NodesOnly s (unlinkNode { s with nodesOf := ns } n nd) := by
    have h₁ : NodesOnly s { s with nodesOf := ns } :=
      ⟨rfl, fun _ => rfl, fun h => ⟨_, h, rfl⟩⟩
    exact h₁.trans (unlinkNode_only (s := { s with nodesOf := ns }) hnd rfl)
  have hnd₁ :
      (unlinkNode { s with nodesOf := ns } n nd).nodes n = some { nd with entry := none } := by
    unfold unlinkNode
    cases nd.entry <;> simp [State.setNode]
  have hlinked₁ := Calm.linked hun.calm hlinked
  obtain ⟨h₂, he, hempty⟩ := binderReleaseWork_steps (C := C) (d := some p) hlinked₁
    (fun w _ => .async rfl hnd₁ hproc) hrel
  obtain ⟨nd₂, hnd₂, hp₂, hrefs₂⟩ := he.node hnd₁
  refine ⟨(Calm.steps hun.calm).after h₂, hempty, nd₂, hnd₂, hp₂.trans hproc, hrefs₂, ?_⟩
  intro r rf hrf
  rw [he.refs, hun.rest] at hrf
  have hrf : s.refs r = some rf := hrf
  rw [hrefs₂, hs.tables.mem_refs hnd]
  simp [hrf]

theorem binderNodeRelease_steps (hs : Coherent L (some p) s) (hlinked : Linked s) {n : NodeId}
    (hn : n ∈ s.nodesOf p)
    (hrun : binderNodeRelease { s with
      nodesOf := Function.update s.nodesOf p ((s.nodesOf p).filter (· ≠ n)) } n = .ok s') :
    WorkSteps C (some p) s [] s' := by
  simp only [binderNodeRelease, except_bind_eq_ok, deref_eq_ok] at hrun
  obtain ⟨nd, hnd, s₂, hrel, nd₂, hnd₂, hrun⟩ := hrun
  obtain ⟨h₁₂, hempty, nd', hnd', hproc, -, hrefs⟩ :=
    binderNodeRelease_emptied (C := C) hs hlinked hn hnd hrel
  obtain rfl : nd₂ = nd' := Option.some.inj (hnd₂.symm.trans hnd')
  split at hrun
  · rename_i hnone
    have hnone : nd₂.refs = [] := List.isEmpty_iff.mp hnone
    simp only [except_pure_eq_ok] at hrun
    refine h₁₂.after (hrun ▸ WorkStep.steps (.nodeGone rfl hnd₂ hproc ?_ hempty))
    intro r rf hrf hnode
    have := (hrefs r rf hrf).mp hnode
    simp [hnone] at this
  · refine h₁₂.after (WorkStep.steps (.nodeDies rfl hnd₂ hproc hrefs hempty ?_ ?_ hrun)) <;> rfl

theorem mem_filter_cons {l ns : List ℕ} {n : ℕ} (hns : ∀ m, m ∈ l ↔ m ∈ n :: ns) (hnot : n ∉ ns)
    (m : ℕ) : m ∈ l.filter (· ≠ n) ↔ m ∈ ns := by
  rw [List.mem_filter, hns, List.mem_cons]
  constructor
  · rintro ⟨rfl | hm, hne⟩
    · simp at hne
    · exact hm
  · intro hm
    refine ⟨.inr hm, ?_⟩
    simp only [ne_eq, decide_eq_true_eq]
    rintro rfl
    exact hnot hm

theorem releaseNodes_steps {ns : List NodeId} (hs : Coherent L (some p) s) (hlinked : Linked s)
    (hnodup : ns.Nodup) (hns : ∀ n, n ∈ s.nodesOf p ↔ n ∈ ns)
    (hrun : releaseNodes p s ns = .ok s') : WorkSteps C (some p) s [] s' := by
  induction ns generalizing s with
  | nil =>
      obtain rfl : s = s' := by simpa [releaseNodes] using hrun
      exact WorkSteps.refl s
  | cons n ns ih =>
      simp only [releaseNodes, except_bind_eq_ok] at hrun
      obtain ⟨s₁, hrel, hrun⟩ := hrun
      have hn : n ∈ s.nodesOf p := (hns n).mpr List.mem_cons_self
      obtain ⟨hdep, hnodesOf⟩ := binderNodeRelease_departs hs hn hrel
      have h₁ := binderNodeRelease_steps (C := C) hs hlinked hn hrel
      obtain ⟨hnot, hnodup⟩ := List.nodup_cons.mp hnodup
      refine h₁.after (ih (hdep.coherent hs) (h₁.linked hlinked) hnodup (fun m => ?_) hrun)
      rw [hnodesOf, Function.update_self]
      exact mem_filter_cons hns hnot m

/-! ### Processes -/

theorem deleteRefs_still {rs : List RefId} (hrun : deleteRefs s rs = .ok s') : Still s s' := by
  induction rs generalizing s with
  | nil =>
      obtain rfl : s = s' := by simpa [deleteRefs] using hrun
      exact Still.refl s
  | cons r rs ih =>
      simp only [deleteRefs, except_bind_eq_ok] at hrun
      obtain ⟨s₁, hdel, hrun⟩ := hrun
      exact (binderDeleteRef_still hdel).trans (ih hrun)

theorem dropContextMgr_calm (hrun : dropContextMgr s p = .ok s') : Calm s s' := by
  unfold dropContextMgr at hrun
  split at hrun
  · cases hrun
    exact .refl
  · simp only [except_bind_eq_ok, deref_eq_ok, except_pure_eq_ok] at hrun
    obtain ⟨nd, hnd, rfl⟩ := hrun
    split
    · exact .single (.fields le_rfl rfl (live_congr rfl))
    · exact .refl

theorem freeBuffers_steps {as : List ℕ} (hs : Coherent L (some p) s)
    (hrun : freeBuffers L p s as = .ok s') :
    WorkSteps C (some p) s [] s' ∧ ∀ a, s'.live (p, a) ≠ none → s.live (p, a) ≠ none ∧ a ∉ as := by
  induction as generalizing s with
  | nil =>
      obtain rfl : s = s' := by simpa [freeBuffers] using hrun
      exact ⟨WorkSteps.refl s, fun a ha => ⟨ha, by simp⟩⟩
  | cons a as ih =>
      simp only [freeBuffers, except_bind_eq_ok] at hrun
      obtain ⟨b, hb, s₁, hdetach, ar, hfree, hrun⟩ := hrun
      have hs₁ : Coherent L (some p) (s₁.setArea p ar) := by
        have hrun₁ : freeBuffers L p s [a] = .ok (s₁.setArea p ar) := by
          simp only [freeBuffers, except_bind_eq_ok]
          exact ⟨b, hb, s₁, hdetach, ar, hfree, rfl⟩
        exact (freeBuffers_departs hs hrun₁).1.coherent hs
      have hlive := live_eq_some.mpr hb
      obtain ⟨hrest₁, hlive₁⟩ := detachTransaction_live hlive (hasBuffer_of_deref hb).2 hdetach
      have hareas₁ : AreaOk L (s₁.area p) := (detachTransaction_idle hs.grounded hdetach).areas p
      have hb₁ : derefBuffer s₁ p a = .ok { b with transaction := none } := by
        refine live_eq_some.mp ?_
        rw [hlive₁, Function.update_self]
      obtain ⟨-, hlive'⟩ := live_freeBuf (L := L) hareas₁ hb₁ hfree
      rw [hlive₁, Function.update_idem] at hlive'
      have h₁ : WorkStep C (some p) s [] (s₁.setArea p ar) := by
        refine .bufferGone rfl hlive ?_ hlive'
        rw [hrest₁]
        rfl
      obtain ⟨h₂, hnone⟩ := ih hs₁ hrun
      refine ⟨h₁.steps.after h₂, fun c hc => ?_⟩
      obtain ⟨hc, hmem⟩ := hnone c hc
      rw [hlive'] at hc
      by_cases hca : c = a
      · simp [hca] at hc
      · rw [Function.update_of_ne (by simpa using hca)] at hc
        exact ⟨hc, by simp [hca, hmem]⟩

theorem binderDeferredRelease_steps (hs : Coherent L none s) (hlinked : Linked s)
    (hrun : binderDeferredRelease L s p = .ok s') : WorkSteps C (some p) s [] s' := by
  simp only [binderDeferredRelease, except_bind_eq_ok, bugOn_eq_ok, except_pure_eq_ok] at hrun
  obtain ⟨-, -, -, -, s₁, hctx, s₂, hthreads, s₃, hnodes, s₄, hrefs, s₅, hwork, s₆, hdeaths, s₇,
    hbufs, rfl⟩ := hrun
  -- the coherence of the states on the way
  have d₁ := dropContextMgr_departs hs.exempt hctx
  have d₂ := d₁.trans (Walk.departs (freeThreads_walk (d₁.coherent hs.exempt) hthreads))
  have hs₁ := d₁.coherent hs.exempt
  have hs₂ := d₂.coherent hs.exempt
  obtain ⟨d₃, hnil⟩ := releaseNodes_departs hs₂ (hs₂.tables.nodesOf_nodup p) (fun _ => Iff.rfl)
    hnodes
  have hs₃ := d₃.coherent hs₂
  obtain ⟨d₄, -⟩ := deleteRefs_departs hs₃ (fun r rf hrf => by
    rw [hs₃.tables.byDesc]
    simp [hrf]) hrefs
  have hs₄ := d₄.coherent hs₃
  have hs₅ := (binderReleaseWork_walk (D := True) hs₄ hwork).1.coherent hs₄ Event.isQuiet.stays
  have hs₆ := (binderReleaseWork_walk (D := True) hs₅ hdeaths).1.coherent hs₅ Event.isQuiet.stays
  -- the steps
  have h₁ : WorkSteps C (some p) s [] s₁ := Calm.steps (dropContextMgr_calm hctx)
  have h₂ := h₁.after (freeThreads_steps (h₁.linked hlinked)
    (fun th hth thr hthr => (hs₁.threadsOf hth).2 thr hthr) hthreads)
  have h₃ := h₂.after (releaseNodes_steps hs₂ (h₂.linked hlinked) (hs₂.tables.nodesOf_nodup p)
    (fun _ => Iff.rfl) hnodes)
  have h₄ := h₃.after (deleteRefs_still hrefs).steps
  have h₅ := h₄.after (binderReleaseWork_steps (h₄.linked hlinked) (fun w _ => .proc rfl) hwork).1
  have h₆ := h₅.after
    (binderReleaseWork_steps (h₅.linked hlinked) (fun w _ => .deliveredDeath rfl) hdeaths).1
  obtain ⟨h₇, hnone⟩ := freeBuffers_steps (C := C) hs₆ hbufs
  refine (h₆.after h₇).after (Calm.steps (.single (.fields le_rfl rfl ?_)))
  -- the area that goes away has no allocated buffers left
  have hareas : AreaOk L (s₆.area p) := hs₆.areas p
  have hnone' : ∀ a, s₇.live (p, a) = none := by
    intro a
    by_contra ha
    obtain ⟨hlive, hmem⟩ := hnone a ha
    obtain ⟨b, hb⟩ := Option.ne_none_iff_exists'.mp hlive
    refine hmem ?_
    rcases hareas with hun | ⟨hsound, -⟩
    · simp [State.live, derefBuffer, hun, Area.unmapped, findBuffer, Except.toOption] at hb
    · obtain ⟨hbuf, rfl⟩ := (live_eq_some_of_sound hsound).mp hb
      rw [hsound.allocated]
      exact List.mem_map_of_mem hbuf
  funext x
  obtain ⟨q, a⟩ := x
  by_cases hq : q = p
  · subst hq
    rw [hnone' a]
    exact live_unmapped s₇ q a
  · exact live_setArea_of_ne hq

end Release

end Driver

end BinderForLinux
