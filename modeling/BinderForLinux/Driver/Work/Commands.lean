import BinderForLinux.Driver.Work.Links

/-!
# The work of commands and reads

Every command of a write and every work item of a read is a sequence of steps of
work.
-/

namespace BinderForLinux

namespace Driver

open Library

section Commands

variable {L : Layout} {C : Condition} {d : Option ProcId} {s s' : State} {o : List Obs} {p : ProcId}
  {th : ThreadId} {thr : Thread} {t : TxnId} {a : ℕ} {b : Buffer} {x : ProcId × ℕ}

/-! ### Freeing a buffer -/

theorem advanceTarget_advanced (hrun : advanceTarget s th b = .ok s') : Advanced s th b s' := by
  unfold advanceTarget at hrun
  split at hrun
  · rename_i n hasync hnode
    simp only [advanceAsync, except_bind_eq_ok, derefAsserted_eq_ok, bugOn_eq_ok] at hrun
    obtain ⟨nd, hnd, _, hflag, hrun⟩ := hrun
    have hflag : nd.hasAsyncTransaction = true := by simpa using hflag
    cases hq : s.todo (.async n) with
    | nil =>
        simp only [hq, except_pure_eq_ok] at hrun
        exact hrun ▸ .last hasync hnode hnd hflag hq
    | cons w ws =>
        simp only [hq, except_pure_eq_ok] at hrun
        exact hrun ▸ .next hasync hnode hnd hflag hq
  · rename_i hno
    cases hrun
    refine .idle fun hasync => ?_
    cases hnode : b.targetNode with
    | none => rfl
    | some n => exact absurd hnode (hno n hasync)

theorem Advanced.transfer {s₁ : State} (h : Advanced s₁ th b s')
    (hs₁ : s₁ = { s with txns := s₁.txns, area := s₁.area }) :
    ∃ s₂, Advanced s th b s₂ ∧ s' = { s₂ with txns := s₁.txns, area := s₁.area } := by
  have hnodes : s₁.nodes = s.nodes := by rw [hs₁]
  have htodo : s₁.todo = s.todo := by rw [hs₁]
  cases h with
  | idle h => exact ⟨s, .idle h, hs₁⟩
  | last hasync hnode hnd hflag hq =>
      refine ⟨_, .last hasync hnode (hnodes ▸ hnd) hflag (htodo ▸ hq), ?_⟩
      rw [hs₁]
      rfl
  | next hasync hnode hnd hflag hq =>
      refine ⟨_, .next hasync hnode (hnodes ▸ hnd) hflag (htodo ▸ hq), ?_⟩
      rw [hs₁]
      rfl

theorem detachTransaction_live (hb : s.live (p, a) = some b) (haddr : b.addr = a)
    (hrun : detachTransaction s p b = .ok s') :
    s' = { s with txns := detachedTxns s b, area := s'.area } ∧
      s'.live = Function.update s.live (p, a) (some { b with transaction := none }) := by
  subst haddr
  unfold detachTransaction at hrun
  cases ht : b.transaction with
  | none =>
      obtain rfl : s = s' := by simpa [ht] using hrun
      refine ⟨by simp [detachedTxns, ht], ?_⟩
      have hsame : { b with transaction := none } = b := by
        cases b
        simp_all
      rw [hsame, ← hb, Function.update_eq_self]
  | some t =>
      simp only [ht, except_bind_eq_ok, deref_eq_ok, except_pure_eq_ok] at hrun
      obtain ⟨tx, htx, rfl⟩ := hrun
      refine ⟨by simp [detachedTxns, ht, htx, State.setTxn, State.updateBuffer, State.setArea], ?_⟩
      rw [live_updateBuffer (keepsBuffer_transaction none)]
      have hlive : (s.setTxn t { tx with buffer := none }).live = s.live := live_congr rfl
      rw [hlive, hb]
      rfl

theorem Still.setAreas (h : Still s s') (ar : ProcId → Area) :
    Still { s with area := ar } { s' with area := ar } where
  nextId := h.nextId
  rest := by
    have := h.rest
    rw [this]
  items := h.items
  nodes := h.nodes
  refs := h.refs
  deaths := fun d => (h.deaths d).imp_left fun hd => ⟨hd.deaths, hd.items, hd.refs⟩

theorem freeBufferCommand_steps (hs : Coherent L none s) (hthr : s.threads th = some thr)
    (hproc : thr.proc = p) {dataPtr : ℕ} (hrun : freeBufferCommand L s p th dataPtr = .ok s') :
    WorkSteps C none s [] s' := by
  simp only [freeBufferCommand, except_bind_eq_ok] at hrun
  obtain ⟨x, -, hrun⟩ := hrun
  cases x with
  | none =>
      simp only [except_pure_eq_ok] at hrun
      exact hrun ▸ WorkSteps.refl s
  | some a =>
      simp only [except_bind_eq_ok] at hrun
      obtain ⟨b, hb, hrun⟩ := hrun
      split at hrun
      · simp only [except_pure_eq_ok] at hrun
        exact hrun ▸ WorkSteps.refl s
      · rename_i huser
        simp only [except_bind_eq_ok, except_pure_eq_ok] at hrun
        obtain ⟨s₁, hdetach, s₂, hadv, s₃, hrelease, ar, hfree, rfl⟩ := hrun
        have haddr := (hasBuffer_of_deref hb).2
        have hlive := live_eq_some.mpr hb
        obtain ⟨hs₁, hlive₁⟩ := detachTransaction_live hlive haddr hdetach
        obtain ⟨s₂', hadv', hs₂⟩ := (advanceTarget_advanced hadv).transfer (s := s) (by rw [hs₁])
        have h₃ := bufferRelease_still hrelease
        have hareas₁ : AreaOk L (s₁.area p) :=
          (detachTransaction_idle hs.grounded hdetach).areas p
        have harea₃ : s₃.area = s₁.area := by rw [h₃.rest, hs₂]
        have hlive₃ : s₃.live = s₁.live := live_congr harea₃
        have hb₃ : derefBuffer s₃ p a = .ok { b with transaction := none } := by
          refine live_eq_some.mp ?_
          rw [hlive₃, hlive₁, Function.update_self]
        obtain ⟨-, hlive'⟩ := live_freeBuf (L := L) (harea₃ ▸ hareas₁) hb₃ hfree
        have h₄ := h₃.setAreas (s₃.setArea p ar).area
        have hgone : (s₃.setArea p ar).live = Function.update s.live (p, a) none := by
          rw [hlive', hlive₃, hlive₁, Function.update_idem]
        have h : WorkStep C none s [] { s₂ with area := (s₃.setArea p ar).area } := by
          refine .freed rfl hthr hproc ?_ hlive (by simpa using huser) hadv' ?_
            ((live_congr rfl).trans hgone)
          · intro n m hmem
            obtain ⟨nd, p', -, -, -, howner⟩ := hs.queues m (.async n) hmem
            cases howner
          · rw [hs₂, hs₁]
        exact h.steps.after h₄.steps

/-! ### Death notifications -/

theorem requestDeathCommand_steps (hs : Coherent L none s) (hthr : s.threads th = some thr)
    (hproc : thr.proc = p) {handle cookie : ℕ} {alloc : Bool}
    (hC : C s p th (.command (.requestDeathNotification handle cookie alloc)))
    (hrun : requestDeathCommand s p th handle cookie alloc = .ok s') :
    WorkSteps C none s (deathLog s p (.requestDeathNotification handle cookie alloc)) s' := by
  unfold requestDeathCommand at hrun
  cases hget : binderGetRef s p handle with
  | none =>
      obtain rfl : s = s' := by simpa [hget] using hrun
      simpa [deathLog, hget] using WorkSteps.refl s
  | some r =>
      obtain ⟨rf, hrf, hrproc, -⟩ := hs.tables.getRef hget
      simp only [hget, except_bind_eq_ok, deref_eq_ok] at hrun
      obtain ⟨rf', hrf', thr', hthr', hrun⟩ := hrun
      obtain rfl : rf = rf' := by simpa [hrf] using hrf'
      obtain rfl : thr = thr' := by simpa [hthr] using hthr'
      cases hdeath : rf.death with
      | some e =>
          obtain rfl : s = s' := by simpa [hdeath] using hrun
          simpa [deathLog, hget, hrf, hdeath] using WorkSteps.refl s
      | none =>
          cases alloc with
          | false =>
              obtain rfl : s.setThread th { thr with returnError := .error } = s' := by
                simpa [hdeath] using hrun
              have h : WorkStep C none s [] (s.setThread th { thr with returnError := .error }) :=
                .noMemory rfl hthr hproc hC
              simpa [deathLog, hget, hrf, hdeath] using h.steps
          | true =>
              simp only [hdeath, Option.isSome_none, Bool.false_eq_true, ↓reduceIte, Bool.not_true,
                except_bind_eq_ok, deref_eq_ok] at hrun
              obtain ⟨nd, hnd, hrun⟩ := hrun
              have hr := hs.tables.ref_lt hrf
              have hn : rf.node < s.nextId := hs.tables.node_lt hnd
              have hlog : deathLog s p (.requestDeathNotification handle cookie true) =
                  [.requested p s.nextId rf.node cookie] := by
                simp [deathLog, hget, hrf, hdeath]
              rw [hlog]
              cases hdead : nd.proc with
              | none =>
                  simp only [hdead, Option.isNone_none, ↓reduceIte, except_pure_eq_ok] at hrun
                  exact hrun ▸ WorkStep.steps (.requestedDead rfl hthr hproc
                    hr hrf hrproc hdeath hn hnd hdead)
              | some q =>
                  simp only [hdead, Option.isNone_some, Bool.false_eq_true, ↓reduceIte,
                    except_pure_eq_ok] at hrun
                  exact hrun ▸ WorkStep.steps
                    (.requested rfl hr hrf hrproc hdeath hn hnd (by simp [hdead]))

theorem clearDeathCommand_steps (hs : Coherent L none s) (hthr : s.threads th = some thr)
    (hproc : thr.proc = p) {handle cookie : ℕ}
    (hrun : clearDeathCommand s p th handle cookie = .ok s') :
    WorkSteps C none s (deathLog s p (.clearDeathNotification handle cookie)) s' := by
  unfold clearDeathCommand at hrun
  cases hget : binderGetRef s p handle with
  | none =>
      obtain rfl : s = s' := by simpa [hget] using hrun
      simpa [deathLog, hget] using WorkSteps.refl s
  | some r =>
      obtain ⟨rf, hrf, hrproc, -⟩ := hs.tables.getRef hget
      simp only [hget, except_bind_eq_ok, deref_eq_ok] at hrun
      obtain ⟨rf', hrf', thr', hthr', hrun⟩ := hrun
      obtain rfl : rf = rf' := by simpa [hrf] using hrf'
      obtain rfl : thr = thr' := by simpa [hthr] using hthr'
      cases hdeath : rf.death with
      | none =>
          obtain rfl : s = s' := by simpa [hdeath] using hrun
          simpa [deathLog, hget, hrf, hdeath] using WorkSteps.refl s
      | some e =>
          simp only [hdeath, except_bind_eq_ok, deref_eq_ok] at hrun
          obtain ⟨de, hde, hrun⟩ := hrun
          split at hrun
          · rename_i hcookie
            obtain rfl : s = s' := by simpa using hrun
            simpa [deathLog, hget, hrf, hdeath, hde, hcookie] using WorkSteps.refl s
          · rename_i hcookie
            have hcookie : de.cookie = cookie := by simpa using hcookie
            have hlog : deathLog s p (.clearDeathNotification handle cookie) = [.cleared p e] := by
              simp [deathLog, hget, hrf, hdeath, hde, hcookie]
            rw [hlog]
            cases hentry : de.entry with
            | none =>
                simp only [hentry, Option.isNone_none, ↓reduceIte, except_pure_eq_ok] at hrun
                exact hrun ▸ WorkStep.steps (.cleared rfl hthr hproc hrf hrproc hdeath hde hentry)
            | some q =>
                simp only [hentry, Option.isNone_some, Bool.false_eq_true, ↓reduceIte,
                  except_bind_eq_ok, bugOn_eq_ok, except_pure_eq_ok] at hrun
                obtain ⟨_, hty, rfl⟩ := hrun
                have h : WorkStep C none s [.cleared p e]
                    ((s.setRef r { rf with death := none }).setDeath e
                      { de with workType := .deadBinderAndClear }) :=
                  .clearedQueued rfl hrf hrproc hdeath hde (by simp [hentry]) (by simpa using hty)
                exact hentry ▸ h.steps

theorem mem_of_findDelivered {cookie : ℕ} {e : DeathId} (h : findDelivered s p cookie = some e) :
    .death e ∈ s.todo (.deliveredDeath p) := by
  obtain ⟨w, hw, hmatch⟩ := List.exists_of_findSome?_eq_some h
  cases w with
  | death e' =>
      simp only [Option.ite_none_right_eq_some, Option.some.injEq] at hmatch
      exact hmatch.2 ▸ hw
  | transaction _ => cases hmatch
  | transactionComplete _ => cases hmatch
  | node _ => cases hmatch

theorem deadBinderDoneCommand_steps (hthr : s.threads th = some thr) (hproc : thr.proc = p)
    {cookie : ℕ} (hrun : deadBinderDoneCommand s p th cookie = .ok s') :
    WorkSteps C none s (deathLog s p (.deadBinderDone cookie)) s' := by
  simp only [deadBinderDoneCommand, except_bind_eq_ok, deref_eq_ok] at hrun
  obtain ⟨thr', hthr', hrun⟩ := hrun
  obtain rfl : thr = thr' := by simpa [hthr] using hthr'
  cases hfind : findDelivered s p cookie with
  | none =>
      obtain rfl : s = s' := by simpa [hfind] using hrun
      simpa [deathLog, hfind] using WorkSteps.refl s
  | some e =>
      simp only [hfind, except_bind_eq_ok, deref_eq_ok] at hrun
      obtain ⟨de, hde, hrun⟩ := hrun
      have hlog : deathLog s p (.deadBinderDone cookie) = [.acked p e] := by
        simp [deathLog, hfind]
      rw [hlog]
      have he := mem_of_findDelivered hfind
      split at hrun
      · rename_i hty
        simp only [except_pure_eq_ok] at hrun
        exact hrun ▸ WorkStep.steps (.acked rfl he hde hty)
      · rename_i hty
        simp only [except_pure_eq_ok] at hrun
        exact hrun ▸ WorkStep.steps (.ackedClear rfl hthr hproc he hde (by simpa using hty))

/-! ### All commands -/

theorem acceptedLog_of_none (h : s'.txns s.nextId = none) : acceptedLog s s' p th = [] := by
  simp [acceptedLog, h]

theorem Queued.acceptedLog {s₁ : State} {tg : Target} {tx : Transaction} {x : ProcId × ℕ}
    {q : Queue} (hq : Queued s₁ s' th t tg tx b x q) (ht : t = s.nextId) :
    acceptedLog s s' p th =
      [.accepted p th t tg.node (tx.fromThread.isNone && tfOneWay tx.flags)] := by
  have htx : s'.txns s.nextId = some tx := by
    rw [hq.rest, ← ht]
    exact Function.update_self ..
  obtain ⟨bp, a⟩ := x
  have hb : derefBuffer s' bp a = .ok b := by
    refine live_eq_some.mp ?_
    rw [hq.live, Function.update_self]
  have hfind := (derefBuffer_eq_ok.mp hb).1
  simp only [Driver.acceptedLog, htx, hq.buffer, hfind, Option.bind_some, hq.node, ht]

def Obs.isAccepted : Obs → Bool
  | .accepted _ _ _ _ _ => true
  | _ => false

theorem freeTxn_txns_none (hrun : freeTxn s t = .ok s') {u : TxnId} (hu : s.txns u = none) :
    s'.txns u = none := by
  obtain ⟨tx, s₁, htx, hdetach, rfl⟩ := freeTxn_eq hrun
  have hne : u ≠ t := by
    rintro rfl
    simp [hu] at htx
  rw [(detachBuffer_live hdetach).1]
  simpa [Function.update_of_ne hne] using hu

theorem Dropped.txns_none {w : Work} (h : Dropped s w s') {u : TxnId} (hu : s.txns u = none) :
    s'.txns u = none := by
  cases h with
  | call _ h => exact Calm.txns_none (Unwound.calm h) hu
  | transaction _ _ hrun => exact freeTxn_txns_none hrun hu
  | complete => exact hu
  | deadBinder => exact hu
  | death => exact hu
  | node => exact hu

theorem detachedTxns_none {u : TxnId} (hu : s.txns u = none) : detachedTxns s b u = none := by
  unfold detachedTxns
  cases ht : b.transaction with
  | none => exact hu
  | some t =>
      by_cases hut : u = t
      · simp [← hut, hu]
      · simpa [Function.update_of_ne hut] using hu

theorem update_none_of_ne {tx : Transaction} (htx : s.txns t = some tx) {y : Option Transaction}
    {u : TxnId} (hu : s.txns u = none) : Function.update s.txns t y u = none := by
  have hne : u ≠ t := by
    rintro rfl
    simp [hu] at htx
  rw [Function.update_of_ne hne, hu]

theorem WorkStep.txns_none (h : WorkStep C d s o s') (ho : ∀ x ∈ o, x.isAccepted = false)
    {u : TxnId} (hu : s.txns u = none) : s'.txns u = none := by
  cases h with
  | calm h => exact Calm.txns_none h hu
  | @sent p th thr t _ _ ht _ _ h =>
      have hqueued : ∀ {s₁ tg tx b x q}, Queued s₁ s' th t tg tx b x q → False := by
        intro s₁ tg tx b x q hq
        have := hq.acceptedLog (p := p) ht
        rw [this] at ho
        simp [Obs.isAccepted] at ho
      cases h with
      | failed h => exact Calm.txns_none h hu
      | call _ _ _ hq => exact (hqueued hq).elim
      | oneWay _ _ _ _ _ _ hq => exact (hqueued hq).elim
      | waiting _ _ _ _ _ _ hq => exact (hqueued hq).elim
      | reply _ _ _ _ hq => exact (hqueued hq).elim
  | freed _ _ _ _ _ _ _ hrest =>
      rw [hrest]
      exact detachedTxns_none hu
  | noMemory => exact hu
  | requested => exact hu
  | requestedDead => exact hu
  | cleared => exact hu
  | clearedQueued => exact hu
  | acked =>
      rw [unlinkDeath_eq]
      exact hu
  | ackedClear =>
      rw [unlinkDeath_eq]
      exact hu
  | complete => exact hu
  | clearDone => exact hu
  | deadBinder => exact hu
  | receivedCall _ _ _ _ _ htx _ _ _ hrest =>
      rw [hrest]
      exact update_none_of_ne htx hu
  | received _ _ _ htx _ _ _ _ hrest =>
      rw [hrest]
      exact update_none_of_ne htx hu
  | dropped _ h => exact h.txns_none hu
  | threadGone => exact hu
  | threadNew => exact hu
  | nodeGone => exact hu
  | nodeDies _ _ _ _ _ _ _ hrun =>
      rw [(notifyDeath_rest hrun).1]
      exact hu
  | bufferGone _ _ hrest =>
      rw [hrest]
      exact detachedTxns_none hu

theorem WorkSteps.txns_none (h : WorkSteps C d s o s') (ho : ∀ x ∈ o, x.isAccepted = false)
    {u : TxnId} (hu : s.txns u = none) : s'.txns u = none := by
  obtain ⟨es, hes, rfl⟩ := h
  refine hes.invariant hu fun s₁ e s₂ he hu h => h.txns_none (fun x hx => ho x ?_) hu
  exact List.mem_flatten.mpr ⟨e, he, hx⟩

theorem deathLog_isAccepted (s : State) (p : ProcId) (c : Command) :
    ∀ x ∈ deathLog s p c, x.isAccepted = false := by
  intro x hx
  unfold deathLog at hx
  split at hx
  · split at hx
    · cases hx
    · split at hx
      · rw [List.mem_singleton.mp hx]
        rfl
      · cases hx
  · split at hx
    · cases hx
    · split at hx
      · cases hx
      · split at hx
        · rw [List.mem_singleton.mp hx]
          rfl
        · cases hx
  · split at hx
    · cases hx
    · rw [List.mem_singleton.mp hx]
      rfl
  · cases hx

theorem commandSteps_of_deathLog (hlinked : Linked s) {c : Command}
    (h : WorkSteps C d s (deathLog s p c) s') :
    WorkSteps C d s (commandLog s s' p th c) s' := by
  have hnone : s'.txns s.nextId = none := by
    refine h.txns_none (deathLog_isAccepted s p c) ?_
    cases htx : s.txns s.nextId with
    | none => rfl
    | some tx => exact absurd (hlinked.txns_lt htx) (lt_irrefl _)
  have hwrote : WorkSteps C d s [.wrote p th c] s :=
    Calm.observed .refl (by simp [Obs.isPlain])
  have := hwrote.trans h
  rwa [commandLog, acceptedLog_of_none hnone]

def Command.transacts : Command → Bool
  | .transaction _ _ => true
  | .reply _ _ => true
  | _ => false

theorem execCommand_deathSteps (hs : Coherent L none s) (hthr : s.threads th = some thr)
    (hproc : thr.proc = p) {c : Command} (hC : C s p th (.command c)) (hc : c.transacts = false)
    (hrun : execCommand L s p th c = .ok s') : WorkSteps C none s (deathLog s p c) s' := by
  cases c with
  | increfs h alloc => exact (incCommand_still hrun).steps
  | acquire h alloc => exact (incCommand_still hrun).steps
  | release h => exact (decCommand_still hrun).steps
  | decrefs h => exact (decCommand_still hrun).steps
  | increfsDone ptr cookie => exact (doneCommand_still hrun).steps
  | acquireDone ptr cookie => exact (doneCommand_still hrun).steps
  | freeBuffer dataPtr => exact freeBufferCommand_steps hs hthr hproc hrun
  | transaction tr env => cases hc
  | reply tr env => cases hc
  | registerLooper => exact Calm.steps (registerLooperCommand_calm hrun)
  | enterLooper => exact Calm.steps (enterLooperCommand_calm hrun)
  | exitLooper => exact Calm.steps (exitLooperCommand_calm hrun)
  | requestDeathNotification h cookie alloc =>
      exact requestDeathCommand_steps hs hthr hproc hC hrun
  | clearDeathNotification h cookie => exact clearDeathCommand_steps hs hthr hproc hrun
  | deadBinderDone cookie => exact deadBinderDoneCommand_steps hthr hproc hrun
  | invalid =>
      obtain rfl : s = s' := by simpa [execCommand] using hrun
      exact WorkSteps.refl s

theorem execCommand_steps (hs : Coherent L none s) (hlinked : Linked s)
    (hthr : s.threads th = some thr) (hproc : thr.proc = p) {c : Command}
    (hC : C s p th (.command c)) (hrun : execCommand L s p th c = .ok s') :
    WorkSteps C none s (commandLog s s' p th c) s' := by
  have hsend : ∀ {tr reply env}, deathLog s p c = [] →
      binderTransaction L s p th tr reply env = .ok s' →
      WorkSteps C none s (commandLog s s' p th c) s' := by
    intro tr reply env hlog hrun
    have hwrote : WorkSteps C none s [.wrote p th c] s :=
      Calm.observed .refl (by simp [Obs.isPlain])
    have h : WorkStep C none s (acceptedLog s s' p th) s' :=
      .sent rfl rfl hthr hproc (binderTransaction_transacted hs hlinked hrun)
    rw [commandLog, hlog, List.append_nil]
    exact hwrote.trans h.steps
  cases hc : c.transacts with
  | false =>
      exact commandSteps_of_deathLog hlinked (execCommand_deathSteps hs hthr hproc hC hc hrun)
  | true =>
      cases c with
      | transaction tr env => exact hsend rfl hrun
      | reply tr env => exact hsend rfl hrun
      | _ => cases hc

/-! ### Reading -/

theorem nodeCommand_identity {nd nd' : Node} {cmd : ReturnCommand}
    (h : nodeCommand nd = some (cmd, nd')) : nd'.identity = nd.identity := by
  simp only [nodeCommand] at h
  split at h
  · cases h
    rfl
  · split at h
    · cases h
      rfl
    · split at h
      · cases h
        rfl
      · split at h
        · cases h
          rfl
        · cases h

theorem readNode_only (hs : Coherent L none s) {n : NodeId} {ptr : ℕ} {writable : ℕ → Bool}
    {q : Queue} (hmem : .node n ∈ s.todo q) (howner : s.queueOwner q = some p)
    {x : Option (ℕ × List ReturnCommand)} (hrun : readNode s p n ptr writable = .ok (x, s')) :
    NodesOnly s s' := by
  simp only [readNode, except_bind_eq_ok, deref_eq_ok] at hrun
  obtain ⟨nd, hnd, hrun⟩ := hrun
  cases hcmd : nodeCommand nd with
  | some y =>
      obtain ⟨cmd, nd'⟩ := y
      have h : NodesOnly s (s.setNode n nd') := NodesOnly.setNode hnd (nodeCommand_identity hcmd)
      simp only [hcmd] at hrun
      split at hrun
      · simp only [except_pure_eq_ok, Prod.mk.injEq] at hrun
        exact hrun.2 ▸ h
      · simp only [except_pure_eq_ok, Prod.mk.injEq] at hrun
        exact hrun.2 ▸ h
  | none =>
      simp only [hcmd] at hrun
      split at hrun
      · simp only [except_pure_eq_ok, Prod.mk.injEq] at hrun
        exact hrun.2 ▸ unlinkNode_only hnd rfl
      · simp only [except_pure_eq_ok, Prod.mk.injEq] at hrun
        obtain ⟨nd', p', hnd', -, hproc, howner'⟩ := hs.queues n q hmem
        obtain rfl : nd = nd' := by simpa [hnd] using hnd'
        obtain rfl : p = p' := by simpa [howner] using howner'
        refine hrun.2 ▸ freeNode_only hnd ?_
        simp [Node.identity, hproc]

theorem keepsBuffer_allow : KeepsBuffer fun b => { b with allowUserFree := true } :=
  ⟨fun _ => rfl, fun _ => rfl, fun _ => rfl⟩

theorem live_allowed (hb : s.live x = some b) (td : Queue → List Work) :
    (State.updateBuffer { s with todo := td } x.1 x.2
      fun b => { b with allowUserFree := true }).live =
      Function.update s.live x (some { b with allowUserFree := true }) := by
  obtain ⟨bp, a⟩ := x
  rw [live_updateBuffer keepsBuffer_allow]
  have hlive : ({ s with todo := td } : State).live = s.live := live_congr rfl
  rw [hlive, hb]
  rfl

theorem readTransaction_steps (hlinked : Linked s) (hthr : s.threads th = some thr)
    (hproc : thr.proc = p) {q : Queue} (howner : s.queueOwner q = some p) {ws : List Work}
    (hq : s.todo q = .transaction t :: ws) {ptr : ℕ} {writable : ℕ → Bool}
    {y : Option (ℕ × List ReturnCommand)}
    (hrun : readTransaction L s p th q t ptr writable = .ok (y, s')) :
    (y = none ∧ s' = s) ∨ ∃ ptr' cmds, y = some (ptr', cmds) ∧
      WorkSteps C none s (cmds.map (.delivered p th (some (.transaction t)))) s' := by
  simp only [readTransaction, except_bind_eq_ok, deref_eq_ok] at hrun
  obtain ⟨tx, htx, hrun⟩ := hrun
  cases hx : tx.buffer with
  | none => simp [hx] at hrun
  | some x =>
      obtain ⟨bp, a⟩ := x
      simp only [hx, except_bind_eq_ok] at hrun
      obtain ⟨b, hb, tr, -, hrun⟩ := hrun
      have hb := live_eq_some.mpr hb
      obtain ⟨b', hb', hbt, hreply, -⟩ := hlinked.buffer htx hx
      obtain rfl : b = b' := Option.some.inj (hb.symm.trans hb')
      split at hrun
      · simp only [except_pure_eq_ok, Prod.mk.injEq] at hrun
        exact .inl ⟨hrun.1.symm, hrun.2.symm⟩
      · right
        have hlive := live_allowed (x := (bp, a)) hb (s.listDel q (.transaction t)).todo
        split at hrun
        · rename_i hcall
          simp only [except_bind_eq_ok, deref_eq_ok, except_pure_eq_ok, Prod.mk.injEq] at hrun
          obtain ⟨thr', hthr', rfl, rfl⟩ := hrun
          obtain rfl : thr = thr' := Option.some.inj (hthr.symm.trans hthr')
          refine ⟨_, _, rfl, WorkStep.steps (.receivedCall rfl howner hq hthr hproc htx hx hb
            (hreply.trans hcall) ?_ ?_)⟩
          · rw [hx]
            rfl
          · exact (live_congr rfl).trans hlive
        · rename_i hcall
          simp only [except_bind_eq_ok, except_pure_eq_ok, Prod.mk.injEq] at hrun
          obtain ⟨s₁, hfree, rfl, rfl⟩ := hrun
          refine ⟨_, _, rfl, WorkStep.steps (.received rfl howner hq htx hx hb
            (hreply.trans (by simpa using hcall)) ⟨tr, rfl⟩ ?_ ?_)⟩
          · obtain ⟨tx', s₂, htx', hdetach, rfl⟩ := freeTxn_eq hfree
            rw [(detachBuffer_live hdetach).1]
            rfl
          · obtain ⟨tx', s₂, htx', hdetach, rfl⟩ := freeTxn_eq hfree
            obtain rfl : tx = tx' := Option.some.inj (htx.symm.trans htx')
            have hlive₂ : ({ s₂ with txns := Function.update s₂.txns t none } : State).live =
              s₂.live := live_congr rfl
            rw [hlive₂]
            funext y
            rw [(detachBuffer_live hdetach).2, hx]
            have hlive := congrFun hlive y
            by_cases hy : y = (bp, a)
            · subst hy
              rw [Function.update_self] at hlive ⊢
              rw [if_pos rfl]
              exact congrArg _ hlive
            · rw [Function.update_of_ne hy] at hlive ⊢
              rw [if_neg (by simpa using Ne.symm hy)]
              exact hlive

theorem readDeath_steps {q : Queue} (howner : s.queueOwner q = some p) {e : DeathId}
    {ws : List Work} (hq : s.todo q = .death e :: ws) {ptr : ℕ} {writable : ℕ → Bool}
    {y : Option (ℕ × List ReturnCommand)} {f : Bool}
    (hrun : readDeath s p q e ptr writable = .ok (y, f, s')) :
    (y = none ∧ s' = s) ∨ ∃ ptr' cmds, y = some (ptr', cmds) ∧
      WorkSteps C none s (cmds.map (.delivered p th (some (.death e)))) s' := by
  simp only [readDeath, except_bind_eq_ok, deref_eq_ok] at hrun
  obtain ⟨de, hde, hrun⟩ := hrun
  split at hrun
  · simp only [except_pure_eq_ok, Prod.mk.injEq] at hrun
    exact .inl ⟨hrun.1.symm, hrun.2.2.symm⟩
  · right
    split at hrun
    · rename_i hty
      simp only [except_pure_eq_ok, Prod.mk.injEq] at hrun
      obtain ⟨rfl, -, rfl⟩ := hrun
      exact ⟨_, _, rfl, WorkStep.steps (.clearDone rfl howner hq hde hty)⟩
    · rename_i hty
      simp only [except_pure_eq_ok, Prod.mk.injEq] at hrun
      obtain ⟨rfl, -, rfl⟩ := hrun
      exact ⟨_, _, rfl, WorkStep.steps (.deadBinder rfl howner hq hde hty)⟩

theorem readItem_steps (hs : Coherent L none s) (hlinked : Linked s)
    (hthr : s.threads th = some thr) (hproc : thr.proc = p) {wait : Bool} {q : Queue} {w : Work}
    (hnext : nextWork s p th wait = some (q, w)) {ptr : ℕ} {writable : ℕ → Bool}
    {y : Option (ℕ × List ReturnCommand)}
    (hrun : readItem L s p th q w ptr writable = .ok (y, s')) :
    WorkSteps C none s
      ((y.map Prod.snd).getD [] |>.map (.delivered p th (some w))) s' := by
  have howner := nextWork_owner hthr hproc hnext
  have hhead := nextWork_head hnext
  cases w with
  | transaction t =>
      rcases readTransaction_steps (C := C) hlinked hthr hproc howner hhead hrun with
        ⟨rfl, rfl⟩ | ⟨ptr', cmds, rfl, h⟩
      · exact WorkSteps.refl _
      · exact h
  | transactionComplete t =>
      simp only [readItem, Except.ok.injEq] at hrun
      split at hrun
      · cases hrun
        exact WorkStep.steps (.complete rfl howner hhead)
      · cases hrun
        exact WorkSteps.refl _
  | node n =>
      have h := readNode_only hs (nextWork_eq hnext).1 howner hrun
      refine Calm.observed h.calm fun x hx => ?_
      obtain ⟨cmd, -, rfl⟩ := List.mem_map.mp hx
      rfl
  | death e =>
      simp only [readItem] at hrun
      cases hread : readDeath s p q e ptr writable with
      | error f => simp [hread, Except.map] at hrun
      | ok z =>
          obtain ⟨y', f, s₁⟩ := z
          simp only [hread, Except.map, Except.ok.injEq, Prod.mk.injEq] at hrun
          obtain ⟨rfl, rfl⟩ := hrun
          rcases readDeath_steps (C := C) howner hhead hread with
            ⟨rfl, rfl⟩ | ⟨ptr', cmds, rfl, h⟩
          · exact WorkSteps.refl _
          · exact h

end Commands

end Driver

end BinderForLinux
