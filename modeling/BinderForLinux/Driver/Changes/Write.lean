import BinderForLinux.Driver.Changes.Transaction

/-!
# Commands as changes
-/

namespace BinderForLinux

namespace Driver

open Library

section Select

variable {L : Layout} {d : Option ProcId} {s s' : State} {p : ProcId} {th : ThreadId}
  {tg : Target} {tr : TransactionData} {reply : Bool} {env : TxnEnv} {sel : Selection}

theorem selectCallTarget_eq (hrun : selectCallTarget s p th tr env = .ok (.target tg)) :
    ∃ n nd, targetNodeOf s p tr.handle = .ok (.ok n) ∧ tg.node = some n ∧ tg.inReplyTo = none ∧
      s.nodes n = some nd ∧ nd.proc = some tg.proc ∧
      targetThreadOf s th tg.proc (tfOneWay tr.flags) = .ok (.ok tg.thread) := by
  simp only [selectCallTarget, except_bind_eq_ok] at hrun
  obtain ⟨x, hx, hrun⟩ := hrun
  cases x with
  | error e => simp at hrun
  | ok n =>
      simp only [except_bind_eq_ok, deref_eq_ok] at hrun
      obtain ⟨nd, hnd, hrun⟩ := hrun
      cases hproc : nd.proc with
      | none => simp [hproc] at hrun
      | some target =>
          simp only [hproc] at hrun
          split at hrun
          · simp at hrun
          · simp only [except_bind_eq_ok] at hrun
            obtain ⟨y, hy, hrun⟩ := hrun
            cases y with
            | error e => simp at hrun
            | ok thread =>
                simp only [except_pure_eq_ok, Selection.target.injEq] at hrun
                subst hrun
                exact ⟨n, nd, hx, rfl, rfl, hnd, hproc, hy⟩

/-- What a reply selects: the caller of the transaction on top of the stack. -/
theorem selectReplyTarget_eq (hrun : selectReplyTarget s th = .ok (.target tg, s')) :
    ∃ thr irt tx target tthr, s.threads th = some thr ∧ thr.transactionStack = some irt ∧
      s.txns irt = some tx ∧ tx.toThread = some th ∧ tx.fromThread = some target ∧
      s'.threads target = some tthr ∧ tthr.transactionStack = some irt ∧
      s' = s.setThread th { thr with transactionStack := tx.toParent } ∧
      tg = ⟨tthr.proc, some target, none, some irt⟩ := by
  simp only [selectReplyTarget, except_bind_eq_ok, deref_eq_ok] at hrun
  obtain ⟨thr, hth, hrun⟩ := hrun
  cases hstack : thr.transactionStack with
  | none => simp [hstack] at hrun
  | some irt =>
      simp only [hstack, except_bind_eq_ok, deref_eq_ok] at hrun
      obtain ⟨tx, htx, hrun⟩ := hrun
      split at hrun
      · simp at hrun
      · rename_i hto
        cases hfrom : tx.fromThread with
        | none => simp [hfrom] at hrun
        | some target =>
            simp only [hfrom, except_bind_eq_ok, deref_eq_ok] at hrun
            obtain ⟨tthr, htth, hrun⟩ := hrun
            split at hrun
            · simp at hrun
            · rename_i htop
              simp only [except_pure_eq_ok, Prod.mk.injEq, Selection.target.injEq] at hrun
              obtain ⟨rfl, rfl⟩ := hrun
              exact ⟨thr, irt, tx, target, tthr, hth, hstack, htx, by simpa using hto, hfrom, htth,
                by simpa using htop, rfl, rfl⟩

theorem selectTarget_state (hrun : selectTarget s p th tr reply env = .ok (sel, s')) :
    s' = s ∨ ∃ thr x, s.threads th = some thr ∧
      s' = s.setThread th { thr with transactionStack := x } := by
  cases reply with
  | false =>
      simp only [selectTarget, Bool.false_eq_true, ↓reduceIte, except_bind_eq_ok,
        except_pure_eq_ok, Prod.mk.injEq] at hrun
      obtain ⟨_, _, -, rfl⟩ := hrun
      exact .inl rfl
  | true =>
      simp only [selectTarget, ↓reduceIte, selectReplyTarget, except_bind_eq_ok,
        deref_eq_ok] at hrun
      obtain ⟨thr, hth, hrun⟩ := hrun
      cases hstack : thr.transactionStack with
      | none =>
          simp only [hstack, except_pure_eq_ok, Prod.mk.injEq] at hrun
          exact .inl hrun.2.symm
      | some irt =>
          simp only [hstack, except_bind_eq_ok, deref_eq_ok] at hrun
          obtain ⟨tx, htx, hrun⟩ := hrun
          split at hrun
          · simp only [except_pure_eq_ok, Prod.mk.injEq] at hrun
            exact .inl hrun.2.symm
          · right
            refine ⟨thr, tx.toParent, hth, ?_⟩
            split at hrun
            · simp only [except_pure_eq_ok, Prod.mk.injEq] at hrun
              exact hrun.2.symm
            · simp only [except_bind_eq_ok, deref_eq_ok] at hrun
              obtain ⟨tthr, htth, hrun⟩ := hrun
              split at hrun
              · simp only [except_pure_eq_ok, Prod.mk.injEq] at hrun
                exact hrun.2.symm
              · simp only [except_pure_eq_ok, Prod.mk.injEq] at hrun
                exact hrun.2.symm

theorem queueOwner_setThread {th' : ThreadId} {thr : Thread} (hth : s.threads th' = some thr)
    (thr' : Thread) (hproc : thr'.proc = thr.proc) (q : Queue) :
    (s.setThread th' thr').queueOwner q = s.queueOwner q := by
  cases q with
  | thread th =>
      by_cases heq : th = th'
      · subst heq
        simp [State.queueOwner, State.setThread, hth, hproc]
      · simp [State.queueOwner, State.setThread, heq]
  | _ => rfl

theorem selectTarget_queueOwner (hrun : selectTarget s p th tr reply env = .ok (sel, s'))
    (q : Queue) : s'.queueOwner q = s.queueOwner q := by
  rcases selectTarget_state hrun with rfl | ⟨thr, x, hth, rfl⟩
  · rfl
  · exact queueOwner_setThread hth { thr with transactionStack := x } rfl q

theorem selectTarget_owned (hs : Coherent L d s)
    (hrun : selectTarget s p th tr reply env = .ok (.target tg, s')) :
    ∀ n, tg.node = some n → s'.OwnedBy n tg.proc := by
  intro n hn
  cases reply with
  | false =>
      simp only [selectTarget, Bool.false_eq_true, ↓reduceIte, except_bind_eq_ok,
        except_pure_eq_ok, Prod.mk.injEq] at hrun
      obtain ⟨_, hsel, rfl, rfl⟩ := hrun
      obtain ⟨m, nd, -, hnode, -, hnd, hproc, -⟩ := selectCallTarget_eq hsel
      obtain rfl : m = n := by simpa [hnode] using hn
      refine ⟨hs.tables.node_lt hnd, fun nd' hnd' => ?_⟩
      obtain rfl : nd = nd' := by simpa [hnd] using hnd'
      exact hproc
  | true =>
      obtain ⟨thr, irt, tx, target, tthr, -, -, -, -, -, -, -, -, rfl⟩ :=
        selectReplyTarget_eq hrun
      cases hn

end Select

section Commands

variable {L : Layout} {d : Option ProcId} {s s' : State} {p : ProcId} {th : ThreadId}

/-- `binder_transaction` is idle, or it goes on with the target it selected. -/
theorem binderTransaction_walk (hs : Coherent L d s) {tr : TransactionData} {reply : Bool}
    {env : TxnEnv} (hth : s.queueOwner (.thread th) = some p)
    (hrun : binderTransaction L s p th tr reply env = .ok s') :
    Idle L s s' ∨ ∃ tg s₁, selectTarget s p th tr reply env = .ok (.target tg, s₁) ∧
      Walk L (Event.transacts p tg.proc) (DisjointObjects tr.offsetList) s s' := by
  simp only [binderTransaction, except_bind_eq_ok] at hrun
  obtain ⟨⟨sel, s₁⟩, hsel, hrun⟩ := hrun
  have hidle := selectTarget_idle hs.grounded hsel
  have hs₁ := hs.idle hidle
  cases sel with
  | refused e irt => exact .inl (hidle.trans (transactionFailed_idle hs₁.grounded hrun))
  | target tg =>
      simp only at hrun
      split at hrun
      · exact .inl (hidle.trans (transactionFailed_idle hs₁.grounded hrun))
      · refine .inr ⟨tg, s₁, hsel, ?_⟩
        have hidle₂ : Idle L s₁ { s₁ with nextId := s₁.nextId + 1 } :=
          hs₁.grounded.idle_misc (Nat.le_succ _) fun _ _ hmem => hmem
        have hsend := sendToTarget_walk (hs₁.idle hidle₂) (t := s₁.nextId)
          ((selectTarget_queueOwner hsel _).trans hth)
          (fun n hn => hidle₂.toTablesKept.ownedBy (selectTarget_owned hs hsel n hn)) hrun
        exact (Walk.idle (hidle.trans hidle₂) trivial).trans hsend

/-! ### Counts on references -/

def Event.counts (p : ProcId) : Event → Prop
  | .quiet => True
  | .newRef q _ => q = p
  | .take q _ _ => q = p
  | .give q _ _ => q = p
  | _ => False

theorem Event.counts.stays (e : Event) (h : e.counts p) : e.stays := by
  rintro q rfl
  exact h.elim

theorem incCommand_walk (hs : Coherent L d s) {handle : ℕ} {strong alloc : Bool} {D : Prop}
    (hrun : incCommand s p handle strong alloc = .ok s') :
    Walk L (fun e => e.counts p ∧ ∀ q o, e = .newRef q o → handle = 0 ∧ ∃ n nd,
      s.contextMgrNode = some n ∧ s.nodes n = some nd ∧ nd.proc = o) D s s' := by
  simp only [incCommand, except_bind_eq_ok] at hrun
  obtain ⟨⟨x, s₁⟩, href, hrun⟩ := hrun
  have hstep : Walk L (fun e => e.counts p ∧ ∀ q o, e = .newRef q o → handle = 0 ∧ ∃ n nd,
      s.contextMgrNode = some n ∧ s.nodes n = some nd ∧ nd.proc = o) D s s₁ ∧
      ∀ r, x = some r → ∃ rf, s₁.refs r = some rf ∧ rf.proc = p := by
    unfold incCommandRef at href
    split at href
    · rename_i n hctx
      simp only [except_bind_eq_ok] at href
      obtain ⟨⟨y, s₂⟩, hget, href⟩ := href
      cases y with
      | none => cases href
      | some r =>
          simp only [except_pure_eq_ok, Prod.mk.injEq] at href
          obtain ⟨rfl, rfl⟩ := href
          rcases binderGetRefForNode_eq hget with ⟨r', hfind, hr', rfl⟩ | ⟨-, hr', -⟩ |
              ⟨nd, hfind, hdesc, hnd, hr', rfl⟩
          · refine ⟨Walk.refl _, ?_⟩
            rintro _ ⟨⟩
            obtain rfl : r = r' := by simpa using hr'
            obtain ⟨rf, hrf, hproc, -⟩ := hs.tables.findRef hfind
            exact ⟨rf, hrf, hproc⟩
          · cases hr'
          · refine ⟨Walk.single (Change.newRef hnd hfind hdesc) ⟨rfl, ?_⟩ rfl rfl
              (RefsOnly.addRef s p hnd).contents, ?_⟩
            · rintro _ _ ⟨⟩
              exact ⟨rfl, n, nd, hctx, hnd, rfl⟩
            · rintro _ ⟨⟩
              obtain rfl : r = s.nextId := by simpa using hr'
              exact ⟨_, hs.tables.addRef_refs.mpr (.inl ⟨rfl, rfl⟩), rfl⟩
    · simp only [Except.ok.injEq, Prod.mk.injEq] at href
      obtain ⟨rfl, rfl⟩ := href
      refine ⟨Walk.refl _, fun r hr => ?_⟩
      obtain ⟨rf, hrf, hproc, -⟩ := hs.tables.getRef hr
      exact ⟨rf, hrf, hproc⟩
  obtain ⟨hw, hx⟩ := hstep
  have hs₁ := hw.coherent hs fun e he => Event.counts.stays e he.1
  cases x with
  | none =>
      simp only [except_pure_eq_ok] at hrun
      exact hrun ▸ hw
  | some r =>
      obtain ⟨rf, hrf, hproc⟩ := hx r rfl
      simp only [except_bind_eq_ok, except_pure_eq_ok] at hrun
      obtain ⟨⟨ok, s₂⟩, hinc, rfl⟩ := hrun
      exact hw.trans (Walk.single (Change.takeRef hrf hinc) ⟨hproc, by simp⟩ rfl rfl
        (RefsOnly.incRef hs₁.tables hrf hinc).contents)

theorem decCommand_walk (hs : Coherent L d s) {handle : ℕ} {strong : Bool} {D : Prop}
    (hrun : decCommand s p handle strong = .ok s') :
    Walk L (fun e => e = .give p handle strong) D s s' := by
  unfold decCommand at hrun
  cases hget : binderGetRef s p handle with
  | none =>
      simp only [hget, Except.ok.injEq] at hrun
      exact hrun ▸ Walk.refl s
  | some r =>
      simp only [hget] at hrun
      obtain ⟨rf, hrf, rfl, rfl⟩ := hs.tables.getRef hget
      exact Walk.single (Change.giveRef hrf hrun) rfl rfl rfl
        (RefsOnly.decRef hs.tables hrf hrun).contents

/-- The event acknowledges for the node that `p` names by the pointer and the
cookie. -/
def Event.acknowledges (s : State) (p : ProcId) (ptr cookie : ℕ) (strong : Bool) (e : Event) :
    Prop :=
  ∃ n nd, e = .done n strong ∧ s.nodes n = some nd ∧ nd.proc = some p ∧ nd.ptr = ptr ∧
    nd.cookie = cookie

theorem Event.acknowledges.stays {ptr cookie : ℕ} {strong : Bool} (e : Event)
    (h : e.acknowledges s p ptr cookie strong) : e.stays := by
  obtain ⟨n, nd, rfl, -⟩ := h
  rintro _ ⟨⟩

theorem doneCommand_walk (hs : Coherent L d s) {ptr cookie : ℕ} {strong : Bool} {D : Prop}
    (hrun : doneCommand s p ptr cookie strong = .ok s') :
    Walk L (Event.acknowledges s p ptr cookie strong) D s s' := by
  simp only [doneCommand] at hrun
  cases hget : binderGetNode s p ptr with
  | none =>
      simp only [hget, except_pure_eq_ok] at hrun
      exact hrun ▸ Walk.refl s
  | some n =>
      simp only [hget, except_bind_eq_ok, deref_eq_ok] at hrun
      obtain ⟨nd, hnd, hrun⟩ := hrun
      obtain ⟨nd', hnd', hproc, hptr⟩ := hs.tables.getNode hget
      obtain rfl : nd = nd' := by simpa [hnd] using hnd'
      split at hrun
      · simp only [except_pure_eq_ok] at hrun
        exact hrun ▸ Walk.refl s
      · rename_i hcookie
        have hdone : ∀ st : Bool, nd.pending st = true →
            binderDecNode (s.setNode n (nd.clearPending st)) n st false = .ok s' →
            Walk L (Event.acknowledges s p ptr cookie st) D s s' := by
          intro st hpending hdec
          simp only [binderDecNode, except_bind_eq_ok, deref_eq_ok, except_pure_eq_ok,
            State.setNode, Function.update_self, Option.some.injEq] at hdec
          obtain ⟨_, rfl, rfl⟩ := hdec
          have hch : Change L s (.done n st) _ :=
            Change.done (L := L) hnd (by simp [hproc]) hpending
          refine Walk.single hch ⟨n, nd, rfl, hnd, hproc, hptr, (not_not.mp hcookie).symm⟩
            rfl rfl ?_
          rcases hch.frame_cases hs.tables with hidle | ⟨hev, -⟩ | ⟨⟨_, hev⟩, -⟩ | hr
          · exact hidle.contents
          · cases hev
          · cases hev
          · exact hr.contents
        split at hrun
        · rename_i hst
          subst hst
          split at hrun
          · simp only [except_pure_eq_ok] at hrun
            exact hrun ▸ Walk.refl s
          · rename_i hp
            exact hdone true (by simpa [Node.pending] using hp) hrun
        · rename_i hst
          obtain rfl : strong = false := by simpa using hst
          split at hrun
          · simp only [except_pure_eq_ok] at hrun
            exact hrun ▸ Walk.refl s
          · rename_i hp
            exact hdone false (by simpa [Node.pending] using hp) hrun

/-! ### Freeing a buffer -/

theorem advanceAsync_walk (hs : Coherent L d s) {n : NodeId} {D : Prop}
    (hrun : advanceAsync s th n = .ok s') :
    Walk L Event.isQuiet D s s' ∧ s'.contents = s.contents := by
  simp only [advanceAsync, except_bind_eq_ok, derefAsserted_eq_ok] at hrun
  obtain ⟨nd, hnd, _, _, hrun⟩ := hrun
  cases htodo : s.todo (.async n) with
  | nil =>
      simp only [htodo, except_pure_eq_ok] at hrun
      subst hrun
      have hr : RefsOnly s (s.setNode n { nd with hasAsyncTransaction := false }) :=
        RefsOnly.setNode hnd rfl
      exact ⟨Walk.quiet hr (Change.note hnd (NodeMoved.refl _ _ _) (fun _ hmem => hmem) rfl) rfl,
        hr.contents⟩
  | cons w ws =>
      simp only [htodo, except_pure_eq_ok] at hrun
      subst hrun
      -- only transactions wait on the list of a node
      have hnode : ∀ m, w ≠ .node m := by
        rintro m rfl
        obtain ⟨_, q, -, -, -, hq⟩ := hs.queues m (.async n) (by simp [htodo])
        cases hq
      have h₁ : Idle L s (s.setTodo (.async n) ws) :=
        hs.grounded.idle_setTodo fun m hmem => by simp [htodo, hmem]
      have h₂ := h₁.trans ((hs.idle h₁).grounded.idle_listAddTail (.thread th) hnode)
      exact ⟨Walk.idle h₂ rfl, h₂.contents⟩

theorem advanceTarget_walk (hs : Coherent L d s) {b : Buffer} {D : Prop}
    (hrun : advanceTarget s th b = .ok s') :
    Walk L Event.isQuiet D s s' ∧ s'.contents = s.contents := by
  unfold advanceTarget at hrun
  split at hrun
  · exact advanceAsync_walk hs hrun
  · simp only [Except.ok.injEq] at hrun
    exact hrun ▸ ⟨Walk.refl s, rfl⟩

theorem freeBufferCommand_walk (hs : Coherent L d s) (hd : some p ≠ d) {dataPtr : ℕ} {D : Prop}
    (hrun : freeBufferCommand L s p th dataPtr = .ok s') :
    Walk L (Event.sheds p) D s s' := by
  simp only [freeBufferCommand, except_bind_eq_ok] at hrun
  obtain ⟨x, _, hrun⟩ := hrun
  cases x with
  | none =>
      simp only [except_pure_eq_ok] at hrun
      exact hrun ▸ Walk.refl s
  | some a =>
      simp only [except_bind_eq_ok] at hrun
      obtain ⟨b, hb, hrun⟩ := hrun
      split at hrun
      · simp only [except_pure_eq_ok] at hrun
        exact hrun ▸ Walk.refl s
      · simp only [except_bind_eq_ok, except_pure_eq_ok] at hrun
        obtain ⟨s₁, hdetach, s₂, hadvance, s₃, hrelease, ar, hfree, rfl⟩ := hrun
        have h₁ := detachTransaction_idle hs.grounded hdetach
        have hs₁ := hs.idle h₁
        obtain ⟨h₂, hc₂⟩ := advanceTarget_walk (D := True) hs₁ hadvance
        have hs₂ := h₂.coherent hs₁ Event.isQuiet.stays
        have hown : ∀ n, b.targetNode = some n → s₂.OwnedBy n p := by
          intro n hn
          obtain ⟨hhas, -⟩ := hasBuffer_of_deref hb
          exact h₂.moves.ownedBy hs₁ Event.isQuiet.stays
            (h₁.toTablesKept.ownedBy (hs.targets hhas hn hd))
        have h₃ := bufferRelease_changes (L := L) (p := p) hs₂ hown hrelease
        have hs₃ := h₃.coherent hs₂
        have hc₃ : s₃.contents = s.contents :=
          h₃.refsOnly.contents.trans (hc₂.trans h₁.contents)
        obtain ⟨b', hb', hcontent⟩ := deref_of_contents (hs₃.areas p) hc₃ hb
        have h₄ := freeBuf_moves (Event.sheds p) hs₃ hb' hfree trivial
        have h₁₂ : Walk L Event.isQuiet True s s₂ := h₁.quiet.trans h₂
        refine Walk.of_stages h₁₂.moves (h₃.moves.trans h₄) Event.isQuiet.drops_none
          Event.sheds.holds_none fun _ c => ?_
        have hclaims : contentClaims p b'.content =
            bufferClaims p b.targetNode b.dataSize b.data b.offsets := by rw [hcontent]; rfl
        simp [hclaims]

/-! ### One command -/

def Command.disjoint : Command → Prop
  | .transaction tr _ => DisjointObjects tr.offsetList
  | .reply tr _ => DisjointObjects tr.offsetList
  | _ => True

/-- The event is none that the owner of a node takes part in, and befalls no process
that goes away. -/
def Event.plain : Event → Prop
  | .tell _ => False
  | .done _ _ => False
  | .manage _ => False
  | .gone _ => False
  | _ => True

/-- The events of the command `c` of the process `p`. -/
def Event.serves (s : State) (p : ProcId) (c : Command) (e : Event) : Prop :=
  e.plain ∨
    match c with
    | .increfsDone ptr cookie => e.acknowledges s p ptr cookie false
    | .acquireDone ptr cookie => e.acknowledges s p ptr cookie true
    | _ => False

theorem Event.plain.stays (e : Event) (h : e.plain) : e.stays := by
  rintro q rfl
  exact h

theorem Event.transacts.plain {q : ProcId} (e : Event) (h : e.transacts p q) : e.plain := by
  cases e <;> trivial

theorem Event.sheds.plain {q : ProcId} (e : Event) (h : e.sheds q) : e.plain :=
  Event.transacts.plain e (Event.sheds.transacts (p := q) e h).1

theorem Event.counts.plain (e : Event) (h : e.counts p) : e.plain := by
  cases e <;> trivial

theorem Event.serves.stays {c : Command} (e : Event) (h : e.serves s p c) : e.stays := by
  rcases h with h | h
  · exact h.stays
  · cases c <;> first | exact h.elim | exact Event.acknowledges.stays e h

theorem execCommand_walk (hs : Coherent L d s) (hd : some p ≠ d) {c : Command}
    (hth : s.queueOwner (.thread th) = some p) (hrun : execCommand L s p th c = .ok s') :
    Walk L (Event.serves s p c) c.disjoint s s' := by
  have hidle : ∀ {D}, Idle L s s' → Walk L (Event.serves s p c) D s s' :=
    fun h => Walk.idle h (.inl trivial)
  have hplain : ∀ {ok : Event → Prop} {D}, Walk L ok D s s' → (∀ e, ok e → e.plain) →
      Walk L (Event.serves s p c) D s s' :=
    fun h hok => h.mono (fun e he => .inl (hok e he)) id
  have htxn : ∀ {tr : TransactionData} {reply : Bool} {env : TxnEnv},
      binderTransaction L s p th tr reply env = .ok s' →
      Walk L (Event.serves s p c) (DisjointObjects tr.offsetList) s s' := by
    intro tr reply env hrun
    rcases binderTransaction_walk hs hth hrun with h | ⟨tg, s₁, -, h⟩
    · exact hidle h
    · exact hplain h Event.transacts.plain
  cases c with
  | increfs h alloc => exact hplain (incCommand_walk hs hrun) fun e he => he.1.plain
  | acquire h alloc => exact hplain (incCommand_walk hs hrun) fun e he => he.1.plain
  | release h => exact hplain (decCommand_walk hs hrun) (by rintro _ rfl; trivial)
  | decrefs h => exact hplain (decCommand_walk hs hrun) (by rintro _ rfl; trivial)
  | increfsDone ptr cookie => exact (doneCommand_walk hs hrun).mono (fun e he => .inr he) id
  | acquireDone ptr cookie => exact (doneCommand_walk hs hrun).mono (fun e he => .inr he) id
  | freeBuffer dataPtr => exact hplain (freeBufferCommand_walk hs hd hrun) Event.sheds.plain
  | transaction tr env => exact htxn hrun
  | reply tr env => exact htxn hrun
  | registerLooper => exact hidle (registerLooperCommand_idle hs.grounded hrun)
  | enterLooper => exact hidle (enterLooperCommand_idle hs.grounded hrun)
  | exitLooper => exact hidle (exitLooperCommand_idle hs.grounded hrun)
  | requestDeathNotification h cookie alloc =>
      exact hidle (requestDeathCommand_idle hs.grounded hrun)
  | clearDeathNotification h cookie => exact hidle (clearDeathCommand_idle hs.grounded hrun)
  | deadBinderDone cookie => exact hidle (deadBinderDoneCommand_idle hs.grounded hrun)
  | invalid =>
      simp only [execCommand, Except.ok.injEq] at hrun
      exact hrun ▸ Walk.refl s

end Commands

end Driver

end BinderForLinux
