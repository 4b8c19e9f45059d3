import BinderForLinux.Driver.Log
import BinderForLinux.Driver.Changes.Write

/-!
# Reads as changes

A read tells owners of their nodes and frees nodes that nothing keeps; for the
rest it is idle.
-/

namespace BinderForLinux

namespace Driver

open Library

section Read

variable {L : Layout} {d : Option ProcId} {s s' : State} {p : ProcId} {th : ThreadId} {D : Prop}

theorem Walk.threadOf {ok : Event → Prop} (h : Walk L ok D s s') (hs : Coherent L d s)
    (hok : ∀ e, ok e → e.stays) (hth : s.ThreadOf th p) : s'.ThreadOf th p := by
  obtain ⟨es, hes, hev, -⟩ := h
  exact hes.threadOf hs (fun e he => (hok e (hev e he)).okFor) hth

theorem unlinkNode_change (hs : NodeQueues s) {n : NodeId} {nd : Node}
    (hnd : s.nodes n = some nd) :
    Change L s .quiet (unlinkNode s n nd) ∧ RefsOnly s (unlinkNode s n nd) ∧
      ∀ q, .node n ∉ (unlinkNode s n nd).todo q := by
  obtain ⟨td, hun, hmoved⟩ := unlinkNode_eq s n nd
  have hnone : ∀ q, .node n ∉ td q := by
    intro q hmem
    cases hmoved.own (hs.entry_eq hnd) q hmem
  rw [hun]
  exact ⟨Change.note hnd hmoved (fun q hmem => absurd hmem (hnone q)) rfl,
    RefsOnly.of_node hnd rfl rfl rfl fun q t => hmoved.others q _ (by simp), hnone⟩

/-- The event tells the owner of a node, or changes flags and links only. -/
def Event.reads (e : Event) : Prop := e.isQuiet ∨ ∃ n, e = .tell n

theorem Event.reads.stays (e : Event) (h : e.reads) : e.stays := by
  rcases h with rfl | ⟨n, rfl⟩ <;> rintro _ ⟨⟩

theorem readNode_walk (hs : Coherent L d s) {n : NodeId} {q : Queue} {ptr : ℕ}
    {writable : ℕ → Bool} {x : Option (ℕ × List ReturnCommand)} (hmem : .node n ∈ s.todo q)
    (hq : s.queueOwner q = some p) (hrun : readNode s p n ptr writable = .ok (x, s')) :
    Walk L Event.reads D s s' := by
  simp only [readNode, except_bind_eq_ok, deref_eq_ok] at hrun
  obtain ⟨nd, hnd, hrun⟩ := hrun
  obtain ⟨nd', p', hnd', -, hproc, hq'⟩ := hs.queues n q hmem
  obtain rfl : nd = nd' := by simpa [hnd] using hnd'
  obtain rfl : p = p' := by simpa [hq] using hq'
  cases hcmd : nodeCommand nd with
  | some x =>
      obtain ⟨cmd, nd'⟩ := x
      have hw : Walk L Event.reads D s (s.setNode n nd') :=
        Walk.single (Change.tell hnd (by simp [hproc]) hcmd) (.inr ⟨n, rfl⟩) rfl rfl
          (RefsOnly.setNode hnd (nodeCommand_eq hcmd).1).contents
      simp only [hcmd] at hrun
      split at hrun
      · simp only [except_pure_eq_ok, Prod.mk.injEq] at hrun
        exact hrun.2 ▸ hw
      · simp only [except_pure_eq_ok, Prod.mk.injEq] at hrun
        exact hrun.2 ▸ hw
  | none =>
      simp only [hcmd] at hrun
      split at hrun
      · simp only [except_pure_eq_ok, Prod.mk.injEq] at hrun
        obtain ⟨hch, hr, -⟩ := unlinkNode_change (L := L) hs.queues hnd
        exact hrun.2 ▸ Walk.quiet hr hch (.inl rfl)
      · rename_i huse
        simp only [except_pure_eq_ok, Prod.mk.injEq] at hrun
        have hself : ({ nd with proc := some p } : Node) = nd := by rw [← hproc]
        rw [hself] at hrun
        exact hrun.2 ▸ Walk.quiet (RefsOnly.of_nodeFreed (nodeFreed_freeNode s n nd))
          (Change.forgetNode hnd (by simp [hproc]) hcmd (by simpa using huse)) (.inl rfl)

theorem nextWork_eq {wait : Bool} {q : Queue} {w : Work}
    (h : nextWork s p th wait = some (q, w)) : w ∈ s.todo q ∧ (q = .thread th ∨ q = .proc p) := by
  unfold nextWork at h
  split at h
  · rename_i hl
    obtain ⟨rfl, rfl⟩ : .thread th = q ∧ _ = w := by simpa using h
    exact ⟨by simp [hl], .inl rfl⟩
  · rename_i hl
    obtain ⟨rfl, rfl⟩ : .proc p = q ∧ _ = w := by simpa using h
    exact ⟨by simp [hl], .inr rfl⟩
  · cases h

theorem nextWork_head {wait : Bool} {q : Queue} {w : Work}
    (h : nextWork s p th wait = some (q, w)) : s.todo q = w :: (s.todo q).tail := by
  unfold nextWork at h
  split at h
  · rename_i hl
    obtain ⟨rfl, rfl⟩ : .thread th = q ∧ _ = w := by simpa using h
    rw [hl, List.tail_cons]
  · rename_i hl
    obtain ⟨rfl, rfl⟩ : .proc p = q ∧ _ = w := by simpa using h
    rw [hl, List.tail_cons]
  · cases h

theorem nextWork_owner {wait : Bool} {q : Queue} {w : Work} {thr : Thread}
    (hthr : s.threads th = some thr) (hproc : thr.proc = p)
    (h : nextWork s p th wait = some (q, w)) : s.queueOwner q = some p := by
  rcases (nextWork_eq h).2 with rfl | rfl
  · simp [State.queueOwner, hthr, hproc]
  · rfl

theorem readItem_idle (hs : Grounded L s) {q : Queue} {w : Work} {ptr : ℕ} {writable : ℕ → Bool}
    {x : Option (ℕ × List ReturnCommand)} (hw : ∀ n, w ≠ .node n)
    (hrun : readItem L s p th q w ptr writable = .ok (x, s')) : Idle L s s' := by
  cases w with
  | transaction t => exact readTransaction_idle hs hrun
  | transactionComplete t =>
      simp only [readItem, Except.ok.injEq] at hrun
      split at hrun
      · cases hrun
        exact hs.idle_setTodo fun _ hmem => List.mem_of_mem_tail hmem
      · cases hrun
        exact Idle.refl hs
  | node n => exact absurd rfl (hw n)
  | death i =>
      simp only [readItem] at hrun
      cases hdeath : readDeath s p q i ptr writable with
      | error e => simp [hdeath, Except.map] at hrun
      | ok y =>
          obtain ⟨y₁, y₂, s₁⟩ := y
          simp only [hdeath, Except.map, Except.ok.injEq, Prod.mk.injEq] at hrun
          exact hrun.2 ▸ readDeath_idle hs hdeath

theorem readItem_walk (hs : Coherent L d s) {wait : Bool} {q : Queue} {w : Work} {ptr : ℕ}
    {writable : ℕ → Bool} {x : Option (ℕ × List ReturnCommand)} {thr : Thread}
    (hthr : s.threads th = some thr) (hproc : thr.proc = p)
    (hnext : nextWork s p th wait = some (q, w))
    (hrun : readItem L s p th q w ptr writable = .ok (x, s')) : Walk L Event.reads D s s' := by
  by_cases hw : ∃ n, w = .node n
  · obtain ⟨n, rfl⟩ := hw
    exact readNode_walk hs (nextWork_eq hnext).1 (nextWork_owner hthr hproc hnext) hrun
  · exact Walk.idle (readItem_idle hs.grounded (fun n hn => hw ⟨n, hn⟩) hrun) (.inl rfl)

theorem wakeUp_idle (hs : Grounded L s) {thr : Thread} {f : ReadFrame} {pr : Proc}
    (hthr : s.threads th = some thr) : Idle L s (wakeUp s p th thr f pr) := by
  have h₁ : Idle L s (if f.waitForProcWork then
      s.setProc p { pr with readyThreads := pr.readyThreads - 1 } else s) := by
    split
    · exact hs.idle_setProc p _
    · exact Idle.refl hs
  have hthr₁ : (if f.waitForProcWork then
      s.setProc p { pr with readyThreads := pr.readyThreads - 1 } else s).threads th =
      some thr := by
    split <;> exact hthr
  exact h₁.trans (h₁.grounded.idle_setThread hthr₁ rfl)

/-! ### The loop -/

theorem readLoop_cases {size : ℕ} {wait : Bool} {writable : ℕ → Bool} {fuel ptr : ℕ}
    {out : List ReturnCommand} {x : ReadResult}
    (hrun : readLoop L p th size wait writable (fuel + 1) s ptr out = .ok (x, s')) :
    ∃ thr, s.threads th = some thr ∧
      ((nextWork s p th wait = none ∧ s' = s ∧
          x = (if ptr = 4 && !thr.looper.needReturn then .retry ptr out else .done ptr out)) ∨
        ∃ q w, nextWork s p th wait = some (q, w) ∧
          ((readFull size ptr = true ∧ s' = s ∧ x = .done ptr out) ∨
            (readFull size ptr = false ∧
              ((readItem L s p th q w ptr writable = .ok (none, s') ∧ x = .fault) ∨
                ∃ ptr₁ cmds s₁, readItem L s p th q w ptr writable = .ok (some (ptr₁, cmds), s₁) ∧
                  ((endsRead s w = true ∧ s' = s₁ ∧ x = .done ptr₁ (out ++ cmds)) ∨
                    (endsRead s w = false ∧
                      readLoop L p th size wait writable fuel s₁ ptr₁ (out ++ cmds) =
                        .ok (x, s'))))))) := by
  simp only [readLoop, except_bind_eq_ok, deref_eq_ok] at hrun
  obtain ⟨thr, hthr, hrun⟩ := hrun
  refine ⟨thr, hthr, ?_⟩
  split at hrun
  · rename_i hnone
    have hnext : nextWork s p th wait = none := hnone
    refine .inl ⟨hnext, ?_⟩
    split at hrun
    · rename_i hcond
      simp only [except_pure_eq_ok, Prod.mk.injEq] at hrun
      rw [if_pos hcond]
      exact ⟨hrun.2.symm, hrun.1.symm⟩
    · rename_i hcond
      simp only [except_pure_eq_ok, Prod.mk.injEq] at hrun
      rw [if_neg hcond]
      exact ⟨hrun.2.symm, hrun.1.symm⟩
  · rename_i q w hsome
    have hnext : nextWork s p th wait = some (q, w) := hsome
    refine .inr ⟨q, w, hnext, ?_⟩
    cases hfull : readFull size ptr with
    | true =>
        simp only [hfull, ↓reduceIte, except_pure_eq_ok, Prod.mk.injEq] at hrun
        exact .inl ⟨rfl, hrun.2.symm, hrun.1.symm⟩
    | false =>
        refine .inr ⟨rfl, ?_⟩
        simp only [hfull, Bool.false_eq_true, ↓reduceIte] at hrun
        cases w with
        | transactionComplete t =>
            simp only [readItem]
            cases hw : writable ptr with
            | false =>
                simp only [hw, Bool.not_false, ↓reduceIte, except_pure_eq_ok,
                  Prod.mk.injEq] at hrun
                exact .inl ⟨by simp [hrun.2], hrun.1.symm⟩
            | true =>
                simp only [hw, Bool.not_true, Bool.false_eq_true, ↓reduceIte] at hrun
                exact .inr ⟨_, _, _, rfl, .inr ⟨rfl, hrun⟩⟩
        | node n =>
            simp only [except_bind_eq_ok] at hrun
            obtain ⟨⟨y, s₁⟩, hnode, hrun⟩ := hrun
            cases y with
            | none =>
                simp only [except_pure_eq_ok, Prod.mk.injEq] at hrun
                exact .inl ⟨hrun.2 ▸ hnode, hrun.1.symm⟩
            | some z => exact .inr ⟨z.1, z.2, s₁, hnode, .inr ⟨rfl, hrun⟩⟩
        | death i =>
            simp only [except_bind_eq_ok] at hrun
            obtain ⟨⟨y, fin, s₁⟩, hdeath, hrun⟩ := hrun
            have hitem : readItem L s p th q (.death i) ptr writable = .ok (y, s₁) := by
              simp [readItem, hdeath, Except.map]
            have hfin : y.isSome = true → fin = endsRead s (.death i) := by
              intro hy
              simp only [readDeath, except_bind_eq_ok, deref_eq_ok] at hdeath
              obtain ⟨de, hde, hdeath⟩ := hdeath
              split at hdeath
              · simp only [except_pure_eq_ok, Prod.mk.injEq] at hdeath
                simp [← hdeath.1] at hy
              · split at hdeath
                · rename_i hty
                  simp only [except_pure_eq_ok, Prod.mk.injEq] at hdeath
                  simp [endsRead, hde, hty, ← hdeath.2.1]
                · rename_i hty
                  simp only [except_pure_eq_ok, Prod.mk.injEq] at hdeath
                  simp only [endsRead, hde, Option.any_some, ← hdeath.2.1]
                  simpa using hty
            cases y with
            | none =>
                simp only [except_pure_eq_ok, Prod.mk.injEq] at hrun
                exact .inl ⟨hrun.2 ▸ hitem, hrun.1.symm⟩
            | some z =>
                have hends := hfin rfl
                refine .inr ⟨z.1, z.2, s₁, hitem, ?_⟩
                cases fin with
                | true =>
                    simp only [except_pure_eq_ok, Prod.mk.injEq] at hrun
                    exact .inl ⟨hends.symm, hrun.2.symm, hrun.1.symm⟩
                | false => exact .inr ⟨hends.symm, hrun⟩
        | transaction t =>
            simp only [except_bind_eq_ok] at hrun
            obtain ⟨⟨y, s₁⟩, htxn, hrun⟩ := hrun
            cases y with
            | none =>
                simp only [except_pure_eq_ok, Prod.mk.injEq] at hrun
                exact .inl ⟨hrun.2 ▸ htxn, hrun.1.symm⟩
            | some z =>
                simp only [except_pure_eq_ok, Prod.mk.injEq] at hrun
                exact .inr ⟨z.1, z.2, s₁, htxn, .inl ⟨rfl, hrun.2.symm, hrun.1.symm⟩⟩

end Read

end Driver

end BinderForLinux
