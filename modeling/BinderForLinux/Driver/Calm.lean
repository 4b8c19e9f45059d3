import BinderForLinux.Driver.Linked
import BinderForLinux.Driver.Still

/-!
# Calm steps

Most of what the driver does moves no transaction, no acknowledgement and no death
notification from one list to another. Such code is a sequence of calm steps:
operations on nodes and references, steps that unwind a stack, and updates of
fields that no queued work depends on.
-/

namespace BinderForLinux

namespace Driver

open Library

def Thread.duties (thr : Thread) : ProcId × Option TxnId × ReturnError × ReturnError :=
  (thr.proc, thr.transactionStack, thr.returnError, thr.returnError2)

def Buffer.idle (b : Buffer) : Prop :=
  b.transaction = none ∧ b.targetNode = none ∧ b.allowUserFree = false

inductive CalmStep (s : State) : State → Prop
  | still {s' : State} (h : Still s s') : CalmStep s s'
  | unwind {s' : State} (h : UnwindStep s s') : CalmStep s s'
  | thread {th : ThreadId} {thr thr' : Thread} (hthr : s.threads th = some thr)
      (hsame : thr'.duties = thr.duties) : CalmStep s (s.setThread th thr')
  /-- Fields that no work depends on, and changes to areas that leave the allocated
  buffers as they are. -/
  | fields {s' : State} (hnext : s.nextId ≤ s'.nextId)
      (hrest : s' = { s with
        nextId := s'.nextId
        procs := s'.procs
        files := s'.files
        threadsOf := s'.threadsOf
        area := s'.area
        contextMgrNode := s'.contextMgrNode
        contextMgrUid := s'.contextMgrUid })
      (hlive : s'.live = s.live) : CalmStep s s'
  /-- A buffer is taken. -/
  | alloc {s' : State} {x : ProcId × ℕ} {b : Buffer} (hx : s.live x = none) (hb : b.idle)
      (hrest : s' = { s with area := s'.area })
      (hlive : s'.live = Function.update s.live x (some b)) : CalmStep s s'
  /-- A buffer that was never queued is given back. -/
  | discard {s' : State} {x : ProcId × ℕ} {b : Buffer} (hx : s.live x = some b) (hb : b.idle)
      (hrest : s' = { s with area := s'.area })
      (hlive : s'.live = Function.update s.live x none) : CalmStep s s'

abbrev Calm : State → State → Prop := Relation.ReflTransGen CalmStep

section Calm

variable {L : Layout} {C : Condition} {s s' s'' : State} {p : ProcId} {th : ThreadId} {t : TxnId}
  {e : ReturnError}

theorem Still.calm (h : Still s s') : Calm s s' := .single (.still h)

theorem NodesOnly.calm (h : NodesOnly s s') : Calm s s' := h.still.calm

theorem Unwound.calm (h : Unwound s s') : Calm s s' := by
  induction h with
  | refl => exact .refl
  | tail _ hstep ih => exact ih.tail (.unwind hstep)

theorem Still.live (h : Still s s') : s'.live = s.live := by
  apply live_congr
  rw [h.rest]

theorem Still.linked (h : Still s s') (hs : Linked s) : Linked s' := by
  refine hs.congr h.nextId ?_ (by rw [h.rest]) h.live
  intro th thr hthr
  rw [h.rest] at hthr
  exact .inr ⟨thr, hthr, rfl⟩

theorem Linked.setIdle (hs : Linked s) {x : ProcId × ℕ} {y : Option Buffer}
    (hx : s.live x = none ∨ ∃ b, s.live x = some b ∧ b.transaction = none)
    (hrest : s' = { s with area := s'.area })
    (hlive : s'.live = Function.update s.live x y)
    (hy : ∀ b, y = some b → b.transaction = none) : Linked s' := by
  have htxns : s'.txns = s.txns := by rw [hrest]
  have hcall : ∀ {u}, s.IsCall u → s'.IsCall u := by
    intro u hu
    rw [hrest]
    exact hu
  refine ⟨?_, ?_, ?_, ?_, ?_⟩
  · intro t tx z htx hz
    obtain ⟨b, hb, hbt, hm⟩ := hs.buffer (htxns ▸ htx) hz
    refine ⟨b, ?_, hbt, hm⟩
    rw [hlive, Function.update_of_ne, hb]
    rintro rfl
    rcases hx with hnone | ⟨b', hb', hnone⟩
    · rw [hnone] at hb
      cases hb
    · rw [hb] at hb'
      cases hb'
      rw [hnone] at hbt
      cases hbt
  · intro z b t hb ht
    rw [hlive] at hb
    by_cases hz : z = x
    · subst hz
      rw [Function.update_self] at hb
      rw [hy b hb] at ht
      cases ht
    · rw [Function.update_of_ne hz] at hb
      rw [htxns]
      exact hs.transaction hb ht
  · intro th thr t hthr ht
    rw [hrest] at hthr
    exact hcall (hs.stack hthr ht)
  · exact fun htx hu => hcall (hs.parents (htxns ▸ htx) hu)
  · intro t tx htx
    have := hs.txns_lt (htxns ▸ htx)
    rw [hrest]
    exact this

theorem CalmStep.linked (h : CalmStep s s') (hs : Linked s) : Linked s' := by
  cases h with
  | still h => exact h.linked hs
  | unwind h => exact h.linked hs
  | @thread th thr thr' hthr hsame =>
      refine hs.setThread fun t ht => hs.stack hthr ?_
      exact (congrArg (fun x => x.2.1) hsame).symm.trans ht
  | fields hnext hrest hlive =>
      refine hs.congr hnext (fun {th thr} hthr => .inr ⟨thr, ?_, rfl⟩) (by rw [hrest]) hlive
      rw [hrest] at hthr
      exact hthr
  | @alloc _ x b hx hb hrest hlive =>
      exact hs.setIdle (.inl hx) hrest hlive (by rintro _ ⟨⟩; exact hb.1)
  | discard hx hb hrest hlive =>
      exact hs.setIdle (.inr ⟨_, hx, hb.1⟩) hrest hlive (by simp)

theorem Calm.linked (h : Calm s s') (hs : Linked s) : Linked s' := by
  induction h with
  | refl => exact hs
  | tail _ hstep ih => exact hstep.linked ih

theorem CalmStep.isCall (h : CalmStep s s') (ht : s.IsCall t) : s'.IsCall t := by
  cases h with
  | still h =>
      refine ⟨ht.1.trans_le h.nextId, fun tx htx => ht.2 tx ?_⟩
      rw [h.rest] at htx
      exact htx
  | unwind h => exact h.isCall ht
  | thread => exact ht
  | fields hnext hrest =>
      refine ⟨ht.1.trans_le hnext, fun tx htx => ht.2 tx ?_⟩
      rw [hrest] at htx
      exact htx
  | alloc hx hb hrest =>
      rw [hrest]
      exact ht
  | discard hx hb hrest =>
      rw [hrest]
      exact ht

theorem Calm.isCall (h : Calm s s') (ht : s.IsCall t) : s'.IsCall t := by
  induction h with
  | refl => exact ht
  | tail _ hstep ih => exact hstep.isCall ih

theorem CalmStep.txns_none (h : CalmStep s s') (ht : s.txns t = none) : s'.txns t = none := by
  cases h with
  | still h =>
      rw [h.rest]
      exact ht
  | unwind h => exact h.txns_none ht
  | thread => exact ht
  | fields hnext hrest =>
      rw [hrest]
      exact ht
  | alloc hx hb hrest =>
      rw [hrest]
      exact ht
  | discard hx hb hrest =>
      rw [hrest]
      exact ht

theorem Calm.txns_none (h : Calm s s') (ht : s.txns t = none) : s'.txns t = none := by
  induction h with
  | refl => exact ht
  | tail _ hstep ih => exact hstep.txns_none ih

theorem CalmStep.mentions (h : CalmStep s s') (ht : s'.Mentions t) : s.Mentions t := by
  have hsame : s'.threads = s.threads → s'.txns = s.txns → s.Mentions t := by
    intro hthreads htxns
    rwa [State.Mentions, hthreads, htxns] at ht
  cases h with
  | still h => exact hsame (by rw [h.rest]) (by rw [h.rest])
  | unwind h => exact h.mentions ht
  | @thread th thr thr' hthr hdut =>
      rcases ht with ⟨th', thr₁, hthr₁, ht⟩ | ht
      · by_cases heq : th' = th
        · subst heq
          simp only [State.setThread, Function.update_self, Option.some.injEq] at hthr₁
          subst hthr₁
          exact .inl ⟨th', thr, hthr, (congrArg (fun x => x.2.1) hdut).symm.trans ht⟩
        · simp only [State.setThread, Function.update_of_ne heq] at hthr₁
          exact .inl ⟨th', thr₁, hthr₁, ht⟩
      · exact .inr ht
  | fields hnext hrest => exact hsame (by rw [hrest]) (by rw [hrest])
  | alloc hx hb hrest => exact hsame (by rw [hrest]) (by rw [hrest])
  | discard hx hb hrest => exact hsame (by rw [hrest]) (by rw [hrest])

theorem Calm.mentions (h : Calm s s') (ht : s'.Mentions t) : s.Mentions t := by
  induction h with
  | refl => exact ht
  | tail _ hstep ih => exact ih (hstep.mentions ht)

theorem CalmStep.items (h : CalmStep s s') (q : Queue) :
    (s'.todo q).filter Work.isTxn = (s.todo q).filter Work.isTxn := by
  cases h with
  | still h => exact h.items q
  | unwind h => rw [h.rest]
  | thread => rfl
  | fields hnext hrest => rw [hrest]
  | alloc hx hb hrest => rw [hrest]
  | discard hx hb hrest => rw [hrest]

theorem Calm.items (h : Calm s s') (q : Queue) :
    (s'.todo q).filter Work.isTxn = (s.todo q).filter Work.isTxn := by
  induction h with
  | refl => rfl
  | tail _ hstep ih => exact (hstep.items q).trans ih

theorem calm_nextId {k : ℕ} (hk : s.nextId ≤ k) : Calm s { s with nextId := k } :=
  .single (.fields hk rfl (live_congr rfl))

theorem calm_setProc (p : ProcId) (pr : Proc) : Calm s (s.setProc p pr) :=
  .single (.fields le_rfl rfl (live_congr rfl))

theorem calm_setThread {thr thr' : Thread} (hthr : s.threads th = some thr)
    (hsame : thr'.duties = thr.duties) : Calm s (s.setThread th thr') :=
  .single (.thread hthr hsame)

/-! ### Loopers and the ends of system calls -/

theorem registerLooperCommand_calm (hrun : registerLooperCommand s p th = .ok s') :
    Calm s s' := by
  simp only [registerLooperCommand, except_bind_eq_ok, deref_eq_ok] at hrun
  obtain ⟨thr, hthr, pr, hpr, hrun⟩ := hrun
  split at hrun
  · simp only [except_pure_eq_ok] at hrun
    exact hrun ▸ calm_setThread hthr rfl
  · simp only [except_pure_eq_ok] at hrun
    subst hrun
    exact (calm_setProc p _).trans (calm_setThread (s := s.setProc p _) hthr rfl)

theorem enterLooperCommand_calm (hrun : enterLooperCommand s th = .ok s') : Calm s s' := by
  simp only [enterLooperCommand, except_bind_eq_ok, deref_eq_ok, except_pure_eq_ok] at hrun
  obtain ⟨thr, hthr, rfl⟩ := hrun
  exact calm_setThread hthr rfl

theorem exitLooperCommand_calm (hrun : exitLooperCommand s th = .ok s') : Calm s s' := by
  simp only [exitLooperCommand, except_bind_eq_ok, deref_eq_ok, except_pure_eq_ok] at hrun
  obtain ⟨thr, hthr, rfl⟩ := hrun
  exact calm_setThread hthr rfl

theorem ioctlReturn_calm (hrun : ioctlReturn s th = .ok s') : Calm s s' := by
  simp only [ioctlReturn, except_bind_eq_ok, deref_eq_ok, except_pure_eq_ok] at hrun
  obtain ⟨thr, hthr, rfl⟩ := hrun
  exact calm_setThread hthr rfl

theorem readDone_calm {out : List ReturnCommand} {writable : ℕ → Bool}
    (hrun : readDone s p th out writable = .ok s') : Calm s s' := by
  simp only [readDone, except_bind_eq_ok, deref_eq_ok] at hrun
  obtain ⟨thr, hthr, pr, hpr, hrun⟩ := hrun
  refine Relation.ReflTransGen.trans ?_ (ioctlReturn_calm hrun)
  split
  · exact (calm_setProc p _).trans (calm_setThread (s := s.setProc p _) hthr rfl)
  · exact calm_setThread hthr rfl

theorem readRetry_calm {size ptr : ℕ} {out : List ReturnCommand} {writable : ℕ → Bool}
    (hrun : readRetry s p th size ptr out writable = .ok s') : Calm s s' := by
  simp only [readRetry, except_bind_eq_ok, deref_eq_ok] at hrun
  obtain ⟨thr, hthr, hrun⟩ := hrun
  have hslots : ∀ {e e₂ : ReturnError}, (e = .error → thr.returnError = .error) →
      (e₂ = .error → thr.returnError = .error ∨ thr.returnError2 = .error) →
      Calm s (s.setThread th { thr with returnError := e, returnError2 := e₂ }) :=
    fun he he₂ => .single (.unwind (.slots hthr he he₂))
  split at hrun
  · split at hrun
    · split at hrun
      · exact ioctlReturn_calm hrun
      · split at hrun
        · exact readDone_calm hrun
        · split at hrun
          · exact (hslots id (by simp)).trans (ioctlReturn_calm hrun)
          · have hthr₁ : (s.setThread th { thr with returnError2 := .ok }).threads th =
                some { thr with returnError2 := .ok } := Function.update_self ..
            have h₂ := @UnwindStep.slots _ th _ .ok .ok hthr₁ (by simp) (by simp)
            exact ((hslots id (by simp)).tail (.unwind h₂)).trans (readDone_calm hrun)
    · split at hrun
      · exact ioctlReturn_calm hrun
      · exact (hslots (by simp) .inr).trans (readDone_calm hrun)
  · simp only [except_bind_eq_ok, deref_eq_ok, except_pure_eq_ok] at hrun
    obtain ⟨pr, hpr, rfl⟩ := hrun
    split
    · exact (calm_setProc p _).trans (calm_setThread (s := s.setProc p _) hthr rfl)
    · exact calm_setThread hthr rfl

theorem wakeUp_calm {thr : Thread} {f : ReadFrame} {pr : Proc} (hthr : s.threads th = some thr) :
    Calm s (wakeUp s p th thr f pr) := by
  unfold wakeUp
  split
  · exact (calm_setProc p _).trans (calm_setThread (s := s.setProc p _) hthr rfl)
  · exact calm_setThread hthr rfl

/-! ### Areas and processes -/

theorem mmapProc_calm (hs : Coherent L none s) {base size : ℕ} {off : ℤ} {env : PageEnv}
    {files : ℕ → Option File} (hposs : mmapPossible L base size)
    (hrun : mmapProc L s p base size off env files = .ok s') : Calm s s' := by
  unfold mmapProc at hrun
  split at hrun
  · simp only [except_pure_eq_ok] at hrun
    exact hrun ▸ .refl
  · rename_i hbuffer
    have hun : s.area p = Area.unmapped := (hs.areas p).resolve_right fun h => hbuffer h.2
    obtain ⟨hbase, hpos, hsize, hsize'⟩ := hposs
    rcases binderMmap_ok hbase hsize (lt_min hsize' (by norm_num)) off env with
      hmap | ⟨ar, hmap, hsound, hbuf, hnone, -⟩
    · simp only [hmap, except_bind_eq_ok, Except.ok.injEq, exists_eq_left',
        except_pure_eq_ok] at hrun
      exact hrun ▸ .refl
    · simp only [hmap, except_bind_eq_ok, Except.ok.injEq, exists_eq_left',
        except_pure_eq_ok] at hrun
      subst hrun
      refine .single (.fields le_rfl rfl ?_)
      have hlive : (s.setArea p ar).live = s.live := by
        funext x
        obtain ⟨q, c⟩ := x
        by_cases hq : q = p
        · subst hq
          have harea : (s.setArea q ar).area q = ar := by simp [State.setArea]
          have hleft : (s.setArea q ar).live (q, c) = none := by
            rw [Option.eq_none_iff_forall_ne_some]
            intro b hb
            have := ((live_eq_some_of_sound (L := L) (by rwa [harea])).mp hb).1
            simp [harea, hnone] at this
          rw [hleft]
          simp [State.live, derefBuffer, hun, Area.unmapped, findBuffer, Except.toOption]
        · exact live_setArea_of_ne hq
      exact (live_congr rfl).trans hlive

theorem vmaClose_calm (p : ProcId) : Calm s (s.setArea p { s.area p with vma := false }) := by
  refine .single (.fields le_rfl rfl ?_)
  funext x
  obtain ⟨q, c⟩ := x
  by_cases hq : q = p
  · subst hq
    simp [State.live, derefBuffer, State.setArea]
  · exact live_setArea_of_ne hq

theorem setContextMgr_calm {euid : ℕ} {security alloc : Bool}
    (hrun : setContextMgr s p euid security alloc = .ok s') : Calm s s' := by
  rcases setContextMgr_cases hrun with ⟨uid, rfl⟩ | ⟨-, -, uid, rfl⟩
  · exact .single (.fields le_rfl rfl (live_congr rfl))
  · have h₁ : Calm s { s with contextMgrUid := uid } :=
      .single (.fields le_rfl rfl (live_congr rfl))
    have h₂ : Still { s with contextMgrUid := uid }
        (addNode { s with contextMgrUid := uid } p (Node.fresh p 0 0)) :=
      Still.addNode _ p rfl
    have h₃ : NodesOnly (addNode { s with contextMgrUid := uid } p (Node.fresh p 0 0))
        ((addNode { s with contextMgrUid := uid } p (Node.fresh p 0 0)).setNode s.nextId
          (Node.fresh p 0 0).managing) := by
      have hnode : (addNode { s with contextMgrUid := uid } p (Node.fresh p 0 0)).nodes s.nextId =
          some (Node.fresh p 0 0) := by simp [addNode, State.setNode]
      exact NodesOnly.setNode hnode rfl
    exact ((h₁.trans h₂.calm).trans h₃.calm).tail (.fields le_rfl rfl (live_congr rfl))

end Calm

end Driver

end BinderForLinux
