import BinderForLinux.Driver.Parts
import BinderForLinux.Driver.Changes.Release

/-!
# Every part keeps the state coherent

All parts but commands and the release of a process at most tell the owner of a
node or make a context manager. Together with the walks of the commands and of
the release this makes `Coherent` an invariant of every run, and gives the
invariant rule that the other invariants of runs rest on.
-/

namespace BinderForLinux

namespace Driver

open Library

section Parts

variable {L : Layout} {C : Condition} {s s' : State} {p : ProcId} {th : ThreadId} {D : Prop}
  {o h : List Obs}

theorem binderOpen_idle (hs : Grounded L s) (pid : ℕ) : Idle L s (binderOpen s pid) :=
  hs.idle_misc (Nat.le_succ _) fun _ _ hmem => hmem

theorem mmapProc_idle (hs : Coherent L none s) {base size : ℕ} {off : ℤ} {env : PageEnv}
    {files : ℕ → Option File} (hposs : mmapPossible L base size)
    (hrun : mmapProc L s p base size off env files = .ok s') : Idle L s s' := by
  unfold mmapProc at hrun
  split at hrun
  · simp only [except_pure_eq_ok] at hrun
    exact hrun ▸ Idle.refl hs.grounded
  · rename_i hbuffer
    have hun : s.area p = Area.unmapped :=
      (hs.areas p).resolve_right fun h => hbuffer h.2
    obtain ⟨hbase, hpos, hsize, hsize'⟩ := hposs
    rcases binderMmap_ok hbase hsize (lt_min hsize' (by norm_num)) off env with
      hmap | ⟨ar, hmap, hsound, hbuf, hlive, -⟩
    · simp only [hmap, except_bind_eq_ok, Except.ok.injEq, exists_eq_left',
        except_pure_eq_ok] at hrun
      exact hrun ▸ Idle.refl hs.grounded
    · simp only [hmap, except_bind_eq_ok, Except.ok.injEq, exists_eq_left',
        except_pure_eq_ok] at hrun
      subst hrun
      have hk := TablesKept.setArea (p := p) hs.grounded (.inr ⟨hsound, by omega⟩)
      have h₁ : Idle L s (s.setArea p ar) := by
        refine ⟨hk, contents_setArea_of_eq ?_⟩
        rw [hlive, State.contents, hun]
        rfl
      exact h₁.trans (h₁.grounded.idle_misc le_rfl fun _ _ hmem => hmem)

theorem vmaClose_idle (hs : Grounded L s) (p : ProcId) :
    Idle L s (s.setArea p { s.area p with vma := false }) := by
  refine ⟨TablesKept.setArea hs ?_, contents_setArea_of_eq rfl⟩
  rcases hs.areas p with hun | ⟨hsound, hpos⟩
  · exact .inl (by rw [hun]; rfl)
  · exact .inr ⟨⟨hsound.toWellFormed.congr rfl rfl rfl rfl rfl,
      ⟨hsound.aligned.buffer, hsound.aligned.bufferSize⟩, hsound.pages⟩, hpos⟩

def withManager (s : State) (p : ProcId) (uid : Option ℕ) : State :=
  { (addNode { s with contextMgrUid := uid } p (Node.fresh p 0 0)).setNode s.nextId
      (Node.fresh p 0 0).managing with contextMgrNode := some s.nextId }

theorem setContextMgr_cases {euid : ℕ} {security alloc : Bool}
    (hrun : setContextMgr s p euid security alloc = .ok s') :
    (∃ uid, s' = { s with contextMgrUid := uid }) ∨
      (s.contextMgrNode = none ∧ binderGetNode s p 0 = none ∧ ∃ uid, s' = withManager s p uid) := by
  unfold setContextMgr at hrun
  split at hrun
  · simp only [except_pure_eq_ok] at hrun
    exact .inl ⟨_, hrun.symm⟩
  · rename_i hctx
    split at hrun
    · simp only [except_pure_eq_ok] at hrun
      exact .inl ⟨_, hrun.symm⟩
    · split at hrun
      · simp only [except_pure_eq_ok] at hrun
        exact .inl ⟨_, hrun.symm⟩
      · simp only [binderNewNode] at hrun
        split at hrun
        · rename_i heq
          split at heq
          · cases heq
            simp only [except_pure_eq_ok] at hrun
            exact .inl ⟨_, hrun.symm⟩
          · cases heq
        · rename_i n s₂ heq
          split at heq
          · cases heq
          · rename_i hget
            cases heq
            simp only [except_bind_eq_ok, deref_eq_ok, except_pure_eq_ok] at hrun
            obtain ⟨nd, hnd, rfl⟩ := hrun
            obtain rfl : Node.fresh p 0 0 = nd := by
              simpa [addNode, State.setNode] using hnd
            simp only [Bool.or_eq_true, Bool.not_eq_true', not_or, Bool.not_eq_false,
              Option.isSome_eq_false_iff, Option.isNone_iff_eq_none, Bool.not_eq_true] at hget
            exact .inr ⟨by simpa using hctx, hget.1, _, rfl⟩

/-- The event tells the owner of a node, makes a context manager, or changes flags
and links only. -/
def Event.internal (e : Event) : Prop := e.reads ∨ ∃ n, e = .manage n

theorem Event.internal.stays (e : Event) (he : e.internal) : e.stays := by
  rcases he with he | ⟨n, rfl⟩
  · exact he.stays
  · rintro _ ⟨⟩

theorem withManager_walk (hs : Coherent L none s) (uid : Option ℕ) (hctx : s.contextMgrNode = none)
    (hget : binderGetNode s p 0 = none) : Walk L Event.internal D s (withManager s p uid) := by
  have h₁ : Idle L s { s with contextMgrUid := uid } :=
    hs.grounded.idle_misc le_rfl fun _ _ hmem => hmem
  have w₁ : Walk L Event.internal D s _ := Walk.idle h₁ (.inl (.inl rfl))
  have w₂ : Walk L Event.internal D _ (addNode { s with contextMgrUid := uid } p
      (Node.fresh p 0 0)) :=
    Walk.quiet (RefsOnly.addNode _ p _)
      (Change.newNode (L := L) hget (by norm_num) (by norm_num)) (.inl (.inl rfl))
  have hnd : (addNode { s with contextMgrUid := uid } p (Node.fresh p 0 0)).nodes s.nextId =
      some (Node.fresh p 0 0) := by
    simp [addNode, State.setNode]
  exact (w₁.trans w₂).trans (Walk.single
    (Change.newManager hnd (by simp [Node.fresh]) hctx ⟨rfl, rfl⟩) (.inr ⟨_, rfl⟩) rfl rfl rfl)

theorem setContextMgr_walk (hs : Coherent L none s) {euid : ℕ} {security alloc : Bool}
    (hrun : setContextMgr s p euid security alloc = .ok s') :
    Walk L Event.internal D s s' := by
  rcases setContextMgr_cases hrun with ⟨uid, rfl⟩ | ⟨hctx, hget, uid, rfl⟩
  · exact Walk.idle (hs.grounded.idle_misc le_rfl fun _ _ hmem => hmem) (.inl (.inl rfl))
  · exact withManager_walk hs uid hctx hget

theorem threadOf_of_thread (hs : Coherent L none s) {thr : Thread}
    (hthr : s.threads th = some thr) (hproc : thr.proc = p) : s.ThreadOf th p := by
  refine ⟨hs.threads_lt hthr, fun thr' hthr' => ?_⟩
  obtain rfl : thr = thr' := by simpa [hthr] using hthr'
  exact hproc

theorem Part.internal_or (hs : Coherent L none s) (hpart : Part L C s o s') :
    Walk L Event.internal True s s' ∨
      (∃ p th thr c, s.threads th = some thr ∧ thr.proc = p ∧ thr.returnError = .ok ∧
        C s p th (.command c) ∧ execCommand L s p th c = .ok s' ∧ o = commandLog s s' p th c) ∨
      ∃ p, binderDeferredRelease L s p = .ok s' ∧ o = [.released p] := by
  have hidle : Idle L s s' → Walk L Event.internal True s s' :=
    fun hi => Walk.idle hi (.inl (.inl rfl))
  have hquiet : Walk L Event.isQuiet True s s' → Walk L Event.internal True s s' :=
    fun hw => hw.mono (fun _ he => .inl (.inl he)) id
  cases hpart with
  | «open» pid => exact .inl (hidle (binderOpen_idle hs.grounded pid))
  | mmap hp hposs hrun => exact .inl (hidle (mmapProc_idle hs hposs hrun))
  | getThread hp hrun => exact .inl (hidle (binderGetThread_idle hs hrun))
  | command hthr hproc herr hC hrun =>
      exact .inr (.inl ⟨_, _, _, _, hthr, hproc, herr, hC, hrun, rfl⟩)
  | retry hthr hproc hC hrun => exact .inl (hidle (readRetry_idle hs.grounded hrun))
  | wakeUp hthr hproc hread hpr => exact .inl (hidle (wakeUp_idle hs.grounded hthr))
  | item hthr hproc hnext hC hrun =>
      exact .inl ((readItem_walk hs hthr hproc hnext hrun).mono (fun _ he => .inl he) id)
  | itemFault hthr hproc hnext hC hrun =>
      exact .inl ((readItem_walk hs hthr hproc hnext hrun).mono (fun _ he => .inl he) id)
  | readDone hthr hproc hrun => exact .inl (hidle (readDone_idle hs.grounded hrun))
  | ioctlReturn hrun => exact .inl (hidle (ioctlReturn_idle hs.grounded hrun))
  | setProc hpr pr' => exact .inl (hidle (hs.grounded.idle_setProc _ pr'))
  | setContextMgr hrun => exact .inl (setContextMgr_walk hs hrun)
  | freeThread hthr hproc hC hrun => exact .inl (hquiet (binderFreeThread_walk hs hrun))
  | setFiles files =>
      exact .inl (hidle (hs.grounded.idle_misc le_rfl fun _ _ hmem => hmem))
  | vmaClose p => exact .inl (hidle (vmaClose_idle hs.grounded p))
  | setLooper hthr looper => exact .inl (hidle (hs.grounded.idle_setThread hthr rfl))
  | release hrun => exact .inr (.inr ⟨_, hrun, rfl⟩)

theorem queueOwner_thread {thr : Thread} (hthr : s.threads th = some thr) :
    s.queueOwner (.thread th) = some thr.proc := by
  simp [State.queueOwner, hthr]

theorem Part.coherent (hs : Coherent L none s) (hpart : Part L C s o s') : Coherent L none s' := by
  rcases hpart.internal_or hs with hw | ⟨p, th, thr, c, hthr, rfl, -, -, hrun, -⟩ | ⟨p, hrun, -⟩
  · exact hw.coherent hs Event.internal.stays
  · exact (execCommand_walk hs (by simp) (queueOwner_thread hthr) hrun).coherent hs
      Event.serves.stays
  · exact (binderDeferredRelease_departs hs hrun).2.1

theorem Part.threadOf (hs : Coherent L none s) (hpart : Part L C s o s') (hth : s.ThreadOf th p) :
    s'.ThreadOf th p := by
  rcases hpart.internal_or hs with hw | ⟨q, th', thr, c, hthr, rfl, -, -, hrun, -⟩ | ⟨q, hrun, -⟩
  · exact hw.threadOf hs Event.internal.stays hth
  · exact (execCommand_walk hs (by simp) (queueOwner_thread hthr) hrun).threadOf hs
      Event.serves.stays hth
  · obtain ⟨_, ⟨es, hes, hev, -⟩, -⟩ := (binderDeferredRelease_departs hs hrun).1
    exact hes.threadOf hs.exempt (fun e he => (hev e he).okFor) hth

theorem Parts.coherent (hparts : Parts L C s h s') (hs : Coherent L none s) :
    Coherent L none s' := by
  induction hparts with
  | refl => exact hs
  | tail _ hpart ih => exact hpart.coherent ih

theorem Parts.threadOf (hparts : Parts L C s h s') (hs : Coherent L none s)
    (hth : s.ThreadOf th p) : s'.ThreadOf th p := by
  induction hparts with
  | refl => exact hth
  | tail hparts hpart ih => exact hpart.threadOf (hparts.coherent hs) ih

/-! ### Steps -/

theorem binderThreadWrite_parts (hs : Coherent L none s) (hth : s.ThreadOf th p)
    {cmds : List Command} {ok : Bool} (hok : WriteOk C L p th s cmds)
    (hrun : binderThreadWrite L p th s cmds = .ok (ok, s')) :
    Parts L C s (writeLog L p th s cmds) s' := by
  induction cmds generalizing s with
  | nil =>
      simp only [binderThreadWrite, Except.ok.injEq, Prod.mk.injEq] at hrun
      exact hrun.2 ▸ .refl
  | cons c cs ih =>
      simp only [binderThreadWrite, except_bind_eq_ok, deref_eq_ok] at hrun
      obtain ⟨thr, hthr, hrun⟩ := hrun
      split at hrun
      · rename_i herr
        simp only [except_pure_eq_ok, Prod.mk.injEq] at hrun
        simp only [writeLog, hthr, Option.any_some]
        rw [if_neg (by simp [herr])]
        exact hrun.2 ▸ .refl
      · rename_i herr
        split at hrun
        · rename_i hinv
          simp only [except_pure_eq_ok, Prod.mk.injEq] at hrun
          simp only [writeLog, hinv]
          rw [if_neg (by simp)]
          exact hrun.2 ▸ .refl
        · rename_i hvalid
          simp only [except_bind_eq_ok] at hrun
          obtain ⟨s₁, hexec, hrun⟩ := hrun
          have herr' : ((s.threads th).any fun thr => thr.returnError = .ok) = true := by
            simpa [hthr] using herr
          have hvalid' : c.isInvalid = false := by simpa using hvalid
          obtain ⟨hC, hrest⟩ := hok herr' hvalid'
          simp only [hexec] at hrest
          have hpart : Part L C s (commandLog s s₁ p th c) s₁ :=
            .command hthr (hth.2 thr hthr) (by simpa using herr) hC hexec
          simp only [writeLog, herr', hvalid', Bool.not_false, Bool.and_self, ↓reduceIte, hexec]
          exact .head hpart (ih (hpart.coherent hs) (hpart.threadOf hs hth) hrest hrun)

theorem deferredFlush_parts {ths : List ThreadId} (hrun : deferredFlush s ths = .ok s') :
    Parts L C s [] s' := by
  induction ths generalizing s with
  | nil =>
      obtain rfl : s = s' := by simpa [deferredFlush] using hrun
      exact .refl
  | cons th ths ih =>
      simp only [deferredFlush, except_bind_eq_ok, deref_eq_ok] at hrun
      obtain ⟨thr, hthr, hrun⟩ := hrun
      exact .head (.setLooper hthr _) (ih hrun)

theorem readLoop_parts (hs : Coherent L none s) (hth : s.ThreadOf th p) {size : ℕ} {wait : Bool}
    {writable : ℕ → Bool} {fuel ptr : ℕ} {out : List ReturnCommand} {x : ReadResult}
    (hC : ∃ s₀, C s₀ p th (.copy writable))
    (hrun : readLoop L p th size wait writable fuel s ptr out = .ok (x, s')) :
    Parts L C s (loopLog L p th size wait writable fuel s ptr) s' := by
  induction fuel generalizing s ptr out with
  | zero => cases hrun
  | succ fuel ih =>
      obtain ⟨thr, hthr, hcases⟩ := readLoop_cases hrun
      rw [loopLog]
      rcases hcases with ⟨hnext, rfl, -⟩ | ⟨q, w, hnext, hfull | ⟨hfull, hitem⟩⟩
      · rw [hnext]
        exact .refl
      · simp only [hnext, hfull.1, ↓reduceIte]
        exact hfull.2.1 ▸ .refl
      · simp only [hnext, hfull, Bool.false_eq_true, ↓reduceIte]
        rcases hitem with ⟨hitem, -⟩ | ⟨ptr₁, cmds, s₁, hitem, hend⟩
        · simp only [hitem]
          exact .single (.itemFault hthr (hth.2 thr hthr) hnext hC hitem)
        · have hpart : Part L C s _ s₁ := .item hthr (hth.2 thr hthr) hnext hC hitem
          simp only [hitem]
          rcases hend with ⟨hends, rfl, -⟩ | ⟨hends, hrest⟩
          · simp only [hends, ↓reduceIte, List.append_nil]
            exact .single hpart
          · simp only [hends, Bool.false_eq_true, ↓reduceIte]
            exact .head hpart (ih (hpart.coherent hs) (hpart.threadOf hs hth) hrest)

theorem readLoop_thread {size : ℕ} {wait : Bool} {writable : ℕ → Bool} {fuel ptr : ℕ}
    {out : List ReturnCommand} {ptr' : ℕ} {out' : List ReturnCommand}
    (hrun : readLoop L p th size wait writable fuel s ptr out = .ok (.retry ptr' out', s')) :
    ∃ thr, s'.threads th = some thr := by
  induction fuel generalizing s ptr out with
  | zero => cases hrun
  | succ fuel ih =>
      obtain ⟨thr, hthr, hcases⟩ := readLoop_cases hrun
      rcases hcases with ⟨-, rfl, -⟩ | ⟨q, w, -, ⟨-, -, hx⟩ | ⟨-, ⟨-, hx⟩ |
        ⟨ptr₁, cmds, s₁, -, ⟨-, -, hx⟩ | ⟨-, hrest⟩⟩⟩⟩
      · exact ⟨thr, hthr⟩
      · cases hx
      · cases hx
      · cases hx
      · exact ih hrest

theorem readResume_parts (hs : Coherent L none s) {thr : Thread} {interrupted : Bool}
    {writable : ℕ → Bool} (hthr : s.threads th = some thr)
    (hC : C s thr.proc th (.copy writable))
    (hrun : readResume L s thr.proc th interrupted writable = .ok s') :
    Parts L C s (resumeLog L s th interrupted writable) s' := by
  simp only [readResume, except_bind_eq_ok, deref_eq_ok] at hrun
  obtain ⟨thr', hthr', hrun⟩ := hrun
  obtain rfl : thr = thr' := by simpa [hthr] using hthr'
  cases hread : thr.read with
  | none =>
      simp only [hread, except_pure_eq_ok] at hrun
      simp only [resumeLog, hthr, hread]
      exact hrun ▸ .refl
  | some f =>
      simp only [hread, except_bind_eq_ok, deref_eq_ok] at hrun
      obtain ⟨pr, hpr, hrun⟩ := hrun
      simp only [resumeLog, hthr, hread, hpr]
      have hwake : Part L C s [] (wakeUp s thr.proc th thr f pr) := .wakeUp hthr rfl hread hpr
      change (if interrupted = true then ioctlReturn (wakeUp s thr.proc th thr f pr) th else _) = _
        at hrun
      have hs₁ := hwake.coherent hs
      have hth₁ := hwake.threadOf hs (threadOf_of_thread hs hthr rfl)
      split at hrun
      · rename_i hint
        rw [if_pos hint]
        exact .first hwake (.single (.ioctlReturn hrun))
      · rename_i hint
        rw [if_neg hint]
        refine .first hwake ?_
        simp only [except_bind_eq_ok] at hrun
        obtain ⟨⟨x, s₂⟩, hloop, hrun⟩ := hrun
        have hloop' : readLoop L thr.proc th f.size f.waitForProcWork writable
            (readFuel (wakeUp s thr.proc th thr f pr) thr.proc th)
            (wakeUp s thr.proc th thr f pr) f.ptr f.out = .ok (x, s₂) := hloop
        have hparts := readLoop_parts (C := C) hs₁ hth₁ ⟨s, hC⟩ hloop'
        simp only [awakeLog, hloop']
        cases x with
        | done ptr out =>
            simp only [List.append_nil]
            have hthr₂ := hrun
            simp only [readDone, except_bind_eq_ok, deref_eq_ok] at hthr₂
            obtain ⟨thr₂, hthr₂, -⟩ := hthr₂
            simpa using hparts.tail (.readDone hthr₂
              ((hparts.threadOf hs₁ hth₁).2 thr₂ hthr₂) hrun)
        | fault =>
            simp only [List.append_nil]
            simpa using hparts.tail (.ioctlReturn hrun)
        | retry ptr out =>
            obtain ⟨thr₂, hthr₂⟩ := readLoop_thread hloop'
            exact hparts.tail (.retry hthr₂ ((hparts.threadOf hs₁ hth₁).2 thr₂ hthr₂) ⟨s, hC⟩ hrun)

theorem binderThreadRead_parts (hth : s.ThreadOf th p)
    {size consumed : ℕ} {writable : ℕ → Bool} (hC : C s p th (.copy writable))
    (hrun : binderThreadRead s p th size consumed writable = .ok s') :
    Parts L C s (readLog s p th size consumed writable) s' := by
  have hretry : ∀ {ptr out}, readRetry s p th size ptr out writable = .ok s' →
      Parts L C s (retryLog s p th size ptr writable) s' := by
    intro ptr out hrun
    have hthr := hrun
    simp only [readRetry, except_bind_eq_ok, deref_eq_ok] at hthr
    obtain ⟨thr, hthr, -⟩ := hthr
    exact .single (.retry hthr (hth.2 thr hthr) ⟨s, hC⟩ hrun)
  unfold binderThreadRead at hrun
  unfold readLog
  split at hrun
  · rename_i hzero
    rw [if_neg (by simpa using hzero)]
    split at hrun
    · rename_i hw
      rw [if_pos hw]
      exact hretry hrun
    · rename_i hw
      rw [if_neg hw]
      exact .single (.ioctlReturn hrun)
  · rename_i hzero
    rw [if_pos hzero]
    exact hretry hrun

theorem binderIoctl_parts (hs : Coherent L none s) (hth : s.ThreadOf th p) {op : IoctlOp}
    (hok : IoctlOk C L p th s op) (hrun : binderIoctl L s p th op = .ok s') :
    Parts L C s (ioctlLog L s p th op) s' := by
  cases op with
  | writeRead cmds n m w =>
      simp only [binderIoctl, ioctlWriteRead, except_bind_eq_ok] at hrun
      obtain ⟨⟨ok, s₁⟩, hwrite, hrun⟩ := hrun
      obtain ⟨hcmds, hcopy⟩ := hok
      simp only [hwrite] at hcopy
      have h₁ := binderThreadWrite_parts hs hth hcmds hwrite
      simp only [ioctlLog, hwrite]
      cases ok with
      | false =>
          simp only [Bool.false_and, Bool.false_eq_true, ↓reduceIte] at hrun
          exact h₁.tail (.ioctlReturn hrun)
      | true =>
          simp only [Bool.true_and, decide_eq_true_eq] at hrun
          split at hrun
          · rename_i hsize
            simp only [if_pos hsize]
            exact h₁.trans (binderThreadRead_parts (h₁.threadOf hs hth) hcopy hrun)
          · rename_i hsize
            simp only [if_neg hsize]
            exact h₁.tail (.ioctlReturn hrun)
  | setMaxThreads n =>
      simp only [binderIoctl, except_bind_eq_ok, deref_eq_ok] at hrun
      obtain ⟨pr, hpr, hrun⟩ := hrun
      exact .head (.setProc hpr _) (.single (.ioctlReturn hrun))
  | setContextMgr euid security alloc =>
      simp only [binderIoctl, except_bind_eq_ok] at hrun
      obtain ⟨s₁, hctx, hrun⟩ := hrun
      simp only [ioctlLog, hctx]
      simpa using Parts.head (.setContextMgr hctx) (.single (.ioctlReturn hrun))
  | threadExit =>
      have hthr := hrun
      simp only [binderIoctl, binderFreeThread, except_bind_eq_ok, deref_eq_ok] at hthr
      obtain ⟨thr, hthr, -⟩ := hthr
      exact .single (.freeThread hthr (hth.2 thr hthr) hok hrun)

theorem deferredFunc_flush_parts {pr : Proc} (hpr : s.procs p = some pr) {pr' : Proc}
    {ths : List ThreadId}
    (hrun : deferredFlush
      (if pr.deferredPutFiles then
        { s.setProc p pr' with files := Function.update (s.setProc p pr').files p none }
      else s.setProc p pr') ths = .ok s') : Parts L C s [] s' := by
  have h₀ : Part L C s [] (s.setProc p pr') := .setProc hpr _
  refine .head h₀ ?_
  split at hrun
  · exact .head (.setFiles _) (deferredFlush_parts hrun)
  · exact deferredFlush_parts hrun

theorem binderDeferredFunc_parts {pr : Proc} (hpr : s.procs p = some pr)
    (hrun : binderDeferredFunc L s p pr = .ok s') :
    Parts L C s (if pr.deferredRelease then [.released p] else []) s' := by
  simp only [binderDeferredFunc, except_bind_eq_ok] at hrun
  obtain ⟨s₁, hflush, hrun⟩ := hrun
  have h₁ : Parts L C s [] s₁ := deferredFunc_flush_parts hpr hflush
  split at hrun
  · rename_i hrel
    rw [if_pos hrel]
    exact h₁.tail (.release hrun)
  · rename_i hrel
    rw [if_neg hrel]
    simp only [except_pure_eq_ok] at hrun
    exact hrun ▸ h₁

theorem step_parts (hs : Coherent L none s) {a : Act} (hok : ActOk C L s a)
    (hrun : step L s a = .ok s') : Parts L C s (observe L s a) s' := by
  cases a with
  | «open» pid =>
      simp only [step, Except.ok.injEq] at hrun
      exact hrun ▸ .single (.open pid)
  | mmap p base size off env files =>
      simp only [step] at hrun
      split at hrun
      · rename_i hposs
        exact .single (.mmap hposs.1 hposs.2 hrun)
      · cases hrun
        exact .refl
  | ioctl p pid alloc op =>
      simp only [step] at hrun
      split at hrun
      · rename_i hopen
        cases hrun
        have hclosed : s.isOpen p = false := by simpa using hopen
        simp only [observe, hclosed, Bool.false_eq_true, ↓reduceIte]
        exact .refl
      · rename_i hopen
        have hopen' : s.isOpen p = true := by simpa using hopen
        simp only [observe, hopen', ↓reduceIte]
        cases hget : binderGetThread s p pid alloc with
        | mk x s₁ =>
            have h₁ : Part L C s [] s₁ := .getThread hopen' hget
            cases x with
            | none =>
                simp only [hget] at hrun
                cases hrun
                exact .single h₁
            | some th =>
                simp only [hget] at hrun
                have hth := binderGetThread_threadOf hs hget
                split at hrun
                · rename_i hread
                  cases hrun
                  simp only [if_pos hread]
                  exact .single h₁
                · rename_i hread
                  simp only [if_neg hread]
                  have hop := hok hopen'
                  simp only [hget] at hop
                  exact .first h₁ (binderIoctl_parts (h₁.coherent hs) hth
                    (hop (by simpa using hread)) hrun)
  | resume th interrupted writable =>
      simp only [step] at hrun
      cases hthr : s.threads th with
      | none =>
          simp only [hthr] at hrun
          cases hrun
          simp only [observe, resumeLog, hthr]
          exact .refl
      | some thr =>
          simp only [hthr] at hrun
          simp only [ActOk, hthr] at hok
          exact readResume_parts hs hthr hok hrun
  | poll p pid alloc =>
      simp only [step] at hrun
      split at hrun
      · cases hrun
        exact .refl
      · rename_i hopen
        split at hrun
        · cases hrun
        · rename_i hget
          cases hrun
          exact .single (.getThread (by simpa using hopen) hget)
  | setFile p fd file =>
      simp only [step] at hrun
      split at hrun
      · cases hrun
        exact .refl
      · cases hrun
        exact .single (.setFiles _)
  | vmaClose p =>
      simp only [step] at hrun
      split at hrun
      · cases hrun
        exact .refl
      · rename_i pr hpr
        split at hrun
        · cases hrun
          exact .refl
        · cases hrun
          have h₁ : Part L C s [] (s.setArea p { s.area p with vma := false }) := .vmaClose p
          have hpr₁ : (s.setArea p { s.area p with vma := false }).procs p = some pr := hpr
          exact .head h₁ (.single (.setProc hpr₁ _))
  | flush p =>
      simp only [step] at hrun
      split at hrun
      · cases hrun
        exact .refl
      · rename_i pr hpr
        cases hrun
        exact .single (.setProc hpr _)
  | release p =>
      simp only [step] at hrun
      split at hrun
      · cases hrun
        exact .refl
      · rename_i pr hpr
        split at hrun
        · cases hrun
          exact .refl
        · cases hrun
          exact .single (.setProc hpr _)
  | deferred p =>
      simp only [step] at hrun
      split at hrun
      · rename_i hpr
        cases hrun
        simp only [observe, hpr]
        exact .refl
      · rename_i pr hpr
        simp only [observe, hpr, Option.any_some]
        exact binderDeferredFunc_parts hpr hrun

/-- What every part keeps in a coherent state holds in every state reached. -/
theorem invariant_of_parts {I : State → Prop} (hreach : Reach (step L) (ActOk C L) State.init s)
    (hinit : I State.init)
    (hpart : ∀ s o s', Coherent L none s → I s → Part L C s o s' → I s') :
    Coherent L none s ∧ I s := by
  refine hreach.invariant (I := fun s => Coherent L none s ∧ I s) ⟨coherent_init L, hinit⟩ ?_
  rintro s₁ a s₂ ⟨hs₁, hinv⟩ hok hstep
  have hparts := step_parts hs₁ hok hstep
  refine ⟨hparts.coherent hs₁, ?_⟩
  exact hparts.invariant (I := fun _ s => I s) (g := []) hinv fun hparts hinv hp =>
    hpart _ _ _ (hparts.coherent hs₁) hinv hp

/-- What every part keeps of a state and of what was observed before it, from a point of
the run on. -/
theorem logged_invariant_from {I : List Obs → State → Prop} {s₀ : State} {h₀ : List Obs}
    (hreach : Reach (loggedStep L) (fun x a => ActOk C L x.1 a) (s₀, h₀) (s, h))
    (hs₀ : Coherent L none s₀) (hinit : I h₀ s₀)
    (hpart : ∀ h s o s', Coherent L none s → I h s → Part L C s o s' → I (h ++ o) s') :
    Coherent L none s ∧ I h s := by
  refine hreach.invariant (I := fun x => Coherent L none x.1 ∧ I x.2 x.1) ⟨hs₀, hinit⟩ ?_
  rintro ⟨s₁, h₁⟩ a ⟨s₂, h₂⟩ ⟨hs₁, hinv⟩ hok hstep
  simp only [loggedStep] at hstep
  cases hrun : step L s₁ a with
  | error e => simp [hrun, Except.map] at hstep
  | ok s₂' =>
      simp only [hrun, Except.map, Except.ok.injEq, Prod.mk.injEq] at hstep
      obtain ⟨rfl, rfl⟩ := hstep
      have hparts := step_parts hs₁ hok hrun
      refine ⟨hparts.coherent hs₁, ?_⟩
      exact hparts.invariant hinv fun hparts hinv hp =>
        hpart _ _ _ _ (hparts.coherent hs₁) hinv hp

theorem logged_invariant {I : List Obs → State → Prop}
    (hreach : Reach (loggedStep L) (fun x a => ActOk C L x.1 a) (State.init, []) (s, h))
    (hinit : I [] State.init)
    (hpart : ∀ h s o s', Coherent L none s → I h s → Part L C s o s' → I (h ++ o) s') :
    Coherent L none s ∧ I h s :=
  logged_invariant_from hreach (coherent_init L) hinit hpart

end Parts

end Driver

end BinderForLinux
