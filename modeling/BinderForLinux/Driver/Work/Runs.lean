import BinderForLinux.Driver.Work.Release

/-!
# Work over whole runs

Every part of a step is a sequence of steps of work, so that what the steps of work
keep holds along every run. While a process is taken apart an invariant may exempt
what belongs to it.
-/

namespace BinderForLinux

namespace Driver

open Library

section Runs

variable {L : Layout} {C : Condition} {d : Option ProcId} {s s' : State} {h o : List Obs}

theorem binderGetThread_steps (hs : Coherent L none s) {p pid : ℕ} {alloc : Bool}
    {x : Option ThreadId} (hrun : binderGetThread s p pid alloc = (x, s')) :
    WorkSteps C none s [] s' := by
  unfold binderGetThread at hrun
  split at hrun
  · cases hrun
    exact WorkSteps.refl s
  · split at hrun
    · cases hrun
      exact WorkSteps.refl s
    · cases hrun
      have h : WorkStep C none s [] ({ s with nextId := s.nextId + 1 }.setThread s.nextId
          { proc := p, pid := pid
            looper := { registered := false, entered := false, exited := false, invalid := false,
                        waiting := false, needReturn := true }
            transactionStack := none, returnError := .ok, returnError2 := .ok, read := none
            readBuffer := [] }) := by
        refine .threadNew rfl rfl rfl rfl ?_
        cases hthr : s.threads s.nextId with
        | none => rfl
        | some thr => exact absurd (hs.threads_lt hthr) (lt_irrefl _)
      exact h.steps.after (Calm.steps (calm_setThreadsOf _ _))

theorem mem_retryLog {p : ProcId} {th : ThreadId} {size ptr : ℕ} {writable : ℕ → Bool} {x : Obs}
    (hx : x ∈ retryLog s p th size ptr writable) :
    ∃ e, x = .delivered p th none (.errorCode e) := by
  unfold retryLog at hx
  split at hx
  · cases hx
  · split at hx
    · split at hx
      · rcases List.mem_cons.mp hx with rfl | hx
        · exact ⟨_, rfl⟩
        · split at hx
          · cases hx
          · exact ⟨_, List.mem_singleton.mp hx⟩
      · exact ⟨_, List.mem_singleton.mp hx⟩
    · cases hx

theorem Part.steps (hs : Coherent L none s) (hlinked : Linked s) (hpart : Part L C s o s') :
    WorkSteps C none s o s' ∨
      ∃ p, o = [.released p] ∧ Gone p s' ∧ WorkSteps C (some p) s [] s' := by
  cases hpart with
  | «open» pid =>
      have h : Calm s (binderOpen s pid) := .single (.fields (Nat.le_succ _) rfl (live_congr rfl))
      exact .inl (Calm.steps h)
  | mmap hp hposs hrun => exact .inl (Calm.steps (mmapProc_calm hs hposs hrun))
  | getThread hp hrun => exact .inl (binderGetThread_steps hs hrun)
  | command hthr hproc herr hC hrun => exact .inl (execCommand_steps hs hlinked hthr hproc hC hrun)
  | retry hthr hproc hC hrun =>
      refine .inl (Calm.observed (readRetry_calm hrun) fun x hx => ?_)
      obtain ⟨e, rfl⟩ := mem_retryLog hx
      rfl
  | wakeUp hthr hproc hread hpr => exact .inl (Calm.steps (wakeUp_calm hthr))
  | item hthr hproc hnext hC hrun => exact .inl (readItem_steps hs hlinked hthr hproc hnext hrun)
  | itemFault hthr hproc hnext hC hrun =>
      exact .inl (readItem_steps hs hlinked hthr hproc hnext hrun)
  | readDone hthr hproc hrun => exact .inl (Calm.steps (readDone_calm hrun))
  | ioctlReturn hrun => exact .inl (Calm.steps (ioctlReturn_calm hrun))
  | setProc hpr pr' => exact .inl (Calm.steps (calm_setProc _ _))
  | setContextMgr hrun =>
      refine .inl (Calm.observed (setContextMgr_calm hrun) fun x hx => ?_)
      split at hx
      · cases hx
      · rw [List.mem_singleton.mp hx]
        rfl
  | freeThread hthr hproc hC hrun =>
      exact .inl (binderFreeThread_steps hlinked
        (fun w hw => .exit hC hw (Earlier.refl s)) (by simp) hrun).1
  | setFiles files => exact .inl (Calm.steps (.single (.fields le_rfl rfl (live_congr rfl))))
  | vmaClose p => exact .inl (Calm.steps (vmaClose_calm p))
  | setLooper hthr looper => exact .inl (Calm.steps (calm_setThread hthr rfl))
  | @release p _ hrun =>
      exact .inr ⟨p, rfl, (binderDeferredRelease_departs hs hrun).2.2,
        binderDeferredRelease_steps hs hlinked hrun⟩

/-- What the steps of work keep of a state and of all that was observed before it. -/
structure Steady (L : Layout) (C : Condition) (I : Option ProcId → List Obs → State → Prop) :
    Prop where
  step : ∀ {d h s o s'}, Linked s → I d h s → WorkStep C d s o s' → I d (h ++ o) s'
  exempt : ∀ {p h s}, I none h s → I (some p) h s
  gone : ∀ {p h s}, Coherent L none s → Gone p s → I (some p) h s → I none (h ++ [.released p]) s

variable {I : Option ProcId → List Obs → State → Prop}

theorem WorkSteps.keeps (hI : Steady L C I) (hsteps : WorkSteps C d s o s') (hlinked : Linked s)
    (hinv : I d h s) : Linked s' ∧ I d (h ++ o) s' := by
  obtain ⟨es, hes, rfl⟩ := hsteps
  have hfold : ∀ (es : List (List Obs)) (h : List Obs),
      es.foldl (fun h e => h ++ e) h = h ++ es.flatten := by
    intro es
    induction es with
    | nil => simp
    | cons e es ih => simp [ih]
  rw [← hfold]
  exact hes.fold (P := fun h s => Linked s ∧ I d h s) ⟨hlinked, hinv⟩
    fun _ _ _ _ _ hi hstep => ⟨hstep.linked hi.1, hI.step hi.1 hi.2 hstep⟩

theorem Part.keeps (hI : Steady L C I) (hs : Coherent L none s) (hlinked : Linked s)
    (hinv : I none h s) (hpart : Part L C s o s') : Linked s' ∧ I none (h ++ o) s' := by
  rcases hpart.steps hs hlinked with hsteps | ⟨p, rfl, hgone, hsteps⟩
  · exact hsteps.keeps hI hlinked hinv
  · obtain ⟨hlinked', hinv'⟩ := hsteps.keeps hI hlinked (hI.exempt hinv)
    rw [List.append_nil] at hinv'
    exact ⟨hlinked', hI.gone (hpart.coherent hs) hgone hinv'⟩

theorem Parts.keeps (hI : Steady L C I) (hparts : Parts L C s o s') (hs : Coherent L none s)
    (hlinked : Linked s) (hinv : I none h s) :
    Coherent L none s' ∧ Linked s' ∧ I none (h ++ o) s' := by
  refine ⟨hparts.coherent hs, ?_⟩
  exact hparts.invariant (I := fun h s => Linked s ∧ I none h s) ⟨hlinked, hinv⟩
    fun hparts hinv hpart => hpart.keeps hI (hparts.coherent hs) hinv.1 hinv.2

/-- What the steps of work keep holds from a point of a run on. -/
theorem work_invariant_from (hI : Steady L C I) {s₀ : State} {h₀ : List Obs}
    (hreach : Reach (loggedStep L) (fun x a => ActOk C L x.1 a) (s₀, h₀) (s, h))
    (hs₀ : Coherent L none s₀) (hlinked₀ : Linked s₀) (hinit : I none h₀ s₀) :
    Coherent L none s ∧ Linked s ∧ I none h s :=
  logged_invariant_from hreach (I := fun h s => Linked s ∧ I none h s) hs₀ ⟨hlinked₀, hinit⟩
    fun _ _ _ _ hs hinv hpart => hpart.keeps hI hs hinv.1 hinv.2

/-- What the steps of work keep holds along every run. -/
theorem work_invariant (hI : Steady L C I) (hinit : I none [] State.init)
    (hreach : Reach (loggedStep L) (fun x a => ActOk C L x.1 a) (State.init, []) (s, h)) :
    Coherent L none s ∧ Linked s ∧ I none h s :=
  work_invariant_from hI hreach (coherent_init L) linked_init hinit

end Runs

end Driver

end BinderForLinux
