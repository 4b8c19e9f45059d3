import BinderForLinux.Driver.Changes.Parts
import BinderForLinux.Driver.Faults
import BinderForLinux.Driver.Live

/-!
# Where the assertions of a step fail

An assertion that fails in a step, other than those of the allocator, of references
and of reads, fails in a command, in the exit of a thread or in the release of a
process, in a state that parts of the step lead to.
-/

namespace BinderForLinux

namespace Driver

open Library

section Steps

variable {L : Layout} {C : Condition} {s s' : State} {p : ProcId} {th : ThreadId} {e : Fault}
  {b : BugSite}

/-- The pieces of code that fail an assertion. -/
inductive Failing (L : Layout) (C : Condition) (s : State) (e : Fault) : Prop
  | command {p : ProcId} {th : ThreadId} {thr : Thread} {c : Command}
      (hthr : s.threads th = some thr) (hproc : thr.proc = p) (herr : thr.returnError = .ok)
      (hC : C s p th (.command c)) (hrun : execCommand L s p th c = .error e) : Failing L C s e
  | freeThread {p : ProcId} {th : ThreadId} {thr : Thread} (hthr : s.threads th = some thr)
      (hproc : thr.proc = p) (hC : C s p th .exit) (hrun : binderFreeThread s p th = .error e) :
      Failing L C s e
  | release {p : ProcId} (hrun : binderDeferredRelease L s p = .error e) : Failing L C s e

theorem Throws.not_bug {α : Type} {bs : List BugSite} {x : Except Fault α}
    (h : Throws (Only bs) x) (hb : b ∉ bs) : x ≠ .error (.bug b) := fun hx => hb (h _ hx)

theorem Throws.no_bug {α : Type} {x : Except Fault α} (h : Throws (Only []) x) :
    x ≠ .error (.bug b) := Throws.not_bug h List.not_mem_nil

theorem except_bind_eq_error {α β : Type} {x : Except Fault α} {f : α → Except Fault β} :
    (x >>= f) = .error e ↔ x = .error e ∨ ∃ a, x = .ok a ∧ f a = .error e := by
  cases x with
  | ok a => simp [bind, Except.bind]
  | error e => simp [bind, Except.bind]

theorem deref_ne_bug {α : Type} {heap : ℕ → Option α} {i : ℕ} :
    deref heap i ≠ .error (.bug b) :=
  Throws.no_bug (deref_throws heap i)

theorem binderThreadWrite_failing (hs : Coherent L none s) (hth : s.ThreadOf th p)
    {cmds : List Command} (hok : WriteOk C L p th s cmds)
    (hrun : binderThreadWrite L p th s cmds = .error (.bug b)) :
    ∃ o s₁, Parts L C s o s₁ ∧ Failing L C s₁ (.bug b) := by
  induction cmds generalizing s with
  | nil => cases hrun
  | cons c cs ih =>
      rw [binderThreadWrite, except_bind_eq_error] at hrun
      rcases hrun with hrun | ⟨thr, hthr, hrun⟩
      · exact absurd hrun deref_ne_bug
      · rw [deref_eq_ok] at hthr
        split at hrun
        · cases hrun
        · rename_i herr
          split at hrun
          · cases hrun
          · rename_i hvalid
            have herr' : ((s.threads th).any fun thr => thr.returnError = .ok) = true := by
              simpa [hthr] using herr
            have hvalid' : c.isInvalid = false := by simpa using hvalid
            obtain ⟨hC, hrest⟩ := hok herr' hvalid'
            have hproc := hth.2 thr hthr
            rw [except_bind_eq_error] at hrun
            rcases hrun with hrun | ⟨s₁, hexec, hrun⟩
            · exact ⟨[], s, .refl, .command hthr hproc (by simpa using herr) hC hrun⟩
            · simp only [hexec] at hrest
              have hpart : Part L C s (commandLog s s₁ p th c) s₁ :=
                .command hthr hproc (by simpa using herr) hC hexec
              obtain ⟨o, s₂, hparts, hfail⟩ :=
                ih (hpart.coherent hs) (hpart.threadOf hs hth) hrest hrun
              exact ⟨_, s₂, .head hpart hparts, hfail⟩

theorem binderIoctl_failing (hs : Coherent L none s) (hth : s.ThreadOf th p) {op : IoctlOp}
    (hok : IoctlOk C L p th s op) (hrun : binderIoctl L s p th op = .error (.bug b)) :
    ∃ o s₁, Parts L C s o s₁ ∧ Failing L C s₁ (.bug b) := by
  have hreturn : ∀ {s : State}, ioctlReturn s th ≠ .error (.bug b) :=
    Throws.no_bug ioctlReturn_throws
  cases op with
  | writeRead cmds n m w =>
      rw [binderIoctl, ioctlWriteRead, except_bind_eq_error] at hrun
      rcases hrun with hrun | ⟨⟨ok, s₁⟩, hwrite, hrun⟩
      · exact binderThreadWrite_failing hs hth hok.1 hrun
      · dsimp only at hrun
        split at hrun
        · exact absurd hrun (Throws.no_bug (binderThreadRead_throws n m w))
        · exact absurd hrun hreturn
  | setMaxThreads n =>
      rw [binderIoctl, except_bind_eq_error] at hrun
      rcases hrun with hrun | ⟨pr, hpr, hrun⟩
      · exact absurd hrun deref_ne_bug
      · exact absurd hrun hreturn
  | setContextMgr euid security alloc =>
      rw [binderIoctl, except_bind_eq_error] at hrun
      rcases hrun with hrun | ⟨s₁, hctx, hrun⟩
      · exact absurd hrun (Throws.no_bug (setContextMgr_throws euid security alloc))
      · exact absurd hrun hreturn
  | threadExit =>
      have hrun : binderFreeThread s p th = .error (.bug b) := hrun
      have hthr : ∃ thr, s.threads th = some thr := by
        cases hthr : s.threads th with
        | some thr => exact ⟨thr, rfl⟩
        | none =>
            rw [binderFreeThread, except_bind_eq_error] at hrun
            rcases hrun with hrun | ⟨thr, hthr', -⟩
            · exact absurd hrun deref_ne_bug
            · rw [deref_eq_ok, hthr] at hthr'
              cases hthr'
      obtain ⟨thr, hthr⟩ := hthr
      exact ⟨[], s, .refl, .freeThread hthr (hth.2 thr hthr) hok hrun⟩

theorem step_failing (hs : Coherent L none s) {a : Act} (hok : ActOk C L s a)
    (hb : b ∉ BugSite.threadRead :: lowSites) (hrun : step L s a = .error (.bug b)) :
    ∃ o s₁, Parts L C s o s₁ ∧ Failing L C s₁ (.bug b) := by
  have hread : b ∉ [BugSite.threadRead] := fun h => hb (by simp_all)
  have halloc : b ∉ allocSites := fun h => hb (by simp [lowSites, h])
  cases a with
  | «open» pid => cases hrun
  | mmap p base size off env files =>
      simp only [step] at hrun
      split at hrun
      · exact absurd hrun (Throws.not_bug
          (mmapProc_throws (fun _ h => h) base size off env files) halloc)
      · cases hrun
  | ioctl p pid alloc op =>
      simp only [step] at hrun
      split at hrun
      · cases hrun
      · rename_i hopen
        have hopen' : s.isOpen p = true := by simpa using hopen
        cases hget : binderGetThread s p pid alloc with
        | mk x s₁ =>
            have h₁ : Part L C s [] s₁ := .getThread hopen' hget
            cases x with
            | none =>
                simp only [hget] at hrun
                cases hrun
            | some th =>
                simp only [hget] at hrun
                split at hrun
                · cases hrun
                · rename_i hread
                  have hop := hok hopen'
                  simp only [hget] at hop
                  obtain ⟨o, s₂, hparts, hfail⟩ := binderIoctl_failing (h₁.coherent hs)
                    (binderGetThread_threadOf hs hget) (hop (by simpa using hread)) hrun
                  exact ⟨o, s₂, .first h₁ hparts, hfail⟩
  | resume th interrupted writable =>
      simp only [step] at hrun
      split at hrun
      · cases hrun
      · exact absurd hrun
          (Throws.not_bug (readResume_throws (List.mem_singleton_self _) _ _) hread)
  | poll p pid alloc =>
      simp only [step] at hrun
      split at hrun
      · cases hrun
      · split at hrun <;> cases hrun
  | setFile p fd file =>
      simp only [step] at hrun
      split at hrun <;> cases hrun
  | vmaClose p =>
      simp only [step] at hrun
      split at hrun
      · cases hrun
      · split at hrun <;> cases hrun
  | flush p =>
      simp only [step] at hrun
      split at hrun <;> cases hrun
  | release p =>
      simp only [step] at hrun
      split at hrun
      · cases hrun
      · split at hrun <;> cases hrun
  | deferred p =>
      simp only [step] at hrun
      split at hrun
      · cases hrun
      · rename_i pr hpr
        rw [binderDeferredFunc, except_bind_eq_error] at hrun
        rcases hrun with hrun | ⟨s₁, hflush, hrun⟩
        · exact absurd hrun (Throws.no_bug (deferredFlush_throws _))
        · have h₀ : Part L C s [] (s.setProc p { pr with
              deferredPutFiles := false, deferredFlush := false, deferredRelease := false }) :=
            .setProc hpr _
          have h₁ : Parts L C s [] s₁ := by
            refine .head h₀ ?_
            split at hflush
            · exact .head (.setFiles _) (deferredFlush_parts hflush)
            · exact deferredFlush_parts hflush
          split at hrun
          · exact ⟨[], s₁, h₁, .release hrun⟩
          · cases hrun

/-! ### The assertions of commands -/

theorem bugOn_eq_error {site : BugSite} {c : Bool} :
    bugOn site c = .error e ↔ c = true ∧ e = .bug site := by
  unfold bugOn
  split
  · rename_i hc
    simp [hc, eq_comm]
  · rename_i hc
    simp [hc]

theorem derefAsserted_eq_error {α : Type} {site : BugSite} {heap : ℕ → Option α} {i : ℕ} :
    derefAsserted site heap i = .error e ↔ heap i = none ∧ e = .bug site := by
  unfold derefAsserted
  split
  · rename_i hsome
    simp [hsome]
  · rename_i hnone
    simp [hnone, eq_comm]

/-- The buffer is one-way and delivered, and the flag of its node is not set, or the node is
freed. -/
theorem freeBufferCommand_failing {dataPtr : ℕ} (halloc : b ∉ allocSites)
    (hrun : freeBufferCommand L s p th dataPtr = .error (.bug b)) :
    ∃ a buf n, s.live (p, a) = some buf ∧ buf.allowUserFree = true ∧
      buf.asyncTransaction = true ∧ buf.targetNode = some n ∧
      (b = .threadWrite ∧ (∃ nd, s.nodes n = some nd ∧ nd.hasAsyncTransaction = false) ∨
        b = .threadWriteFreed ∧ s.nodes n = none) := by
  have hother : ∀ {α} {x : Except Fault α}, Throws (Only allocSites) x →
      x ≠ .error (.bug b) := fun h => Throws.not_bug h halloc
  rw [freeBufferCommand, except_bind_eq_error] at hrun
  rcases hrun with hrun | ⟨x, hlookup, hrun⟩
  · exact absurd hrun (hother (binderBufferLookup_throws (fun _ h => h) dataPtr))
  · split at hrun
    · cases hrun
    · rename_i a
      rw [except_bind_eq_error] at hrun
      rcases hrun with hrun | ⟨buf, hbuf, hrun⟩
      · exact absurd hrun (hother (derefBuffer_throws _))
      · split at hrun
        · cases hrun
        · rename_i huser
          rw [except_bind_eq_error] at hrun
          rcases hrun with hrun | ⟨s₁, hdetach, hrun⟩
          · exact absurd hrun (hother (detachTransaction_throws _))
          · rw [except_bind_eq_error] at hrun
            rcases hrun with hrun | ⟨s₂, hadvance, hrun⟩
            · have hnodes : s₁.nodes = s.nodes := by
                unfold detachTransaction at hdetach
                split at hdetach
                · cases hdetach
                  rfl
                · simp only [except_bind_eq_ok, deref_eq_ok, except_pure_eq_ok] at hdetach
                  obtain ⟨tx, -, rfl⟩ := hdetach
                  rfl
              unfold advanceTarget at hrun
              split at hrun
              · rename_i n hasync hnode
                rw [advanceAsync, except_bind_eq_error] at hrun
                have huser' : buf.allowUserFree = true := by simpa using huser
                refine ⟨a, buf, n, live_eq_some.mpr hbuf, huser', hasync, hnode, ?_⟩
                rcases hrun with hrun | ⟨nd, hnd, hrun⟩
                · rw [derefAsserted_eq_error, hnodes] at hrun
                  exact .inr ⟨Fault.bug.inj hrun.2, hrun.1⟩
                · rw [derefAsserted_eq_ok, hnodes] at hnd
                  rw [except_bind_eq_error] at hrun
                  rcases hrun with hrun | ⟨_, -, hrun⟩
                  · rw [bugOn_eq_error] at hrun
                    exact .inl ⟨Fault.bug.inj hrun.2, nd, hnd, by simpa using hrun.1⟩
                  · split at hrun <;> cases hrun
              · cases hrun
            · rw [except_bind_eq_error] at hrun
              rcases hrun with hrun | ⟨s₃, hrelease, hrun⟩
              · exact absurd hrun (hother (binderTransactionBufferRelease_throws _ _))
              · rw [except_bind_eq_error] at hrun
                rcases hrun with hrun | ⟨ar, hfree, hrun⟩
                · exact absurd hrun (hother (binderFreeBuf_throws (fun _ h => h) a))
                · cases hrun

theorem clearDeathCommand_threadWrite {handle cookie : ℕ}
    (hrun : clearDeathCommand s p th handle cookie = .error (.bug .threadWrite)) :
    ∃ r rf d de, s.refs r = some rf ∧ rf.death = some d ∧ s.deaths d = some de ∧
      de.entry ≠ none ∧ de.workType ≠ .deadBinder := by
  unfold clearDeathCommand at hrun
  split at hrun
  · cases hrun
  · rename_i r hget
    rw [except_bind_eq_error] at hrun
    rcases hrun with hrun | ⟨rf, hrf, hrun⟩
    · exact absurd hrun deref_ne_bug
    · rw [except_bind_eq_error] at hrun
      rcases hrun with hrun | ⟨thr, hthr, hrun⟩
      · exact absurd hrun deref_ne_bug
      · split at hrun
        · cases hrun
        · rename_i d hdeath
          rw [except_bind_eq_error] at hrun
          rcases hrun with hrun | ⟨de, hde, hrun⟩
          · exact absurd hrun deref_ne_bug
          · split at hrun
            · cases hrun
            · split at hrun
              · cases hrun
              · rename_i hentry
                rw [except_bind_eq_error] at hrun
                rcases hrun with hrun | ⟨_, -, hrun⟩
                · rw [bugOn_eq_error] at hrun
                  refine ⟨r, rf, d, de, deref_eq_ok.mp hrf, hdeath, deref_eq_ok.mp hde, ?_, ?_⟩
                  · simpa [Option.isNone_iff_eq_none] using hentry
                  · simpa using hrun.1
                · cases hrun

theorem execCommand_threadWrite {c : Command}
    (hrun : execCommand L s p th c = .error (.bug .threadWrite)) :
    (∃ a b n nd, s.live (p, a) = some b ∧ b.allowUserFree = true ∧ b.asyncTransaction = true ∧
      b.targetNode = some n ∧ s.nodes n = some nd ∧ nd.hasAsyncTransaction = false) ∨
    ∃ r rf d de, s.refs r = some rf ∧ rf.death = some d ∧ s.deaths d = some de ∧
      de.entry ≠ none ∧ de.workType ≠ .deadBinder := by
  have hother : ∀ {α} {x : Except Fault α}, Throws (Only transactionSites) x →
      x ≠ .error (.bug .threadWrite) := fun h => Throws.not_bug h (by decide)
  cases hc : c.isPlain with
  | true => exact absurd hrun (hother (execCommand_throws (by decide) hc))
  | false =>
      cases c with
      | freeBuffer dataPtr =>
          obtain ⟨a, buf, n, hlive, huser, hasync, hnode, ⟨-, nd, hnd, hflag⟩ | ⟨hsite, -⟩⟩ :=
            freeBufferCommand_failing (by decide) hrun
          · exact .inl ⟨a, buf, n, nd, hlive, huser, hasync, hnode, hnd, hflag⟩
          · cases hsite
      | clearDeathNotification handle cookie => exact .inr (clearDeathCommand_threadWrite hrun)
      | transaction tr env =>
          exact absurd hrun (hother (binderTransaction_throws (fun _ h => h) tr _ env))
      | reply tr env =>
          exact absurd hrun (hother (binderTransaction_throws (fun _ h => h) tr _ env))
      | _ => cases hc

theorem clearDeathCommand_throws (handle cookie : ℕ) :
    Throws (Only [.threadWrite]) (clearDeathCommand s p th handle cookie) := by
  unfold clearDeathCommand
  split
  · simp
  · simp only [throws_bind, deref_throws, true_and]
    intro rf _ thr _
    split <;> simp

theorem execCommand_threadWriteFreed {c : Command}
    (hrun : execCommand L s p th c = .error (.bug .threadWriteFreed)) :
    ∃ a buf n, s.live (p, a) = some buf ∧ buf.targetNode = some n ∧ s.nodes n = none := by
  have hother : ∀ {α} {x : Except Fault α}, Throws (Only (.threadWrite :: transactionSites)) x →
      x ≠ .error (.bug .threadWriteFreed) := fun h => Throws.not_bug h (by decide)
  cases hc : c.isPlain with
  | true => exact absurd hrun (hother (execCommand_throws (by decide) hc))
  | false =>
      have htransaction : transactionSites ⊆ .threadWrite :: transactionSites :=
        List.subset_cons_self ..
      cases c with
      | freeBuffer dataPtr =>
          obtain ⟨a, buf, n, hlive, -, -, hnode, ⟨hsite, -⟩ | ⟨-, hnone⟩⟩ :=
            freeBufferCommand_failing (by decide) hrun
          · cases hsite
          · exact ⟨a, buf, n, hlive, hnode, hnone⟩
      | clearDeathNotification handle cookie =>
          exact absurd hrun (Throws.not_bug (clearDeathCommand_throws handle cookie) (by decide))
      | transaction tr env =>
          exact absurd hrun (hother (binderTransaction_throws htransaction tr _ env))
      | reply tr env =>
          exact absurd hrun (hother (binderTransaction_throws htransaction tr _ env))
      | _ => cases hc

end Steps

end Driver

end BinderForLinux
