import BinderForLinux.Driver.Async.Runs
import BinderForLinux.Driver.Books.Runs
import BinderForLinux.Driver.Deaths.Steps
import BinderForLinux.Driver.Faults.Steps

/-!
# Assertions that hold

The assertions of `binder_thread_write` and of `binder_node_release` do not fail in
any run: a freed one-way buffer has the turn at its node, a notification that its
reference still holds is of the type that is asserted, and a node that dies finds the
notifications of its references off all lists.
-/

namespace BinderForLinux

namespace Driver

open Library

section Asserts

variable {L : Layout} {C : Condition} {d : Option ProcId} {s s' : State} {h : List Obs} {p : ProcId}
  {th : ThreadId} {e : DeathId} {de : Death} {r : RefId} {rf : Ref} {a : Act}

/-! ### Commands -/

theorem Deaths.workType (hok : Deaths C d h s) (hrf : s.refs r = some rf) (hd : rf.death = some e)
    (hde : s.deaths e = some de) : de.workType = .deadBinder := by
  obtain ⟨g, st, -, -, hfits, -, -⟩ := (hok e).of_some hde
  exact (hfits.holds hrf hd).2

theorem TakesTurns.flag_of_freed (ht : TakesTurns C none h s) {x : ProcId × ℕ} {b : Buffer}
    {n : NodeId} {nd : Node} (hb : s.live x = some b) (huser : b.allowUserFree = true)
    (hasync : b.asyncTransaction = true) (hnode : b.targetNode = some n)
    (hnd : s.nodes n = some nd) : nd.hasAsyncTransaction = true := by
  have hnone : b.transaction = none := by
    cases hbt : b.transaction with
    | none => rfl
    | some t =>
        have := (ht.buffer hb hasync hnode hbt).2
        rw [huser] at this
        cases this
  exact ht.turn_flag (k := .held x) ⟨b, hb, hasync, hnode, hnone, by simp⟩ hnd

theorem execCommand_asserts (ht : TakesTurns C none h s) (hok : Deaths C none h s) {c : Command} :
    execCommand L s p th c ≠ .error (.bug .threadWrite) := by
  intro hrun
  rcases execCommand_threadWrite hrun with ⟨a, b, n, nd, hb, huser, hasync, hnode, hnd, hflag⟩ |
    ⟨r, rf, e, de, hrf, hd, hde, -, hty⟩
  · rw [ht.flag_of_freed hb huser hasync hnode hnd] at hflag
    cases hflag
  · exact hty (hok.workType hrf hd hde)

theorem binderFreeThread_asserts {b : BugSite} (hb : b ∉ .freeThread :: stackSites) :
    binderFreeThread s p th ≠ .error (.bug b) :=
  Throws.not_bug (binderFreeThread_throws (List.subset_cons_self ..) List.mem_cons_self p th) hb

/-! ### Nodes that die -/

theorem notifyDeath_nodeRelease {rs : List RefId}
    (hrun : notifyDeath s rs = .error (.bug .nodeRelease)) (hnodup : rs.Nodup)
    (hone : ∀ e, s.HeldOnce e) :
    ∃ r rf e de, r ∈ rs ∧ s.refs r = some rf ∧ rf.death = some e ∧ s.deaths e = some de ∧
      de.entry ≠ none := by
  induction rs generalizing s with
  | nil => cases hrun
  | cons r rs ih =>
      obtain ⟨hr, hnodup⟩ := List.nodup_cons.mp hnodup
      rw [notifyDeath, except_bind_eq_error] at hrun
      rcases hrun with hrun | ⟨rf, hrf, hrun⟩
      · exact absurd hrun deref_ne_bug
      · rw [deref_eq_ok] at hrf
        split at hrun
        · obtain ⟨r', rf', e, de, hmem, hrest⟩ := ih hrun hnodup hone
          exact ⟨r', rf', e, de, List.mem_cons_of_mem _ hmem, hrest⟩
        · rename_i e₀ hd₀
          rw [except_bind_eq_error] at hrun
          rcases hrun with hrun | ⟨de₀, hde₀, hrun⟩
          · exact absurd hrun deref_ne_bug
          · rw [deref_eq_ok] at hde₀
            rw [except_bind_eq_error] at hrun
            rcases hrun with hrun | ⟨_, -, hrun⟩
            · rw [bugOn_eq_error] at hrun
              refine ⟨r, rf, e₀, de₀, List.mem_cons_self, hrf, hd₀, hde₀, ?_⟩
              simpa [Option.isSome_iff_ne_none] using hrun.1
            · obtain ⟨r', rf', e, de, hmem, hrf', hd', hde, hentry⟩ := ih hrun hnodup hone
              refine ⟨r', rf', e, de, List.mem_cons_of_mem _ hmem, hrf', hd', ?_, hentry⟩
              have hne : e ≠ e₀ := by
                rintro rfl
                have hrr : r = r' := hone e r r' rf rf' hrf hrf' hd₀ hd'
                exact hr (hrr ▸ hmem)
              exact (Function.update_of_ne hne ..).symm.trans hde

theorem Deaths.heldOnce (hok : Deaths C d h s) (e : DeathId) : s.HeldOnce e := by
  cases hok e with
  | unborn _ habs => exact Unheld.heldOnce habs.unheld
  | freed _ habs => exact Unheld.heldOnce habs.unheld
  | live _ _ _ _ _ hone => exact hone

theorem Deaths.entry_of_alive (hok : Deaths C d h s) {nd : Node} (hrf : s.refs r = some rf)
    (hd : rf.death = some e) (hde : s.deaths e = some de) (hnd : s.nodes rf.node = some nd)
    (halive : nd.proc ≠ none) : de.entry = none := by
  obtain ⟨g, st, hreg, -, hfits, -, hone⟩ := (hok e).of_some hde
  have hdead : s.Holds g e → ¬ s.NodeDead g.node := by
    intro hh hdead
    rw [← (Holds.proc hh hrf hd hone).2] at hdead
    exact halive (hdead nd hnd)
  cases hfits with
  | idle _ _ hentry => exact hentry
  | lost _ _ hentry => exact hentry
  | acked _ _ hentry => exact hentry
  | queued hh _ _ _ hnode => exact absurd hnode (hdead hh)
  | delivered hh => exact absurd (hreg.dead hreg.life.mem_of_delivered) (hdead hh)
  | cleared hfree => exact absurd hd (hfree r rf hrf)
  | clearedQueued hfree => exact absurd hd (hfree r rf hrf)
  | owed hfree => exact absurd hd (hfree r rf hrf)
  | settled hfree => exact absurd hd (hfree r rf hrf)

theorem binderNodeRelease_asserts (hs : Coherent L (some p) s) (hlinked : Linked s)
    (hok : Deaths C (some p) h s) {n : NodeId} (hn : n ∈ s.nodesOf p) :
    binderNodeRelease { s with
      nodesOf := Function.update s.nodesOf p ((s.nodesOf p).filter (· ≠ n)) } n ≠
        .error (.bug .nodeRelease) := by
  intro hrun
  rw [binderNodeRelease, except_bind_eq_error] at hrun
  rcases hrun with hrun | ⟨nd, hnd, hrun⟩
  · exact absurd hrun deref_ne_bug
  · rw [deref_eq_ok] at hnd
    rw [except_bind_eq_error] at hrun
    rcases hrun with hrun | ⟨s₂, hrel, hrun⟩
    · exact absurd hrun (Throws.not_bug (binderReleaseWork_throws (fun _ h => h) _) (by decide))
    · obtain ⟨hsteps, -, nd', hnd', hproc, hsame, hrefs⟩ :=
        binderNodeRelease_emptied (C := C) hs hlinked hn hnd hrel
      have hok₂ := (hsteps.keeps (L := L) deaths_steady hlinked hok).2
      rw [List.append_nil] at hok₂
      rw [except_bind_eq_error] at hrun
      rcases hrun with hrun | ⟨nd₂, hnd₂, hrun⟩
      · exact absurd hrun deref_ne_bug
      · obtain rfl : nd₂ = nd' := by
          rw [deref_eq_ok] at hnd₂
          exact Option.some.inj (hnd₂.symm.trans hnd')
        split at hrun
        · cases hrun
        · have hnodup : nd₂.refs.Nodup := hsame ▸ hs.tables.nodup hnd
          obtain ⟨r, rf, e, de, hmem, hrf, hd, hde, hentry⟩ :=
            notifyDeath_nodeRelease hrun hnodup hok₂.heldOnce
          have hnode : rf.node = n := (hrefs r rf hrf).mpr hmem
          exact hentry (hok₂.entry_of_alive hrf hd hde (hnode ▸ hnd') (by simp [hproc]))

theorem releaseNodes_asserts {ns : List NodeId} (hs : Coherent L (some p) s) (hlinked : Linked s)
    (hok : Deaths C (some p) h s) (hnodup : ns.Nodup) (hns : ∀ n, n ∈ s.nodesOf p ↔ n ∈ ns) :
    releaseNodes p s ns ≠ .error (.bug .nodeRelease) := by
  induction ns generalizing s with
  | nil => simp [releaseNodes]
  | cons n ns ih =>
      intro hrun
      have hn : n ∈ s.nodesOf p := (hns n).mpr List.mem_cons_self
      rw [releaseNodes, except_bind_eq_error] at hrun
      rcases hrun with hrun | ⟨s₁, hrel, hrun⟩
      · exact binderNodeRelease_asserts hs hlinked hok hn hrun
      · obtain ⟨hdep, hnodesOf⟩ := binderNodeRelease_departs hs hn hrel
        have hsteps := binderNodeRelease_steps (C := C) hs hlinked hn hrel
        obtain ⟨hlinked₁, hok₁⟩ := hsteps.keeps (L := L) deaths_steady hlinked hok
        rw [List.append_nil] at hok₁
        obtain ⟨hnot, hnodup⟩ := List.nodup_cons.mp hnodup
        refine ih (hdep.coherent hs) hlinked₁ hok₁ hnodup (fun m => ?_) hrun
        rw [hnodesOf, Function.update_self]
        exact mem_filter_cons hns hnot m

theorem binderDeferredRelease_asserts (hs : Coherent L none s) (hlinked : Linked s)
    (hok : Deaths C none h s) : binderDeferredRelease L s p ≠ .error (.bug .nodeRelease) := by
  intro hrun
  obtain ⟨bs, hsite, hfree, hstack, halloc, hnot⟩ : ∃ bs : List BugSite, .deferredRelease ∈ bs ∧
      .freeThread ∈ bs ∧ stackSites ⊆ bs ∧ allocSites ⊆ bs ∧ .nodeRelease ∉ bs :=
    ⟨[.deferredRelease, .freeThread] ++ stackSites ++ allocSites, by decide, by decide, by decide,
      by decide, by decide⟩
  have hother : ∀ {α} {x : Except Fault α}, Throws (Only bs) x → x ≠ .error (.bug .nodeRelease) :=
    fun h => Throws.not_bug h hnot
  rw [binderDeferredRelease, except_bind_eq_error] at hrun
  rcases hrun with hrun | ⟨_, -, hrun⟩
  · exact hother (by simp [hsite]) hrun
  rw [except_bind_eq_error] at hrun
  rcases hrun with hrun | ⟨_, -, hrun⟩
  · exact hother (by simp [hsite]) hrun
  rw [except_bind_eq_error] at hrun
  rcases hrun with hrun | ⟨s₁, hctx, hrun⟩
  · exact hother dropContextMgr_throws hrun
  rw [except_bind_eq_error] at hrun
  rcases hrun with hrun | ⟨s₂, hthreads, hrun⟩
  · exact hother (freeThreads_throws hstack hfree _) hrun
  -- the state in which the nodes are released
  have d₁ := dropContextMgr_departs hs.exempt hctx
  have hs₁ := d₁.coherent hs.exempt
  have hs₂ := (d₁.trans (Walk.departs (freeThreads_walk hs₁ hthreads))).coherent hs.exempt
  have h₁ : WorkSteps C (some p) s [] s₁ := Calm.steps (dropContextMgr_calm hctx)
  have h₂ := h₁.after (freeThreads_steps (h₁.linked hlinked)
    (fun th hth thr hthr => (hs₁.threadsOf hth).2 thr hthr) hthreads)
  obtain ⟨hlinked₂, hok₂⟩ := h₂.keeps (L := L) deaths_steady hlinked fun e => (hok e).exempt p
  rw [List.append_nil] at hok₂
  rw [except_bind_eq_error] at hrun
  rcases hrun with hrun | ⟨s₃, -, hrun⟩
  · exact releaseNodes_asserts hs₂ hlinked₂ hok₂ (hs₂.tables.nodesOf_nodup p)
      (fun _ => Iff.rfl) hrun
  · refine hother ?_ hrun
    simp [deleteRefs_throws, binderReleaseWork_throws hstack, freeBuffers_throws halloc]

/-! ### Whole runs -/

/-- The assertions of `binder_thread_write` never fail. -/
theorem threadWrite_asserts
    (hreach : Reach (loggedStep L) (fun x a => ActOk C L x.1 a) (State.init, []) (s, h))
    (hact : ActOk C L s a) : step L s a ≠ .error (.bug .threadWrite) := by
  intro hrun
  obtain ⟨hs, hlinked, ht⟩ := work_invariant takesTurns_steady takesTurns_init hreach
  obtain ⟨-, -, hok⟩ := work_invariant deaths_steady deaths_init hreach
  obtain ⟨o, s₁, hparts, hfail⟩ := step_failing hs hact (by decide) hrun
  obtain ⟨-, -, ht₁⟩ := hparts.keeps takesTurns_steady hs hlinked ht
  obtain ⟨-, -, hok₁⟩ := hparts.keeps deaths_steady hs hlinked hok
  cases hfail with
  | command _ _ _ _ hrun => exact execCommand_asserts ht₁ hok₁ hrun
  | freeThread _ _ _ hrun =>
      exact binderFreeThread_asserts (by decide) hrun
  | release hrun =>
      exact Throws.not_bug (binderDeferredRelease_throws (fun _ h => h)) (by decide) hrun

/-- Where offsets name disjoint objects, the node of a buffer that is freed is there, so that
`BC_FREE_BUFFER` asserts something of a node that is not freed. -/
theorem threadWriteFreed_asserts (hC : ∀ {s p th c}, C s p th (.command c) → c.disjoint)
    (hreach : Reach (loggedStep L) (fun x a => ActOk C L x.1 a) (State.init, []) (s, h))
    (hact : ActOk C L s a) : step L s a ≠ .error (.bug .threadWriteFreed) := by
  intro hrun
  obtain ⟨hs, hb⟩ := logged_invariant (I := fun _ s => Books none s.claimCount s) hreach books_init
    fun _ _ _ _ hs hb hpart => hpart.books hC hs hb
  obtain ⟨o, s₁, hparts, hfail⟩ := step_failing hs hact (by decide) hrun
  have hs₁ := hparts.coherent hs
  have hb₁ : Books none s₁.claimCount s₁ :=
    hparts.invariant (I := fun _ s => Books none s.claimCount s) (g := []) hb
      fun hparts hb hpart => hpart.books hC (hparts.coherent hs) hb
  cases hfail with
  | command _ _ _ _ hrun =>
      obtain ⟨a, buf, n, hlive, hnode, hnone⟩ := execCommand_threadWriteFreed hrun
      have hbuf := hasBuffer_of_deref (live_eq_some.mp hlive)
      obtain ⟨nd, hnd, -⟩ := (hb₁.accounted hs₁).target hbuf.1 hnode
      rw [hnone] at hnd
      cases hnd
  | freeThread _ _ _ hrun => exact binderFreeThread_asserts (by decide) hrun
  | release hrun =>
      exact Throws.not_bug (binderDeferredRelease_throws (fun _ h => h)) (by decide) hrun

/-- The assertion of `binder_node_release` never fails. -/
theorem nodeRelease_asserts
    (hreach : Reach (loggedStep L) (fun x a => ActOk C L x.1 a) (State.init, []) (s, h))
    (hact : ActOk C L s a) : step L s a ≠ .error (.bug .nodeRelease) := by
  intro hrun
  obtain ⟨hs, hlinked, hok⟩ := work_invariant deaths_steady deaths_init hreach
  obtain ⟨o, s₁, hparts, hfail⟩ := step_failing hs hact (by decide) hrun
  obtain ⟨hs₁, hlinked₁, hok₁⟩ := hparts.keeps deaths_steady hs hlinked hok
  cases hfail with
  | command _ _ _ _ hrun =>
      exact Throws.not_bug (execCommand_throws_any (fun _ h => h) _) (by decide) hrun
  | freeThread _ _ _ hrun =>
      exact binderFreeThread_asserts (by decide) hrun
  | release hrun => exact binderDeferredRelease_asserts hs₁ hlinked₁ hok₁ hrun

end Asserts

end Driver

end BinderForLinux
