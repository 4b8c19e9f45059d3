import Mathlib.Algebra.Order.BigOperators.Group.List
import BinderForLinux.Driver.Books
import BinderForLinux.Driver.Flags

/-!
# Every count has its reason

In every run whose offsets name disjoint objects, the counts that a node keeps for
its owner are those that the buffers of the owner, the notification it has not
acknowledged and the context manager call for; and no node is freed that one of
these, or a reference, still names.
-/

namespace BinderForLinux

namespace Driver

open Library

/-- The number of buffers of `p` that are addressed to the node `n`. -/
def State.targetCount (s : State) (p : ProcId) (n : NodeId) : ℕ :=
  (liveBuffers (s.area p).buffers).countP fun b => b.targetNode = some n

/-- The object at `off` is a binder of the given strength. -/
def Buffer.hasBinder (b : Buffer) (ptr : ℕ) (strong : Bool) (off : ℕ) : Bool :=
  validOffset b.dataSize off && Data.type b.data off = some (.binder strong) &&
    Data.binder b.data off = ptr

/-- The number of binder objects with the pointer `ptr` in the buffers of `p`. -/
def State.binderCount (s : State) (p : ProcId) (ptr : ℕ) (strong : Bool) : ℕ :=
  ((liveBuffers (s.area p).buffers).map fun b => b.offsets.countP (b.hasBinder ptr strong)).sum

/-- The counts of all nodes with an owner are accounted for, and nothing that a
buffer or a reference names is gone. -/
structure Accounted (s : State) : Prop where
  strong : ∀ {n nd p}, s.nodes n = some nd → nd.proc = some p →
    nd.localStrongRefs = s.targetCount p n + s.binderCount p nd.ptr true +
      (if nd.pendingStrongRef then 1 else 0) + (if s.contextMgrNode = some n then 1 else 0)
  weak : ∀ {n nd p}, s.nodes n = some nd → nd.proc = some p →
    nd.localWeakRefs = s.binderCount p nd.ptr false +
      (if nd.pendingWeakRef then 1 else 0) + (if s.contextMgrNode = some n then 1 else 0)
  target : ∀ {p b n}, s.HasBuffer p b → b.targetNode = some n →
    ∃ nd, s.nodes n = some nd ∧ nd.proc = some p
  binder : ∀ {p b ptr strong off}, s.HasBuffer p b → off ∈ b.offsets →
    b.hasBinder ptr strong off = true →
      ∃ n nd, s.nodes n = some nd ∧ nd.proc = some p ∧ nd.ptr = ptr
  ref : ∀ {r rf}, s.refs r = some rf → ∃ nd, s.nodes rf.node = some nd

/-- The offsets of all transactions name disjoint objects. -/
def disjointly : Condition := fun _ _ _ r =>
  match r with
  | .command c => c.disjoint
  | _ => True

section Runs

variable {L : Layout} {C : Condition} {s s' : State} {o : List Obs} {p : ProcId} {n : NodeId}

theorem Part.books (hC : ∀ {s p th c}, C s p th (.command c) → c.disjoint) (hs : Coherent L none s)
    (hb : Books none s.claimCount s) (hpart : Part L C s o s') : Books none s'.claimCount s' := by
  rcases hpart.internal_or hs with hw | ⟨p, th, thr, c, hthr, rfl, -, hc, hrun, -⟩ | ⟨p, hrun, -⟩
  · exact hw.books hs Event.internal.stays trivial hb
  · exact (execCommand_walk hs (by simp) (queueOwner_thread hthr) hrun).books hs
      Event.serves.stays (hC hc) hb
  · obtain ⟨hdep, -, hgone⟩ := binderDeferredRelease_departs hs hrun
    exact (hdep.books hs.exempt hb.exempted).gone hgone

/-! ### The claims in the buffers, counted -/

theorem claimCount_target (s : State) (p : ProcId) (n : NodeId) :
    s.claimCount (.target p n) = s.targetCount p n := by
  simp only [State.claimCount, State.claims, State.contents, State.targetCount, Claim.proc]
  induction liveBuffers (s.area p).buffers with
  | nil => rfl
  | cons b bs ih =>
      have hobjects : (objectClaims p b.dataSize b.data b.offsets).count (.target p n) = 0 := by
        refine List.count_eq_zero.mpr fun hmem => ?_
        obtain ⟨off, -, hoff⟩ := List.mem_filterMap.mp hmem
        unfold objectClaim at hoff
        split at hoff
        · cases hoff
        · split at hoff <;> cases hoff
      have htarget : (targetClaim p b.targetNode).count (.target p n) =
          if b.targetNode = some n then 1 else 0 := by
        cases b.targetNode with
        | none => simp [targetClaim]
        | some m => by_cases hm : m = n <;> simp [targetClaim, hm]
      simp only [List.map_cons, List.flatMap_cons, contentClaims, Buffer.content, bufferClaims,
        List.count_append, hobjects, htarget, List.countP_cons] at ih ⊢
      push_cast at ih ⊢
      rw [ih]
      simp only [decide_eq_true_eq, add_zero]
      ring

theorem count_objectClaims (p : ProcId) (b : Buffer) (ptr : ℕ) (strong : Bool) :
    (objectClaims p b.dataSize b.data b.offsets).count (.object p ptr strong) =
      b.offsets.countP (b.hasBinder ptr strong) := by
  unfold objectClaims
  induction b.offsets with
  | nil => rfl
  | cons off offs ih =>
      rw [List.countP_cons, List.filterMap_cons]
      by_cases hb : b.hasBinder ptr strong off = true
      · have hclaim : objectClaim p b.dataSize b.data off = some (.object p ptr strong) := by
          simp only [Buffer.hasBinder, Bool.and_eq_true, decide_eq_true_eq] at hb
          obtain ⟨⟨hvalid, hty⟩, hptr⟩ := hb
          simp [objectClaim, hvalid, hty, hptr]
        rw [hclaim, if_pos hb]
        simp [ih]
      · rw [if_neg hb, add_zero, ← ih]
        cases hclaim : objectClaim p b.dataSize b.data off with
        | none => rfl
        | some c =>
            refine List.count_cons_of_ne fun hc => hb ?_
            rw [hc] at hclaim
            unfold objectClaim at hclaim
            split at hclaim
            · cases hclaim
            · rename_i hvalid
              split at hclaim
              · rename_i st hty
                simp only [Option.some.injEq, Claim.object.injEq, true_and] at hclaim
                obtain ⟨hptr, rfl⟩ := hclaim
                simp only [Buffer.hasBinder, hty, hptr, decide_true, Bool.and_true]
                simpa using hvalid
              · cases hclaim
              · cases hclaim

theorem claimCount_object (s : State) (p : ProcId) (ptr : ℕ) (strong : Bool) :
    s.claimCount (.object p ptr strong) = s.binderCount p ptr strong := by
  simp only [State.claimCount, State.claims, State.contents, State.binderCount, Claim.proc]
  induction liveBuffers (s.area p).buffers with
  | nil => rfl
  | cons b bs ih =>
      have htarget : (targetClaim p b.targetNode).count (.object p ptr strong) = 0 := by
        cases b.targetNode with
        | none => rfl
        | some m => simp [targetClaim]
      simp only [List.map_cons, List.flatMap_cons, contentClaims, Buffer.content, bufferClaims,
        List.count_append, htarget, count_objectClaims, List.sum_cons] at ih ⊢
      push_cast at ih ⊢
      rw [ih]
      ring

theorem hasBuffer_iff {b : Buffer} : s.HasBuffer p b ↔ b ∈ liveBuffers (s.area p).buffers := by
  simp [State.HasBuffer, liveBuffers]

theorem Books.accounted (hs : Coherent L none s) (hb : Books none s.claimCount s) :
    Accounted s := by
  constructor
  case strong =>
    intro n nd p hnd hproc
    have := hb.count hnd hproc (by simp) true
    simpa [Node.localRefs, booked, claimCount_target, claimCount_object, Node.pending] using this
  case weak =>
    intro n nd p hnd hproc
    have := hb.count hnd hproc (by simp) false
    simpa [Node.localRefs, booked, claimCount_object, Node.pending] using this
  case target =>
    intro p b n hbuf hn
    refine hb.target ?_ (by simp)
    rw [claimCount_target]
    exact_mod_cast List.countP_pos_iff.mpr ⟨b, hasBuffer_iff.mp hbuf, by simpa using hn⟩
  case binder =>
    intro p b ptr strong off hbuf hoff hobj
    have hcount : 0 < s.claimCount (.object p ptr strong) → _ := fun h => hb.object h (by simp)
    refine hcount ?_
    rw [claimCount_object]
    have hpos : 0 < b.offsets.countP (b.hasBinder ptr strong) :=
      List.countP_pos_iff.mpr ⟨off, hoff, hobj⟩
    have hmem : b.offsets.countP (b.hasBinder ptr strong) ∈
        (liveBuffers (s.area p).buffers).map fun b => b.offsets.countP (b.hasBinder ptr strong) :=
      List.mem_map.mpr ⟨b, hasBuffer_iff.mp hbuf, rfl⟩
    exact_mod_cast hpos.trans_le (List.le_sum_of_mem hmem)
  case ref => exact hs.tables.ref_node

/-! ### Pending notifications -/

/-- The node `n` of `p` waits for an acknowledgement. -/
def Awaits (s : State) (p : ProcId) (n : NodeId) (ptr cookie : ℕ) (strong : Bool) : Prop :=
  ∃ nd, s.nodes n = some nd ∧ nd.proc = some p ∧ nd.ptr = ptr ∧ nd.cookie = cookie ∧
    nd.pending strong = true

variable {ptr cookie : ℕ} {strong : Bool} {d : Option ProcId}

theorem Awaits.flags (h : Awaits s p n ptr cookie strong) (hd : some p ≠ d)
    (hhas : ∀ nd, s.nodes n = some nd → nd.pending strong = true → nd.hasRef strong = true)
    (hkept : FlagsKept d s s') : Awaits s' p n ptr cookie strong := by
  obtain ⟨nd, hnd, hproc, hptr, hcookie, hpend⟩ := h
  have hknown := known_of_node hnd hproc
  rcases hkept n with heq | ⟨hun, -⟩
  · rw [hknown] at heq
    obtain ⟨nd', hnd', hproc', hflags⟩ := known_eq_some.mp heq
    simp only [Node.flags, Prod.mk.injEq] at hflags
    obtain ⟨⟨hptr', hcookie'⟩, ⟨-, hps⟩, -, hpw⟩ := hflags
    refine ⟨nd', hnd', hproc', hptr'.trans hptr, hcookie'.trans hcookie, ?_⟩
    rw [← hpend]
    simp [Node.pending, hps, hpw]
  · exfalso
    rcases hun _ hknown with hp | ⟨hs, hw⟩
    · exact hd hp
    · have := hhas nd hnd hpend
      cases strong
      · exact absurd this (by simpa [Node.hasRef, Node.flags] using hw)
      · exact absurd this (by simpa [Node.hasRef, Node.flags] using hs)

theorem Awaits.tell (h : Awaits s p n ptr cookie strong) {m : NodeId} {md md' : Node}
    {cmd : ReturnCommand} (hmd : s.nodes m = some md) (hcmd : nodeCommand md = some (cmd, md')) :
    Awaits (s.setNode m md') p n ptr cookie strong := by
  obtain ⟨nd, hnd, hproc, hptr, hcookie, hpend⟩ := h
  by_cases hmn : n = m
  · subst hmn
    obtain rfl : nd = md := by simpa [hnd] using hmd
    refine ⟨md', Function.update_self .., ?_⟩
    rcases nodeCommand_cases hcmd with ⟨-, rfl⟩ | ⟨-, rfl⟩ | ⟨-, -, rfl⟩ | ⟨-, -, -, -, rfl⟩
    · refine ⟨hproc, hptr, hcookie, ?_⟩
      cases strong
      · rfl
      · exact hpend
    · refine ⟨hproc, hptr, hcookie, ?_⟩
      cases strong
      · exact hpend
      · rfl
    · exact ⟨hproc, hptr, hcookie, hpend⟩
    · exact ⟨hproc, hptr, hcookie, hpend⟩
  · exact ⟨nd, (Function.update_of_ne hmn ..).trans hnd, hproc, hptr, hcookie, hpend⟩

/-- A notification is pending until it is acknowledged or its owner goes away. -/
theorem Awaits.step (h : Awaits s p n ptr cookie strong) (hs : Coherent L none s)
    (hb : Books none s.claimCount s) {K : (ℕ → Bool) → Prop} (hstep : FlagStep K s o s') :
    Awaits s' p n ptr cookie strong ∨ .released p ∈ o ∨
      ∃ th, .wrote p th (doneOf ptr cookie strong) ∈ o := by
  have hhas : ∀ nd, s.nodes n = some nd → nd.pending strong = true → nd.hasRef strong = true := by
    intro nd' hnd' hpend'
    obtain ⟨nd, hnd, hproc, -⟩ := h
    obtain rfl : nd = nd' := by simpa [hnd] using hnd'
    exact hb.pending hnd hproc (by simp) strong hpend'
  cases hstep with
  | kept hkept ho => exact .inl (h.flags (by simp) hhas hkept)
  | tell th hmd hproc hcmd => exact .inl (h.tell hmd hcmd)
  | lost hmd hproc hcmd hK hw => exact .inl (h.tell hmd hcmd)
  | @ack m md q st o s' th hmd hq hpending hkept ho =>
      by_cases hsame : m = n ∧ st = strong
      · obtain ⟨rfl, rfl⟩ := hsame
        obtain ⟨nd, hnd, hproc, rfl, rfl, hpend⟩ := h
        obtain rfl : nd = md := by simpa [hnd] using hmd
        obtain rfl : p = q := by simpa [hproc] using hq
        exact .inr (.inr ⟨th, List.mem_cons_self⟩)
      · left
        have hclear : Awaits (s.setNode m (md.clearPending st)) p n ptr cookie strong ∧
            ∀ nd, (s.setNode m (md.clearPending st)).nodes n = some nd →
              nd.pending strong = true → nd.hasRef strong = true := by
          obtain ⟨nd, hnd, hproc, hptr, hcookie, hpend⟩ := h
          by_cases hmn : n = m
          · subst hmn
            obtain rfl : nd = md := by simpa [hnd] using hmd
            have hst : st ≠ strong := fun hst => hsame ⟨rfl, hst⟩
            refine ⟨⟨nd.clearPending st, Function.update_self .., ?_⟩, fun nd' hnd' hpend' => ?_⟩
            · cases st <;> cases strong <;>
                first | exact ⟨hproc, hptr, hcookie, hpend⟩ | exact absurd rfl hst
            · obtain rfl : nd.clearPending st = nd' := by simpa [State.setNode] using hnd'
              have := hhas nd hnd hpend
              cases st <;> cases strong <;> exact this
          · have hsame' : (s.setNode m (md.clearPending st)).nodes n = s.nodes n :=
              Function.update_of_ne hmn ..
            rw [hsame']
            exact ⟨⟨nd, hsame'.trans hnd, hproc, hptr, hcookie, hpend⟩, hhas⟩
        exact hclear.1.flags (by simp) hclear.2 hkept
  | ignored th hnone ho => exact .inl h
  | manage uid hget =>
      left
      obtain ⟨nd, hnd, hrest⟩ := h
      have hlt := (hs.tables.node_lt hnd).ne
      refine ⟨nd, ?_, hrest⟩
      simp [withManager, addNode, State.setNode, hlt, hnd]
  | @release q s' hkept hgone =>
      by_cases hq : q = p
      · subst hq
        exact .inr (.inl List.mem_cons_self)
      · exact .inl (h.flags (by simpa using Ne.symm hq) hhas hkept)

theorem books_of_reach (h : Reach (step L) (ActOk disjointly L) State.init s) :
    Coherent L none s ∧ Books none s.claimCount s :=
  invariant_of_parts (I := fun s => Books none s.claimCount s) h books_init
    fun _ _ _ hs hb hpart => hpart.books id hs hb

/-- The counts of nodes are accounted for in every state, and a step frees no node
that a buffer, a reference or a pending notification names. -/
theorem accounted_of_reach (h : Reach (step L) (ActOk disjointly L) State.init s) :
    Accounted s ∧ ∀ a s', ActOk disjointly L s a → step L s a = .ok s' →
      ∀ n nd p, s.nodes n = some nd → nd.proc = some p → s'.nodes n = none →
        .released p ∉ observe L s a →
        (∀ q b, s'.HasBuffer q b → b.targetNode ≠ some n) ∧
        (∀ r rf, s'.refs r = some rf → rf.node ≠ n) ∧
        ∀ strong, nd.pending strong = true →
          ∃ th, .wrote p th (doneOf nd.ptr nd.cookie strong) ∈ observe L s a := by
  obtain ⟨hs, hb⟩ := books_of_reach h
  refine ⟨hb.accounted hs, fun a s' hok hstep n nd p hnd hproc hnone hrel => ?_⟩
  obtain ⟨hs', hb'⟩ := books_of_reach (h.tail hok hstep)
  have hacc := hb'.accounted hs'
  refine ⟨fun q b hbuf hn => ?_, fun r rf hrf hn => ?_, fun strong hpend => ?_⟩
  · obtain ⟨nd', hnd', -⟩ := hacc.target hbuf hn
    simp [hnone] at hnd'
  · obtain ⟨nd', hnd'⟩ := hacc.ref hrf
    simp [hn, hnone] at hnd'
  · have hparts := step_parts hs hok hstep
    have hinv : Books none s'.claimCount s' ∧ (Awaits s' p n nd.ptr nd.cookie strong ∨
        .released p ∈ [] ++ observe L s a ∨
          ∃ th, .wrote p th (doneOf nd.ptr nd.cookie strong) ∈ [] ++ observe L s a) := by
      refine hparts.invariant (I := fun h s => Books none s.claimCount s ∧
        (Awaits s p n nd.ptr nd.cookie strong ∨ .released p ∈ h ∨
          ∃ th, .wrote p th (doneOf nd.ptr nd.cookie strong) ∈ h))
        ⟨hb, .inl ⟨nd, hnd, hproc, rfl, rfl, hpend⟩⟩ ?_
      rintro h₁ s₁ o s₂ hparts₁ ⟨hb₁, hpend₁⟩ hpart
      have hs₁ := hparts₁.coherent hs
      refine ⟨hpart.books id hs₁ hb₁, ?_⟩
      rcases hpend₁ with hwait | hrel | ⟨th, hdone⟩
      · rcases hwait.step hs₁ hb₁ (hpart.flags hs₁) with hwait | hrel | ⟨th, hdone⟩
        · exact .inl hwait
        · exact .inr (.inl (List.mem_append_right _ hrel))
        · exact .inr (.inr ⟨th, List.mem_append_right _ hdone⟩)
      · exact .inr (.inl (List.mem_append_left _ hrel))
      · exact .inr (.inr ⟨th, List.mem_append_left _ hdone⟩)
    rcases hinv.2 with ⟨nd', hnd', -⟩ | hmem | hmem
    · simp [hnone] at hnd'
    · exact absurd hmem hrel
    · exact hmem

end Runs

instance decidableDisjoint : DecidablePred Command.disjoint := fun c => by
  unfold Command.disjoint DisjointObjects ObjectsApart
  cases c <;> infer_instance

instance decidableDisjointly (s : State) (p : ProcId) (th : ThreadId) (r : Request) :
    Decidable (disjointly s p th r) := by
  unfold disjointly
  cases r <;> infer_instance

/-- Process 1 sends a binder object to the context manager. -/
def binderSent : List Act :=
  twoProcesses ++ [.write 1 20 [.transaction
    (.plain 0 1 (Data.object (.binder true) 16 32) [0]) TxnEnv.granted]]

theorem accounted_binderSent : ∃ s,
    runChecked (step Layout.x86) (ActOk disjointly Layout.x86) State.init binderSent = some s ∧
      (s.nodes 3).map Node.localStrongRefs = some 2 ∧ Accounted s := by
  have hrun : ∃ s, runChecked (step Layout.x86) (ActOk disjointly Layout.x86) State.init
      binderSent = some s ∧ (s.nodes 3).map Node.localStrongRefs = some 2 :=
    Option.map_eq_some_iff.mp (show (runChecked (step Layout.x86) (ActOk disjointly Layout.x86)
      State.init binderSent).map (fun s => (s.nodes 3).map Node.localStrongRefs) =
        some (some 2) by decide +kernel)
  obtain ⟨s, hs, hcount⟩ := hrun
  exact ⟨s, hs, hcount, (accounted_of_reach (reach_of_runChecked hs)).1⟩

end Driver

end BinderForLinux
