import BinderForLinux.Driver.Changes.Parts

/-!
# The tables of references over whole runs

The three places a reference is kept in, the trees `refs_by_desc` and
`refs_by_node` of its process and the list `refs` of its node, agree in every
state that the driver reaches.
-/

namespace BinderForLinux

namespace Driver

open Library

/-- What the reference tables of all processes and the nodes say of each other. -/
structure TablesAgree (s : State) : Prop where
  same : ∀ p r, r ∈ s.refsByDesc p ↔ r ∈ s.refsByNode p
  entered : ∀ p r, r ∈ s.refsByDesc p ↔ ∃ rf, s.refs r = some rf ∧ rf.proc = p
  desc_unique : ∀ p r r' rf rf', r ∈ s.refsByDesc p → r' ∈ s.refsByDesc p →
    s.refs r = some rf → s.refs r' = some rf' → rf.desc = rf'.desc → r = r'
  node_unique : ∀ p r r' rf rf', r ∈ s.refsByDesc p → r' ∈ s.refsByDesc p →
    s.refs r = some rf → s.refs r' = some rf' → rf.node = rf'.node → r = r'
  node_live : ∀ r rf, s.refs r = some rf → ∃ nd, s.nodes rf.node = some nd
  node_refs : ∀ n nd, s.nodes n = some nd → nd.refs.Nodup ∧
    ∀ r, r ∈ nd.refs ↔ ∃ p rf, r ∈ s.refsByDesc p ∧ s.refs r = some rf ∧ rf.node = n
  strong : ∀ n nd, s.nodes n = some nd → nd.internalStrongRefs =
    (nd.refs.filter fun r => (s.refs r).any fun rf => decide (0 < rf.strong)).length
  dead : ∀ n, n ∈ s.deadNodes ↔ ∃ nd, s.nodes n = some nd ∧ nd.proc = none
  dead_refs : ∀ n nd, n ∈ s.deadNodes → s.nodes n = some nd → nd.refs ≠ []

section Tables

variable {L : Layout} {s : State}

theorem RefTables.agree (h : RefTables s) : TablesAgree s where
  same := fun p r => (h.byDesc p r).trans (h.byNode p r).symm
  entered := h.byDesc
  desc_unique := by
    intro p r r' rf rf' hr hr' hrf hrf' hdesc
    obtain ⟨rf₁, hrf₁, hp⟩ := (h.byDesc p r).mp hr
    obtain ⟨rf₂, hrf₂, hp'⟩ := (h.byDesc p r').mp hr'
    obtain rfl : rf = rf₁ := by simpa [hrf] using hrf₁
    obtain rfl : rf' = rf₂ := by simpa [hrf'] using hrf₂
    exact h.desc_inj hrf hrf' (hp.trans hp'.symm) hdesc
  node_unique := by
    intro p r r' rf rf' hr hr' hrf hrf' hnode
    obtain ⟨rf₁, hrf₁, hp⟩ := (h.byDesc p r).mp hr
    obtain ⟨rf₂, hrf₂, hp'⟩ := (h.byDesc p r').mp hr'
    obtain rfl : rf = rf₁ := by simpa [hrf] using hrf₁
    obtain rfl : rf' = rf₂ := by simpa [hrf'] using hrf₂
    exact h.node_inj hrf hrf' (hp.trans hp'.symm) hnode
  node_live := fun r rf hrf => h.ref_node hrf
  node_refs := by
    refine fun n nd hnd => ⟨h.nodup hnd, fun r => (h.mem_refs hnd r).trans ?_⟩
    constructor
    · rintro ⟨rf, hrf, hn⟩
      exact ⟨rf.proc, rf, (h.byDesc _ r).mpr ⟨rf, hrf, rfl⟩, hrf, hn⟩
    · rintro ⟨p, rf, -, hrf, hn⟩
      exact ⟨rf, hrf, hn⟩
  strong := by
    intro n nd hnd
    rw [h.strong hnd, List.countP_eq_length_filter]
    congr 2
    refine List.filter_congr fun r _ => ?_
    simp [State.holdsStrong, Nat.pos_iff_ne_zero]
  dead := h.dead
  dead_refs := by
    intro n nd hn hnd
    obtain ⟨nd', hnd', hproc⟩ := (h.dead n).mp hn
    obtain rfl : nd = nd' := by simpa [hnd] using hnd'
    exact (h.dead_refs hnd hproc).1

theorem Reach.unconditioned (h : Reach (step L) (fun _ _ => True) State.init s) :
    Reach (step L) (ActOk (fun _ _ _ _ => True) L) State.init s :=
  h.mono fun s a _ => actOk_of_forall (fun _ _ _ _ => trivial) L s a

/-- The tables agree in every state that is reached. -/
theorem tablesAgree_of_reach (h : Reach (step L) (fun _ _ => True) State.init s) :
    TablesAgree s :=
  (invariant_of_parts (I := fun _ => True) (Reach.unconditioned h) trivial
    fun _ _ _ _ _ _ => trivial).1.tables.agree

end Tables

/-- Process 0 becomes the context manager and process 1 gets a strong reference to
it; then process 0 goes away. -/
def managerDies : List Act :=
  [.open 100, .open 200, .ioctl 0 10 true (.setContextMgr 0 true true),
    .ioctl 1 20 true (.writeRead [.acquire 0 true] 0 0 fun _ => true), .release 0, .deferred 0]

def managerDead : State :=
  match runActions (step Layout.x86) State.init managerDies with
  | .ok s => s
  | .error _ => State.init

theorem tablesAgree_managerDead :
    managerDead.deadNodes = [3] ∧ managerDead.refsByDesc 1 = [5] ∧ TablesAgree managerDead :=
  ⟨by decide, by decide,
    tablesAgree_of_reach (reach_of_runActions (show runActions (step Layout.x86) State.init
      managerDies = .ok managerDead from rfl))⟩

end Driver

end BinderForLinux
