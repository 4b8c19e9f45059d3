import BinderForLinux.Driver.Refs.Runs

/-!
# Acquiring and releasing a handle

`BC_ACQUIRE` right before `BC_RELEASE` of the same handle, and `BC_INCREFS` right
before `BC_DECREFS`. The increment resolves handle 0 through the context manager,
the decrement through the table of the process: what is left behind is read off
which references the two find, and whether the node takes the first count.
-/

namespace BinderForLinux

namespace Driver

open Library

def takeOf (h : ℕ) (strong alloc : Bool) : Command :=
  if strong then .acquire h alloc else .increfs h alloc

def giveOf (h : ℕ) (strong : Bool) : Command :=
  if strong then .release h else .decrefs h

/-- The counters of a node and the references it lists. -/
def Node.tally (nd : Node) : (ℤ × ℤ × ℤ) × List RefId :=
  ((nd.internalStrongRefs, nd.localStrongRefs, nd.localWeakRefs), nd.refs)

/-- Every reference with its counts, where it is entered, and every count of every node are
as before. -/
structure SameCounts (s s' : State) : Prop where
  refs : s'.refs = s.refs
  refsByDesc : s'.refsByDesc = s.refsByDesc
  refsByNode : s'.refsByNode = s.refsByNode
  nodes : ∀ n, (s'.nodes n).map Node.tally = (s.nodes n).map Node.tally

/-- The node of the context manager, when an increment of the handle goes to it. -/
def managerOf (s : State) (h : ℕ) : Option NodeId := if h = 0 then s.contextMgrNode else none

def foundRef (s : State) (p : ProcId) (h : ℕ) : Option RefId :=
  match managerOf s h with
  | some n => findRefForNode s p n
  | none => binderGetRef s p h

/-- The node takes the first count of a reference, without a list to announce it on. -/
def TakesFirst (s : State) (n : NodeId) (nd : Node) : Bool → Prop
  | true => nd.internalStrongRefs ≠ 0 ∨ s.contextMgrNode = some n ∧ nd.hasStrongRef = true
  | false => nd.hasWeakRef = true ∨ nd.entry ≠ none

/-- An increment of the reference is not refused. -/
def Takes (s : State) (rf : Ref) (strong : Bool) : Prop :=
  rf.count strong ≠ 0 ∨ ∃ nd, s.nodes rf.node = some nd ∧ TakesFirst s rf.node nd strong

/-- When a decrement undoes the increment before it. An increment that is taken goes to a
reference that is counted already and that the decrement finds too; after one that is refused the
decrement finds nothing to count down; and a new reference to the context manager gets descriptor
0, takes its first count and goes again without its node. -/
def Cancels (s : State) (p : ProcId) (h : ℕ) (strong : Bool) : Prop :=
  match foundRef s p h with
  | some r => ∃ rf, s.refs r = some rf ∧
      (Takes s rf strong → binderGetRef s p h = some r ∧ (rf.strong ≠ 0 ∨ rf.weak ≠ 0)) ∧
      (¬ Takes s rf strong → ∀ r' rf', binderGetRef s p h = some r' → s.refs r' = some rf' →
        rf'.count strong = 0)
  | none => ∀ n, managerOf s h = some n → binderGetRef s p h = none ∧
      ∃ nd, s.nodes n = some nd ∧ TakesFirst s n nd strong ∧ ¬ nd.freeable false

section Cancel

variable {L : Layout} {s s' s₁ s₂ : State} {p : ProcId} {h : ℕ} {strong alloc ok : Bool}
  {r : RefId} {rf : Ref} {n : NodeId} {nd : Node}

theorem SameCounts.refl (s : State) : SameCounts s s := ⟨rfl, rfl, rfl, fun _ => rfl⟩

theorem setNode_self (hnd : s.nodes n = some nd) : s.setNode n nd = s := by
  have hsame : Function.update s.nodes n (some nd) = s.nodes :=
    Function.update_eq_self_iff.mpr hnd.symm
  rw [State.setNode, hsame]

@[simp] theorem Ref.inc_dec (rf : Ref) (strong : Bool) : (rf.inc strong).dec strong = rf := by
  cases strong <;> rfl

@[simp] theorem Ref.inc_node (rf : Ref) (strong : Bool) : (rf.inc strong).node = rf.node := by
  cases strong <;> rfl

@[simp] theorem Ref.inc_count (rf : Ref) (strong : Bool) :
    (rf.inc strong).count strong = rf.count strong + 1 := by
  cases strong <;> rfl

@[simp] theorem Node.inc_dec (nd : Node) (strong internal : Bool) :
    (nd.inc strong internal).dec strong internal = nd := by
  cases strong <;> cases internal <;> simp [Node.inc, Node.dec]

/-! ### The increment -/

/-- Without a list to announce it on, an increment of a node is taken and counted or leaves the
node as it is. -/
theorem incNode_none (hnd : s.nodes n = some nd) (strong : Bool) :
    (TakesFirst s n nd strong ∧
        incNode s n nd strong true none = (true, s.setNode n (nd.inc strong true))) ∨
      (¬ TakesFirst s n nd strong ∧ incNode s n nd strong true none = (false, s)) := by
  cases strong with
  | true =>
      by_cases htakes : TakesFirst s n nd true
      · refine .inl ⟨htakes, ?_⟩
        simp only [incNode, ↓reduceIte]
        rw [if_neg]
        rcases htakes with hcount | ⟨hctx, hhas⟩
        · simp [hcount]
        · simp [hctx, hhas]
      · refine .inr ⟨htakes, ?_⟩
        simp only [TakesFirst, not_or, not_not, not_and] at htakes
        simp only [incNode, ↓reduceIte]
        rw [if_pos]
        rw [Bool.and_eq_true, Bool.not_eq_true', Bool.and_eq_false_imp]
        exact ⟨by simp [htakes.1], by simpa using htakes.2⟩
  | false =>
      have hsame : s.setNode n (nd.inc false true) = s := setNode_self hnd
      by_cases htakes : TakesFirst s n nd false
      · refine .inl ⟨htakes, ?_⟩
        simp only [incNode, Bool.false_eq_true, ↓reduceIte]
        rw [if_neg]
        rcases htakes with hhas | hentry
        · simp [hhas]
        · simp [Option.isNone_iff_eq_none, hentry]
      · refine .inr ⟨htakes, ?_⟩
        simp only [TakesFirst, not_or, not_not, Bool.not_eq_true] at htakes
        simp only [incNode, Bool.false_eq_true, ↓reduceIte]
        rw [if_pos (by simp [htakes.1, htakes.2]), hsame]

/-- The node of a reference after an increment that is taken. -/
def Node.gained (nd : Node) (rf : Ref) (strong : Bool) : Node :=
  if rf.count strong = 0 then nd.inc strong true else nd

theorem RefTables.gained (ht : RefTables s) (hrf : s.refs r = some rf)
    (hnd : s.nodes rf.node = some nd) (strong : Bool) :
    RefTables ((s.setNode rf.node (nd.gained rf strong)).setRef r (rf.inc strong)) := by
  have hkept : NodeKept s (s.setNode rf.node (nd.gained rf strong)) rf.node nd
      (nd.gained rf strong) (fun _ => False) :=
    nodeKept_setNode (by unfold Node.gained; split <;> simp)
  refine ht.countRef hrf hnd hkept (by unfold Node.gained; split <;> simp) (by simp) ?_ fun hp => ?_
  · cases strong <;> simp [Node.gained, Ref.inc, Ref.count, Node.inc]
    split <;> simp
  · obtain ⟨-, hlocal⟩ := ht.dead_refs hnd hp
    unfold Node.gained
    split
    · cases strong <;> exact hlocal
    · exact hlocal

/-- An increment is counted on the reference and, the first time, on its node, or it changes
nothing. -/
theorem binderIncRef_none (hrf : s.refs r = some rf) (hnd : s.nodes rf.node = some nd)
    (hinc : binderIncRef s r strong none = .ok (ok, s')) :
    (Takes s rf strong ∧
        s' = (s.setNode rf.node (nd.gained rf strong)).setRef r (rf.inc strong)) ∨
      (¬ Takes s rf strong ∧ s' = s) := by
  have htakes : Takes s rf strong ↔ rf.count strong ≠ 0 ∨ TakesFirst s rf.node nd strong := by
    simp [Takes, hnd]
  simp only [binderIncRef, except_bind_eq_ok, deref_eq_ok, except_pure_eq_ok] at hinc
  obtain ⟨rf', hrf', ⟨ok', s₁⟩, hfirst, heq⟩ := hinc
  obtain rfl : rf = rf' := by simpa [hrf] using hrf'
  simp only [Prod.mk.injEq] at heq
  obtain ⟨rfl, rfl⟩ := heq
  rw [htakes, Node.gained]
  by_cases hcount : rf.count strong = 0
  · simp only [takeFirst, hcount, ↓reduceIte, binderIncNode, except_bind_eq_ok, deref_eq_ok,
      except_pure_eq_ok] at hfirst
    obtain ⟨nd', hnd', hfirst⟩ := hfirst
    obtain rfl : nd = nd' := by simpa [hnd] using hnd'
    rw [if_pos hcount]
    rcases incNode_none hnd strong with ⟨htaken, heq⟩ | ⟨hno, heq⟩
    · rw [heq, Prod.mk.injEq] at hfirst
      obtain ⟨rfl, rfl⟩ := hfirst
      exact .inl ⟨.inr htaken, rfl⟩
    · rw [heq, Prod.mk.injEq] at hfirst
      obtain ⟨rfl, rfl⟩ := hfirst
      exact .inr ⟨fun h => h.elim (fun h => h hcount) hno, rfl⟩
  · simp only [takeFirst, hcount, ↓reduceIte, Except.ok.injEq, Prod.mk.injEq] at hfirst
    obtain ⟨rfl, rfl⟩ := hfirst
    rw [if_neg hcount, setNode_self hnd]
    exact .inl ⟨.inl hcount, rfl⟩

/-! ### The decrement -/

/-- A decrement right after an increment that is taken brings both counts back; a reference without
counts is then deleted. -/
theorem binderDecRef_gained (ht : RefTables s₁)
    (hs₁ : s₁ = (s.setNode rf.node (nd.gained rf strong)).setRef r (rf.inc strong))
    (hrf : s.refs r = some rf) (hdec : binderDecRef s₁ r strong = .ok s₂) :
    ∃ e td s₃,
      s₃ = { s with
        nodes := Function.update s.nodes rf.node (some { nd with entry := e }), todo := td } ∧
      (((rf.strong ≠ 0 ∨ rf.weak ≠ 0) ∧ s₂ = s₃) ∨
        (rf.strong = 0 ∧ rf.weak = 0 ∧ binderDeleteRef s₃ r = .ok s₂)) := by
  have hrf₁ : s₁.refs r = some (rf.inc strong) := by simp [hs₁, State.setRef]
  have hnd₁ : s₁.nodes (rf.inc strong).node = some (nd.gained rf strong) := by
    simp [hs₁, State.setRef, State.setNode]
  rcases decRef_spec ht hdec hrf₁ hnd₁ with ⟨hzero, -⟩ | ⟨-, s₀, ⟨e, td, rfl, -, -⟩, hrest⟩
  · simp at hzero
  · have hback : (nd.gained rf strong).lost (rf.inc strong) strong = nd := by
      unfold Node.lost Node.gained
      cases strong with
      | true => by_cases hz : rf.strong = 0 <;> simp [Ref.inc, Ref.count, hz]
      | false => simp [Node.inc]
    have hsame : Function.update s.refs r (some rf) = s.refs :=
      Function.update_eq_self_iff.mpr hrf.symm
    refine ⟨e, td, _, rfl, ?_⟩
    rw [Ref.inc_dec, hback, hs₁] at hrest
    simpa [State.setRef, State.setNode, hsame] using hrest

theorem binderDeleteRef_refs (hdel : binderDeleteRef s r = .ok s') : s'.refs r = none := by
  obtain ⟨rf, nd, hrf, hnd, x, td, ns, dead, deaths, rfl, -⟩ := binderDeleteRef_eq hdel
  exact Function.update_self ..

theorem binderDeleteRef_refs_other {q : RefId} (hdel : binderDeleteRef s r = .ok s')
    (hne : q ≠ r) : s'.refs q = s.refs q := by
  obtain ⟨rf, nd, hrf, hnd, x, td, ns, dead, deaths, rfl, -⟩ := binderDeleteRef_eq hdel
  exact Function.update_of_ne hne ..

theorem binderDecRef_refs_other (ht : RefTables s) {q : RefId}
    (hdec : binderDecRef s r strong = .ok s') (hne : q ≠ r) : s'.refs q = s.refs q := by
  obtain ⟨rf, hrf, -⟩ := binderDecRef_eq hdec
  obtain ⟨nd, hnd⟩ := ht.ref_node hrf
  rcases decRef_spec ht hdec hrf hnd with ⟨-, rfl⟩ | ⟨-, s₀, ⟨e, td, rfl, -, -⟩, hrest⟩
  · rfl
  · rcases hrest with ⟨-, rfl⟩ | ⟨-, -, hdel⟩
    · exact Function.update_of_ne hne ..
    · rw [binderDeleteRef_refs_other hdel hne]
      exact Function.update_of_ne hne ..

theorem binderDecRef_refs_ne (ht : RefTables s) (hrf : s.refs r = some rf)
    (hcount : rf.count strong ≠ 0) (hdec : binderDecRef s r strong = .ok s') :
    s'.refs r ≠ s.refs r := by
  obtain ⟨nd, hnd⟩ := ht.ref_node hrf
  rcases decRef_spec ht hdec hrf hnd with ⟨hzero, -⟩ | ⟨-, s₀, -, hrest⟩
  · exact absurd hzero hcount
  · rw [hrf]
    rcases hrest with ⟨-, rfl⟩ | ⟨-, -, hdel⟩
    · intro hsame
      have hcounts : (rf.dec strong).count strong = rf.count strong :=
        congrArg (Ref.count · strong) (by simpa [State.setRef] using hsame)
      cases strong <;>
        simp only [Ref.dec, Ref.count, if_true, Bool.false_eq_true, if_false] at hcounts hcount <;>
        omega
    · rw [binderDeleteRef_refs hdel]
      exact (Option.some_ne_none rf).symm

/-! ### The two commands -/

theorem incCommand_cases (hinc : incCommand s p h strong alloc = .ok s₁) :
    (foundRef s p h = none ∧ managerOf s h = none ∧ s₁ = s) ∨
      (∃ r ok, foundRef s p h = some r ∧ binderIncRef s r strong none = .ok (ok, s₁)) ∨
      ∃ n nd ok, foundRef s p h = none ∧ managerOf s h = some n ∧ findRefForNode s p n = none ∧
        newDesc s p n ∉ s.descs p ∧ s.nodes n = some nd ∧
        binderIncRef (addRef s p n nd) s.nextId strong none = .ok (ok, s₁) := by
  simp only [incCommand, except_bind_eq_ok] at hinc
  obtain ⟨⟨x, s₀⟩, hfind, hcount⟩ := hinc
  have hplain : managerOf s h = none → (binderGetRef s p h, s) = (x, s₀) →
      (foundRef s p h = none ∧ managerOf s h = none ∧ s₁ = s) ∨
        ∃ r ok, foundRef s p h = some r ∧ binderIncRef s r strong none = .ok (ok, s₁) := by
    intro hno heq
    have hfound : foundRef s p h = binderGetRef s p h := by rw [foundRef, hno]
    obtain ⟨rfl, rfl⟩ := Prod.mk.inj heq
    cases hget : binderGetRef s p h with
    | none =>
        simp only [hget, except_pure_eq_ok] at hcount
        exact .inl ⟨hfound.trans hget, hno, hcount.symm⟩
    | some r =>
        simp only [hget, except_bind_eq_ok, except_pure_eq_ok] at hcount
        obtain ⟨⟨ok, s₂⟩, hinc, rfl⟩ := hcount
        exact .inr ⟨r, ok, hfound.trans hget, hinc⟩
  cases h with
  | succ h =>
      have heq : (binderGetRef s p (h + 1), s) = (x, s₀) := by simpa [incCommandRef] using hfind
      rcases hplain rfl heq with hnone | hsome
      · exact .inl hnone
      · exact .inr (.inl hsome)
  | zero =>
      cases hctx : s.contextMgrNode with
      | none =>
          have heq : (binderGetRef s p 0, s) = (x, s₀) := by
            simpa [incCommandRef, hctx] using hfind
          rcases hplain (by simp [managerOf, hctx]) heq with hnone | hsome
          · exact .inl hnone
          · exact .inr (.inl hsome)
      | some n =>
          have hman : managerOf s 0 = some n := by simp [managerOf, hctx]
          have hfound : foundRef s p 0 = findRefForNode s p n := by rw [foundRef, hman]
          simp only [incCommandRef, hctx, except_bind_eq_ok] at hfind
          obtain ⟨⟨y, s'⟩, hget, hfind⟩ := hfind
          right
          rcases binderGetRefForNode_eq hget with ⟨r, hr, rfl, rfl⟩ | ⟨-, rfl, -⟩ |
              ⟨nd, hno, hdesc, hnd, rfl, rfl⟩
          · obtain ⟨rfl, rfl⟩ : some r = x ∧ s' = s₀ := by simpa using hfind
            simp only [except_bind_eq_ok, except_pure_eq_ok] at hcount
            obtain ⟨⟨ok, s₂⟩, hinc, rfl⟩ := hcount
            exact .inl ⟨r, ok, hfound.trans hr, hinc⟩
          · cases hfind
          · obtain ⟨rfl, rfl⟩ : some s.nextId = x ∧ addRef s p n nd = s₀ := by simpa using hfind
            simp only [except_bind_eq_ok, except_pure_eq_ok] at hcount
            obtain ⟨⟨ok, s₂⟩, hinc, rfl⟩ := hcount
            exact .inr ⟨n, nd, ok, hfound.trans hno, hman, hno, hdesc, hnd, hinc⟩

/-- The reference with a descriptor depends on what is entered and under which descriptors. -/
theorem binderGetRef_congr (hdesc : s'.refsByDesc = s.refsByDesc)
    (hrefs : ∀ r, (s'.refs r).map Ref.desc = (s.refs r).map Ref.desc) :
    binderGetRef s' p h = binderGetRef s p h := by
  unfold binderGetRef
  rw [hdesc]
  congr 1
  funext r
  have := hrefs r
  cases hr : s.refs r <;> cases hr' : s'.refs r <;> simp_all

theorem cancels_found (hfound : foundRef s p h = some r) (hrf : s.refs r = some rf) :
    Cancels s p h strong ↔
      (Takes s rf strong → binderGetRef s p h = some r ∧ (rf.strong ≠ 0 ∨ rf.weak ≠ 0)) ∧
      (¬ Takes s rf strong → ∀ r' rf', binderGetRef s p h = some r' → s.refs r' = some rf' →
        rf'.count strong = 0) := by
  rw [Cancels, hfound]
  constructor
  · rintro ⟨rf', hrf', hcancels⟩
    obtain rfl : rf = rf' := by simpa [hrf] using hrf'
    exact hcancels
  · exact fun hcancels => ⟨rf, hrf, hcancels⟩

theorem sameCounts_taken (ht : RefTables s) (hrf : s.refs r = some rf)
    (hnd : s.nodes rf.node = some nd)
    (hs₁ : s₁ = (s.setNode rf.node (nd.gained rf strong)).setRef r (rf.inc strong))
    (hdec : decCommand s₁ p h strong = .ok s₂) :
    SameCounts s s₂ ↔ binderGetRef s p h = some r ∧ (rf.strong ≠ 0 ∨ rf.weak ≠ 0) := by
  have ht₁ : RefTables s₁ := hs₁ ▸ ht.gained hrf hnd strong
  have hrf₁ : s₁.refs r = some (rf.inc strong) := by simp [hs₁, State.setRef]
  have hget : binderGetRef s₁ p h = binderGetRef s p h := by
    refine binderGetRef_congr (by rw [hs₁]; rfl) fun q => ?_
    by_cases hq : q = r
    · rw [hq, hrf₁, hrf]
      cases strong <;> rfl
    · simp [hs₁, State.setRef, State.setNode, hq]
  -- a count that stays on the reference is one too many
  have hstays : s₂.refs r = s₁.refs r → ¬ SameCounts s s₂ := by
    intro hsame hcounts
    have heq : some (rf.inc strong) = some rf := by rw [← hrf₁, ← hsame, hcounts.refs, hrf]
    have hcount := congrArg (Ref.count · strong) (Option.some.inj heq)
    simp at hcount
  rw [decCommand, hget] at hdec
  cases hr' : binderGetRef s p h with
  | none =>
      simp only [hr', Except.ok.injEq] at hdec
      exact iff_of_false (hstays (by rw [hdec])) fun hboth => Option.some_ne_none r hboth.1.symm
  | some r' =>
      simp only [hr'] at hdec
      by_cases hr : r' = r
      · subst hr
        obtain ⟨e, td, s₃, hs₃, ⟨hcounts, rfl⟩ | ⟨hstrong, hweak, hdel⟩⟩ :=
          binderDecRef_gained ht₁ hs₁ hrf hdec
        · refine iff_of_true ?_ ⟨rfl, hcounts⟩
          rw [hs₃]
          refine ⟨rfl, rfl, rfl, fun m => ?_⟩
          by_cases hm : m = rf.node
          · simp [hm, hnd, Node.tally]
          · simp [Function.update_of_ne hm]
        · refine iff_of_false (fun hcounts => ?_) (by simp [hstrong, hweak])
          have hgone := binderDeleteRef_refs hdel
          rw [hcounts.refs, hrf] at hgone
          exact Option.some_ne_none rf hgone
      · refine iff_of_false (hstays (binderDecRef_refs_other ht₁ hdec (Ne.symm hr))) fun hboth => ?_
        exact hr (Option.some.inj hboth.1)

theorem sameCounts_refused (ht : RefTables s) (hdec : decCommand s p h strong = .ok s₂) :
    SameCounts s s₂ ↔ ∀ r' rf', binderGetRef s p h = some r' → s.refs r' = some rf' →
      rf'.count strong = 0 := by
  rw [decCommand] at hdec
  cases hr' : binderGetRef s p h with
  | none =>
      simp only [hr', Except.ok.injEq] at hdec
      exact iff_of_true (hdec ▸ SameCounts.refl s) (by simp)
  | some r' =>
      simp only [hr'] at hdec
      obtain ⟨rf', hrf', hcases⟩ := binderDecRef_eq hdec
      by_cases hcount : rf'.count strong = 0
      · obtain rfl : s₂ = s := by
          rcases hcases with ⟨-, heq⟩ | ⟨hne, -⟩
          · exact heq
          · exact absurd hcount hne
        refine iff_of_true (SameCounts.refl s₂) fun q qf hq hqf => ?_
        obtain rfl := Option.some.inj hq
        obtain rfl : rf' = qf := by simpa [hrf'] using hqf
        exact hcount
      · exact iff_of_false (fun hcounts =>
          binderDecRef_refs_ne ht hrf' hcount hdec (congrFun hcounts.refs r'))
          fun hall => hcount (hall r' rf' rfl hrf')

theorem sameCounts_found (ht : RefTables s) (hfound : foundRef s p h = some r)
    (hinc : binderIncRef s r strong none = .ok (ok, s₁))
    (hdec : decCommand s₁ p h strong = .ok s₂) : SameCounts s s₂ ↔ Cancels s p h strong := by
  obtain ⟨rf, hrf, -⟩ := binderIncRef_eq hinc
  obtain ⟨nd, hnd⟩ := ht.ref_node hrf
  rw [cancels_found hfound hrf]
  rcases binderIncRef_none hrf hnd hinc with ⟨htakes, hs₁⟩ | ⟨hno, rfl⟩
  · rw [sameCounts_taken ht hrf hnd hs₁ hdec]
    exact ⟨fun hboth => ⟨fun _ => hboth, fun hno => absurd htakes hno⟩, fun hboth => hboth.1 htakes⟩
  · rw [sameCounts_refused ht hdec]
    exact ⟨fun hall => ⟨fun htakes => absurd htakes hno, fun _ => hall⟩, fun hboth => hboth.2 hno⟩

/-! ### A new reference to the context manager -/

theorem filter_insertByKey {key : ℕ → ℕ} {x : ℕ} {l : List ℕ} (hx : x ∉ l) :
    (insertByKey key x l).filter (· ≠ x) = l := by
  have hall : ∀ l : List ℕ, x ∉ l → l.filter (· ≠ x) = l := fun l hx =>
    List.filter_eq_self.mpr fun y hy => by simpa using ne_of_mem_of_not_mem hy hx
  induction l with
  | nil => simp [insertByKey]
  | cons y l ih =>
      simp only [List.mem_cons, not_or] at hx
      simp only [insertByKey]
      split
      · rw [List.filter_cons_of_neg (by simp)]
        exact hall _ (by simp [hx.1, hx.2])
      · rw [List.filter_cons_of_pos (by simpa using Ne.symm hx.1), ih hx.2]

theorem update_insertByKey {key : ℕ → ℕ} {x q : ℕ} {l : ℕ → List ℕ} (hx : x ∉ l q) :
    Function.update (Function.update l q (insertByKey key x (l q))) q
      ((Function.update l q (insertByKey key x (l q)) q).filter (· ≠ x)) = l := by
  rw [Function.update_self, filter_insertByKey hx, Function.update_idem, Function.update_eq_self]

theorem managerOf_eq_some (hman : managerOf s h = some n) : h = 0 ∧ s.contextMgrNode = some n := by
  unfold managerOf at hman
  split at hman
  · rename_i hz
    exact ⟨hz, hman⟩
  · cases hman

theorem newDesc_manager (hctx : s.contextMgrNode = some n) (hno : 0 ∉ s.descs p) :
    newDesc s p n = 0 := by
  rw [newDesc, if_pos hctx]
  cases hdescs : s.descs p with
  | nil => rfl
  | cons x xs =>
      have hx : 0 < x := by
        rcases Nat.eq_zero_or_pos x with rfl | hx
        · exact absurd (by simp [hdescs]) hno
        · exact hx
      rw [freeDesc, if_pos hx]

theorem RefTables.getRef_eq_none (ht : RefTables s) :
    binderGetRef s p h = none ↔ h ∉ s.descs p := by
  constructor
  · intro hnone hmem
    obtain ⟨r, hr, hdesc⟩ := List.mem_filterMap.mp hmem
    have hany := List.find?_eq_none.mp hnone r hr
    cases hrf : s.refs r with
    | none => simp [hrf] at hdesc
    | some rf => simp_all
  · intro hmem
    cases hget : binderGetRef s p h with
    | none => rfl
    | some r =>
        obtain ⟨rf, hrf, rfl, rfl⟩ := ht.getRef hget
        exact absurd (ht.mem_descs hrf) hmem

theorem RefTables.getRef_of_desc (ht : RefTables s) (hrf : s.refs r = some rf) :
    binderGetRef s rf.proc rf.desc = some r := by
  cases hget : binderGetRef s rf.proc rf.desc with
  | none => exact absurd (ht.mem_descs hrf) (ht.getRef_eq_none.mp hget)
  | some q =>
      obtain ⟨qf, hqf, hproc, hdesc⟩ := ht.getRef hget
      exact congrArg some (ht.desc_inj hqf hrf hproc hdesc)

/-- A reference that a decrement does not find, or finds without a count, stays. -/
theorem decCommand_refs_stay (ht : RefTables s) (hrf : s.refs r = some rf)
    (hstay : binderGetRef s p h = some r → rf.count strong = 0)
    (hdec : decCommand s p h strong = .ok s') : s'.refs r = some rf := by
  rw [decCommand] at hdec
  cases hr' : binderGetRef s p h with
  | none =>
      simp only [hr', Except.ok.injEq] at hdec
      rw [← hdec, hrf]
  | some r' =>
      simp only [hr'] at hdec
      by_cases hr : r' = r
      · subst hr
        obtain ⟨rf', hrf', hcases⟩ := binderDecRef_eq hdec
        obtain rfl : rf = rf' := by simpa [hrf] using hrf'
        rcases hcases with ⟨-, rfl⟩ | ⟨hne, -⟩
        · exact hrf
        · exact absurd (hstay hr') hne
      · rw [binderDecRef_refs_other ht hdec (Ne.symm hr), hrf]

/-- A new reference without counts goes again: the process has the references it had, and the node
its counts, unless nothing keeps it. -/
theorem sameCounts_deleted (ht : RefTables s) (hnd : s.nodes n = some nd) {e : Option Queue}
    {td : Queue → List Work} {s₃ : State}
    (hs₃ : s₃ = { addRef s p n nd with
      nodes := Function.update (addRef s p n nd).nodes n
        (some { nd with refs := s.nextId :: nd.refs, entry := e })
      todo := td })
    (hdel : binderDeleteRef s₃ s.nextId = .ok s₂) : SameCounts s s₂ ↔ ¬ nd.freeable false := by
  have hfresh : ∀ q, s.nextId ∉ s.refsByDesc q ∧ s.nextId ∉ s.refsByNode q := fun q =>
    ⟨fun hmem => by simpa [ht.refs_fresh] using (ht.byDesc q _).mp hmem,
      fun hmem => by simpa [ht.refs_fresh] using (ht.byNode q _).mp hmem⟩
  have hlisted : s.nextId ∉ nd.refs := fun hmem => by
    simpa [ht.refs_fresh] using (ht.mem_refs hnd _).mp hmem
  have hrefs : nd.refs.filter (fun q => !decide (q = s.nextId)) = nd.refs :=
    List.filter_eq_self.mpr fun y hy => by simpa using ne_of_mem_of_not_mem hy hlisted
  have hrefs₃ : s₃.refs = Function.update s.refs s.nextId (some (newRefOf s p n)) := by
    rw [hs₃]
    rfl
  have hnodes₃ : s₃.nodes = Function.update s.nodes n
      (some { nd with refs := s.nextId :: nd.refs, entry := e }) := by
    rw [hs₃]
    exact Function.update_idem ..
  obtain ⟨rf, nd', hrf, hnd', x, td', ns, dead, deaths, rfl, hx, -⟩ := binderDeleteRef_eq hdel
  obtain rfl : newRefOf s p n = rf := by simpa [hrefs₃] using hrf
  obtain rfl : { nd with refs := s.nextId :: nd.refs, entry := e } = nd' := by
    simpa [hnodes₃, newRefOf] using hnd'
  have hfree : Node.freeable (Node.dropRef { nd with refs := s.nextId :: nd.refs, entry := e }
      s.nextId (newRefOf s p n)) false ↔ nd.freeable false := by
    simp [Node.freeable, Node.dropRef, Node.held, hrefs]
  rw [hfree] at hx
  rcases hx with ⟨e', rfl, hkeep, -⟩ | ⟨rfl, hgone, -⟩
  · refine iff_of_true ⟨?_, ?_, ?_, fun m => ?_⟩ hkeep
    · change Function.update s₃.refs s.nextId none = s.refs
      rw [hrefs₃, Function.update_idem]
      exact Function.update_eq_self_iff.mpr ht.refs_fresh.symm
    · rw [hs₃]
      exact update_insertByKey (hfresh p).1
    · rw [hs₃]
      exact update_insertByKey (hfresh p).2
    · change (Function.update s₃.nodes n _ m).map Node.tally = _
      rw [hnodes₃, Function.update_idem]
      by_cases hm : m = n
      · simp [hm, hnd, Node.tally, Node.dropRef, newRefOf, hrefs]
      · rw [Function.update_of_ne hm]
  · refine iff_of_false (fun hcounts => ?_) (fun hno => hno hgone)
    have hnone := hcounts.nodes n
    change (Function.update s₃.nodes n none n).map Node.tally = _ at hnone
    simp [hnd] at hnone

theorem sameCounts_new (ht : RefTables s) (hman : managerOf s h = some n)
    (hno : findRefForNode s p n = none) (hdesc : newDesc s p n ∉ s.descs p)
    (hnd : s.nodes n = some nd)
    (hinc : binderIncRef (addRef s p n nd) s.nextId strong none = .ok (ok, s₁))
    (hdec : decCommand s₁ p h strong = .ok s₂) : SameCounts s s₂ ↔ Cancels s p h strong := by
  obtain ⟨rfl, hctx⟩ := managerOf_eq_some hman
  have hfound : foundRef s p 0 = none := by rw [foundRef, hman]; exact hno
  have hcancels : Cancels s p 0 strong ↔
      binderGetRef s p 0 = none ∧ TakesFirst s n nd strong ∧ ¬ nd.freeable false := by
    simp [Cancels, hfound, hman, hnd]
  rw [hcancels]
  have ht' : RefTables (addRef s p n nd) := ht.addRef hnd hno hdesc
  have hrf' : (addRef s p n nd).refs s.nextId = some (newRefOf s p n) :=
    ht.addRef_refs.mpr (.inl ⟨rfl, rfl⟩)
  have hnd' : (addRef s p n nd).nodes (newRefOf s p n).node =
      some { nd with refs := s.nextId :: nd.refs } := addRef_nodes.mpr (.inl ⟨rfl, rfl⟩)
  have hgone : s₂.refs s.nextId ≠ none → ¬ SameCounts s s₂ := fun hsome hcounts =>
    hsome (by rw [hcounts.refs, ht.refs_fresh])
  have htakes : Takes (addRef s p n nd) (newRefOf s p n) strong ↔ TakesFirst s n nd strong := by
    cases strong <;> simp [Takes, TakesFirst, newRefOf, Ref.count, addRef, State.setNode,
      State.setRef]
  rcases binderIncRef_none hrf' hnd' hinc with ⟨htaken, hs₁⟩ | ⟨hrefused, rfl⟩
  · have ht₁ : RefTables s₁ := hs₁ ▸ ht'.gained hrf' hnd' strong
    have hrf₁ : s₁.refs s.nextId = some ((newRefOf s p n).inc strong) := by
      simp [hs₁, State.setRef]
    have hentries : ((newRefOf s p n).inc strong).entries = (newRefOf s p n).entries := by simp
    have hproc₁ : ((newRefOf s p n).inc strong).proc = p := congrArg Prod.fst hentries
    have hdesc₁ : ((newRefOf s p n).inc strong).desc = newDesc s p n :=
      congrArg (fun x => x.2.2) hentries
    cases hget : binderGetRef s p 0 with
    | some r' =>
        obtain ⟨rf', hrf₀, rfl, hzero⟩ := ht.getRef hget
        have hused : 0 ∈ s.descs rf'.proc := hzero ▸ ht.mem_descs hrf₀
        have hother : binderGetRef s₁ rf'.proc 0 ≠ some s.nextId := by
          intro hsame
          obtain ⟨qf, hqf, -, hqdesc⟩ := ht₁.getRef hsame
          obtain rfl : _ = qf := Option.some.inj (hrf₁.symm.trans hqf)
          rw [hdesc₁] at hqdesc
          exact hdesc (hqdesc ▸ hused)
        refine iff_of_false (hgone ?_) (by simp)
        rw [decCommand_refs_stay ht₁ hrf₁ (fun hsame => absurd hsame hother) hdec]
        exact Option.some_ne_none _
    | none =>
        have hzero : newDesc s p n = 0 := newDesc_manager hctx (ht.getRef_eq_none.mp hget)
        have hget₁ : binderGetRef s₁ p 0 = some s.nextId := by
          have := ht₁.getRef_of_desc hrf₁
          rwa [hproc₁, hdesc₁, hzero] at this
        simp only [decCommand, hget₁] at hdec
        obtain ⟨e, td, s₃, hs₃, ⟨hcounts, -⟩ | ⟨-, -, hdel⟩⟩ :=
          binderDecRef_gained ht₁ hs₁ hrf' hdec
        · simp [newRefOf] at hcounts
        · rw [sameCounts_deleted ht hnd hs₃ hdel]
          simp [htakes.mp htaken]
  · refine iff_of_false (hgone ?_) fun hall => hrefused (htakes.mpr hall.2.1)
    have hzero : (newRefOf s p n).count strong = 0 := by cases strong <;> rfl
    rw [decCommand_refs_stay ht' hrf' (fun _ => hzero) hdec]
    exact Option.some_ne_none _

end Cancel

/-- Process 0 becomes the context manager and goes away while process 1 holds a reference to it;
then process 2 becomes the context manager. -/
def managerChanges : List Act :=
  [.open 100, .open 200, .open 300, .ioctl 0 10 true (.setContextMgr 0 true true),
    .ioctl 1 20 true (.writeRead [.acquire 0 true] 0 0 fun _ => true), .release 0, .deferred 0,
    .ioctl 2 30 true (.setContextMgr 0 true true)]

def managerChanged : State :=
  match runActions (step Layout.x86) State.init managerChanges with
  | .ok s => s
  | .error _ => State.init

end Driver

end BinderForLinux
