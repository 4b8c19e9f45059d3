import Mathlib.Data.List.Count
import Mathlib.Data.List.Nodup
import BinderForLinux.Library.Counting
import BinderForLinux.Driver.Refs.Forms

/-!
# Coherence of the reference tables

A reference is entered in three places: the two trees of its process and the
list of its node, which also counts how many of its references are strong.
`RefTables` says that these agree, for nodes with an owner and for dead ones.
Every reference operation of the driver keeps it.
-/

namespace BinderForLinux

namespace Driver

open Library

def State.holdsStrong (s : State) (r : RefId) : Bool :=
  (s.refs r).any fun rf => decide (rf.strong ≠ 0)

/-- The descriptor of a reference, as the trees read it. -/
def State.descOf (s : State) (r : RefId) : ℕ := ((s.refs r).map Ref.desc).getD 0

structure RefTables (s : State) : Prop where
  ref_lt : ∀ {r rf}, s.refs r = some rf → r < s.nextId
  node_lt : ∀ {n nd}, s.nodes n = some nd → n < s.nextId
  byDesc : ∀ p r, r ∈ s.refsByDesc p ↔ ∃ rf, s.refs r = some rf ∧ rf.proc = p
  byNode : ∀ p r, r ∈ s.refsByNode p ↔ ∃ rf, s.refs r = some rf ∧ rf.proc = p
  sorted : ∀ p, (s.refsByDesc p).Pairwise fun r r' => s.descOf r < s.descOf r'
  node_inj : ∀ {r r' rf rf'}, s.refs r = some rf → s.refs r' = some rf' → rf.proc = rf'.proc →
    rf.node = rf'.node → r = r'
  nodup : ∀ {n nd}, s.nodes n = some nd → nd.refs.Nodup
  mem_refs : ∀ {n nd}, s.nodes n = some nd →
    ∀ r, r ∈ nd.refs ↔ ∃ rf, s.refs r = some rf ∧ rf.node = n
  ref_node : ∀ {r rf}, s.refs r = some rf → ∃ nd, s.nodes rf.node = some nd
  strong : ∀ {n nd}, s.nodes n = some nd →
    nd.internalStrongRefs = nd.refs.countP s.holdsStrong
  nodesOf : ∀ p n, n ∈ s.nodesOf p ↔ ∃ nd, s.nodes n = some nd ∧ nd.proc = some p
  nodesOf_nodup : ∀ p, (s.nodesOf p).Nodup
  ptr_inj : ∀ {n n' nd nd'}, s.nodes n = some nd → s.nodes n' = some nd' → nd.proc = nd'.proc →
    nd.proc ≠ none → nd.ptr = nd'.ptr → n = n'
  dead : ∀ n, n ∈ s.deadNodes ↔ ∃ nd, s.nodes n = some nd ∧ nd.proc = none
  dead_refs : ∀ {n nd}, s.nodes n = some nd → nd.proc = none →
    nd.refs ≠ [] ∧ nd.localStrongRefs = 0 ∧ nd.localWeakRefs = 0
  desc_lt : ∀ {r rf}, s.refs r = some rf → rf.desc < 256 ^ 4
  ptr_lt : ∀ {n nd}, s.nodes n = some nd → nd.ptr < 256 ^ 8 ∧ nd.cookie < 256 ^ 8

theorem refTables_init : RefTables State.init := by
  constructor <;> simp [State.init]

/-! ### Looking up -/

namespace RefTables

variable {s s' : State} (h : RefTables s)
include h

theorem desc_inj {r r' : RefId} {rf rf' : Ref} (hr : s.refs r = some rf)
    (hr' : s.refs r' = some rf') (hproc : rf.proc = rf'.proc) (hdesc : rf.desc = rf'.desc) :
    r = r' := by
  have hmem : r ∈ s.refsByDesc rf.proc := (h.byDesc _ _).mpr ⟨rf, hr, rfl⟩
  have hmem' : r' ∈ s.refsByDesc rf.proc := (h.byDesc _ _).mpr ⟨rf', hr', hproc.symm⟩
  obtain ⟨i, hi, rfl⟩ := List.getElem_of_mem hmem
  obtain ⟨j, hj, rfl⟩ := List.getElem_of_mem hmem'
  have hlt := List.pairwise_iff_getElem.mp (h.sorted rf.proc)
  rcases Nat.lt_trichotomy i j with hij | hij | hij
  · have := hlt i j hi hj hij
    simp [State.descOf, hr, hr', hdesc] at this
  · simp [hij]
  · have := hlt j i hj hi hij
    simp [State.descOf, hr, hr', hdesc] at this

theorem getRef {p : ProcId} {d : ℕ} {r : RefId} (hget : binderGetRef s p d = some r) :
    ∃ rf, s.refs r = some rf ∧ rf.proc = p ∧ rf.desc = d := by
  have hmem := List.mem_of_find?_eq_some hget
  have hany := List.find?_some hget
  obtain ⟨rf, hrf, hproc⟩ := (h.byDesc p r).mp hmem
  exact ⟨rf, hrf, hproc, by simpa [hrf] using hany⟩

theorem findRef {p : ProcId} {n : NodeId} {r : RefId} (hget : findRefForNode s p n = some r) :
    ∃ rf, s.refs r = some rf ∧ rf.proc = p ∧ rf.node = n := by
  have hmem := List.mem_of_find?_eq_some hget
  have hany := List.find?_some hget
  obtain ⟨rf, hrf, hproc⟩ := (h.byNode p r).mp hmem
  exact ⟨rf, hrf, hproc, by simpa [hrf] using hany⟩

theorem findRef_none {p : ProcId} {n : NodeId} (hget : findRefForNode s p n = none) {r : RefId}
    {rf : Ref} (hrf : s.refs r = some rf) (hproc : rf.proc = p) : rf.node ≠ n := by
  have hmem : r ∈ s.refsByNode p := (h.byNode p r).mpr ⟨rf, hrf, hproc⟩
  have := List.find?_eq_none.mp hget r hmem
  simpa [hrf] using this

theorem getNode {p : ProcId} {ptr : ℕ} {n : NodeId} (hget : binderGetNode s p ptr = some n) :
    ∃ nd, s.nodes n = some nd ∧ nd.proc = some p ∧ nd.ptr = ptr := by
  have hmem := List.mem_of_find?_eq_some hget
  have hany := List.find?_some hget
  obtain ⟨nd, hnd, hproc⟩ := (h.nodesOf p n).mp hmem
  exact ⟨nd, hnd, hproc, by simpa [hnd] using hany⟩

theorem getNode_none {p : ProcId} {ptr : ℕ} (hget : binderGetNode s p ptr = none) {n : NodeId}
    {nd : Node} (hnd : s.nodes n = some nd) (hproc : nd.proc = some p) : nd.ptr ≠ ptr := by
  have hmem : n ∈ s.nodesOf p := (h.nodesOf p n).mpr ⟨nd, hnd, hproc⟩
  have := List.find?_eq_none.mp hget n hmem
  simpa [hnd] using this

end RefTables

/-! ### Changes that enter nothing anywhere else -/

def Ref.entries (rf : Ref) : ProcId × NodeId × ℕ := (rf.proc, rf.node, rf.desc)

/-- What the trees and the references know of a node. -/
def Node.entries (nd : Node) : Option ProcId × List RefId × ℕ × ℕ :=
  (nd.proc, nd.refs, nd.ptr, nd.cookie)

theorem map_eq_some_transfer {α β : Type} {f : α → β} {x y : Option α} (h : x.map f = y.map f)
    {a : α} (hx : x = some a) : ∃ b, y = some b ∧ f b = f a := by
  subst hx
  cases y with
  | none => cases h
  | some b => exact ⟨b, rfl, by simpa using h.symm⟩

/-- Nodes and references may change in all that they are not entered under, as
long as the strong counts agree again. -/
theorem RefTables.congr {s s' : State} (h : RefTables s) (hnext : s.nextId ≤ s'.nextId)
    (hdesc : s'.refsByDesc = s.refsByDesc) (hnode : s'.refsByNode = s.refsByNode)
    (hnodesOf : s'.nodesOf = s.nodesOf) (hdeadNodes : s'.deadNodes = s.deadNodes)
    (hrefs : ∀ r, (s'.refs r).map Ref.entries = (s.refs r).map Ref.entries)
    (hnodes : ∀ n, (s'.nodes n).map Node.entries = (s.nodes n).map Node.entries)
    (hstrong : ∀ {n nd}, s'.nodes n = some nd →
      nd.internalStrongRefs = nd.refs.countP s'.holdsStrong)
    (hdead : ∀ {n nd}, s'.nodes n = some nd → nd.proc = none →
      nd.localStrongRefs = 0 ∧ nd.localWeakRefs = 0) : RefTables s' := by
  have hr : ∀ {r rf'}, s'.refs r = some rf' → ∃ rf, s.refs r = some rf ∧ rf.proc = rf'.proc ∧
      rf.node = rf'.node ∧ rf.desc = rf'.desc := fun {r rf'} hrf => by
    obtain ⟨rf, hrf, heq⟩ := map_eq_some_transfer (hrefs r) hrf
    simp only [Ref.entries, Prod.mk.injEq] at heq
    exact ⟨rf, hrf, heq⟩
  have hr' : ∀ {r rf}, s.refs r = some rf → ∃ rf', s'.refs r = some rf' ∧ rf'.proc = rf.proc ∧
      rf'.node = rf.node ∧ rf'.desc = rf.desc := fun {r rf} hrf => by
    obtain ⟨rf', hrf', heq⟩ := map_eq_some_transfer (hrefs r).symm hrf
    simp only [Ref.entries, Prod.mk.injEq] at heq
    exact ⟨rf', hrf', heq⟩
  have hn : ∀ {n nd'}, s'.nodes n = some nd' → ∃ nd, s.nodes n = some nd ∧ nd.proc = nd'.proc ∧
      nd.refs = nd'.refs ∧ nd.ptr = nd'.ptr ∧ nd.cookie = nd'.cookie := fun {n nd'} hnd => by
    obtain ⟨nd, hnd, heq⟩ := map_eq_some_transfer (hnodes n) hnd
    simp only [Node.entries, Prod.mk.injEq] at heq
    exact ⟨nd, hnd, heq⟩
  have hn' : ∀ {n nd}, s.nodes n = some nd → ∃ nd', s'.nodes n = some nd' ∧
      nd'.proc = nd.proc := fun {n nd} hnd => by
    obtain ⟨nd', hnd', heq⟩ := map_eq_some_transfer (hnodes n).symm hnd
    simp only [Node.entries, Prod.mk.injEq] at heq
    exact ⟨nd', hnd', heq.1⟩
  have hdescOf : s'.descOf = s.descOf := by
    funext r
    cases hrf : s.refs r with
    | none =>
        have : s'.refs r = none := by simpa [hrf] using hrefs r
        simp [State.descOf, hrf, this]
    | some rf =>
        obtain ⟨rf', hrf', _, _, heq⟩ := hr' hrf
        simp [State.descOf, hrf, hrf', heq]
  have hentered : ∀ p r, (∃ rf, s.refs r = some rf ∧ rf.proc = p) ↔
      ∃ rf, s'.refs r = some rf ∧ rf.proc = p := by
    intro p r
    constructor
    · rintro ⟨rf, hrf, hp⟩
      obtain ⟨rf', hrf', hp', _⟩ := hr' hrf
      exact ⟨rf', hrf', hp'.trans hp⟩
    · rintro ⟨rf', hrf', hp⟩
      obtain ⟨rf, hrf, hp', _⟩ := hr hrf'
      exact ⟨rf, hrf, hp'.trans hp⟩
  have howned : ∀ x n, (∃ nd, s.nodes n = some nd ∧ nd.proc = x) ↔
      ∃ nd, s'.nodes n = some nd ∧ nd.proc = x := by
    intro x n
    constructor
    · rintro ⟨nd, hnd, hp⟩
      obtain ⟨nd', hnd', hp'⟩ := hn' hnd
      exact ⟨nd', hnd', hp'.trans hp⟩
    · rintro ⟨nd', hnd', hp⟩
      obtain ⟨nd, hnd, hp', _⟩ := hn hnd'
      exact ⟨nd, hnd, hp'.trans hp⟩
  constructor
  case ref_lt =>
    intro r rf' hrf'
    obtain ⟨rf, hrf, _⟩ := hr hrf'
    exact (h.ref_lt hrf).trans_le hnext
  case node_lt =>
    intro n nd' hnd'
    obtain ⟨nd, hnd, _⟩ := hn hnd'
    exact (h.node_lt hnd).trans_le hnext
  case byDesc => exact fun p r => by rw [hdesc, h.byDesc, hentered]
  case byNode => exact fun p r => by rw [hnode, h.byNode, hentered]
  case sorted => exact fun p => by rw [hdesc, hdescOf]; exact h.sorted p
  case node_inj =>
    intro r₁ r₂ rf₁ rf₂ h₁ h₂ hp hnd
    obtain ⟨rf₁', h₁', hp₁, hn₁, _⟩ := hr h₁
    obtain ⟨rf₂', h₂', hp₂, hn₂, _⟩ := hr h₂
    exact h.node_inj h₁' h₂' (by rw [hp₁, hp₂, hp]) (by rw [hn₁, hn₂, hnd])
  case nodup =>
    intro n nd' hnd'
    obtain ⟨nd, hnd, _, hrefs, _⟩ := hn hnd'
    exact hrefs ▸ h.nodup hnd
  case mem_refs =>
    intro n nd' hnd' r
    obtain ⟨nd, hnd, _, hrefs, _⟩ := hn hnd'
    rw [← hrefs, h.mem_refs hnd]
    constructor
    · rintro ⟨rf, hrf, hnode⟩
      obtain ⟨rf', hrf', _, hnode', _⟩ := hr' hrf
      exact ⟨rf', hrf', hnode'.trans hnode⟩
    · rintro ⟨rf', hrf', hnode⟩
      obtain ⟨rf, hrf, _, hnode', _⟩ := hr hrf'
      exact ⟨rf, hrf, hnode'.trans hnode⟩
  case ref_node =>
    intro r rf' hrf'
    obtain ⟨rf, hrf, _, hnode, _⟩ := hr hrf'
    obtain ⟨nd, hnd⟩ := h.ref_node hrf
    obtain ⟨nd', hnd', _⟩ := hn' hnd
    exact ⟨nd', hnode ▸ hnd'⟩
  case strong => exact hstrong
  case nodesOf => exact fun p n => by rw [hnodesOf, h.nodesOf, howned]
  case nodesOf_nodup => exact fun p => hnodesOf ▸ h.nodesOf_nodup p
  case ptr_inj =>
    intro n₁ n₂ nd₁ nd₂ h₁ h₂ hp hsome hptr
    obtain ⟨nd₁', h₁', hp₁, _, hptr₁, _⟩ := hn h₁
    obtain ⟨nd₂', h₂', hp₂, _, hptr₂, _⟩ := hn h₂
    exact h.ptr_inj h₁' h₂' (by rw [hp₁, hp₂, hp]) (by rw [hp₁]; exact hsome)
      (by rw [hptr₁, hptr₂, hptr])
  case dead => exact fun n => by rw [hdeadNodes, h.dead, howned]
  case dead_refs =>
    intro n nd' hnd' hp
    obtain ⟨nd, hnd, hp', hrefs, _⟩ := hn hnd'
    obtain ⟨hne, _⟩ := h.dead_refs hnd (hp'.trans hp)
    exact ⟨hrefs ▸ hne, hdead hnd' hp⟩
  case desc_lt =>
    intro r rf' hrf'
    obtain ⟨rf, hrf, _, _, hdesc⟩ := hr hrf'
    exact hdesc ▸ h.desc_lt hrf
  case ptr_lt =>
    intro n nd' hnd'
    obtain ⟨nd, hnd, _, _, hptr, hcookie⟩ := hn hnd'
    exact hptr ▸ hcookie ▸ h.ptr_lt hnd

section Kept

variable {s s' : State} {n : NodeId} {nd nd' : Node} {new : Queue → Prop}

theorem map_update_of_eq {α β : Type} {f : α → β} {m : ℕ → Option α} {i : ℕ} {a b : α}
    (ha : m i = some a) (hf : f b = f a) (j : ℕ) :
    (Function.update m i (some b) j).map f = (m j).map f := by
  by_cases hj : j = i
  · subst hj
    simp [ha, hf]
  · rw [Function.update_of_ne hj]

theorem RefTables.writeNode (h : RefTables s) (hnd : s.nodes n = some nd)
    (td : Queue → List Work) (hentries : nd'.entries = nd.entries)
    (hstrong : nd'.internalStrongRefs = nd.internalStrongRefs)
    (hdead : nd.proc = none → nd'.localStrongRefs = 0 ∧ nd'.localWeakRefs = 0) :
    RefTables { s with nodes := Function.update s.nodes n (some nd'), todo := td } := by
  have hproc : nd'.proc = nd.proc := congrArg Prod.fst hentries
  have hrefs : nd'.refs = nd.refs := congrArg (fun x => x.2.1) hentries
  refine h.congr le_rfl rfl rfl rfl rfl (fun _ => rfl) (map_update_of_eq hnd hentries) ?_ ?_
  · intro m md hm
    by_cases hmn : m = n
    · subst hmn
      simp only [Function.update_self, Option.some.injEq] at hm
      subst hm
      rw [hstrong, hrefs]
      exact h.strong hnd
    · simp only [Function.update_of_ne hmn] at hm
      exact h.strong hm
  · intro m md hm hp
    by_cases hmn : m = n
    · subst hmn
      simp only [Function.update_self, Option.some.injEq] at hm
      subst hm
      exact hdead (hproc ▸ hp)
    · simp only [Function.update_of_ne hmn] at hm
      exact (h.dead_refs hm hp).2

theorem RefTables.nodeKept (h : RefTables s) (hnd : s.nodes n = some nd)
    (hkept : NodeKept s s' n nd nd' new) (hentries : nd'.entries = nd.entries)
    (hstrong : nd'.internalStrongRefs = nd.internalStrongRefs)
    (hdead : nd.proc = none → nd'.localStrongRefs = 0 ∧ nd'.localWeakRefs = 0) :
    RefTables s' := by
  obtain ⟨e, td, rfl, -, -⟩ := hkept
  exact h.writeNode hnd td hentries hstrong hdead

theorem holdsStrong_update {r r' : RefId} {rf : Ref} :
    (s.setRef r rf).holdsStrong r' =
      if r' = r then decide (rf.strong ≠ 0) else s.holdsStrong r' := by
  by_cases hr : r' = r
  · subst hr
    simp [State.holdsStrong, State.setRef]
  · simp [State.holdsStrong, State.setRef, hr]

theorem RefTables.countRef {r : RefId} {rf rf' : Ref} (h : RefTables s)
    (hrf : s.refs r = some rf) (hnd : s.nodes rf.node = some nd)
    (hkept : NodeKept s s' rf.node nd nd' new) (hentries : nd'.entries = nd.entries)
    (hrf' : rf'.entries = rf.entries)
    (hstrong : nd'.internalStrongRefs =
      nd.internalStrongRefs - (if rf.strong ≠ 0 then 1 else 0) + (if rf'.strong ≠ 0 then 1 else 0))
    (hdead : nd.proc = none → nd'.localStrongRefs = 0 ∧ nd'.localWeakRefs = 0) :
    RefTables (s'.setRef r rf') := by
  obtain ⟨e, td, rfl, -, -⟩ := hkept
  have hproc : nd'.proc = nd.proc := congrArg Prod.fst hentries
  have hrefs : nd'.refs = nd.refs := congrArg (fun x => x.2.1) hentries
  have hmem : r ∈ nd.refs := (h.mem_refs hnd r).mpr ⟨rf, hrf, rfl⟩
  refine h.congr le_rfl rfl rfl rfl rfl (map_update_of_eq hrf hrf')
    (map_update_of_eq hnd hentries) ?_ ?_
  · intro m md hm
    have hholds : State.holdsStrong (State.setRef _ r rf') =
        fun r' => if r' = r then decide (rf'.strong ≠ 0) else s.holdsStrong r' :=
      funext fun r' => holdsStrong_update (s := { s with
        nodes := Function.update s.nodes rf.node (some { nd' with entry := e }), todo := td })
    rw [hholds]
    by_cases hmn : m = rf.node
    · subst hmn
      simp only [State.setRef, Function.update_self, Option.some.injEq] at hm
      subst hm
      have hcount := countP_change (f := s.holdsStrong)
        (g := fun r' => if r' = r then decide (rf'.strong ≠ 0) else s.holdsStrong r')
        (h.nodup hnd) hmem (fun x _ hx => by simp [hx])
      simp only [hrefs]
      rw [hstrong, hcount, h.strong hnd]
      simp [State.holdsStrong, hrf]
    · simp only [State.setRef, Function.update_of_ne hmn] at hm
      rw [h.strong hm]
      refine congrArg _ (List.countP_congr fun x hx => ?_)
      have hxr : x ≠ r := by
        rintro rfl
        obtain ⟨rf₁, hrf₁, hnode⟩ := (h.mem_refs hm x).mp hx
        obtain rfl : rf = rf₁ := by simpa [hrf] using hrf₁
        exact hmn hnode.symm
      simp [hxr]
  · intro m md hm hp
    by_cases hmn : m = rf.node
    · subst hmn
      simp only [State.setRef, Function.update_self, Option.some.injEq] at hm
      subst hm
      exact hdead (hproc ▸ hp)
    · simp only [State.setRef, Function.update_of_ne hmn] at hm
      exact (h.dead_refs hm hp).2

theorem RefTables.nodeFreed (h : RefTables s) (hnd : s.nodes n = some nd)
    (hfreed : NodeFreed s s' n nd') (hproc : nd'.proc = nd.proc) (hrefs : nd.refs = []) :
    RefTables s' := by
  obtain ⟨td, ns, dead, rfl, -, hsub, hns, hdead⟩ := hfreed
  have hnodes : ∀ {m md}, Function.update s.nodes n none m = some md ↔
      m ≠ n ∧ s.nodes m = some md := by
    intro m md
    by_cases hmn : m = n
    · simp [hmn]
    · simp [hmn]
  have hnone : ∀ {r rf}, s.refs r = some rf → rf.node ≠ n := by
    intro r rf hrf heq
    have := (h.mem_refs hnd r).mpr ⟨rf, hrf, heq⟩
    simp [hrefs] at this
  constructor
  case ref_lt => exact h.ref_lt
  case node_lt => exact fun hm => h.node_lt (hnodes.mp hm).2
  case byDesc => exact h.byDesc
  case byNode => exact h.byNode
  case sorted => exact h.sorted
  case node_inj => exact h.node_inj
  case nodup => exact fun hm => h.nodup (hnodes.mp hm).2
  case mem_refs => exact fun hm => h.mem_refs (hnodes.mp hm).2
  case ref_node =>
    intro r rf hrf
    obtain ⟨md, hmd⟩ := h.ref_node hrf
    exact ⟨md, hnodes.mpr ⟨hnone hrf, hmd⟩⟩
  case strong => exact fun hm => h.strong (hnodes.mp hm).2
  case nodesOf_nodup => exact fun p => (h.nodesOf_nodup p).sublist (hsub p)
  case nodesOf =>
    intro p m
    change m ∈ ns p ↔ _
    rw [hns, h.nodesOf]
    constructor
    · rintro ⟨⟨md, hmd, hp⟩, hor⟩
      refine ⟨md, hnodes.mpr ⟨?_, hmd⟩, hp⟩
      rintro rfl
      obtain rfl : nd = md := by simpa [hnd] using hmd
      rcases hor with hor | hor
      · exact hor rfl
      · exact hor (hproc.trans hp)
    · rintro ⟨md, hmd, hp⟩
      obtain ⟨hne, hmd⟩ := hnodes.mp hmd
      exact ⟨⟨md, hmd, hp⟩, .inl hne⟩
  case ptr_inj =>
    exact fun hm hm' => h.ptr_inj (hnodes.mp hm).2 (hnodes.mp hm').2
  case dead =>
    intro m
    change m ∈ dead ↔ _
    rw [hdead, h.dead]
    constructor
    · rintro ⟨⟨md, hmd, hp⟩, hor⟩
      refine ⟨md, hnodes.mpr ⟨?_, hmd⟩, hp⟩
      rintro rfl
      obtain rfl : nd = md := by simpa [hnd] using hmd
      rcases hor with hor | hor
      · exact hor rfl
      · exact hor (hproc.trans hp)
    · rintro ⟨md, hmd, hp⟩
      obtain ⟨hne, hmd⟩ := hnodes.mp hmd
      exact ⟨⟨md, hmd, hp⟩, .inl hne⟩
  case dead_refs => exact fun hm => h.dead_refs (hnodes.mp hm).2
  case desc_lt => exact h.desc_lt
  case ptr_lt => exact fun hm => h.ptr_lt (hnodes.mp hm).2

end Kept

/-! ### New nodes and references -/

section New

variable {s : State} {p : ProcId}

theorem pairwise_insertByKey {key : ℕ → ℕ} {x : ℕ} {l : List ℕ}
    (hl : l.Pairwise fun a b => key a < key b) (hx : ∀ y ∈ l, key y ≠ key x) :
    (insertByKey key x l).Pairwise fun a b => key a < key b := by
  induction l with
  | nil => simp [insertByKey]
  | cons y l ih =>
      obtain ⟨hy, hl⟩ := List.pairwise_cons.mp hl
      simp only [insertByKey]
      split
      · rename_i hlt
        refine List.pairwise_cons.mpr ⟨fun z hz => ?_, List.pairwise_cons.mpr ⟨hy, hl⟩⟩
        rcases List.mem_cons.mp hz with rfl | hz
        · exact hlt
        · exact hlt.trans (hy z hz)
      · rename_i hlt
        refine List.pairwise_cons.mpr ⟨fun z hz => ?_, ih hl fun z hz => hx z (by simp [hz])⟩
        rcases mem_insertByKey.mp hz with rfl | hz
        · have := hx y (by simp)
          omega
        · exact hy z hz

theorem nodup_insertByKey {key : ℕ → ℕ} {x : ℕ} {l : List ℕ} (hl : l.Nodup) (hx : x ∉ l) :
    (insertByKey key x l).Nodup := by
  induction l with
  | nil => simp [insertByKey]
  | cons y l ih =>
      simp only [List.mem_cons, not_or] at hx
      obtain ⟨hy, hl⟩ := List.nodup_cons.mp hl
      simp only [insertByKey]
      split
      · simp [hx, hy, hl]
      · refine List.nodup_cons.mpr ⟨fun hmem => ?_, ih hl hx.2⟩
        rcases mem_insertByKey.mp hmem with rfl | hmem
        · exact hx.1 rfl
        · exact hy hmem

theorem RefTables.addNode (h : RefTables s) {nd : Node} (hproc : nd.proc = some p)
    (hrefs : nd.refs = []) (hstrong : nd.internalStrongRefs = 0)
    (hget : binderGetNode s p nd.ptr = none) (hlt : nd.ptr < 256 ^ 8 ∧ nd.cookie < 256 ^ 8) :
    RefTables (addNode s p nd) := by
  have hfresh : s.nodes s.nextId = none := by
    by_contra hne
    obtain ⟨md, hmd⟩ := Option.ne_none_iff_exists'.mp hne
    exact absurd (h.node_lt hmd) (lt_irrefl _)
  have hnodes : ∀ {m md}, (Driver.addNode s p nd).nodes m = some md ↔
      (m = s.nextId ∧ md = nd) ∨ s.nodes m = some md := by
    intro m md
    change Function.update s.nodes s.nextId (some nd) m = some md ↔ _
    by_cases hm : m = s.nextId
    · subst hm
      simp [hfresh, eq_comm]
    · simp [hm]
  have hnone : ∀ {r rf}, s.refs r = some rf → rf.node ≠ s.nextId := by
    intro r rf hrf heq
    obtain ⟨md, hmd⟩ := h.ref_node hrf
    simp [heq, hfresh] at hmd
  have hnodesOf : ∀ q m, m ∈ (Driver.addNode s p nd).nodesOf q ↔
      (m = s.nextId ∧ q = p) ∨ m ∈ s.nodesOf q := by
    intro q m
    by_cases hq : q = p
    · subst hq
      simp [Driver.addNode, State.setNode, mem_insertByKey]
    · simp [Driver.addNode, State.setNode, hq]
  constructor
  case ref_lt => exact fun hr => (h.ref_lt hr).trans (Nat.lt_succ_self _)
  case node_lt =>
    intro m md hm
    rcases hnodes.mp hm with ⟨rfl, -⟩ | hm
    · exact Nat.lt_succ_self _
    · exact (h.node_lt hm).trans (Nat.lt_succ_self _)
  case byDesc => exact h.byDesc
  case byNode => exact h.byNode
  case sorted => exact h.sorted
  case node_inj => exact h.node_inj
  case nodup =>
    intro m md hm
    rcases hnodes.mp hm with ⟨-, rfl⟩ | hm
    · simp [hrefs]
    · exact h.nodup hm
  case mem_refs =>
    intro m md hm r
    rcases hnodes.mp hm with ⟨rfl, rfl⟩ | hm
    · rw [hrefs]
      constructor
      · simp
      · rintro ⟨rf, hrf, heq⟩
        exact absurd heq (hnone hrf)
    · exact h.mem_refs hm r
  case ref_node =>
    intro r rf hrf
    obtain ⟨md, hmd⟩ := h.ref_node hrf
    exact ⟨md, hnodes.mpr (.inr hmd)⟩
  case strong =>
    intro m md hm
    rcases hnodes.mp hm with ⟨-, rfl⟩ | hm
    · simp [hrefs, hstrong]
    · exact h.strong hm
  case nodesOf_nodup =>
    intro q
    by_cases hq : q = p
    · subst hq
      have hnew : s.nextId ∉ s.nodesOf q := by
        rw [h.nodesOf]
        rintro ⟨md, hmd, -⟩
        simp [hfresh] at hmd
      simpa [Driver.addNode, State.setNode] using nodup_insertByKey (h.nodesOf_nodup q) hnew
    · simpa [Driver.addNode, State.setNode, hq] using h.nodesOf_nodup q
  case nodesOf =>
    intro q m
    rw [hnodesOf, h.nodesOf]
    constructor
    · rintro (⟨rfl, rfl⟩ | ⟨md, hmd, hq⟩)
      · exact ⟨nd, hnodes.mpr (.inl ⟨rfl, rfl⟩), hproc⟩
      · exact ⟨md, hnodes.mpr (.inr hmd), hq⟩
    · rintro ⟨md, hmd, hq⟩
      rcases hnodes.mp hmd with ⟨rfl, rfl⟩ | hmd
      · exact .inl ⟨rfl, by simpa [hproc] using hq.symm⟩
      · exact .inr ⟨md, hmd, hq⟩
  case ptr_inj =>
    intro m m' md md' hm hm' hp hsome hptr
    rcases hnodes.mp hm with ⟨rfl, rfl⟩ | hold <;> rcases hnodes.mp hm' with ⟨rfl, rfl⟩ | hold'
    · rfl
    · exact absurd hptr.symm (h.getNode_none hget hold' (hp ▸ hproc))
    · exact absurd hptr (h.getNode_none hget hold (hp.trans hproc))
    · exact h.ptr_inj hold hold' hp hsome hptr
  case dead =>
    intro m
    refine (h.dead m).trans ⟨?_, ?_⟩
    · rintro ⟨md, hmd, hp⟩
      exact ⟨md, hnodes.mpr (.inr hmd), hp⟩
    · rintro ⟨md, hmd, hp⟩
      rcases hnodes.mp hmd with ⟨rfl, rfl⟩ | hmd
      · rw [hproc] at hp
        cases hp
      · exact ⟨md, hmd, hp⟩
  case dead_refs =>
    intro m md hm hp
    rcases hnodes.mp hm with ⟨rfl, rfl⟩ | hm
    · rw [hproc] at hp
      cases hp
    · exact h.dead_refs hm hp
  case desc_lt => exact h.desc_lt
  case ptr_lt =>
    intro m md hm
    rcases hnodes.mp hm with ⟨-, rfl⟩ | hm
    · exact hlt
    · exact h.ptr_lt hm

/-- The reference that `binder_get_ref_for_node` makes. -/
def newRefOf (s : State) (p : ProcId) (n : NodeId) : Ref where
  proc := p
  node := n
  desc := newDesc s p n
  strong := 0
  weak := 0
  death := none

theorem RefTables.mem_descs (h : RefTables s) {r : RefId} {rf : Ref} (hrf : s.refs r = some rf) :
    rf.desc ∈ s.descs rf.proc :=
  List.mem_filterMap.mpr ⟨r, (h.byDesc _ _).mpr ⟨rf, hrf, rfl⟩, by simp [hrf]⟩

theorem RefTables.refs_fresh (h : RefTables s) : s.refs s.nextId = none := by
  by_contra hne
  obtain ⟨rf, hrf⟩ := Option.ne_none_iff_exists'.mp hne
  exact absurd (h.ref_lt hrf) (lt_irrefl _)

theorem RefTables.addRef_refs (h : RefTables s) {n : NodeId} {nd : Node} {r : RefId} {rf : Ref} :
    (addRef s p n nd).refs r = some rf ↔
      (r = s.nextId ∧ rf = newRefOf s p n) ∨ s.refs r = some rf := by
  change Function.update s.refs s.nextId (some (newRefOf s p n)) r = some rf ↔ _
  by_cases hr : r = s.nextId
  · subst hr
    simp [h.refs_fresh, eq_comm]
  · simp [hr]

theorem addRef_nodes {n m : NodeId} {nd md : Node} :
    (addRef s p n nd).nodes m = some md ↔
      (m = n ∧ md = { nd with refs := s.nextId :: nd.refs }) ∨ (m ≠ n ∧ s.nodes m = some md) := by
  change Function.update s.nodes n _ m = some md ↔ _
  by_cases hm : m = n
  · subst hm
    simp [eq_comm]
  · simp [hm]

theorem freeDesc_lt {d : ℕ} (hd : d < 256 ^ 4) (xs : List ℕ) : freeDesc d xs < 256 ^ 4 := by
  induction xs generalizing d with
  | nil => exact hd
  | cons x xs ih =>
      simp only [freeDesc]
      split
      · exact hd
      · exact ih (Nat.mod_lt _ (by decide))

/-- The node `md` is the node `md₀` of before, with the new reference if it is that of `n`. -/
structure Enters (s : State) (n m : NodeId) (md₀ md : Node) : Prop where
  proc : md.proc = md₀.proc
  ptr : md.ptr = md₀.ptr
  cookie : md.cookie = md₀.cookie
  internal : md.internalStrongRefs = md₀.internalStrongRefs
  localStrong : md.localStrongRefs = md₀.localStrongRefs
  localWeak : md.localWeakRefs = md₀.localWeakRefs
  refs : md.refs = if m = n then s.nextId :: md₀.refs else md₀.refs

theorem addRef_node {n m : NodeId} {nd md : Node} (hnd : s.nodes n = some nd)
    (hm : (addRef s p n nd).nodes m = some md) :
    ∃ md₀, s.nodes m = some md₀ ∧ Enters s n m md₀ md := by
  rcases addRef_nodes.mp hm with ⟨rfl, rfl⟩ | ⟨hne, hm⟩
  · exact ⟨nd, hnd, rfl, rfl, rfl, rfl, rfl, rfl, by simp⟩
  · exact ⟨md, hm, rfl, rfl, rfl, rfl, rfl, rfl, by simp [hne]⟩

theorem addRef_node_kept {n m : NodeId} {nd md : Node} (hnd : s.nodes n = some nd)
    (hm : s.nodes m = some md) :
    ∃ md', (addRef s p n nd).nodes m = some md' ∧ md'.proc = md.proc := by
  by_cases hmn : m = n
  · subst hmn
    obtain rfl : nd = md := by simpa [hnd] using hm
    exact ⟨_, addRef_nodes.mpr (.inl ⟨rfl, rfl⟩), rfl⟩
  · exact ⟨md, addRef_nodes.mpr (.inr ⟨hmn, hm⟩), rfl⟩

theorem addRef_owned {n : NodeId} {nd : Node} (hnd : s.nodes n = some nd) (x : Option ProcId)
    (m : NodeId) : (∃ md, s.nodes m = some md ∧ md.proc = x) ↔
      ∃ md, (addRef s p n nd).nodes m = some md ∧ md.proc = x := by
  constructor
  · rintro ⟨md, hmd, hx⟩
    obtain ⟨md', hmd', hp⟩ := addRef_node_kept hnd hmd
    exact ⟨md', hmd', hp.trans hx⟩
  · rintro ⟨md, hmd, hx⟩
    obtain ⟨md₀, hmd₀, henters⟩ := addRef_node hnd hmd
    exact ⟨md₀, hmd₀, henters.proc.symm.trans hx⟩

theorem mem_update_insertByKey (l : ProcId → List RefId) (key : ℕ → ℕ) (q : ProcId) (r x : RefId) :
    r ∈ Function.update l p (insertByKey key x (l p)) q ↔ (r = x ∧ q = p) ∨ r ∈ l q := by
  by_cases hq : q = p
  · subst hq
    simp [mem_insertByKey]
  · simp [hq]

theorem RefTables.addRef_entered (h : RefTables s) {n : NodeId} {nd : Node} (q : ProcId)
    (r : RefId) : (r = s.nextId ∧ q = p) ∨ (∃ rf, s.refs r = some rf ∧ rf.proc = q) ↔
      ∃ rf, (addRef s p n nd).refs r = some rf ∧ rf.proc = q := by
  constructor
  · rintro (⟨rfl, rfl⟩ | ⟨rf, hrf, hq⟩)
    · exact ⟨newRefOf s q n, h.addRef_refs.mpr (.inl ⟨rfl, rfl⟩), rfl⟩
    · exact ⟨rf, h.addRef_refs.mpr (.inr hrf), hq⟩
  · rintro ⟨rf, hrf, hq⟩
    rcases h.addRef_refs.mp hrf with ⟨rfl, rfl⟩ | hrf
    · exact .inl ⟨rfl, hq.symm⟩
    · exact .inr ⟨rf, hrf, hq⟩

theorem RefTables.ne_fresh (h : RefTables s) {q : ProcId} {r : RefId} (hr : r ∈ s.refsByDesc q) :
    r ≠ s.nextId := by
  intro heq
  obtain ⟨rf, hrf, -⟩ := (h.byDesc q r).mp hr
  rw [heq, h.refs_fresh] at hrf
  cases hrf

theorem RefTables.fresh_not_mem (h : RefTables s) {m : NodeId} {md : Node}
    (hm : s.nodes m = some md) : s.nextId ∉ md.refs := by
  intro hin
  obtain ⟨rf, hrf, -⟩ := (h.mem_refs hm _).mp hin
  rw [h.refs_fresh] at hrf
  cases hrf

theorem addRef_descOf {n : NodeId} {nd : Node} {r : RefId} (hr : r ≠ s.nextId) :
    (addRef s p n nd).descOf r = s.descOf r := by
  simp [State.descOf, addRef, State.setNode, State.setRef, hr]

theorem addRef_descOf_new {n : NodeId} {nd : Node} :
    (addRef s p n nd).descOf s.nextId = newDesc s p n := by
  simp [State.descOf, addRef, State.setNode, State.setRef]

theorem RefTables.addRef_sorted (h : RefTables s) {n : NodeId} {nd : Node}
    (hdesc : newDesc s p n ∉ s.descs p) (q : ProcId) :
    ((addRef s p n nd).refsByDesc q).Pairwise fun r r' =>
      (addRef s p n nd).descOf r < (addRef s p n nd).descOf r' := by
  by_cases hq : q = p
  · subst hq
    have hbase : (s.refsByDesc q).Pairwise fun r r' =>
        (Driver.addRef s q n nd).descOf r < (Driver.addRef s q n nd).descOf r' :=
      (h.sorted q).imp_of_mem fun ha hb hab => by
        rwa [addRef_descOf (h.ne_fresh ha), addRef_descOf (h.ne_fresh hb)]
    have hins := pairwise_insertByKey (x := s.nextId) hbase ?_
    · convert hins using 1
      simp only [Driver.addRef, Function.update_self]
      rfl
    · intro r hr heq
      rw [addRef_descOf (h.ne_fresh hr), addRef_descOf_new] at heq
      obtain ⟨rf, hrf, hproc⟩ := (h.byDesc q r).mp hr
      have := h.mem_descs hrf
      rw [hproc] at this
      refine hdesc (heq ▸ ?_)
      simpa [State.descOf, hrf] using this
  · have heq : (Driver.addRef s p n nd).refsByDesc q = s.refsByDesc q := by
      simp [Driver.addRef, State.setNode, State.setRef, Function.update_of_ne hq]
    rw [heq]
    exact (h.sorted q).imp_of_mem fun ha hb hab => by
      rwa [addRef_descOf (h.ne_fresh ha), addRef_descOf (h.ne_fresh hb)]

theorem RefTables.addRef_memRefs (h : RefTables s) {n m : NodeId} {nd md : Node}
    (hnd : s.nodes n = some nd) (hm : (addRef s p n nd).nodes m = some md) (r : RefId) :
    r ∈ md.refs ↔ ∃ rf, (addRef s p n nd).refs r = some rf ∧ rf.node = m := by
  obtain ⟨md₀, hmd₀, henters⟩ := addRef_node hnd hm
  have hin : r ∈ md.refs ↔ (r = s.nextId ∧ m = n) ∨ r ∈ md₀.refs := by
    rw [henters.refs]
    split <;> simp_all
  rw [hin, h.mem_refs hmd₀]
  constructor
  · rintro (⟨rfl, rfl⟩ | ⟨rf, hrf, hn⟩)
    · exact ⟨newRefOf s p m, h.addRef_refs.mpr (.inl ⟨rfl, rfl⟩), rfl⟩
    · exact ⟨rf, h.addRef_refs.mpr (.inr hrf), hn⟩
  · rintro ⟨rf, hrf, hn⟩
    rcases h.addRef_refs.mp hrf with ⟨rfl, rfl⟩ | hrf
    · exact .inl ⟨rfl, hn.symm⟩
    · exact .inr ⟨rf, hrf, hn⟩

/-- The new reference has no strong count yet. -/
theorem RefTables.addRef_strong (h : RefTables s) {n m : NodeId} {nd md : Node}
    (hnd : s.nodes n = some nd) (hm : (addRef s p n nd).nodes m = some md) :
    md.internalStrongRefs = md.refs.countP (addRef s p n nd).holdsStrong := by
  obtain ⟨md₀, hmd₀, henters⟩ := addRef_node hnd hm
  have hnew : (Driver.addRef s p n nd).holdsStrong s.nextId = false := by
    simp [State.holdsStrong, Driver.addRef, State.setNode, State.setRef]
  have hcount : md₀.refs.countP (Driver.addRef s p n nd).holdsStrong =
      md₀.refs.countP s.holdsStrong := by
    refine List.countP_congr fun x hx => ?_
    have hxr : x ≠ s.nextId := fun heq => h.fresh_not_mem hmd₀ (heq ▸ hx)
    simp [State.holdsStrong, Driver.addRef, State.setNode, State.setRef, hxr]
  rw [henters.internal, h.strong hmd₀, henters.refs, ← hcount]
  split
  · rw [List.countP_cons, hnew]
    simp
  · rfl

theorem RefTables.addRef (h : RefTables s) {n : NodeId} {nd : Node} (hnd : s.nodes n = some nd)
    (hfind : findRefForNode s p n = none) (hdesc : newDesc s p n ∉ s.descs p) :
    RefTables (addRef s p n nd) := by
  have hrefs := @RefTables.addRef_refs s p h n nd
  constructor
  case ref_lt =>
    intro r rf hrf
    rcases hrefs.mp hrf with ⟨rfl, -⟩ | hrf
    · exact Nat.lt_succ_self _
    · exact (h.ref_lt hrf).trans (Nat.lt_succ_self _)
  case node_lt =>
    intro m md hm
    obtain ⟨md₀, hmd₀, -⟩ := addRef_node hnd hm
    exact (h.node_lt hmd₀).trans (Nat.lt_succ_self _)
  case byDesc =>
    exact fun q r => (mem_update_insertByKey s.refsByDesc _ q r s.nextId).trans
      ((or_congr_right (h.byDesc q r)).trans (h.addRef_entered q r))
  case byNode =>
    exact fun q r => (mem_update_insertByKey s.refsByNode _ q r s.nextId).trans
      ((or_congr_right (h.byNode q r)).trans (h.addRef_entered q r))
  case sorted => exact h.addRef_sorted hdesc
  case node_inj =>
    intro r r' rf rf' hr hr' hp hn
    rcases hrefs.mp hr with ⟨rfl, rfl⟩ | hr <;> rcases hrefs.mp hr' with ⟨rfl, rfl⟩ | hr'
    · rfl
    · exact absurd hn.symm (h.findRef_none hfind hr' hp.symm)
    · exact absurd hn (h.findRef_none hfind hr hp)
    · exact h.node_inj hr hr' hp hn
  case nodup =>
    intro m md hm
    obtain ⟨md₀, hmd₀, henters⟩ := addRef_node hnd hm
    rw [henters.refs]
    split
    · exact List.nodup_cons.mpr ⟨h.fresh_not_mem hmd₀, h.nodup hmd₀⟩
    · exact h.nodup hmd₀
  case mem_refs => exact fun hm => h.addRef_memRefs hnd hm
  case ref_node =>
    intro r rf hrf
    rcases hrefs.mp hrf with ⟨rfl, rfl⟩ | hrf
    · obtain ⟨md, hmd, -⟩ := addRef_node_kept hnd hnd
      exact ⟨md, hmd⟩
    · obtain ⟨md₀, hmd₀⟩ := h.ref_node hrf
      obtain ⟨md, hmd, -⟩ := addRef_node_kept hnd hmd₀
      exact ⟨md, hmd⟩
  case strong => exact fun hm => h.addRef_strong hnd hm
  case nodesOf => exact fun q m => (h.nodesOf q m).trans (addRef_owned hnd (some q) m)
  case nodesOf_nodup => exact h.nodesOf_nodup
  case ptr_inj =>
    intro m m' md md' hm hm' hp hsome hptr
    obtain ⟨md₁, hmd₁, hent₁⟩ := addRef_node hnd hm
    obtain ⟨md₂, hmd₂, hent₂⟩ := addRef_node hnd hm'
    exact h.ptr_inj hmd₁ hmd₂ (by rw [← hent₁.proc, ← hent₂.proc, hp])
      (by rw [← hent₁.proc]; exact hsome) (by rw [← hent₁.ptr, ← hent₂.ptr, hptr])
  case dead => exact fun m => (h.dead m).trans (addRef_owned hnd none m)
  case dead_refs =>
    intro m md hm hp
    obtain ⟨md₀, hmd₀, henters⟩ := addRef_node hnd hm
    obtain ⟨hne, h₁, h₂⟩ := h.dead_refs hmd₀ (henters.proc.symm.trans hp)
    refine ⟨?_, henters.localStrong.trans h₁, henters.localWeak.trans h₂⟩
    rw [henters.refs]
    split
    · simp
    · exact hne
  case desc_lt =>
    intro r rf hrf
    rcases hrefs.mp hrf with ⟨rfl, rfl⟩ | hrf
    · exact freeDesc_lt (by split <;> decide) _
    · exact h.desc_lt hrf
  case ptr_lt =>
    intro m md hm
    obtain ⟨md₀, hmd₀, henters⟩ := addRef_node hnd hm
    exact henters.ptr ▸ henters.cookie ▸ h.ptr_lt hmd₀

end New

/-! ### References and nodes that go away -/

section Gone

variable {s s' : State} {r : RefId} {rf : Ref} {nd : Node}

theorem Node.freeable_of_dead {nd : Node} (hproc : nd.proc = none) (hrefs : nd.refs = [])
    (hstrong : nd.localStrongRefs = 0) (hweak : nd.localWeakRefs = 0) : nd.freeable false :=
  ⟨by simp [Node.held, hweak, hrefs], hrefs, hstrong, hweak, .inl hproc⟩

/-- A node after the reference `r` to the node `nd` went: another one, or `nd` without it. -/
inductive LeftNode (s : State) (r : RefId) (rf : Ref) (nd : Node) (m : NodeId) (md : Node) : Prop
  | other (hne : m ≠ rf.node) (hm : s.nodes m = some md)
  | kept (e : Option Queue) (hm : m = rf.node) (hmd : md = { nd.dropRef r rf with entry := e })
      (hfree : ¬ (nd.dropRef r rf).freeable false)

theorem RefDeleted.refs (hdel : RefDeleted s s' r rf nd) {q : RefId} {rf' : Ref} :
    s'.refs q = some rf' ↔ q ≠ r ∧ s.refs q = some rf' := by
  obtain ⟨x, td, ns, dead, deaths, rfl, -⟩ := hdel
  by_cases hq : q = r
  · simp [hq]
  · simp [hq]

theorem RefDeleted.left (hdel : RefDeleted s s' r rf nd) {m : NodeId} {md : Node}
    (hm : s'.nodes m = some md) : LeftNode s r rf nd m md := by
  obtain ⟨x, td, ns, dead, deaths, rfl, hx, -⟩ := hdel
  by_cases hmn : m = rf.node
  · subst hmn
    rcases hx with ⟨e, rfl, hfree, -⟩ | ⟨rfl, -⟩
    · simp only [Function.update_self, Option.some.injEq] at hm
      exact .kept e rfl hm.symm hfree
    · simp at hm
  · exact .other hmn (by simpa [Function.update_of_ne hmn] using hm)

theorem RefDeleted.holdsStrong (hdel : RefDeleted s s' r rf nd) {q : RefId} (hq : q ≠ r) :
    s'.holdsStrong q = s.holdsStrong q := by
  obtain ⟨x, td, ns, dead, deaths, rfl, -⟩ := hdel
  simp [State.holdsStrong, hq]

/-- The reference was in the lists of its process only, and is filtered out of them. -/
theorem RefDeleted.mem_lists (hdel : RefDeleted s s' r rf nd) (hrf : s.refs r = some rf)
    {l : ProcId → List RefId} (hl : ∀ p q, q ∈ l p ↔ ∃ rf, s.refs q = some rf ∧ rf.proc = p)
    (p : ProcId) (q : RefId) :
    q ∈ Function.update l rf.proc ((l rf.proc).filter (· ≠ r)) p ↔
      ∃ rf', s'.refs q = some rf' ∧ rf'.proc = p := by
  have hin : q ∈ Function.update l rf.proc ((l rf.proc).filter (· ≠ r)) p ↔
      q ∈ l p ∧ (q ≠ r ∨ p ≠ rf.proc) := by
    by_cases hp : p = rf.proc
    · subst hp
      simp
    · simp [hp]
  rw [hin, hl]
  constructor
  · rintro ⟨⟨rf', hrf', hp⟩, hor⟩
    refine ⟨rf', hdel.refs.mpr ⟨?_, hrf'⟩, hp⟩
    rintro rfl
    obtain rfl : rf = rf' := by simpa [hrf] using hrf'
    exact hor.elim (fun h => h rfl) fun h => h hp.symm
  · rintro ⟨rf', hrf', hp⟩
    obtain ⟨hne, hrf'⟩ := hdel.refs.mp hrf'
    exact ⟨⟨rf', hrf', hp⟩, .inl hne⟩

theorem RefDeleted.byDesc (hdel : RefDeleted s s' r rf nd) : s'.refsByDesc =
    Function.update s.refsByDesc rf.proc ((s.refsByDesc rf.proc).filter (· ≠ r)) := by
  obtain ⟨x, td, ns, dead, deaths, rfl, -⟩ := hdel
  rfl

theorem RefDeleted.byNode (hdel : RefDeleted s s' r rf nd) : s'.refsByNode =
    Function.update s.refsByNode rf.proc ((s.refsByNode rf.proc).filter (· ≠ r)) := by
  obtain ⟨x, td, ns, dead, deaths, rfl, -⟩ := hdel
  rfl

theorem RefDeleted.sorted (hdel : RefDeleted s s' r rf nd) (h : RefTables s)
    (hrf : s.refs r = some rf) (p : ProcId) :
    (s'.refsByDesc p).Pairwise fun r r' => s'.descOf r < s'.descOf r' := by
  have hsub : (s'.refsByDesc p).Sublist (s.refsByDesc p) := by
    rw [hdel.byDesc]
    by_cases hp : p = rf.proc
    · subst hp
      simp
    · simp [hp]
  have hdesc (a : RefId) (ha : a ∈ s'.refsByDesc p) : s'.descOf a = s.descOf a := by
    rw [hdel.byDesc] at ha
    obtain ⟨rf', hrf', -⟩ := (hdel.mem_lists hrf h.byDesc p a).mp ha
    rw [State.descOf, State.descOf, hrf', (hdel.refs.mp hrf').2]
  exact ((h.sorted p).sublist hsub).imp_of_mem fun ha hb hab => by
    rwa [hdesc _ ha, hdesc _ hb]

theorem RefDeleted.mem_refs (hdel : RefDeleted s s' r rf nd) (h : RefTables s)
    (hrf : s.refs r = some rf) (hnd : s.nodes rf.node = some nd) {m : NodeId} {md : Node}
    (hm : s'.nodes m = some md) (q : RefId) :
    q ∈ md.refs ↔ ∃ rf', s'.refs q = some rf' ∧ rf'.node = m := by
  cases hdel.left hm with
  | other hne hm =>
      rw [h.mem_refs hm]
      constructor
      · rintro ⟨rf', hrf', hn⟩
        refine ⟨rf', hdel.refs.mpr ⟨?_, hrf'⟩, hn⟩
        rintro rfl
        obtain rfl : rf = rf' := by simpa [hrf] using hrf'
        exact hne hn.symm
      · rintro ⟨rf', hrf', hn⟩
        exact ⟨rf', (hdel.refs.mp hrf').2, hn⟩
  | kept e hmn hmd hfree =>
      subst hmn hmd
      have hin : q ∈ nd.refs.filter (· ≠ r) ↔ q ∈ nd.refs ∧ q ≠ r := by simp
      refine hin.trans ?_
      rw [h.mem_refs hnd]
      constructor
      · rintro ⟨⟨rf', hrf', hn⟩, hq⟩
        exact ⟨rf', hdel.refs.mpr ⟨hq, hrf'⟩, hn⟩
      · rintro ⟨rf', hrf', hn⟩
        exact ⟨⟨rf', (hdel.refs.mp hrf').2, hn⟩, (hdel.refs.mp hrf').1⟩

/-- A node goes only with its last reference. -/
theorem RefDeleted.ref_node (hdel : RefDeleted s s' r rf nd) (h : RefTables s)
    (hnd : s.nodes rf.node = some nd) {q : RefId} {rf' : Ref} (hrf' : s'.refs q = some rf') :
    ∃ md, s'.nodes rf'.node = some md := by
  obtain ⟨hq, hold⟩ := hdel.refs.mp hrf'
  obtain ⟨md, hmd⟩ := h.ref_node hold
  obtain ⟨x, td, ns, dead, deaths, rfl, hx, -⟩ := hdel
  by_cases hn : rf'.node = rf.node
  · rcases hx with ⟨e, rfl, -⟩ | ⟨-, hfree, -⟩
    · exact ⟨_, by rw [hn]; exact Function.update_self ..⟩
    · have hin : q ∈ nd.refs := (h.mem_refs hnd q).mpr ⟨rf', hold, hn⟩
      have hin' : q ∈ (nd.dropRef r rf).refs := by
        simp only [Node.dropRef, List.mem_filter]
        exact ⟨hin, by simpa using hq⟩
      rw [hfree.2.1] at hin'
      cases hin'
  · exact ⟨md, by simpa [Function.update_of_ne hn] using hmd⟩

/-- The node gives up the strong count that the reference had of it. -/
theorem RefDeleted.strong (hdel : RefDeleted s s' r rf nd) (h : RefTables s)
    (hrf : s.refs r = some rf) (hnd : s.nodes rf.node = some nd) {m : NodeId} {md : Node}
    (hm : s'.nodes m = some md) : md.internalStrongRefs = md.refs.countP s'.holdsStrong := by
  cases hdel.left hm with
  | other hne hm =>
      rw [h.strong hm]
      refine congrArg _ (List.countP_congr fun q hq => ?_)
      rw [hdel.holdsStrong]
      rintro rfl
      obtain ⟨rf', hrf', hn⟩ := (h.mem_refs hm q).mp hq
      obtain rfl : rf = rf' := by simpa [hrf] using hrf'
      exact hne hn.symm
  | kept e hmn hmd hfree =>
      subst hmn hmd
      have hmemRef : r ∈ nd.refs := (h.mem_refs hnd r).mpr ⟨rf, hrf, rfl⟩
      have hcount : (nd.refs.filter (· ≠ r)).countP s'.holdsStrong =
          (nd.refs.filter (· ≠ r)).countP s.holdsStrong :=
        List.countP_congr fun q hq => by
          rw [hdel.holdsStrong (by simpa using (List.mem_filter.mp hq).2)]
      change (nd.dropRef r rf).internalStrongRefs =
        ((nd.refs.filter (· ≠ r)).countP s'.holdsStrong : ℕ)
      rw [hcount, countP_filter_ne (h.nodup hnd) hmemRef]
      simp only [Node.dropRef, h.strong hnd, State.holdsStrong, hrf, Option.any_some]
      by_cases hz : rf.strong = 0
      · simp [hz]
      · simp [hz]

/-- A list of the nodes of one owner, once the node of the reference is kept or freed. -/
theorem owned_update {x : Option Node} (hnd : s.nodes rf.node = some nd) {y : Option ProcId}
    {l l' : List NodeId} (hl : ∀ m, m ∈ l ↔ ∃ md, s.nodes m = some md ∧ md.proc = y)
    (hcase : (x = none ∧ ∀ m, m ∈ l' ↔ m ∈ l ∧ (m ≠ rf.node ∨ nd.proc ≠ y)) ∨
      (∃ md, x = some md ∧ md.proc = nd.proc) ∧ l' = l) (m : NodeId) :
    m ∈ l' ↔ ∃ md, Function.update s.nodes rf.node x m = some md ∧ md.proc = y := by
  by_cases hmn : m = rf.node
  · subst hmn
    rcases hcase with ⟨rfl, hl'⟩ | ⟨⟨md, rfl, hproc⟩, rfl⟩
    · rw [hl', hl]
      simp [hnd]
    · rw [hl]
      simp [hnd, hproc]
  · rw [Function.update_of_ne hmn]
    rcases hcase with ⟨-, hl'⟩ | ⟨-, rfl⟩
    · rw [hl', hl]
      simp [hmn]
    · exact hl m

theorem RefDeleted.nodesOf (hdel : RefDeleted s s' r rf nd) (h : RefTables s)
    (hnd : s.nodes rf.node = some nd) (p : ProcId) :
    (∀ m, m ∈ s'.nodesOf p ↔ ∃ md, s'.nodes m = some md ∧ md.proc = some p) ∧
      (s'.nodesOf p).Nodup := by
  obtain ⟨x, td, ns, dead, deaths, rfl, hx, -⟩ := hdel
  constructor
  · refine owned_update hnd (h.nodesOf p) ?_
    rcases hx with ⟨e, rfl, -, rfl, -⟩ | ⟨rfl, -, -, hns, -⟩
    · exact .inr ⟨⟨_, rfl, rfl⟩, rfl⟩
    · exact .inl ⟨rfl, hns p⟩
  · rcases hx with ⟨e, rfl, -, rfl, -⟩ | ⟨rfl, -, hsub, -⟩
    · exact h.nodesOf_nodup p
    · exact (h.nodesOf_nodup p).sublist (hsub p)

theorem RefDeleted.dead (hdel : RefDeleted s s' r rf nd) (h : RefTables s)
    (hnd : s.nodes rf.node = some nd) (m : NodeId) :
    m ∈ s'.deadNodes ↔ ∃ md, s'.nodes m = some md ∧ md.proc = none := by
  obtain ⟨x, td, ns, dead, deaths, rfl, hx, -⟩ := hdel
  refine owned_update hnd h.dead ?_ m
  rcases hx with ⟨e, rfl, -, -, rfl, -⟩ | ⟨rfl, -, -, -, hdead, -⟩
  · exact .inr ⟨⟨_, rfl, rfl⟩, rfl⟩
  · exact .inl ⟨rfl, hdead⟩

theorem LeftNode.before {m : NodeId} {md : Node} (hleft : LeftNode s r rf nd m md)
    (hnd : s.nodes rf.node = some nd) : ∃ md₀, s.nodes m = some md₀ ∧ md.proc = md₀.proc ∧
      md.ptr = md₀.ptr ∧ md.cookie = md₀.cookie := by
  cases hleft with
  | other hne hm => exact ⟨md, hm, rfl, rfl, rfl⟩
  | kept e hmn hmd hfree =>
      subst hmn hmd
      exact ⟨nd, hnd, rfl, rfl, rfl⟩

theorem RefTables.refDeleted (h : RefTables s) (hrf : s.refs r = some rf)
    (hnd : s.nodes rf.node = some nd) (hdel : RefDeleted s s' r rf nd) : RefTables s' := by
  have hnext : s'.nextId = s.nextId := by
    obtain ⟨x, td, ns, dead, deaths, rfl, -⟩ := hdel
    rfl
  constructor
  case ref_lt => exact fun hq => hnext ▸ h.ref_lt (hdel.refs.mp hq).2
  case node_lt =>
    intro m md hm
    obtain ⟨md₀, hm₀, -⟩ := (hdel.left hm).before hnd
    exact hnext ▸ h.node_lt hm₀
  case byDesc => exact hdel.byDesc ▸ hdel.mem_lists hrf h.byDesc
  case byNode => exact hdel.byNode ▸ hdel.mem_lists hrf h.byNode
  case sorted => exact hdel.sorted h hrf
  case node_inj => exact fun h₁ h₂ => h.node_inj (hdel.refs.mp h₁).2 (hdel.refs.mp h₂).2
  case nodup =>
    intro m md hm
    cases hdel.left hm with
    | other hne hm => exact h.nodup hm
    | kept e hmn hmd hfree =>
        subst hmd
        exact (h.nodup hnd).filter _
  case mem_refs => exact fun hm => hdel.mem_refs h hrf hnd hm
  case ref_node => exact fun hrf' => hdel.ref_node h hnd hrf'
  case strong => exact fun hm => hdel.strong h hrf hnd hm
  case nodesOf => exact fun p => (hdel.nodesOf h hnd p).1
  case nodesOf_nodup => exact fun p => (hdel.nodesOf h hnd p).2
  case ptr_inj =>
    intro m m' md md' hm hm' hp hsome hptr
    obtain ⟨md₁, h₁, hp₁, hptr₁, -⟩ := (hdel.left hm).before hnd
    obtain ⟨md₂, h₂, hp₂, hptr₂, -⟩ := (hdel.left hm').before hnd
    exact h.ptr_inj h₁ h₂ (by rw [← hp₁, ← hp₂, hp]) (by rw [← hp₁]; exact hsome)
      (by rw [← hptr₁, ← hptr₂, hptr])
  case dead => exact hdel.dead h hnd
  case dead_refs =>
    intro m md hm hp
    cases hdel.left hm with
    | other hne hm => exact h.dead_refs hm hp
    | kept e hmn hmd hfree =>
        subst hmd
        obtain ⟨-, h₁, h₂⟩ := h.dead_refs hnd hp
        exact ⟨fun hnil => hfree (Node.freeable_of_dead hp hnil h₁ h₂), h₁, h₂⟩
  case desc_lt => exact fun hq => h.desc_lt (hdel.refs.mp hq).2
  case ptr_lt =>
    intro m md hm
    obtain ⟨md₀, hm₀, -, hptr, hcookie⟩ := (hdel.left hm).before hnd
    exact hptr ▸ hcookie ▸ h.ptr_lt hm₀

/-- What is left of a node whose owner goes away. -/
def Node.orphaned (nd : Node) : Node :=
  { nd with proc := none, localStrongRefs := 0, localWeakRefs := 0 }

/-- The state after the node `nd` at `n` lost its owner `p`: it is freed, or kept
among the dead nodes for its references. -/
def orphan (s : State) (p : ProcId) (n : NodeId) (nd : Node) : State :=
  let s := { s with
    nodesOf := Function.update s.nodesOf p ((s.nodesOf p).filter (· ≠ n)) }
  if nd.refs.isEmpty then { s with nodes := Function.update s.nodes n none }
  else { s.setNode n nd.orphaned with deadNodes := n :: s.deadNodes }

theorem RefTables.orphan (h : RefTables s) {p : ProcId} {n : NodeId} {nd : Node}
    (hnd : s.nodes n = some nd) (hproc : nd.proc = some p) (hidle : ∀ q, .node n ∉ s.todo q) :
    RefTables (orphan s p n nd) := by
  have hmem : ∀ q m, m ∈ Function.update s.nodesOf p ((s.nodesOf p).filter (· ≠ n)) q ↔
      m ∈ s.nodesOf q ∧ (m ≠ n ∨ nd.proc ≠ some q) := by
    intro q m
    by_cases hq : q = p
    · subst hq
      simp [hproc]
    · have : p ≠ q := fun heq => hq heq.symm
      simp [hq, hproc, this]
  have hsub : ∀ q, List.Sublist (Function.update s.nodesOf p ((s.nodesOf p).filter (· ≠ n)) q)
      (s.nodesOf q) := by
    intro q
    by_cases hq : q = p
    · subst hq
      simp
    · simp [hq]
  by_cases hrefs : nd.refs = []
  · refine h.nodeFreed hnd ?_ rfl hrefs
    refine ⟨s.todo, _, s.deadNodes, ?_, ⟨fun _ _ _ => Iff.rfl, fun _ q hm => absurd hm (hidle q)⟩,
      hsub, hmem, ?_⟩
    · simp [Driver.orphan, hrefs]
    · simp [hproc]
  · have hs' : Driver.orphan s p n nd = { s with
        nodesOf := Function.update s.nodesOf p ((s.nodesOf p).filter (· ≠ n))
        nodes := Function.update s.nodes n (some nd.orphaned)
        deadNodes := n :: s.deadNodes } := by
      simp [Driver.orphan, hrefs, State.setNode]
    rw [hs']
    have hnodes : ∀ {m md}, Function.update s.nodes n (some nd.orphaned) m = some md →
        (m ≠ n ∧ s.nodes m = some md) ∨ (m = n ∧ md = nd.orphaned) := by
      intro m md hm
      by_cases hmn : m = n
      · subst hmn
        simp only [Function.update_self, Option.some.injEq] at hm
        exact .inr ⟨rfl, hm.symm⟩
      · rw [Function.update_of_ne hmn] at hm
        exact .inl ⟨hmn, hm⟩
    have hback : ∀ {m md}, Function.update s.nodes n (some nd.orphaned) m = some md →
        ∃ md₀, s.nodes m = some md₀ ∧ md.refs = md₀.refs ∧
          md.internalStrongRefs = md₀.internalStrongRefs := by
      intro m md hm
      rcases hnodes hm with ⟨-, hm⟩ | ⟨rfl, rfl⟩
      · exact ⟨md, hm, rfl, rfl⟩
      · exact ⟨nd, hnd, rfl, rfl⟩
    have hother : ∀ {m md}, m ≠ n → s.nodes m = some md →
        Function.update s.nodes n (some nd.orphaned) m = some md :=
      fun hmn hm => (Function.update_of_ne hmn ..).trans hm
    constructor
    case ref_lt => exact h.ref_lt
    case node_lt =>
      intro m md hm
      obtain ⟨md₀, hm₀, _⟩ := hback hm
      exact h.node_lt hm₀
    case byDesc => exact h.byDesc
    case byNode => exact h.byNode
    case sorted => exact h.sorted
    case node_inj => exact h.node_inj
    case nodup =>
      intro m md hm
      obtain ⟨md₀, hm₀, hr, _⟩ := hback hm
      exact hr ▸ h.nodup hm₀
    case mem_refs =>
      intro m md hm
      obtain ⟨md₀, hm₀, hr, _⟩ := hback hm
      exact hr ▸ h.mem_refs hm₀
    case ref_node =>
      intro r rf hrf
      obtain ⟨md, hmd⟩ := h.ref_node hrf
      by_cases hmn : rf.node = n
      · exact ⟨nd.orphaned, by rw [hmn]; exact Function.update_self ..⟩
      · exact ⟨md, hother hmn hmd⟩
    case strong =>
      intro m md hm
      obtain ⟨md₀, hm₀, hr, hi⟩ := hback hm
      rw [hi, hr]
      exact h.strong hm₀
    case nodesOf_nodup => exact fun q => (h.nodesOf_nodup q).sublist (hsub q)
    case nodesOf =>
      intro q m
      refine (hmem q m).trans ?_
      rw [h.nodesOf]
      constructor
      · rintro ⟨⟨md, hmd, hq⟩, hor⟩
        refine ⟨md, hother ?_ hmd, hq⟩
        rintro rfl
        obtain rfl : nd = md := by simpa [hnd] using hmd
        exact hor.elim (fun h => h rfl) fun h => h hq
      · rintro ⟨md, hmd, hq⟩
        rcases hnodes hmd with ⟨hmn, hmd⟩ | ⟨-, rfl⟩
        · exact ⟨⟨md, hmd, hq⟩, .inl hmn⟩
        · cases hq
    case ptr_inj =>
      intro m m' md md' hm hm' hp hsome hptr
      rcases hnodes hm with ⟨-, hm⟩ | ⟨-, rfl⟩
      · rcases hnodes hm' with ⟨-, hm'⟩ | ⟨-, rfl⟩
        · exact h.ptr_inj hm hm' hp hsome hptr
        · exact absurd hp hsome
      · exact absurd rfl hsome
    case dead =>
      intro m
      rw [List.mem_cons, h.dead]
      constructor
      · rintro (rfl | ⟨md, hmd, hp⟩)
        · exact ⟨nd.orphaned, Function.update_self .., rfl⟩
        · refine ⟨md, hother ?_ hmd, hp⟩
          rintro rfl
          obtain rfl : nd = md := by simpa [hnd] using hmd
          rw [hproc] at hp
          cases hp
      · rintro ⟨md, hmd, hp⟩
        rcases hnodes hmd with ⟨-, hmd⟩ | ⟨rfl, -⟩
        · exact .inr ⟨md, hmd, hp⟩
        · exact .inl rfl
    case dead_refs =>
      intro m md hm hp
      rcases hnodes hm with ⟨-, hm⟩ | ⟨-, rfl⟩
      · exact h.dead_refs hm hp
      · exact ⟨hrefs, rfl, rfl⟩
    case desc_lt => exact h.desc_lt
    case ptr_lt =>
      intro m md hm
      rcases hnodes hm with ⟨-, hm⟩ | ⟨rfl, rfl⟩
      · exact h.ptr_lt hm
      · have hlt : nd.ptr < 256 ^ 8 ∧ nd.cookie < 256 ^ 8 := h.ptr_lt hnd
        exact hlt

end Gone

end Driver

end BinderForLinux
