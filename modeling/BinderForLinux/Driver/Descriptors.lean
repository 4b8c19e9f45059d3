import BinderForLinux.Driver.Refs.Runs
import Mathlib.Order.Bounds.Basic

/-!
# The least free descriptor

`binder_get_ref_for_node` on the trees themselves: it looks for the node in one of them, links the
new reference there, goes through the other one in order for a descriptor and links it there too.
The lists of the state are what the trees have in order.
-/

namespace BinderForLinux

namespace Driver

open Library

variable {s s' : State} {p : ProcId} {n : NodeId} {r : RefId} {rf : Ref} {b d : ℕ} {xs : List ℕ}

/-! ### Going through the descriptors -/

/-- From a descriptor on that no other one is below, the first free one is found, if the
descriptors do not go beyond 32 bits. -/
theorem freeDesc_least (hxs : xs.Pairwise (· < ·)) (hle : ∀ x ∈ xs, d ≤ x)
    (hlt : d + xs.length < 2 ^ 32) : IsLeast {e | d ≤ e ∧ e ∉ xs} (freeDesc d xs) := by
  induction xs generalizing d with
  | nil => exact ⟨⟨le_rfl, List.not_mem_nil⟩, fun e he => he.1⟩
  | cons x xs ih =>
      obtain ⟨hx, hrest⟩ := List.pairwise_cons.mp hxs
      rw [List.length_cons] at hlt
      unfold freeDesc
      split
      · rename_i hdx
        refine ⟨⟨le_rfl, fun hmem => ?_⟩, fun e he => he.1⟩
        rcases List.mem_cons.mp hmem with rfl | hmem
        · exact lt_irrefl _ hdx
        · exact lt_irrefl _ (hdx.trans (hx d hmem))
      · rename_i hdx
        obtain rfl : d = x := le_antisymm (hle x List.mem_cons_self) (not_lt.mp hdx)
        rw [Nat.mod_eq_of_lt (by omega)]
        obtain ⟨⟨hge, hfree⟩, hmin⟩ := ih (d := d + 1) hrest (fun y hy => hx y hy) (by omega)
        refine ⟨⟨by omega, fun hmem => ?_⟩, fun e he => hmin ⟨?_, fun hmem => he.2 ?_⟩⟩
        · rcases List.mem_cons.mp hmem with heq | hmem
          · omega
          · exact hfree hmem
        · exact lt_of_le_of_ne he.1 fun heq => he.2 (heq ▸ List.mem_cons_self)
        · exact List.mem_cons_of_mem _ hmem

/-- The descriptor is the least free one from 0 on, or from 1 on, of less than so many. -/
theorem freeDesc_base (hxs : xs.Pairwise (· < ·)) (hb : b ≤ 1) (hlen : xs.length < 2 ^ 32 - 1) :
    IsLeast {e | b ≤ e ∧ e ∉ xs} (freeDesc b xs) := by
  cases xs with
  | nil => exact freeDesc_least hxs (fun _ hx => by cases hx) (by simp; omega)
  | cons x xs =>
      rw [List.length_cons] at hlen
      by_cases hle : b ≤ x
      · refine freeDesc_least hxs (fun y hy => ?_) (by rw [List.length_cons]; omega)
        rcases List.mem_cons.mp hy with rfl | hy
        · exact hle
        · exact hle.trans ((List.pairwise_cons.mp hxs).1 y hy).le
      · -- the descriptor 0 is passed over
        obtain ⟨rfl, rfl⟩ : b = 1 ∧ x = 0 := by omega
        obtain ⟨hx, hxs⟩ := List.pairwise_cons.mp hxs
        have hleast := freeDesc_least (d := 1) hxs (fun y hy => hx y hy) (by omega)
        have hset : {e | 1 ≤ e ∧ e ∉ 0 :: xs} = {e | 1 ≤ e ∧ e ∉ xs} := by
          refine Set.ext fun e => ⟨fun he => ⟨he.1, fun hmem => he.2 (List.mem_cons_of_mem _ hmem)⟩,
            fun he => ⟨he.1, fun hmem => ?_⟩⟩
          rcases List.mem_cons.mp hmem with rfl | hmem
          · exact absurd he.1 (by decide)
          · exact he.2 hmem
        rw [hset]
        exact hleast

/-! ### Trees -/

/-- `refs_by_desc` and `refs_by_node` of a process. -/
structure RefTrees where
  byDesc : SearchTree RefId
  byNode : SearchTree RefId

def compareNode (s : State) (n : NodeId) (r : RefId) : Except Fault Ordering := do
  let rf ← deref s.refs r
  return compare n rf.node

/-- Whether a new reference to the node goes to the left. -/
def nodeBefore (s : State) (n : NodeId) (r : RefId) : Except Fault Bool := do
  let rf ← deref s.refs r
  return decide (n < rf.node)

/-- Whether a new reference with the descriptor goes to the left. -/
def descBefore (s : State) (desc : ℕ) (r : RefId) : Except Fault Bool := do
  let rf ← deref s.refs r
  if desc < rf.desc then return true
  else if rf.desc < desc then return false
  else .error (.bug .getRefForNode)

/-- The loop over the references in the order of their descriptors. -/
def scanDescs (s : State) : ℕ → List RefId → Except Fault ℕ
  | desc, [] => .ok desc
  | desc, r :: rs => do
      let rf ← deref s.refs r
      if desc < rf.desc then return desc else scanDescs s ((rf.desc + 1) % 2 ^ 32) rs

/-- `binder_get_ref_for_node`; `alloc` tells whether `kzalloc` succeeds. -/
def RefTrees.getRefForNode (s : State) (t : RefTrees) (p : ProcId) (n : NodeId) (alloc : Bool) :
    Except Fault (Option RefId × State × RefTrees) := do
  let found ← t.byNode.find (compareNode s n)
  match found with
  | some r => return (some r, s, t)
  | none =>
      if alloc = false then return (none, s, t)
      else do
        let r := s.nextId
        let byNode ← t.byNode.link (nodeBefore s n) r
        let desc ← scanDescs s (if s.contextMgrNode = some n then 0 else 1) t.byDesc.toList
        let byDesc ← t.byDesc.link (descBefore s desc) r
        let nd ← deref s.nodes n
        let rf : Ref :=
          { proc := p, node := n, desc := desc, strong := 0, weak := 0, death := none }
        let s := { s with nextId := r + 1 }.setRef r rf
        return (some r, s.setNode n { nd with refs := r :: nd.refs }, ⟨byDesc, byNode⟩)

def State.nodeOf (s : State) (r : RefId) : NodeId := ((s.refs r).map Ref.node).getD 0

/-- Both trees have the references of the process, one by their descriptors and the other one by
their nodes. -/
structure RefTrees.Sound (s : State) (p : ProcId) (t : RefTrees) : Prop where
  known : ∀ r ∈ t.byDesc.toList, ∃ rf, s.refs r = some rf ∧ rf.proc = p ∧ rf.desc < 2 ^ 32
  same : t.byNode.toList.Perm t.byDesc.toList
  byDesc : t.byDesc.toList.Pairwise fun r r' => s.descOf r < s.descOf r'
  byNode : t.byNode.toList.Pairwise fun r r' => s.nodeOf r < s.nodeOf r'
  fresh : ∀ {r rf}, s.refs r = some rf → r < s.nextId

namespace RefTrees.Sound

variable {t : RefTrees} (h : t.Sound s p)
include h

theorem known_byNode (hr : r ∈ t.byNode.toList) :
    ∃ rf, s.refs r = some rf ∧ rf.proc = p ∧ rf.desc < 2 ^ 32 :=
  h.known r (h.same.mem_iff.mp hr)

theorem fresh_ne (hr : r ∈ t.byDesc.toList) : r ≠ s.nextId := by
  obtain ⟨rf, hrf, -⟩ := h.known r hr
  exact (h.fresh hrf).ne

theorem find (n : NodeId) :
    (t.byNode.find (compareNode s n) = .ok none ∧ ∀ r ∈ t.byNode.toList, s.nodeOf r ≠ n) ∨
      ∃ r, t.byNode.find (compareNode s n) = .ok (some r) ∧ r ∈ t.byNode.toList ∧
        s.nodeOf r = n := by
  refine SearchTree.find_ordered (fun r hr => ?_) (h.byNode.imp le_of_lt)
  obtain ⟨rf, hrf, -⟩ := h.known_byNode hr
  unfold compareNode State.nodeOf
  rw [except_bind_ok (deref_eq_ok.mpr hrf), hrf]
  rfl

theorem find_none (hnew : ∀ r ∈ t.byNode.toList, s.nodeOf r ≠ n) :
    t.byNode.find (compareNode s n) = .ok none := by
  rcases h.find n with ⟨hfind, -⟩ | ⟨r, -, hr, hn⟩
  · exact hfind
  · exact absurd hn (hnew r hr)

theorem nodeOf_inj (hr : r ∈ t.byNode.toList) {r' : RefId} (hr' : r' ∈ t.byNode.toList)
    (heq : s.nodeOf r = s.nodeOf r') : r = r' := by
  have hnodup : (t.byNode.toList.map s.nodeOf).Nodup :=
    List.pairwise_map.mpr (h.byNode.imp ne_of_lt)
  exact List.inj_on_of_nodup_map hnodup hr hr' heq

theorem nodeOf_setRef (hr : r ∈ t.byNode.toList) (rf : Ref) :
    (s.setRef s.nextId rf).nodeOf r = s.nodeOf r := by
  have hne := h.fresh_ne (h.same.mem_iff.mp hr)
  unfold State.nodeOf State.setRef
  dsimp only
  rw [Function.update_of_ne hne]

theorem descOf_setRef (hr : r ∈ t.byDesc.toList) (rf : Ref) :
    (s.setRef s.nextId rf).descOf r = s.descOf r := by
  unfold State.descOf State.setRef
  dsimp only
  rw [Function.update_of_ne (h.fresh_ne hr)]

theorem linkNode (hnew : ∀ r ∈ t.byNode.toList, s.nodeOf r ≠ n) (hrf : rf.node = n) :
    ∃ byNode, t.byNode.link (nodeBefore s n) s.nextId = .ok byNode ∧
      byNode.toList.Perm (s.nextId :: t.byNode.toList) ∧
      byNode.toList.Pairwise fun r r' =>
        (s.setRef s.nextId rf).nodeOf r < (s.setRef s.nextId rf).nodeOf r' := by
  have hself : (s.setRef s.nextId rf).nodeOf s.nextId = n := by
    rw [← hrf]
    simp [State.nodeOf, State.setRef]
  refine SearchTree.link_increasing (fun r hr => ?_) (h.byNode.imp_of_mem fun ha hb hab => ?_)
    fun r hr => ?_
  · obtain ⟨rf', hrf', -⟩ := h.known_byNode hr
    have hnode : s.nodeOf r = rf'.node := by simp [State.nodeOf, hrf']
    rw [hself, h.nodeOf_setRef hr, hnode]
    unfold nodeBefore
    rw [except_bind_ok (deref_eq_ok.mpr hrf')]
    rfl
  · rwa [h.nodeOf_setRef ha, h.nodeOf_setRef hb]
  · rw [hself, h.nodeOf_setRef hr]
    exact hnew r hr

/-- The new reference has its place among the descriptors, if its own is free. -/
theorem linkDesc (hfree : ∀ r ∈ t.byDesc.toList, s.descOf r ≠ d) (hrf : rf.desc = d) :
    ∃ byDesc, t.byDesc.link (descBefore s d) s.nextId = .ok byDesc ∧
      byDesc.toList.Perm (s.nextId :: t.byDesc.toList) ∧
      byDesc.toList.Pairwise fun r r' =>
        (s.setRef s.nextId rf).descOf r < (s.setRef s.nextId rf).descOf r' := by
  have hself : (s.setRef s.nextId rf).descOf s.nextId = d := by
    rw [← hrf]
    simp [State.descOf, State.setRef]
  refine SearchTree.link_increasing (fun r hr => ?_) (h.byDesc.imp_of_mem fun ha hb hab => ?_)
    fun r hr => ?_
  · obtain ⟨rf', hrf', -⟩ := h.known r hr
    have hdesc : s.descOf r = rf'.desc := by simp [State.descOf, hrf']
    have hne := hfree r hr
    rw [hself, h.descOf_setRef hr, hdesc]
    unfold descBefore
    rw [except_bind_ok (deref_eq_ok.mpr hrf')]
    rw [hdesc] at hne
    rcases lt_or_gt_of_ne hne with hlt | hlt
    · rw [if_neg hlt.not_gt, if_pos hlt, decide_eq_false hlt.not_gt]
      rfl
    · rw [if_pos hlt, decide_eq_true hlt]
      rfl
  · rwa [h.descOf_setRef ha, h.descOf_setRef hb]
  · rw [hself, h.descOf_setRef hr]
    exact hfree r hr

theorem scanDescs_eq {rs : List RefId} (hsub : ∀ r ∈ rs, r ∈ t.byDesc.toList) (d : ℕ) :
    scanDescs s d rs = .ok (freeDesc d (rs.map s.descOf)) := by
  induction rs generalizing d with
  | nil => rfl
  | cons r rs ih =>
      obtain ⟨rf, hrf, -⟩ := h.known r (hsub r List.mem_cons_self)
      have hdesc : s.descOf r = rf.desc := by simp [State.descOf, hrf]
      rw [List.map_cons, hdesc]
      unfold scanDescs freeDesc
      rw [except_bind_ok (deref_eq_ok.mpr hrf)]
      split
      · rfl
      · exact ih (fun r' hr' => hsub r' (List.mem_cons_of_mem r hr')) _

theorem scan_least (hb : b ≤ 1) (hlen : t.byDesc.toList.length < 2 ^ 32 - 1) :
    ∃ d, scanDescs s b t.byDesc.toList = .ok d ∧ d < 2 ^ 32 ∧
      IsLeast {e | b ≤ e ∧ ∀ r ∈ t.byDesc.toList, s.descOf r ≠ e} d := by
  have hleast := freeDesc_base (List.pairwise_map.mpr h.byDesc) hb
    (show (t.byDesc.toList.map s.descOf).length < 2 ^ 32 - 1 by rwa [List.length_map])
  have hset : {e | b ≤ e ∧ ∀ r ∈ t.byDesc.toList, s.descOf r ≠ e} =
      {e | b ≤ e ∧ e ∉ t.byDesc.toList.map s.descOf} := by
    refine Set.ext fun e => and_congr_right fun _ => ?_
    simp [List.mem_map]
  refine ⟨_, h.scanDescs_eq (fun r hr => hr) b, freeDesc_lt (by omega) _, ?_⟩
  rw [hset]
  exact hleast

end RefTrees.Sound

/-- The state after a new reference, apart from the trees. -/
def State.withRef (s : State) (n : NodeId) (nd : Node) (rf : Ref) : State :=
  ({ s with nextId := s.nextId + 1 }.setRef s.nextId rf).setNode n
    { nd with refs := s.nextId :: nd.refs }

/-- A new reference of a process: nothing else changes, and its descriptor is the least one from
`b` on that is not in use. -/
structure Assigned (s s' : State) (t t' : RefTrees) (p : ProcId) (n : NodeId) (b : ℕ) :
    Prop where
  state : ∃ nd d, s.nodes n = some nd ∧ s' = s.withRef n nd ⟨p, n, d, 0, 0, none⟩ ∧
    IsLeast {e | b ≤ e ∧ ∀ r ∈ t.byDesc.toList, s.descOf r ≠ e} d
  byDesc : t'.byDesc.toList.Perm (s.nextId :: t.byDesc.toList)
  byNode : t'.byNode.toList.Perm (s.nextId :: t.byNode.toList)
  sound : t'.Sound s' p

namespace RefTrees.Sound

variable {t : RefTrees} {nd : Node} (h : t.Sound s p)
include h

theorem withRef {t' : RefTrees} (hrf : rf.proc = p) (hd : rf.desc < 2 ^ 32)
    (hbyDesc : t'.byDesc.toList.Perm (s.nextId :: t.byDesc.toList))
    (hbyNode : t'.byNode.toList.Perm (s.nextId :: t.byNode.toList))
    (hdesc : t'.byDesc.toList.Pairwise fun r r' =>
      (s.setRef s.nextId rf).descOf r < (s.setRef s.nextId rf).descOf r')
    (hnode : t'.byNode.toList.Pairwise fun r r' =>
      (s.setRef s.nextId rf).nodeOf r < (s.setRef s.nextId rf).nodeOf r') :
    t'.Sound (s.withRef n nd rf) p where
  known := fun r hr => by
    change ∃ rf', Function.update s.refs s.nextId (some rf) r = some rf' ∧ _
    rcases List.mem_cons.mp (hbyDesc.mem_iff.mp hr) with rfl | hr
    · exact ⟨rf, Function.update_self .., hrf, hd⟩
    · rw [Function.update_of_ne (h.fresh_ne hr)]
      exact h.known r hr
  same := hbyNode.trans ((h.same.cons _).trans hbyDesc.symm)
  byDesc := hdesc
  byNode := hnode
  fresh := fun {r rf'} hr => by
    change Function.update s.refs s.nextId (some rf) r = some rf' at hr
    change r < s.nextId + 1
    by_cases hne : r = s.nextId
    · exact hne ▸ Nat.lt_succ_self _
    · rw [Function.update_of_ne hne] at hr
      exact (h.fresh hr).trans (Nat.lt_succ_self _)

theorem getRefForNode_known (hr : r ∈ t.byNode.toList) (hn : s.nodeOf r = n) (alloc : Bool) :
    t.getRefForNode s p n alloc = .ok (some r, s, t) := by
  unfold getRefForNode
  rcases h.find n with ⟨-, hnone⟩ | ⟨r', hfind, hr', hn'⟩
  · exact absurd hn (hnone r hr)
  · rw [except_bind_ok hfind, h.nodeOf_inj hr' hr (hn'.trans hn.symm)]
    rfl

theorem getRefForNode_failed (hnew : ∀ r ∈ t.byNode.toList, s.nodeOf r ≠ n) :
    t.getRefForNode s p n false = .ok (none, s, t) := by
  unfold getRefForNode
  rw [except_bind_ok (h.find_none hnew)]
  rfl

theorem getRefForNode_assigned (hnd : s.nodes n = some nd)
    (hnew : ∀ r ∈ t.byNode.toList, s.nodeOf r ≠ n)
    (hlen : t.byDesc.toList.length < 2 ^ 32 - 1) :
    ∃ s' t', t.getRefForNode s p n true = .ok (some s.nextId, s', t') ∧
      Assigned s s' t t' p n (if s.contextMgrNode = some n then 0 else 1) := by
  obtain ⟨d, hscan, hlt, hleast⟩ := h.scan_least
    (show (if s.contextMgrNode = some n then 0 else 1) ≤ 1 by split <;> decide) hlen
  obtain ⟨byNode, hlinkNode, hpermNode, hnode⟩ :=
    h.linkNode hnew (show (⟨p, n, d, 0, 0, none⟩ : Ref).node = n from rfl)
  obtain ⟨byDesc, hlinkDesc, hpermDesc, hdesc⟩ :=
    h.linkDesc hleast.1.2 (show (⟨p, n, d, 0, 0, none⟩ : Ref).desc = d from rfl)
  refine ⟨s.withRef n nd ⟨p, n, d, 0, 0, none⟩, ⟨byDesc, byNode⟩, ?_, ⟨nd, d, hnd, rfl, hleast⟩,
    hpermDesc, hpermNode, h.withRef rfl hlt hpermDesc hpermNode hdesc hnode⟩
  unfold getRefForNode
  rw [except_bind_ok (h.find_none hnew)]
  dsimp only
  rw [if_neg (by decide), except_bind_ok hlinkNode, except_bind_ok hscan,
    except_bind_ok hlinkDesc, except_bind_ok (deref_eq_ok.mpr hnd)]
  rfl

end RefTrees.Sound

/-! ### The lists of the state -/

theorem nodup_of_increasing {key : ℕ → ℕ} {l : List ℕ}
    (h : l.Pairwise fun a b => key a < key b) : l.Nodup :=
  h.imp fun {a b} hlt (heq : a = b) => hlt.ne (congrArg key heq)

theorem perm_insertByKey (key : ℕ → ℕ) (x : ℕ) (l : List ℕ) :
    (insertByKey key x l).Perm (x :: l) := by
  induction l with
  | nil => rfl
  | cons y l ih =>
      unfold insertByKey
      split
      · rfl
      · exact (ih.cons y).trans (List.Perm.swap x y l)

/-- A list in order that has one more element has it where `insertByKey` puts it. -/
theorem insertByKey_eq {key : ℕ → ℕ} {x : ℕ} {l l' : List ℕ} (hperm : l'.Perm (x :: l))
    (hl' : l'.Pairwise fun a b => key a < key b) (hl : l.Pairwise fun a b => key a < key b) :
    insertByKey key x l = l' := by
  have hne : (x :: l).Pairwise fun a b => key a ≠ key b :=
    (hperm.pairwise_iff fun hne => hne.symm).mp (hl'.imp ne_of_lt)
  have hx : ∀ y ∈ l, key y ≠ key x := fun y hy => ((List.pairwise_cons.mp hne).1 y hy).symm
  refine List.Perm.eq_of_pairwise (fun a b _ _ hab hba => absurd hab hba.not_gt)
    (pairwise_insertByKey hl hx) hl' ((perm_insertByKey key x l).trans hperm.symm)

/-- The lists of the process are what the trees have in order. -/
structure RefTrees.Holds (s : State) (p : ProcId) (t : RefTrees) : Prop where
  byDesc : t.byDesc.toList = s.refsByDesc p
  byNode : t.byNode.toList.Perm (s.refsByNode p)
  ordered : t.byNode.toList.Pairwise fun r r' => s.nodeOf r < s.nodeOf r'

namespace RefTrees.Holds

variable {t : RefTrees} {nd : Node} (ht : RefTables s) (h : t.Holds s p)
include ht h

theorem mem_byDesc : r ∈ t.byDesc.toList ↔ ∃ rf, s.refs r = some rf ∧ rf.proc = p := by
  rw [h.byDesc]
  exact ht.byDesc p r

theorem mem_byNode : r ∈ t.byNode.toList ↔ ∃ rf, s.refs r = some rf ∧ rf.proc = p :=
  h.byNode.mem_iff.trans (ht.byNode p r)

theorem sound : t.Sound s p where
  known := fun r hr => by
    obtain ⟨rf, hrf, hproc⟩ := (h.mem_byDesc ht).mp hr
    exact ⟨rf, hrf, hproc, by simpa using ht.desc_lt hrf⟩
  same := by
    refine (List.perm_ext_iff_of_nodup ?_ ?_).mpr fun r =>
      (h.mem_byNode ht).trans (h.mem_byDesc ht).symm
    · exact nodup_of_increasing h.ordered
    · rw [h.byDesc]
      exact nodup_of_increasing (ht.sorted p)
  byDesc := h.byDesc ▸ ht.sorted p
  byNode := h.ordered
  fresh := ht.ref_lt

theorem findRef_some (hr : r ∈ t.byNode.toList) (hn : s.nodeOf r = n) :
    findRefForNode s p n = some r := by
  obtain ⟨rf, hrf, hproc⟩ := (h.mem_byNode ht).mp hr
  have hnode : rf.node = n := by simpa [State.nodeOf, hrf] using hn
  cases hfind : findRefForNode s p n with
  | none => exact absurd hnode (ht.findRef_none hfind hrf hproc)
  | some r' =>
      obtain ⟨rf', hrf', hproc', hnode'⟩ := ht.findRef hfind
      rw [ht.node_inj hrf' hrf (hproc'.trans hproc.symm) (hnode'.trans hnode.symm)]

theorem findRef_none (hnew : ∀ r ∈ t.byNode.toList, s.nodeOf r ≠ n) :
    findRefForNode s p n = none := by
  cases hfind : findRefForNode s p n with
  | none => rfl
  | some r =>
      obtain ⟨rf, hrf, hproc, hnode⟩ := ht.findRef hfind
      refine absurd ?_ (hnew r ((h.mem_byNode ht).mpr ⟨rf, hrf, hproc⟩))
      simpa [State.nodeOf, hrf] using hnode

theorem descs_eq : s.descs p = t.byDesc.toList.map s.descOf := by
  unfold State.descs
  rw [h.byDesc, ← List.filterMap_eq_map]
  refine List.filterMap_congr fun r hr => ?_
  obtain ⟨rf, hrf, -⟩ := (ht.byDesc p r).mp hr
  simp [State.descOf, hrf]

theorem newDesc_least (hlen : t.byDesc.toList.length < 2 ^ 32 - 1) :
    IsLeast {e | (if s.contextMgrNode = some n then 0 else 1) ≤ e ∧
      ∀ r ∈ t.byDesc.toList, s.descOf r ≠ e} (newDesc s p n) := by
  obtain ⟨d, hscan, -, hleast⟩ := (h.sound ht).scan_least
    (show (if s.contextMgrNode = some n then 0 else 1) ≤ 1 by split <;> decide) hlen
  have hd : newDesc s p n = d := by
    rw [(h.sound ht).scanDescs_eq (fun r hr => hr), ← h.descs_eq ht] at hscan
    exact Except.ok.inj hscan
  rw [hd]
  exact hleast

theorem addRef (hnd : s.nodes n = some nd) {s' : State} {t' : RefTrees}
    (hlen : t.byDesc.toList.length < 2 ^ 32 - 1)
    (hnew : Assigned s s' t t' p n (if s.contextMgrNode = some n then 0 else 1)) :
    t'.Holds (addRef s p n nd) p ∧
      Driver.addRef s p n nd = { s' with
        refsByDesc := (Driver.addRef s p n nd).refsByDesc
        refsByNode := (Driver.addRef s p n nd).refsByNode } := by
  obtain ⟨nd', d, hnd', rfl, hleast⟩ := hnew.state
  obtain rfl : nd = nd' := Option.some.inj (hnd.symm.trans hnd')
  obtain rfl : newDesc s p n = d := (h.newDesc_least ht hlen).unique hleast
  have hold : (s.refsByDesc p).Pairwise fun r r' =>
      (s.setRef s.nextId (newRefOf s p n)).descOf r <
        (s.setRef s.nextId (newRefOf s p n)).descOf r' := by
    rw [← h.byDesc]
    refine (h.sound ht).byDesc.imp_of_mem fun ha hb hlt => ?_
    rwa [(h.sound ht).descOf_setRef ha, (h.sound ht).descOf_setRef hb]
  have hdescs : (Driver.addRef s p n nd).refsByDesc p = t'.byDesc.toList := by
    simp only [Driver.addRef, Function.update_self]
    exact insertByKey_eq (h.byDesc ▸ hnew.byDesc) hnew.sound.byDesc hold
  refine ⟨⟨hdescs.symm, ?_, hnew.sound.byNode⟩, rfl⟩
  simp only [Driver.addRef, Function.update_self]
  exact hnew.byNode.trans ((h.byNode.cons _).trans (perm_insertByKey _ _ _).symm)

theorem refines (hnd : s.nodes n = some nd) (hlen : t.byDesc.toList.length < 2 ^ 32 - 1)
    (alloc : Bool) : ∃ x s₁ s₂ t', t.getRefForNode s p n alloc = .ok (x, s₁, t') ∧
      binderGetRefForNode s p n alloc = .ok (x, s₂) ∧ t'.Holds s₂ p ∧
      s₂ = { s₁ with refsByDesc := s₂.refsByDesc, refsByNode := s₂.refsByNode } := by
  by_cases hknown : ∃ r ∈ t.byNode.toList, s.nodeOf r = n
  · obtain ⟨r, hr, hn⟩ := hknown
    refine ⟨some r, s, s, t, (h.sound ht).getRefForNode_known hr hn alloc, ?_, h, rfl⟩
    simp only [binderGetRefForNode, h.findRef_some ht hr hn]
  · have hnew : ∀ r ∈ t.byNode.toList, s.nodeOf r ≠ n := fun r hr hn => hknown ⟨r, hr, hn⟩
    have hfind := h.findRef_none ht hnew
    cases alloc with
    | false =>
        refine ⟨none, s, s, t, (h.sound ht).getRefForNode_failed hnew, ?_, h, rfl⟩
        simp [binderGetRefForNode, hfind]
    | true =>
        obtain ⟨s', t', hget, hassigned⟩ := (h.sound ht).getRefForNode_assigned hnd hnew hlen
        obtain ⟨hholds, heq⟩ := h.addRef ht hnd hlen hassigned
        have hfree : newDesc s p n ∉ s.descs p := by
          rw [h.descs_eq ht, List.mem_map]
          rintro ⟨r, hr, hdesc⟩
          exact (h.newDesc_least ht hlen).1.2 r hr hdesc
        have hbug : bugOn .getRefForNode (newDesc s p n ∈ s.descs p) = .ok () :=
          bugOn_eq_ok.mpr (decide_eq_false hfree)
        refine ⟨_, s', Driver.addRef s p n nd, t', hget, ?_, hholds, heq⟩
        simp only [binderGetRefForNode, hfind, Bool.not_true, Bool.false_eq_true, ↓reduceIte]
        rw [except_bind_ok hbug, except_bind_ok (deref_eq_ok.mpr hnd)]
        rfl

end RefTrees.Holds

section Reached

variable {L : Layout} {t : RefTrees} {nd : Node}

theorem refTables_of_reach (hreach : Reach (step L) (fun _ _ => True) State.init s) :
    RefTables s :=
  (invariant_of_parts (I := fun _ => True) (Reach.unconditioned hreach) trivial
    fun _ _ _ _ _ _ => trivial).1.tables

theorem RefTrees.Holds.sound_of_reach (h : t.Holds s p)
    (hreach : Reach (step L) (fun _ _ => True) State.init s) : t.Sound s p :=
  h.sound (refTables_of_reach hreach)

/-- In every reachable state, whatever the shapes of the two trees of a process that has less than
2³² - 1 references, the walks over them come to the same reference and the same state as the
lists do, and leave trees that have the new lists in order. -/
theorem getRefForNode_refines (hreach : Reach (step L) (fun _ _ => True) State.init s)
    (h : t.Holds s p) (hnd : s.nodes n = some nd) (hlen : t.byDesc.toList.length < 2 ^ 32 - 1)
    (alloc : Bool) : ∃ x s₁ s₂ t', t.getRefForNode s p n alloc = .ok (x, s₁, t') ∧
      binderGetRefForNode s p n alloc = .ok (x, s₂) ∧ t'.Holds s₂ p ∧
      s₂ = { s₁ with refsByDesc := s₂.refsByDesc, refsByNode := s₂.refsByNode } :=
  h.refines (refTables_of_reach hreach) hnd hlen alloc

/-- Process 1 sends four objects to the context manager and is told of them. The context manager
drops its handle for the second, whose node stays until it is acknowledged. -/
def threeHandles : List Act :=
  let object (ptr : ℕ) : Command :=
    .transaction (.plain 0 1 (Data.object (.binder true) ptr ptr) [0]) TxnEnv.granted
  twoProcesses ++ [.write 1 20 [object 16, object 32, object 48, object 64], .read 1 20, .goOn 4,
    .write 0 10 [.release 2]]

/-- The node gets a reference again, between those that are in the trees. -/
theorem getRefForNode_refines_between : ∃ s x s₁ s₂ t',
    runChecked (step Layout.x86) (fun _ _ => True) State.init threeHandles = some s ∧
      s.refsByDesc 0 = [7, 13, 16] ∧
      RefTrees.getRefForNode s
          ⟨.node (.node .nil 7 .nil) 13 (.node .nil 16 .nil),
            .node .nil 7 (.node (.node .nil 13 .nil) 16 .nil)⟩ 0 9 true = .ok (x, s₁, t') ∧
      binderGetRefForNode s 0 9 true = .ok (x, s₂) ∧ t'.Holds s₂ 0 ∧
      s₂ = { s₁ with refsByDesc := s₂.refsByDesc, refsByNode := s₂.refsByNode } ∧
      s₂.refsByDesc 0 = [7, s.nextId, 13, 16] := by
  obtain ⟨s, hrun, hs⟩ := Option.map_eq_some_iff.mp
    (show (runChecked (step Layout.x86) (fun _ _ => True) State.init threeHandles).map
        (fun s => (s.refsByDesc 0, s.refsByNode 0, [7, 13, 16].map s.nodeOf, (s.nodes 9).isSome,
          (binderGetRefForNode s 0 9 true).toOption.map fun x =>
            decide (x.2.refsByDesc 0 = [7, s.nextId, 13, 16]))) =
      some ([7, 13, 16], [7, 13, 16], [6, 12, 15], true, some true) by decide +kernel)
  simp only [List.map_cons, List.map_nil, Prod.mk.injEq, List.cons.injEq, and_true] at hs
  obtain ⟨hdesc, hnode, ⟨h7, h13, h16⟩, hnd, hnew⟩ := hs
  obtain ⟨nd, hnd⟩ := Option.isSome_iff_exists.mp hnd
  have hholds : RefTrees.Holds s 0 ⟨.node (.node .nil 7 .nil) 13 (.node .nil 16 .nil),
      .node .nil 7 (.node (.node .nil 13 .nil) 16 .nil)⟩ := by
    refine ⟨hdesc.symm, hnode ▸ List.Perm.refl _, ?_⟩
    simp [SearchTree.toList, h7, h13, h16]
  obtain ⟨x, s₁, s₂, t', htrees, hlists, hholds', heq⟩ :=
    getRefForNode_refines (reach_of_runChecked hrun) hholds hnd (by decide) true
  refine ⟨s, x, s₁, s₂, t', hrun, hdesc, htrees, hlists, hholds', heq, ?_⟩
  rw [hlists] at hnew
  simpa [Except.toOption] using hnew

end Reached

/-! ### Every table -/

/-- In every table with less than 2³² - 1 references, a reference to the node is returned if there
is one, and a new one gets the least free descriptor from 0 on, for the context manager, or from 1
on, for any other node. -/
theorem getRefForNode_least {t : RefTrees} {nd : Node} (h : t.Sound s p)
    (hnd : s.nodes n = some nd) (hlen : t.byDesc.toList.length < 2 ^ 32 - 1) :
    (∀ r ∈ t.byNode.toList, s.nodeOf r = n →
      ∀ alloc, t.getRefForNode s p n alloc = .ok (some r, s, t)) ∧
    ((∀ r ∈ t.byNode.toList, s.nodeOf r ≠ n) →
      t.getRefForNode s p n false = .ok (none, s, t) ∧
      ∃ s' t', t.getRefForNode s p n true = .ok (some s.nextId, s', t') ∧
        Assigned s s' t t' p n (if s.contextMgrNode = some n then 0 else 1) ∧
        (s'.descOf s.nextId = 0 → s.contextMgrNode = some n)) := by
  refine ⟨fun r hr hn alloc => h.getRefForNode_known hr hn alloc, fun hnew =>
    ⟨h.getRefForNode_failed hnew, ?_⟩⟩
  obtain ⟨s', t', hget, hassigned⟩ := h.getRefForNode_assigned hnd hnew hlen
  refine ⟨s', t', hget, hassigned, fun hzero => ?_⟩
  obtain ⟨nd', d, -, rfl, hleast⟩ := hassigned.state
  have hd : (s.withRef n nd' ⟨p, n, d, 0, 0, none⟩).descOf s.nextId = d := by
    simp [State.descOf, State.withRef, State.setNode, State.setRef]
  by_contra hother
  have hle : 1 ≤ d := by
    have hge := hleast.1.1
    rwa [if_neg hother] at hge
  omega

/-- A process with the descriptors 1 and 3, and a node without a reference. -/
def gapTable : State :=
  { State.init with
    nextId := 8
    nodes := Function.update State.init.nodes 7 (some (Node.fresh 1 64 64))
    refs := Function.update (Function.update State.init.refs 4 (some ⟨0, 2, 3, 1, 1, none⟩))
      5 (some ⟨0, 3, 1, 1, 1, none⟩) }

def gapTrees : RefTrees where
  byDesc := .node (.node .nil 5 .nil) 4 .nil
  byNode := .node .nil 4 (.node .nil 5 .nil)

theorem gapTrees_sound : gapTrees.Sound gapTable 0 where
  known := fun r hr => by
    rcases List.mem_pair.mp hr with rfl | rfl
    · exact ⟨_, rfl, rfl, by decide⟩
    · exact ⟨_, rfl, rfl, by decide⟩
  same := by decide
  byDesc := by decide
  byNode := by decide
  fresh := fun {r rf} hr => by
    change Function.update (Function.update State.init.refs 4 _) 5 _ r = some rf at hr
    change r < 8
    by_cases h5 : r = 5
    · exact h5 ▸ by decide
    · rw [Function.update_of_ne h5] at hr
      by_cases h4 : r = 4
      · exact h4 ▸ by decide
      · rw [Function.update_of_ne h4] at hr
        cases hr

theorem getRefForNode_least_gap : ∃ s' t',
    gapTrees.getRefForNode gapTable 0 7 true = .ok (some 8, s', t') ∧
      Assigned gapTable s' gapTrees t' 0 7 1 := by
  obtain ⟨-, s', t', hget, hassigned, -⟩ :=
    (getRefForNode_least (n := 7) gapTrees_sound rfl (by decide)).2 (by decide)
  exact ⟨s', t', hget, hassigned⟩

end Driver

end BinderForLinux
