import BinderForLinux.Driver.Changes.Parts

/-!
# The books of the nodes

The counts that a node keeps for its owner are those that the claims in the
buffers of the owner call for, one for each notification that the owner has not
yet acknowledged, and one for the context manager. `Books` states it relative to
the number `G c` of times that a claim `c` is held: within a command the claims
that are held are not yet, or no longer, those in the buffers.
-/

namespace BinderForLinux

namespace Driver

open Library

def Node.localRefs (nd : Node) (strong : Bool) : ℤ :=
  if strong then nd.localStrongRefs else nd.localWeakRefs

def Node.hasRef (nd : Node) (strong : Bool) : Bool :=
  if strong then nd.hasStrongRef else nd.hasWeakRef

def Node.locals (nd : Node) : (Option ProcId × ℕ) × (ℤ × ℤ) × (Bool × Bool) × (Bool × Bool) :=
  ((nd.proc, nd.ptr), (nd.localStrongRefs, nd.localWeakRefs),
    (nd.hasStrongRef, nd.pendingStrongRef), (nd.hasWeakRef, nd.pendingWeakRef))

/-- The count that the claims, the pending notification and the context manager
call for. -/
def booked (G : Claim → ℤ) (s : State) (n : NodeId) (nd : Node) (p : ProcId) (strong : Bool) : ℤ :=
  (if strong then G (.target p n) else 0) + G (.object p nd.ptr strong) +
    (if nd.pending strong then 1 else 0) + (if s.contextMgrNode = some n then 1 else 0)

/-- The books are right, but for the process `d` that is being taken apart. -/
structure Books (d : Option ProcId) (G : Claim → ℤ) (s : State) : Prop where
  nonneg : ∀ c, 0 ≤ G c
  count : ∀ {n nd p}, s.nodes n = some nd → nd.proc = some p → some p ≠ d →
    ∀ strong, nd.localRefs strong = booked G s n nd p strong
  pending : ∀ {n nd p}, s.nodes n = some nd → nd.proc = some p → some p ≠ d →
    ∀ strong, nd.pending strong = true → nd.hasRef strong = true
  target : ∀ {p n}, 0 < G (.target p n) → some p ≠ d →
    ∃ nd, s.nodes n = some nd ∧ nd.proc = some p
  object : ∀ {p ptr strong}, 0 < G (.object p ptr strong) → some p ≠ d →
    ∃ n nd, s.nodes n = some nd ∧ nd.proc = some p ∧ nd.ptr = ptr
  manager_lt : ∀ {n}, s.contextMgrNode = some n → n < s.nextId

def Event.book (G : Claim → ℤ) (e : Event) (c : Claim) : ℤ :=
  G c + (held [e]).count c - (dropped [e]).count c

/-- Nodes keep their counts for their owners, or are freed without such counts. -/
structure LocalsKept (s s' : State) : Prop where
  contextMgrNode : s'.contextMgrNode = s.contextMgrNode
  nextId : s.nextId ≤ s'.nextId
  nodes : ∀ m, (s'.nodes m).map Node.locals = (s.nodes m).map Node.locals ∨
    s'.nodes m = none ∧ ∀ md, s.nodes m = some md →
      md.localStrongRefs = 0 ∧ md.localWeakRefs = 0

section LocalsKept

variable {s s' s'' : State} {n : NodeId} {nd nd' : Node}

theorem LocalsKept.refl (s : State) : LocalsKept s s := ⟨rfl, le_rfl, fun _ => .inl rfl⟩

theorem LocalsKept.trans (h : LocalsKept s s') (h' : LocalsKept s' s'') : LocalsKept s s'' := by
  refine ⟨h'.contextMgrNode.trans h.contextMgrNode, h.nextId.trans h'.nextId, fun m => ?_⟩
  rcases h'.nodes m with heq' | ⟨hnone, hzero'⟩
  · rcases h.nodes m with heq | ⟨hnone, hzero⟩
    · exact .inl (heq'.trans heq)
    · refine .inr ⟨?_, hzero⟩
      simpa [hnone] using heq'
  · refine .inr ⟨hnone, fun md hmd => ?_⟩
    rcases h.nodes m with heq | ⟨-, hzero⟩
    · obtain ⟨md', hmd', hlocals⟩ := map_eq_some_transfer heq.symm hmd
      simp only [Node.locals, Prod.mk.injEq] at hlocals
      obtain ⟨-, ⟨hls, hlw⟩, -⟩ := hlocals
      rw [← hls, ← hlw]
      exact hzero' md' hmd'
    · exact hzero md hmd

theorem LocalsKept.of_nodes (hctx : s'.contextMgrNode = s.contextMgrNode)
    (hnext : s.nextId ≤ s'.nextId) (hnodes : s'.nodes = s.nodes) : LocalsKept s s' :=
  ⟨hctx, hnext, fun m => .inl (by rw [hnodes])⟩

theorem LocalsKept.of_node {td : Queue → List Work} (hnd : s.nodes n = some nd)
    (hlocals : nd'.locals = nd.locals) :
    LocalsKept s { s with nodes := Function.update s.nodes n (some nd'), todo := td } :=
  ⟨rfl, le_rfl, fun m => .inl (map_update_of_eq hnd hlocals m)⟩

theorem LocalsKept.of_nodeKept {new : Queue → Prop} (hnd : s.nodes n = some nd)
    (hkept : NodeKept s s' n nd nd' new) (hlocals : nd'.locals = nd.locals) :
    LocalsKept s s' := by
  obtain ⟨e, td, rfl, -, -⟩ := hkept
  exact of_node hnd hlocals

theorem LocalsKept.of_nodeFreed (hfreed : NodeFreed s s' n nd')
    (hzero : ∀ md, s.nodes n = some md → md.localStrongRefs = 0 ∧ md.localWeakRefs = 0) :
    LocalsKept s s' := by
  obtain ⟨td, ns, dead, rfl, -⟩ := hfreed
  refine ⟨rfl, le_rfl, fun m => ?_⟩
  by_cases hmn : m = n
  · subst hmn
    exact .inr ⟨Function.update_self .., hzero⟩
  · exact .inl (by simp [hmn])

theorem LocalsKept.incRef (ht : RefTables s) {r : RefId} {rf : Ref} {strong ok : Bool}
    {target : Option Queue} (hrf : s.refs r = some rf)
    (hinc : binderIncRef s r strong target = .ok (ok, s')) : LocalsKept s s' := by
  obtain ⟨nd, hnd⟩ := ht.ref_node hrf
  obtain ⟨s₀, hkept, rfl, -⟩ := incRef_spec hinc hrf hnd
  refine (of_nodeKept hnd hkept ?_).trans (of_nodes rfl le_rfl rfl)
  split
  · cases strong <;> rfl
  · rfl

theorem LocalsKept.deleteRef {r : RefId} (hdel : binderDeleteRef s r = .ok s') :
    LocalsKept s s' := by
  obtain ⟨rf, nd, -, hnd, x, td, ns, dead, deaths, rfl, hx, -⟩ := binderDeleteRef_eq hdel
  refine ⟨rfl, le_rfl, fun m => ?_⟩
  by_cases hmn : m = rf.node
  · subst hmn
    rcases hx with ⟨e, rfl, -⟩ | ⟨rfl, hfree, -⟩
    · exact .inl (by simp [hnd, Node.locals, Node.dropRef])
    · refine .inr ⟨Function.update_self .., fun md hmd => ?_⟩
      obtain rfl : nd = md := by simpa [hnd] using hmd
      exact ⟨hfree.2.2.1, hfree.2.2.2.1⟩
  · exact .inl (by simp [hmn])

theorem LocalsKept.decRef (ht : RefTables s) {r : RefId} {rf : Ref} {strong : Bool}
    (hrf : s.refs r = some rf) (hdec : binderDecRef s r strong = .ok s') : LocalsKept s s' := by
  obtain ⟨nd, hnd⟩ := ht.ref_node hrf
  rcases decRef_spec ht hdec hrf hnd with ⟨-, rfl⟩ | ⟨-, s₀, hkept, hrest⟩
  · exact refl _
  · have hmid : LocalsKept s (s₀.setRef r (rf.dec strong)) := by
      refine (of_nodeKept hnd hkept ?_).trans (of_nodes rfl le_rfl rfl)
      unfold Node.lost
      split <;> rfl
    rcases hrest with ⟨-, rfl⟩ | ⟨-, -, hdel⟩
    · exact hmid
    · exact hmid.trans (deleteRef hdel)

theorem LocalsKept.addRef {p : ProcId} (hnd : s.nodes n = some nd) :
    LocalsKept s (addRef s p n nd) :=
  ⟨rfl, Nat.le_succ _, fun m =>
    .inl (map_update_of_eq (f := Node.locals) (b := { nd with refs := s.nextId :: nd.refs }) hnd
      rfl m)⟩

end LocalsKept

section Books

variable {L : Layout} {d : Option ProcId} {G G' : Claim → ℤ} {s s' : State} {e : Event}

theorem Books.eq_zero_of_localRefs (h : Books d G s) {n : NodeId} {nd : Node} {p : ProcId}
    (hnd : s.nodes n = some nd) (hproc : nd.proc = some p) (hd : some p ≠ d) (strong : Bool)
    (hzero : nd.localRefs strong = 0) :
    (strong = true → G (.target p n) = 0) ∧ G (.object p nd.ptr strong) = 0 ∧
      nd.pending strong = false ∧ s.contextMgrNode ≠ some n := by
  have hcount := h.count hnd hproc hd strong
  have h₁ := h.nonneg (.target p n)
  have h₂ := h.nonneg (.object p nd.ptr strong)
  rw [hzero, booked] at hcount
  have h₃ : 0 ≤ (if strong then G (.target p n) else 0) := by
    split
    · exact h₁
    · exact le_rfl
  have h₄ : (0 : ℤ) ≤ if nd.pending strong then 1 else 0 := by split <;> omega
  have h₅ : (0 : ℤ) ≤ if s.contextMgrNode = some n then 1 else 0 := by split <;> omega
  refine ⟨?_, by omega, ?_, ?_⟩
  · rintro rfl
    simp only [↓reduceIte] at hcount h₃
    omega
  · by_contra hpend
    rw [Bool.not_eq_false] at hpend
    rw [hpend] at hcount
    simp only [↓reduceIte] at hcount
    omega
  · intro hctx
    rw [if_pos hctx] at hcount
    omega

theorem Books.keep (h : Books d G s) (hk : LocalsKept s s') (hnn : ∀ c, 0 ≤ G' c)
    (hG : ∀ c : Claim, some c.proc ≠ d → (∀ q desc st, c ≠ .handle q desc st) → G' c = G c) :
    Books d G' s' := by
  obtain ⟨hctx, hnext, hnodes⟩ := hk
  have hback : ∀ {m md'}, s'.nodes m = some md' →
      ∃ md, s.nodes m = some md ∧ md.locals = md'.locals := by
    intro m md' hmd'
    rcases hnodes m with heq | ⟨hnone, -⟩
    · exact map_eq_some_transfer heq hmd'
    · rw [hnone] at hmd'
      cases hmd'
  have hforth : ∀ {m md p}, s.nodes m = some md → md.proc = some p → some p ≠ d →
      (0 < G (.target p m) ∨ ∃ st, 0 < G (.object p md.ptr st)) →
      ∃ md', s'.nodes m = some md' ∧ md'.locals = md.locals := by
    intro m md p hmd hproc hd hpos
    rcases hnodes m with heq | ⟨-, hzero⟩
    · exact map_eq_some_transfer heq.symm hmd
    · obtain ⟨hs, hw⟩ := hzero md hmd
      have h₁ := h.eq_zero_of_localRefs hmd hproc hd true hs
      have h₂ := h.eq_zero_of_localRefs hmd hproc hd false hw
      rcases hpos with hpos | ⟨_ | _, hpos⟩
      · have := h₁.1 rfl
        omega
      · have := h₂.2.1
        omega
      · have := h₁.2.1
        omega
  have hGt : ∀ {p n}, some p ≠ d → G' (.target p n) = G (.target p n) :=
    fun hd => hG _ hd (by simp)
  have hGo : ∀ {p ptr st}, some p ≠ d → G' (.object p ptr st) = G (.object p ptr st) :=
    fun hd => hG _ hd (by simp)
  constructor
  case nonneg => exact hnn
  case count =>
    intro m md' p hmd' hproc hd strong
    obtain ⟨md, hmd, heq⟩ := hback hmd'
    simp only [Node.locals, Prod.mk.injEq] at heq
    obtain ⟨⟨hp, hptr⟩, ⟨hls, hlw⟩, ⟨-, hps⟩, -, hpw⟩ := heq
    have hcount := h.count hmd (hp.trans hproc) hd strong
    have hlocal : md'.localRefs strong = md.localRefs strong := by
      simp [Node.localRefs, hls, hlw]
    have hpend : md'.pending strong = md.pending strong := by
      simp [Node.pending, hps, hpw]
    rw [hlocal, hcount, booked, booked, hGt hd, hGo hd, hptr, hpend, hctx]
  case pending =>
    intro m md' p hmd' hproc hd strong hpend
    obtain ⟨md, hmd, heq⟩ := hback hmd'
    simp only [Node.locals, Prod.mk.injEq] at heq
    obtain ⟨⟨hp, hptr⟩, -, ⟨hhs, hps⟩, hhw, hpw⟩ := heq
    have := h.pending hmd (hp.trans hproc) hd strong (by
      rw [← hpend]
      simp [Node.pending, hps, hpw])
    rw [← this]
    simp [Node.hasRef, hhs, hhw]
  case target =>
    intro p n hpos hd
    rw [hGt hd] at hpos
    obtain ⟨nd, hnd, hproc⟩ := h.target hpos hd
    obtain ⟨nd', hnd', heq⟩ := hforth hnd hproc hd (.inl hpos)
    exact ⟨nd', hnd', (congrArg (fun x => x.1.1) heq).trans hproc⟩
  case object =>
    intro p ptr strong hpos hd
    rw [hGo hd] at hpos
    obtain ⟨n, nd, hnd, hproc, rfl⟩ := h.object hpos hd
    obtain ⟨nd', hnd', heq⟩ := hforth hnd hproc hd (.inr ⟨strong, hpos⟩)
    exact ⟨n, nd', hnd', (congrArg (fun x => x.1.1) heq).trans hproc,
      congrArg (fun x => x.1.2) heq⟩
  case manager_lt =>
    intro n hn
    exact (h.manager_lt (hctx ▸ hn)).trans_le hnext

/-- Only claims on the node `nd` at `n` change. -/
def OnlyOn (d : Option ProcId) (n : NodeId) (nd : Node) (G G' : Claim → ℤ) : Prop :=
  ∀ c : Claim, some c.proc ≠ d → (∀ q desc st, c ≠ .handle q desc st) → G' c ≠ G c →
    ∃ st, c.On n nd st

theorem OnlyOn.target {n m : NodeId} {nd : Node} {p : ProcId} (h : OnlyOn d n nd G G')
    (hd : some p ≠ d) : G' (.target p m) = G (.target p m) ∨ m = n ∧ nd.proc = some p := by
  by_cases heq : G' (.target p m) = G (.target p m)
  · exact .inl heq
  · obtain ⟨st, hon⟩ := h (.target p m) hd (by simp) heq
    exact .inr ⟨hon.1, hon.2.1⟩

theorem OnlyOn.object {n : NodeId} {nd : Node} {p : ProcId} {ptr : ℕ} {st : Bool}
    (h : OnlyOn d n nd G G') (hd : some p ≠ d) :
    G' (.object p ptr st) = G (.object p ptr st) ∨ nd.proc = some p ∧ nd.ptr = ptr := by
  by_cases heq : G' (.object p ptr st) = G (.object p ptr st)
  · exact .inl heq
  · obtain ⟨st', hon⟩ := h (.object p ptr st) hd (by simp) heq
    exact .inr ⟨hon.1, hon.2.1⟩

theorem Books.count_other (h : Books d G s) (ht : RefTables s) {n m : NodeId} {nd md : Node}
    {p : ProcId} (hnd : s.nodes n = some nd) (hG : OnlyOn d n nd G G')
    (hctx : s'.contextMgrNode = s.contextMgrNode) (hmn : m ≠ n) (hmd : s.nodes m = some md)
    (hproc : md.proc = some p) (hd : some p ≠ d) (strong : Bool) :
    md.localRefs strong = booked G' s' m md p strong := by
  have h₁ : G' (.target p m) = G (.target p m) :=
    (hG.target hd).resolve_right fun hon => hmn hon.1
  have h₂ : G' (.object p md.ptr strong) = G (.object p md.ptr strong) := by
    refine (hG.object hd).resolve_right fun hon => hmn ?_
    exact ht.ptr_inj hmd hnd (hproc.trans hon.1.symm) (by simp [hproc]) hon.2.symm
  rw [h.count hmd hproc hd strong, booked, booked, h₁, h₂, hctx]

theorem Books.write (h : Books d G s) (ht : RefTables s) {n : NodeId} {nd nd' : Node}
    (hnd : s.nodes n = some nd) (hother : ∀ m, m ≠ n → s'.nodes m = s.nodes m)
    (hnd' : s'.nodes n = some nd') (hctx : s'.contextMgrNode = s.contextMgrNode)
    (hnext : s.nextId ≤ s'.nextId) (hproc : nd'.proc = nd.proc) (hptr : nd'.ptr = nd.ptr)
    (hG : OnlyOn d n nd G G') (hnn : ∀ c, 0 ≤ G' c)
    (hcount : ∀ p, nd.proc = some p → some p ≠ d →
      ∀ strong, nd'.localRefs strong = booked G' s n nd' p strong)
    (hpend : ∀ p, nd.proc = some p → some p ≠ d →
      ∀ strong, nd'.pending strong = true → nd'.hasRef strong = true) : Books d G' s' := by
  constructor
  case nonneg => exact hnn
  case count =>
    intro m md p hmd hp hd strong
    by_cases hmn : m = n
    · subst hmn
      obtain rfl : nd' = md := by simpa [hnd'] using hmd
      rw [hcount p (hproc ▸ hp) hd strong, booked, booked, hctx]
    · rw [hother m hmn] at hmd
      exact h.count_other ht hnd hG hctx hmn hmd hp hd strong
  case pending =>
    intro m md p hmd hp hd strong
    by_cases hmn : m = n
    · subst hmn
      obtain rfl : nd' = md := by simpa [hnd'] using hmd
      exact hpend p (hproc ▸ hp) hd strong
    · rw [hother m hmn] at hmd
      exact h.pending hmd hp hd strong
  case target =>
    intro p m hpos hd
    by_cases hmn : m = n
    · subst hmn
      rcases hG.target hd with heq | ⟨-, hp⟩
      · obtain ⟨md, hmd, hp⟩ := h.target (heq ▸ hpos) hd
        obtain rfl : nd = md := by simpa [hnd] using hmd
        exact ⟨nd', hnd', hproc.trans hp⟩
      · exact ⟨nd', hnd', hproc.trans hp⟩
    · have heq := (hG.target hd : G' (.target p m) = G (.target p m) ∨ _).resolve_right fun hon =>
        hmn hon.1
      rw [hother m hmn]
      exact h.target (heq ▸ hpos) hd
  case object =>
    intro p ptr strong hpos hd
    rcases hG.object hd with heq | ⟨hp, hq⟩
    · obtain ⟨m, md, hmd, hp, hq⟩ := h.object (heq ▸ hpos) hd
      by_cases hmn : m = n
      · subst hmn
        obtain rfl : nd = md := by simpa [hnd] using hmd
        exact ⟨m, nd', hnd', hproc.trans hp, hptr.trans hq⟩
      · exact ⟨m, md, (hother m hmn).trans hmd, hp, hq⟩
    · exact ⟨n, nd', hnd', hproc.trans hp, hptr.trans hq⟩
  case manager_lt =>
    intro m hm
    exact (h.manager_lt (hctx ▸ hm)).trans_le hnext

theorem Books.freed (h : Books d G s) (ht : RefTables s) {n : NodeId} {nd : Node}
    (hnd : s.nodes n = some nd) (hother : ∀ m, m ≠ n → s'.nodes m = s.nodes m)
    (hnone : s'.nodes n = none) (hctx : s'.contextMgrNode = s.contextMgrNode)
    (hnext : s.nextId ≤ s'.nextId) (hG : OnlyOn d n nd G G') (hnn : ∀ c, 0 ≤ G' c)
    (hzero : ∀ p, nd.proc = some p → some p ≠ d →
      G' (.target p n) = 0 ∧ ∀ st, G' (.object p nd.ptr st) = 0) : Books d G' s' := by
  constructor
  case nonneg => exact hnn
  case count =>
    intro m md p hmd hp hd strong
    by_cases hmn : m = n
    · rw [hmn, hnone] at hmd
      cases hmd
    · rw [hother m hmn] at hmd
      exact h.count_other ht hnd hG hctx hmn hmd hp hd strong
  case pending =>
    intro m md p hmd hp hd strong
    by_cases hmn : m = n
    · rw [hmn, hnone] at hmd
      cases hmd
    · rw [hother m hmn] at hmd
      exact h.pending hmd hp hd strong
  case target =>
    intro p m hpos hd
    have hmn : m ≠ n := by
      rintro rfl
      have hp : nd.proc = some p := by
        rcases hG.target hd with heq | ⟨-, hp⟩
        · obtain ⟨md, hmd, hp⟩ := h.target (heq ▸ hpos) hd
          obtain rfl : nd = md := by simpa [hnd] using hmd
          exact hp
        · exact hp
      have := (hzero p hp hd).1
      omega
    have heq := (hG.target hd : G' (.target p m) = G (.target p m) ∨ _).resolve_right fun hon =>
      hmn hon.1
    rw [hother m hmn]
    exact h.target (heq ▸ hpos) hd
  case object =>
    intro p ptr strong hpos hd
    have hne : ¬ (nd.proc = some p ∧ nd.ptr = ptr) := by
      rintro ⟨hp, rfl⟩
      have := (hzero p hp hd).2 strong
      omega
    have heq : G' (.object p ptr strong) = G (.object p ptr strong) :=
      (hG.object hd).resolve_right hne
    obtain ⟨m, md, hmd, hp, hq⟩ := h.object (heq ▸ hpos) hd
    have hmn : m ≠ n := by
      rintro rfl
      obtain rfl : nd = md := by simpa [hnd] using hmd
      exact hne ⟨hp, hq⟩
    exact ⟨m, md, (hother m hmn).trans hmd, hp, hq⟩
  case manager_lt =>
    intro m hm
    exact (h.manager_lt (hctx ▸ hm)).trans_le hnext

/-! ### One change -/

theorem book_of_nil (hheld : held [e] = []) (hdropped : dropped [e] = []) : e.book G = G := by
  funext c
  simp [Event.book, hheld, hdropped]

theorem book_hold (c c' : Claim) :
    (Event.hold c).book G c' = if c' = c then G c' + 1 else G c' := by
  by_cases h : c' = c
  · simp [Event.book, held, dropped, h]
  · simp [Event.book, held, dropped, h, Ne.symm h]

theorem book_drop (c c' : Claim) :
    (Event.drop c).book G c' = if c' = c then G c' - 1 else G c' := by
  by_cases h : c' = c
  · simp [Event.book, held, dropped, h]
  · simp [Event.book, held, dropped, h, Ne.symm h]

theorem onlyOn_refl (n : NodeId) (nd : Node) : OnlyOn d n nd G G :=
  fun _ _ _ h => absurd rfl h

theorem onlyOn_of_claim {n : NodeId} {nd : Node} {strong : Bool} {c : Claim}
    (hc : c.On n nd strong) (h : ∀ c', c' ≠ c → G' c' = G c') : OnlyOn d n nd G G' := by
  intro c' _ _ hne
  obtain rfl : c' = c := by
    by_contra hcc
    exact hne (h c' hcc)
  exact ⟨strong, hc⟩

@[simp] theorem Node.localRefs_inc (nd : Node) (strong st : Bool) :
    (nd.inc strong false).localRefs st = nd.localRefs st + if st = strong then 1 else 0 := by
  cases strong <;> cases st <;> simp [Node.inc, Node.localRefs]

@[simp] theorem Node.localRefs_dec (nd : Node) (strong st : Bool) :
    (nd.dec strong false).localRefs st = nd.localRefs st - if st = strong then 1 else 0 := by
  cases strong <;> cases st <;> simp [Node.dec, Node.localRefs]

theorem booked_of_claim {n : NodeId} {nd : Node} {strong : Bool} {c : Claim} {p : ProcId} {k : ℤ}
    (hc : c.On n nd strong) (hp : nd.proc = some p)
    (h : ∀ c', G' c' = if c' = c then G c' + k else G c') (st : Bool) :
    booked G' s n nd p st = booked G s n nd p st + if st = strong then k else 0 := by
  cases c with
  | target q m =>
      obtain ⟨rfl, hq, rfl⟩ := hc
      obtain rfl : q = p := by simpa [hq] using hp
      cases st
      · simp [booked, h]
      · simp [booked, h]
        ring
  | object q ptr st' =>
      obtain ⟨hq, rfl, rfl⟩ := hc
      obtain rfl : q = p := by simpa [hq] using hp
      by_cases hst : st = st'
      · subst hst
        simp [booked, h]
        ring
      · simp [booked, h, hst]
  | handle q desc st' => exact hc.elim

theorem booked_congr {n : NodeId} {nd nd' : Node} {p : ProcId} {st : Bool} (hptr : nd'.ptr = nd.ptr)
    (hpend : nd'.pending st = nd.pending st) : booked G s n nd' p st = booked G s n nd p st := by
  rw [booked, booked, hptr, hpend]

theorem eq_zero_of_booked (hnn : ∀ c, 0 ≤ G c) {n : NodeId} {nd : Node} {p : ProcId}
    (h : ∀ strong, booked G s n nd p strong = 0) :
    G (.target p n) = 0 ∧ ∀ st, G (.object p nd.ptr st) = 0 := by
  have hpart : ∀ st, (if st then G (.target p n) else 0) + G (.object p nd.ptr st) = 0 := by
    intro st
    have h₀ := h st
    have h₁ := hnn (.target p n)
    have h₂ := hnn (.object p nd.ptr st)
    rw [booked] at h₀
    have h₃ : (0 : ℤ) ≤ if nd.pending st then 1 else 0 := by split <;> omega
    have h₄ : (0 : ℤ) ≤ if s.contextMgrNode = some n then 1 else 0 := by split <;> omega
    have h₅ : 0 ≤ (if st then G (.target p n) else 0) := by
      split
      · exact h₁
      · exact le_rfl
    omega
  have htrue := hpart true
  have hfalse := hpart false
  have h₁ := hnn (.target p n)
  have h₂ := hnn (.object p nd.ptr true)
  simp only [↓reduceIte, Bool.false_eq_true, zero_add] at htrue hfalse
  refine ⟨by omega, fun st => ?_⟩
  cases st
  · exact hfalse
  · omega

/-- The counts after a node was counted down, whether it is kept or freed. -/
theorem Books.decNode (h : Books d G s) (ht : RefTables s) {n : NodeId} {nd nd₁ : Node}
    {strong : Bool} {s₁ : State} (hnd : s.nodes n = some nd)
    (hs₁ : s₁ = s.setNode n nd₁) (hentries : nd₁.entries = nd.entries)
    (hG : OnlyOn d n nd G G') (hnn : ∀ c, 0 ≤ G' c)
    (hcount : ∀ p, nd.proc = some p → some p ≠ d →
      ∀ st, (nd₁.dec strong false).localRefs st = booked G' s n (nd₁.dec strong false) p st)
    (hpend : ∀ p, nd.proc = some p → some p ≠ d →
      ∀ st, nd₁.pending st = true → nd₁.hasRef st = true) :
    Books d G' (Driver.decNode s₁ n nd₁ strong false) := by
  subst hs₁
  have hproc : nd₁.proc = nd.proc := congrArg Prod.fst hentries
  have hptr : nd₁.ptr = nd.ptr := congrArg (fun x => x.2.2.1) hentries
  have hdec : Driver.decNode (s.setNode n nd₁) n nd₁ strong false = _ := rfl
  rcases decNode_eq hdec with ⟨-, hkept⟩ | ⟨hfree, hfreed⟩
  · obtain ⟨e, td, heq, -, -⟩ := hkept
    rw [heq]
    refine h.write ht hnd ?_ (Function.update_self ..) rfl le_rfl
      (by simpa using hproc) (by simpa using hptr) hG hnn ?_ ?_
    · intro m hm
      simp [State.setNode, hm]
    · exact hcount
    · intro p hp hd st hst
      have := hpend p hp hd st (by cases strong <;> cases st <;> exact hst)
      cases strong <;> cases st <;> exact this
  · obtain ⟨td, ns, dead, heq, -⟩ := hfreed
    rw [heq]
    refine h.freed ht hnd ?_ (Function.update_self ..) rfl le_rfl hG hnn ?_
    · intro m hm
      simp [State.setNode, hm]
    · intro p hp hd
      have hzero : ∀ st, booked G' s n (nd₁.dec strong false) p st = 0 := by
        intro st
        rw [← hcount p hp hd st]
        cases st
        · exact hfree.2.2.2.1
        · exact hfree.2.2.1
      have := eq_zero_of_booked hnn hzero
      rw [Node.dec_ptr, hptr] at this
      exact this

theorem Node.locals_of_counts {nd nd' : Node} (h : nd'.counts = nd.counts) :
    nd'.locals = nd.locals := by
  simp only [Node.counts, Node.entries, Prod.mk.injEq] at h
  obtain ⟨⟨hproc, -, hptr, -⟩, ⟨-, hls, hlw⟩, ⟨hhs, hps⟩, hhw, hpw⟩ := h
  simp [Node.locals, hproc, hptr, hls, hlw, hhs, hps, hhw, hpw]

theorem Books.tell (h : Books d G s) (ht : RefTables s) {n : NodeId} {nd nd' : Node}
    {cmd : ReturnCommand} (hnd : s.nodes n = some nd)
    (hcmd : nodeCommand nd = some (cmd, nd')) : Books d G (s.setNode n nd') := by
  have hkeep := (nodeCommand_eq hcmd).1
  have hproc : nd'.proc = nd.proc := congrArg Prod.fst hkeep
  have hptr : nd'.ptr = nd.ptr := congrArg (fun x => x.2.2.1) hkeep
  have hother : ∀ m, m ≠ n → (s.setNode n nd').nodes m = s.nodes m := by
    intro m hm
    simp [State.setNode, hm]
  refine h.write ht hnd hother (Function.update_self ..) rfl le_rfl hproc hptr
    (onlyOn_refl n nd) h.nonneg ?_ ?_
  · intro p hp hd st
    have hcount := h.count hnd hp hd st
    have hpend := h.pending hnd hp hd st
    rcases nodeCommand_cases hcmd with
      ⟨hhas, rfl⟩ | ⟨hhas, rfl⟩ | ⟨-, -, rfl⟩ | ⟨-, -, -, -, rfl⟩
    · cases st
      · have : nd.pendingWeakRef = false := by simpa [Node.pending, Node.hasRef, hhas] using hpend
        simp only [Node.localRefs, booked, Node.pending, Bool.false_eq_true, ↓reduceIte, this] at *
        omega
      · exact hcount
    · cases st
      · exact hcount
      · have : nd.pendingStrongRef = false := by
          simpa [Node.pending, Node.hasRef, hhas] using hpend
        simp only [Node.localRefs, booked, Node.pending, Bool.false_eq_true, ↓reduceIte, this] at *
        omega
    · exact hcount
    · exact hcount
  · intro p hp hd st hst
    have hpend := h.pending hnd hp hd st
    rcases nodeCommand_cases hcmd with
      ⟨hhas, rfl⟩ | ⟨hhas, rfl⟩ | ⟨-, hzero, rfl⟩ | ⟨-, -, -, hzero, rfl⟩
    · cases st
      · rfl
      · exact hpend hst
    · cases st
      · exact hpend hst
      · rfl
    · cases st
      · exact hpend hst
      · have := (h.eq_zero_of_localRefs hnd hp hd true hzero).2.2.1
        exact absurd hst (by simpa [Node.pending] using this)
    · cases st
      · have := (h.eq_zero_of_localRefs hnd hp hd false hzero).2.2.1
        exact absurd hst (by simpa [Node.pending] using this)
      · exact hpend hst

theorem Books.newNode (h : Books d G s) (ht : RefTables s) {p : ProcId} {ptr cookie : ℕ}
    (hget : binderGetNode s p ptr = none) : Books d G (addNode s p (Node.fresh p ptr cookie)) := by
  have hfresh : s.nodes s.nextId = none := by
    cases hnd : s.nodes s.nextId with
    | none => rfl
    | some nd => exact absurd (ht.node_lt hnd) (lt_irrefl _)
  have hnodes : ∀ {m md}, (addNode s p (Node.fresh p ptr cookie)).nodes m = some md ↔
      m = s.nextId ∧ md = Node.fresh p ptr cookie ∨ s.nodes m = some md := by
    intro m md
    change Function.update s.nodes s.nextId _ m = some md ↔ _
    by_cases hm : m = s.nextId
    · subst hm
      simp [hfresh, eq_comm]
    · simp [hm]
  constructor
  case nonneg => exact h.nonneg
  case count =>
    intro m md q hmd hq hd st
    rcases hnodes.mp hmd with ⟨rfl, rfl⟩ | hmd
    · obtain rfl : p = q := by simpa [Node.fresh] using hq
      have h₁ : ¬ 0 < G (.target p s.nextId) := fun hpos => by
        obtain ⟨nd, hnd, -⟩ := h.target hpos hd
        simp [hfresh] at hnd
      have h₂ : ¬ 0 < G (.object p ptr st) := fun hpos => by
        obtain ⟨n, nd, hnd, hproc, hptr⟩ := h.object hpos hd
        exact ht.getNode_none hget hnd hproc hptr
      have h₃ : s.contextMgrNode ≠ some s.nextId := fun hctx =>
        absurd (h.manager_lt hctx) (lt_irrefl _)
      have h₄ : G (.target p s.nextId) = 0 := by
        have := h.nonneg (.target p s.nextId)
        omega
      have h₅ : G (.object p ptr st) = 0 := by
        have := h.nonneg (.object p ptr st)
        omega
      have h₆ : (addNode s p (Node.fresh p ptr cookie)).contextMgrNode ≠ some s.nextId := h₃
      rw [booked, if_neg h₆]
      cases st <;> simp [Node.localRefs, Node.pending, Node.fresh, h₄, h₅]
    · exact h.count hmd hq hd st
  case pending =>
    intro m md q hmd hq hd st hst
    rcases hnodes.mp hmd with ⟨rfl, rfl⟩ | hmd
    · cases st <;> cases hst
    · exact h.pending hmd hq hd st hst
  case target =>
    intro q m hpos hd
    obtain ⟨nd, hnd, hq⟩ := h.target hpos hd
    exact ⟨nd, hnodes.mpr (.inr hnd), hq⟩
  case object =>
    intro q ptr' st hpos hd
    obtain ⟨m, md, hmd, hq, hptr⟩ := h.object hpos hd
    exact ⟨m, md, hnodes.mpr (.inr hmd), hq, hptr⟩
  case manager_lt =>
    intro m hm
    exact (h.manager_lt hm).trans_le (Nat.le_succ _)

theorem Books.newManager (h : Books d G s) {n : NodeId} {nd : Node} {uid : Option ℕ}
    (hnd : s.nodes n = some nd) (hctx : s.contextMgrNode = none) (hlt : n < s.nextId) :
    Books d G { s.setNode n nd.managing with contextMgrNode := some n, contextMgrUid := uid } := by
  have hnodes : ∀ {m md}, (s.setNode n nd.managing).nodes m = some md →
      m = n ∧ md = nd.managing ∨ m ≠ n ∧ s.nodes m = some md := by
    intro m md hmd
    by_cases hm : m = n
    · subst hm
      exact .inl ⟨rfl, by simpa [State.setNode, eq_comm] using hmd⟩
    · exact .inr ⟨hm, by simpa [State.setNode, hm] using hmd⟩
  constructor
  case nonneg => exact h.nonneg
  case count =>
    intro m md q hmd hq hd st
    have hnone : ∀ m, s.contextMgrNode ≠ some m := by simp [hctx]
    rcases hnodes hmd with ⟨rfl, rfl⟩ | ⟨hm, hmd⟩
    · have hcount := h.count hnd hq hd st
      rw [booked, if_neg (hnone m)] at hcount
      have hself : some m = some m := rfl
      rw [booked, if_pos hself]
      cases st
      · simp only [Node.localRefs, Node.pending, Node.managing, Bool.false_eq_true,
          ↓reduceIte] at hcount ⊢
        omega
      · simp only [Node.localRefs, Node.pending, Node.managing, ↓reduceIte] at hcount ⊢
        omega
    · have hne : some n ≠ some m := by simpa using Ne.symm hm
      rw [h.count hmd hq hd st, booked, booked, if_neg (hnone m), if_neg hne]
  case pending =>
    intro m md q hmd hq hd st hst
    rcases hnodes hmd with ⟨rfl, rfl⟩ | ⟨hm, hmd⟩
    · cases st <;> rfl
    · exact h.pending hmd hq hd st hst
  case target =>
    intro q m hpos hd
    obtain ⟨md, hmd, hq⟩ := h.target hpos hd
    by_cases hm : m = n
    · subst hm
      obtain rfl : nd = md := by simpa [hnd] using hmd
      exact ⟨nd.managing, Function.update_self .., hq⟩
    · exact ⟨md, (Function.update_of_ne hm ..).trans hmd, hq⟩
  case object =>
    intro q ptr st hpos hd
    obtain ⟨m, md, hmd, hq, hptr⟩ := h.object hpos hd
    by_cases hm : m = n
    · subst hm
      obtain rfl : nd = md := by simpa [hnd] using hmd
      exact ⟨m, nd.managing, Function.update_self .., hq, hptr⟩
    · exact ⟨m, md, (Function.update_of_ne hm ..).trans hmd, hq, hptr⟩
  case manager_lt =>
    intro m hm
    obtain rfl : n = m := by simpa using hm
    exact hlt

/-- Only nodes of `p` change, which is being taken apart, and only its context
manager goes. -/
theorem Books.exempt {p : ProcId} (h : Books (some p) G s) (hnext : s'.nextId = s.nextId)
    (hctx : s'.contextMgrNode = s.contextMgrNode ∨ s'.contextMgrNode = none ∧
      ∃ n nd, s.contextMgrNode = some n ∧ s.nodes n = some nd ∧ nd.proc = some p)
    (hnodes : ∀ m, s'.nodes m = s.nodes m ∨ (∃ md, s.nodes m = some md ∧ md.proc = some p) ∧
      ∀ md', s'.nodes m = some md' → md'.proc = none) : Books (some p) G s' := by
  have hback : ∀ {m md q}, s'.nodes m = some md → md.proc = some q → s.nodes m = some md := by
    intro m md q hmd hq
    rcases hnodes m with heq | ⟨-, hnone⟩
    · exact heq ▸ hmd
    · rw [hnone md hmd] at hq
      cases hq
  have hforth : ∀ {m md q}, s.nodes m = some md → md.proc = some q → some q ≠ some p →
      s'.nodes m = some md := by
    intro m md q hmd hq hd
    rcases hnodes m with heq | ⟨⟨md', hmd', hp⟩, -⟩
    · exact heq ▸ hmd
    · obtain rfl : md = md' := by simpa [hmd] using hmd'
      exact absurd (hq.symm.trans hp) hd
  constructor
  case nonneg => exact h.nonneg
  case count =>
    intro m md q hmd hq hd st
    have hmd₀ := hback hmd hq
    have hiff : s'.contextMgrNode = some m ↔ s.contextMgrNode = some m := by
      rcases hctx with heq | ⟨hnone, n, nd, hn, hnd, hp⟩
      · rw [heq]
      · have hmn : m ≠ n := by
          rintro rfl
          obtain rfl : md = nd := by simpa [hmd₀] using hnd
          exact hd (hq.symm.trans hp)
        simp [hnone, hn, Ne.symm hmn]
    rw [h.count hmd₀ hq hd st, booked, booked]
    simp only [hiff]
  case pending => exact fun hmd hq hd => h.pending (hback hmd hq) hq hd
  case target =>
    intro q m hpos hd
    obtain ⟨md, hmd, hq⟩ := h.target hpos hd
    exact ⟨md, hforth hmd hq hd, hq⟩
  case object =>
    intro q ptr st hpos hd
    obtain ⟨m, md, hmd, hq, hptr⟩ := h.object hpos hd
    exact ⟨m, md, hforth hmd hq hd, hq, hptr⟩
  case manager_lt =>
    intro m hm
    rcases hctx with heq | ⟨hnone, -⟩
    · exact hnext ▸ h.manager_lt (heq ▸ hm)
    · simp [hnone] at hm

theorem Books.change (h : Books d G s) (hs : Coherent L d s) (hch : Change L s e s')
    (he : e.okFor d) (hnn : ∀ c, 0 ≤ e.book G c) : Books d (e.book G) s' := by
  have hnil : held [e] = [] → dropped [e] = [] → LocalsKept s s' → Books d (e.book G) s' := by
    intro hheld hdropped hk
    rw [book_of_nil hheld hdropped]
    exact h.keep hk h.nonneg fun _ _ _ => rfl
  have hhandle : ∀ q desc st, (∀ c, c ≠ .handle q desc st → e.book G c = G c) →
      LocalsKept s s' → Books d (e.book G) s' :=
    fun q desc st hc hk => h.keep hk hnn fun c _ hne => hc c (hne q desc st)
  cases hch with
  | idle hidle => exact hnil rfl rfl (.of_nodes hidle.contextMgrNode hidle.nextId hidle.nodes)
  | area hk _ => exact hnil rfl rfl (.of_nodes hk.contextMgrNode hk.nextId hk.nodes)
  | note hnd hmoved hsub hcounts =>
      exact hnil rfl rfl (.of_node hnd (Node.locals_of_counts hcounts))
  | tell hnd hproc hcmd =>
      rw [book_of_nil rfl rfl]
      exact h.tell hs.tables hnd hcmd
  | @forgetNode n nd hnd hproc hcmd huse =>
      refine hnil rfl rfl (.of_nodeFreed (nodeFreed_freeNode s n nd) fun md hmd => ?_)
      obtain rfl : nd = md := by simpa [hnd] using hmd
      exact (Node.refs_of_not_inUse huse).2.2
  | @hold n nd strong c hnd hc =>
      have hbook := book_hold (G := G) c
      refine h.write hs.tables hnd (fun m hm => ?_) (Function.update_self ..) rfl le_rfl
        (by cases strong <;> rfl) (by simp) (onlyOn_of_claim hc fun c' hc' => ?_) hnn ?_ ?_
      · simp [State.setNode, hm]
      · rw [hbook, if_neg hc']
      · intro p hp hd st
        have hpend : (nd.inc strong false).pending st = nd.pending st := by
          cases strong <;> cases st <;> rfl
        rw [Node.localRefs_inc, h.count hnd hp hd st, booked_congr (by simp) hpend,
          booked_of_claim hc hp hbook]
      · intro p hp hd st hst
        have := h.pending hnd hp hd st (by cases strong <;> cases st <;> exact hst)
        cases strong <;> cases st <;> exact this
  | @drop n nd strong c hnd hc =>
      have hbook : ∀ c', (Event.drop c).book G c' = if c' = c then G c' + -1 else G c' :=
        fun c' => book_drop c c'
      have hself : s = s.setNode n nd := by
        rw [State.setNode, ← hnd, Function.update_eq_self]
      refine h.decNode hs.tables hnd hself rfl (onlyOn_of_claim hc fun c' hc' => ?_) hnn ?_ ?_
      · rw [hbook, if_neg hc']
      · intro p hp hd st
        have hpend : (nd.dec strong false).pending st = nd.pending st := by
          cases strong <;> cases st <;> rfl
        rw [Node.localRefs_dec, h.count hnd hp hd st, booked_congr (by simp) hpend,
          booked_of_claim hc hp hbook]
        split <;> omega
      · exact fun p hp hd => h.pending hnd hp hd
  | @lostObject p ptr strong hget =>
      refine h.keep (.refl s) hnn fun c hd _ => ?_
      rw [book_drop]
      split
      · rename_i heq
        subst heq
        have hge := hnn (.object p ptr strong)
        rw [book_drop, if_pos rfl] at hge
        have hpos : 0 < G (.object p ptr strong) := by omega
        obtain ⟨n, nd, hnd, hproc, hptr⟩ := h.object hpos hd
        exact absurd hptr (hs.tables.getNode_none hget hnd hproc)
      · rfl
  | @done n nd strong hnd hproc hpending =>
      rw [book_of_nil rfl rfl]
      refine h.decNode hs.tables hnd rfl (by cases strong <;> rfl) (onlyOn_refl n nd) h.nonneg ?_ ?_
      · intro p hp hd st
        have hcount := h.count hnd hp hd st
        have hlocal : (nd.clearPending strong).localRefs st = nd.localRefs st := by
          cases strong <;> rfl
        rw [Node.localRefs_dec, hlocal, hcount]
        by_cases hst : st = strong
        · subst hst
          have hclear : ((nd.clearPending st).dec st false).pending st = false := by
            cases st <;> rfl
          have hptr : ((nd.clearPending st).dec st false).ptr = nd.ptr := by
            cases st <;> rfl
          rw [booked, booked, hpending, hclear, hptr]
          simp only [↓reduceIte, Bool.false_eq_true]
          ring
        · have hkeep : ((nd.clearPending strong).dec strong false).pending st = nd.pending st := by
            cases strong <;> cases st <;> first | rfl | exact absurd rfl hst
          rw [booked, booked, hkeep, if_neg hst]
          cases strong <;> simp [Node.clearPending]
      · intro p hp hd st hst
        have := h.pending hnd hp hd st (by
          cases strong <;> cases st <;> first | exact hst | cases hst)
        cases strong <;> cases st <;> exact this
  | newNode hget _ _ =>
      rw [book_of_nil rfl rfl]
      exact h.newNode hs.tables hget
  | newManager hnd hproc hctx _ =>
      rw [book_of_nil rfl rfl]
      exact h.newManager hnd hctx (hs.tables.node_lt hnd)
  | newRef hnd _ _ => exact hnil rfl rfl (.addRef hnd)
  | @holdRef r rf nd strong ok target s' hrf hnd hinc htarget =>
      refine hhandle rf.proc rf.desc strong (fun c hc => ?_) (.incRef hs.tables hrf hinc)
      cases ok
      · simp [Event.book, held, dropped, Ne.symm hc]
      · simp [Event.book, held, dropped, Ne.symm hc]
  | takeRef hrf hinc => exact hnil rfl rfl (.incRef hs.tables hrf hinc)
  | dropRef hrf hdec =>
      exact hhandle _ _ _ (fun c hc => by rw [book_drop, if_neg hc]) (.decRef hs.tables hrf hdec)
  | lostHandle => exact hhandle _ _ _ (fun c hc => by rw [book_drop, if_neg hc]) (.refl s)
  | giveRef hrf hdec => exact hnil rfl rfl (.decRef hs.tables hrf hdec)
  | deleteRef hrf hdel => exact hnil rfl rfl (.deleteRef hdel)
  | @orphan p n nd hnd hproc hidle =>
      obtain rfl := he _ rfl
      rw [book_of_nil rfl rfl]
      refine h.exempt ?_ ?_ fun m => ?_
      · unfold Driver.orphan
        split <;> rfl
      · unfold Driver.orphan
        split <;> exact .inl rfl
      · by_cases hm : m = n
        · subst hm
          refine .inr ⟨⟨nd, hnd, hproc⟩, fun md' hmd' => ?_⟩
          unfold Driver.orphan at hmd'
          split at hmd'
          · simp at hmd'
          · simp only [State.setNode, Function.update_self, Option.some.injEq] at hmd'
            rw [← hmd', Node.orphaned]
        · left
          unfold Driver.orphan
          split <;> simp [State.setNode, hm]
  | dropManager hctx hnd hproc =>
      obtain rfl := he _ rfl
      rw [book_of_nil rfl rfl]
      exact h.exempt rfl (.inr ⟨rfl, _, _, hctx, hnd, hproc⟩) fun m => .inl rfl

/-! ### Whole pieces -/

def bookAll (G : Claim → ℤ) (es : List Event) (c : Claim) : ℤ :=
  G c + (held es).count c - (dropped es).count c

theorem bookAll_cons (e : Event) (es : List Event) :
    bookAll (e.book G) es = bookAll G (e :: es) := by
  funext c
  have h₁ := held_append [e] es
  have h₂ := dropped_append [e] es
  rw [List.singleton_append] at h₁ h₂
  simp only [bookAll, Event.book, h₁, h₂, List.count_append]
  push_cast
  ring

/-- The books stay right along a piece that is never in debt. -/
theorem Books.changes {es : List Event} (h : Books d G s) (hs : Coherent L d s)
    (hes : Changes L s es s') (hok : ∀ e ∈ es, e.okFor d)
    (hsolv : ∀ es₁ es₂, es = es₁ ++ es₂ → ∀ c, 0 ≤ bookAll G es₁ c) :
    Books d (bookAll G es) s' := by
  induction hes generalizing G with
  | nil s =>
      have hnil : bookAll G [] = G := by
        funext c
        simp [bookAll, held, dropped]
      rwa [hnil]
  | @cons s s₁ s' e es hstep hrest ih =>
      have he := hok e List.mem_cons_self
      have hfirst : ∀ c, 0 ≤ e.book G c := fun c => by
        have := hsolv [e] es rfl c
        exact this
      have hb := h.change hs hstep he hfirst
      rw [← bookAll_cons]
      refine ih hb (hs.change hstep he) (fun e' he' => hok e' (List.mem_cons_of_mem _ he')) ?_
      rintro es₁ es₂ rfl c
      rw [bookAll_cons]
      exact hsolv (e :: es₁) es₂ rfl c

/-- The number of times that a claim is in the buffers. -/
def State.claimCount (s : State) (c : Claim) : ℤ := (s.claims c.proc).count c

theorem Walk.books {ok : Event → Prop} {D : Prop} (hw : Walk L ok D s s') (hs : Coherent L d s)
    (hok : ∀ e, ok e → e.stays) (hD : D) (h : Books d s.claimCount s) :
    Books d s'.claimCount s' := by
  obtain ⟨es, hes, hev, hwalk⟩ := hw
  obtain ⟨htally, hsolv⟩ := hwalk hD
  have hall : bookAll s.claimCount es = s'.claimCount := by
    funext c
    have := htally c
    rw [tally] at this
    simp only [bookAll, State.claimCount]
    omega
  rw [← hall]
  refine h.changes hs hes (fun e he => (hok e (hev e he)).okFor) ?_
  intro es₁ es₂ heq c
  have := hsolv es₁ es₂ heq c
  simp only [bookAll, State.claimCount]
  omega

theorem Event.departs.nil {p : ProcId} {e : Event} (h : e.departs p) :
    held [e] = [] ∧ dropped [e] = [] := by
  cases e <;> first | exact ⟨rfl, rfl⟩ | exact h.elim

theorem Departs.books {p : ProcId} (hm : Departs L p s s') (hs : Coherent L (some p) s)
    (h : Books (some p) s.claimCount s) : Books (some p) s'.claimCount s' := by
  obtain ⟨δ, ⟨es, hes, hev, htally⟩, hδ⟩ := hm
  have hnil : ∀ es' : List Event, (∀ e ∈ es', e.departs p) → held es' = [] ∧ dropped es' = [] := by
    intro es' hes'
    refine ⟨List.filterMap_eq_nil_iff.mpr fun e he => ?_,
      List.filterMap_eq_nil_iff.mpr fun e he => ?_⟩
    · simpa [held] using (hes' e he).nil.1
    · simpa [dropped] using (hes' e he).nil.2
  have hbook : ∀ es', (∀ e ∈ es', e.departs p) → bookAll s.claimCount es' = s.claimCount := by
    intro es' hes'
    funext c
    simp [bookAll, hnil es' hes']
  have hend := h.changes hs hes (fun e he => (hev e he).okFor) fun es₁ es₂ heq c => by
    rw [hbook es₁ fun e he => hev e (by rw [heq]; exact List.mem_append_left _ he)]
    exact h.nonneg c
  rw [hbook es hev] at hend
  refine hend.keep (.refl s') (fun c => Int.natCast_nonneg _) fun c hd _ => ?_
  have hzero := htally c
  rw [hδ c (by simpa using hd), tally, (hnil es hev).1, (hnil es hev).2] at hzero
  simp only [State.claimCount]
  simp at hzero
  omega

theorem Books.gone {p : ProcId} (h : Books (some p) s.claimCount s) (hgone : Gone p s) :
    Books none s.claimCount s := by
  have hzero : ∀ c : Claim, c.proc = p → s.claimCount c = 0 := by
    rintro c rfl
    simp [State.claimCount, State.claims, State.contents, hgone.area, Area.unmapped, liveBuffers]
  have hne : ∀ {n nd q}, s.nodes n = some nd → nd.proc = some q → some q ≠ some p := by
    intro n nd q hnd hq heq
    exact hgone.nodes n nd hnd (hq.trans heq)
  constructor
  case nonneg => exact h.nonneg
  case count => exact fun hnd hq _ => h.count hnd hq (hne hnd hq)
  case pending => exact fun hnd hq _ => h.pending hnd hq (hne hnd hq)
  case target =>
    intro q n hpos _
    refine h.target hpos fun heq => ?_
    obtain rfl : q = p := by simpa using heq
    rw [hzero _ rfl] at hpos
    exact lt_irrefl _ hpos
  case object =>
    intro q ptr st hpos _
    refine h.object hpos fun heq => ?_
    obtain rfl : q = p := by simpa using heq
    rw [hzero _ rfl] at hpos
    exact lt_irrefl _ hpos
  case manager_lt => exact h.manager_lt

theorem Books.exempted {p : ProcId} (h : Books none G s) : Books (some p) G s :=
  ⟨h.nonneg, fun hnd hq _ => h.count hnd hq (by simp), fun hnd hq _ => h.pending hnd hq (by simp),
    fun hpos _ => h.target hpos (by simp), fun hpos _ => h.object hpos (by simp), h.manager_lt⟩

theorem books_init : Books none State.init.claimCount State.init := by
  have hzero : ∀ c, State.init.claimCount c = 0 := by
    intro c
    simp [State.claimCount, State.claims, State.contents, State.init, Area.unmapped, liveBuffers]
  constructor
  case nonneg => exact fun c => (hzero c).ge
  case count => simp [State.init]
  case pending => simp [State.init]
  case target => simp [hzero]
  case object => simp [hzero]
  case manager_lt => simp [State.init]

end Books

end Driver

end BinderForLinux
