import BinderForLinux.Driver.Changes.Objects

/-!
# Buffers that come and go

How the contents of the buffers of a process change when a buffer is allocated,
filled in and freed, and what that does to the claims in them. The `tally` of a
piece of the driver compares the claims in the buffers before and after with
those that its events hold and drop; it is zero when the books are even.
-/

namespace BinderForLinux

namespace Driver

open Library

/-- The claims of a buffer of `p` with the given content. -/
def contentClaims (p : ProcId) (x : ℕ × Option NodeId × ℕ × Data × List ℕ) : List Claim :=
  bufferClaims p x.2.1 x.2.2.1 x.2.2.2.1 x.2.2.2.2

def State.claims (s : State) (p : ProcId) : List Claim :=
  (s.contents p).flatMap (contentClaims p)

/-- By how much the claims in the buffers grow beyond what the events hold and
drop. -/
def tally (s : State) (es : List Event) (s' : State) (c : Claim) : ℤ :=
  (s'.claims c.proc).count c - (s.claims c.proc).count c -
    ((held es).count c - (dropped es).count c)

section Claims

variable {s s' s'' : State} {p : ProcId}

theorem objectClaim_proc {dataSize off : ℕ} {data : Data} {c : Claim}
    (h : objectClaim p dataSize data off = some c) : c.proc = p := by
  unfold objectClaim at h
  split at h
  · cases h
  · split at h
    · cases h
      rfl
    · cases h
      rfl
    · cases h

theorem bufferClaims_proc {node : Option NodeId} {dataSize : ℕ} {data : Data} {offs : List ℕ}
    {c : Claim} (h : c ∈ bufferClaims p node dataSize data offs) : c.proc = p := by
  rcases List.mem_append.mp h with h | h
  · cases node with
    | none => cases h
    | some n =>
        obtain rfl : c = .target p n := by simpa [targetClaim] using h
        rfl
  · obtain ⟨off, -, hoff⟩ := List.mem_filterMap.mp h
    exact objectClaim_proc hoff

theorem tally_append (es es' : List Event) (c : Claim) :
    tally s (es ++ es') s'' c = tally s es s' c + tally s' es' s'' c := by
  simp only [tally, held_append, dropped_append, List.count_append]
  push_cast
  omega

theorem tally_of_contents (es : List Event) (h : s'.contents = s.contents) (c : Claim) :
    tally s es s' c = (dropped es).count c - (held es).count c := by
  simp only [tally, State.claims, h]
  omega

theorem count_claims_replace {pre post xs ys : List (ℕ × Option NodeId × ℕ × Data × List ℕ)}
    (hs : s.contents p = pre ++ xs ++ post) (hs' : s'.contents p = pre ++ ys ++ post)
    (hother : ∀ q, q ≠ p → s'.contents q = s.contents q) (c : Claim) :
    (s'.claims c.proc).count c + (xs.flatMap (contentClaims p)).count c =
      (s.claims c.proc).count c + (ys.flatMap (contentClaims p)).count c := by
  by_cases hp : c.proc = p
  · simp only [State.claims, hp, hs, hs', List.flatMap_append, List.count_append]
    omega
  · have hzero : ∀ l : List (ℕ × Option NodeId × ℕ × Data × List ℕ),
        (l.flatMap (contentClaims p)).count c = 0 := by
      intro l
      refine List.count_eq_zero.mpr fun hmem => ?_
      obtain ⟨x, -, hx⟩ := List.mem_flatMap.mp hmem
      exact hp (bufferClaims_proc hx)
    rw [hzero, hzero, State.claims, State.claims, hother _ hp]

end Claims

section Buffers

variable {L : Layout} {d : Option ProcId} {s s' : State} {p : ProcId} {a : ℕ} {b : Buffer}

theorem liveBuffers_cons (b : Buffer) (bs : List Buffer) (hb : b.free = false) :
    liveBuffers (b :: bs) = b :: liveBuffers bs := by
  simp [liveBuffers, hb]

theorem AreaOk.split (h : AreaOk L (s.area p)) (hb : derefBuffer s p a = .ok b) :
    ((s.area p).Sound L ∧ (s.area p).buffer ≠ 0) ∧ b.addr = a ∧ b.free = false ∧
      ∃ pre post, (s.area p).buffers = pre ++ b :: post ∧ Cut pre b post := by
  obtain ⟨hfind, hfree⟩ := derefBuffer_eq_ok.mp hb
  have hmem : b ∈ (s.area p).buffers := List.mem_of_find?_eq_some hfind
  have haddr : b.addr = a := by simpa using List.find?_some hfind
  rcases h with hun | ⟨hsound, hpos⟩
  · rw [hun] at hmem
    simp [Area.unmapped] at hmem
  · exact ⟨⟨hsound, hpos⟩, haddr, hfree, hsound.exists_cut hmem⟩

theorem contents_of_split {pre post : List Buffer} (hbs : (s.area p).buffers = pre ++ b :: post)
    (hfree : b.free = false) :
    s.contents p = (liveBuffers pre).map Buffer.content ++
      b.content :: (liveBuffers post).map Buffer.content := by
  rw [State.contents, hbs, liveBuffers_append, liveBuffers_cons b post hfree]
  simp

theorem contents_updateBuffer (h : AreaOk L (s.area p)) (hb : derefBuffer s p a = .ok b)
    {f : Buffer → Buffer} (hf : KeepsBuffer f) :
    derefBuffer (s.updateBuffer p a f) p a = .ok (f b) ∧
      ∃ pre post, s.contents p = pre ++ b.content :: post ∧
        (s.updateBuffer p a f).contents p = pre ++ (f b).content :: post := by
  obtain ⟨⟨hsound, hpos⟩, rfl, hfree, pre, post, hbs, hcut⟩ := h.split hb
  have hbs' : ((s.updateBuffer p b.addr f).area p).buffers = pre ++ f b :: post := by
    simp [State.updateBuffer, State.setArea, hbs, hcut.modifyBuffer_eq]
  have hcut' : Cut pre (f b) post := by
    unfold Cut
    rw [hf.addr]
    exact hcut
  refine ⟨?_, _, _, contents_of_split hbs hfree, ?_⟩
  · refine derefBuffer_eq_ok.mpr ⟨?_, (hf.free b).trans hfree⟩
    rw [hbs', ← hf.addr b]
    exact hcut'.findBuffer_eq
  · exact contents_of_split hbs' ((hf.free b).trans hfree)

theorem contents_setArea_of_ne {q : ProcId} {ar : Area} (hq : q ≠ p) :
    (s.setArea p ar).contents q = s.contents q := by
  simp [State.contents, State.setArea, hq]

theorem contents_freeBuf (h : AreaOk L (s.area p)) (hb : derefBuffer s p a = .ok b) {ar : Area}
    (hrun : binderFreeBuf L (s.area p) a = .ok ar) :
    AreaOk L ar ∧ ∃ pre post, s.contents p = pre ++ b.content :: post ∧
      (s.setArea p ar).contents p = pre ++ post := by
  obtain ⟨⟨hsound, hpos⟩, rfl, hfree, pre, post, hbs, hcut⟩ := h.split hb
  have hfind : findBuffer (s.area p).buffers b.addr = some b := by
    rw [hbs, hcut.findBuffer_eq]
  have htxn : b.transaction = none := by
    simp only [binderFreeBuf, hfind, except_bind_eq_ok, bugOn_eq_ok] at hrun
    obtain ⟨_, _, _, _, _, htxn, _⟩ := hrun
    simpa using htxn
  obtain ⟨ar', pre', post', hrun', hsound', hrel⟩ :=
    binderFreeBuf_ok hsound (hbs ▸ by simp) hfree htxn
  obtain rfl : ar = ar' := by
    rw [hrun'] at hrun
    cases hrun
    rfl
  refine ⟨.inr ⟨hsound', hrel.space.buffer ▸ hpos⟩, _, _, contents_of_split hrel.buffers hfree, ?_⟩
  have : (s.setArea p ar).contents p = (liveBuffers ar.buffers).map Buffer.content := by
    simp [State.contents, State.setArea]
  rw [this, hrel.live, liveBuffers_append, List.map_append]

theorem keepsBuffer_cleared : KeepsBuffer Buffer.cleared :=
  ⟨fun _ => rfl, fun _ => rfl, fun _ => rfl⟩

theorem allocBuf_none (h : AreaOk L (s.area p)) {dataSize offsetsSize : ℕ} {isAsync : Bool}
    {env : PageEnv} {ar : Area}
    (hrun : binderAllocBuf L (s.area p) dataSize offsetsSize isAsync env = .ok (none, ar)) :
    s.setArea p ar = s := by
  have har : ar = s.area p := by
    rcases h with hun | ⟨hsound, hpos⟩
    · simpa [binderAllocBuf, hun, Area.unmapped, pure, Except.pure, eq_comm] using hrun
    · rcases binderAllocBuf_ok hsound dataSize offsetsSize isAsync env with hnone |
          ⟨_, _, _, _, _, hsome, _⟩
      · rw [hnone] at hrun
        cases hrun
        rfl
      · rw [hsome] at hrun
        cases hrun
  rw [har, State.setArea, Function.update_eq_self]

theorem contents_allocBuf (h : AreaOk L (s.area p)) {dataSize offsetsSize : ℕ} {isAsync : Bool}
    {env : PageEnv} {ar : Area}
    (hrun : binderAllocBuf L (s.area p) dataSize offsetsSize isAsync env = .ok (some a, ar)) :
    AreaOk L (((s.setArea p ar).updateBuffer p a Buffer.cleared).area p) ∧
      ∃ b pre post,
        derefBuffer ((s.setArea p ar).updateBuffer p a Buffer.cleared) p a = .ok b ∧
        b.content = (a, none, dataSize, (fun _ => 0), []) ∧ b.transaction = none ∧
        s.contents p = pre ++ post ∧
        ((s.setArea p ar).updateBuffer p a Buffer.cleared).contents p =
          pre ++ b.content :: post := by
  rcases h with hun | ⟨hsound, hpos⟩
  · have : binderAllocBuf L (s.area p) dataSize offsetsSize isAsync env =
        .ok (none, s.area p) := by
      simp [binderAllocBuf, hun, Area.unmapped, pure, Except.pure]
    rw [this] at hrun
    cases hrun
  · rcases binderAllocBuf_ok hsound dataSize offsetsSize isAsync env with hnone |
        ⟨ar', pre, b, post, rest, hsome, hsound', htakes⟩
    · rw [hnone] at hrun
      cases hrun
    · rw [hsome] at hrun
      cases hrun
      have hcut : Cut pre (b.taken dataSize offsetsSize isAsync) (rest ++ post) :=
        cut_of_pairwise (htakes.buffers' ▸ hsound'.pairwise)
      have harea : ((s.setArea p ar).updateBuffer p b.addr Buffer.cleared).area p =
          { ar with buffers := modifyBuffer b.addr Buffer.cleared ar.buffers } := by
        simp [State.updateBuffer, State.setArea]
      have hbs : (((s.setArea p ar).updateBuffer p b.addr Buffer.cleared).area p).buffers =
          pre ++ (b.taken dataSize offsetsSize isAsync).cleared :: (rest ++ post) := by
        rw [harea, htakes.buffers']
        exact hcut.modifyBuffer_eq Buffer.cleared
      have hrest : liveBuffers (rest ++ post) = liveBuffers post := by
        rw [liveBuffers_append]
        have : liveBuffers rest = [] :=
          List.filter_eq_nil_iff.mpr fun c hc => by simp [htakes.rest c hc]
        rw [this, List.nil_append]
      refine ⟨?_, (b.taken dataSize offsetsSize isAsync).cleared,
        (liveBuffers pre).map Buffer.content, (liveBuffers post).map Buffer.content, ?_, rfl, rfl,
        ?_, ?_⟩
      · rw [harea]
        exact AreaOk.modifyBuffer (.inr ⟨hsound', htakes.space.buffer ▸ hpos⟩) _ keepsBuffer_cleared
      · refine derefBuffer_eq_ok.mpr ⟨?_, rfl⟩
        rw [hbs]
        exact Cut.findBuffer_eq (b := (b.taken dataSize offsetsSize isAsync).cleared) hcut
      · rw [State.contents, htakes.buffers, liveBuffers_append,
          liveBuffers_cons_free post htakes.free, List.map_append]
      · rw [contents_of_split hbs rfl, hrest]

end Buffers

end Driver

end BinderForLinux
