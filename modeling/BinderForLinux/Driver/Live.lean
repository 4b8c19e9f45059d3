import BinderForLinux.Driver.Changes.Buffers

/-!
# Buffers as a map

The allocated buffers, found by their process and address. The allocator and the
updates of buffers are updates of this map at one place.
-/

namespace BinderForLinux

namespace Driver

open Library

def State.live (s : State) (x : ProcId × ℕ) : Option Buffer :=
  (derefBuffer s x.1 x.2).toOption

section Live

variable {L : Layout} {s s' : State} {p : ProcId} {a : ℕ} {b : Buffer}

theorem live_eq_some : s.live (p, a) = some b ↔ derefBuffer s p a = .ok b := by
  unfold State.live
  cases derefBuffer s p a <;> simp [Except.toOption]

theorem live_congr (h : s'.area = s.area) : s'.live = s.live := by
  funext x
  simp [State.live, derefBuffer, h]

theorem findBuffer_modifyBuffer {f : Buffer → Buffer} (hf : ∀ b, (f b).addr = b.addr) (c : ℕ)
    (bs : List Buffer) :
    findBuffer (modifyBuffer a f bs) c =
      if c = a then (findBuffer bs c).map f else findBuffer bs c := by
  induction bs with
  | nil => simp [findBuffer, modifyBuffer]
  | cons b bs ih =>
      simp only [findBuffer, modifyBuffer, List.map_cons, List.find?_cons] at ih ⊢
      by_cases hb : b.addr = a <;> by_cases hc : b.addr = c
      · have hca : c = a := hc ▸ hb
        simp [hb, hf, hca]
      · have hca : c ≠ a := fun h => hc (hb.trans h.symm)
        have hac : a ≠ c := Ne.symm hca
        simpa [hb, hf, hac, hca] using ih
      · have hca : c ≠ a := fun h => hb (hc.trans h)
        simp [hc, hca]
      · simpa [hb, hc] using ih

theorem live_updateBuffer {f : Buffer → Buffer} (hf : KeepsBuffer f) :
    (s.updateBuffer p a f).live = Function.update s.live (p, a) ((s.live (p, a)).map f) := by
  funext x
  obtain ⟨q, c⟩ := x
  by_cases hq : q = p
  · subst hq
    simp only [State.live, derefBuffer, State.updateBuffer, State.setArea, Function.update_self,
      findBuffer_modifyBuffer hf.addr]
    by_cases hc : c = a
    · subst hc
      cases hfind : findBuffer (s.area q).buffers c with
      | none => simp [Except.toOption]
      | some b => cases hb : b.free <;> simp [hf.free, hb, Except.toOption]
    · simp [hc, State.live, derefBuffer]
  · simp [State.live, derefBuffer, State.updateBuffer, State.setArea, hq]

theorem live_setArea_of_ne {q : ProcId} {c : ℕ} {ar : Area} (hq : q ≠ p) :
    (s.setArea p ar).live (q, c) = s.live (q, c) := by
  simp [State.live, derefBuffer, State.setArea, hq]

theorem live_unmapped (s : State) (p : ProcId) (a : ℕ) :
    (s.setArea p Area.unmapped).live (p, a) = none := by
  simp [State.live, derefBuffer, State.setArea, Area.unmapped, findBuffer, Except.toOption]

theorem live_eq_some_of_sound (h : (s.area p).Sound L) :
    s.live (p, a) = some b ↔ b ∈ liveBuffers (s.area p).buffers ∧ b.addr = a := by
  rw [live_eq_some, derefBuffer_eq_ok]
  constructor
  · rintro ⟨hfind, hfree⟩
    refine ⟨by simpa [liveBuffers, hfree] using List.mem_of_find?_eq_some hfind, ?_⟩
    simpa using List.find?_some hfind
  · rintro ⟨hmem, rfl⟩
    simp only [liveBuffers, List.mem_filter, Bool.not_eq_true'] at hmem
    obtain ⟨pre, post, hbs, hcut⟩ := h.exists_cut hmem.1
    exact ⟨by rw [hbs, hcut.findBuffer_eq], hmem.2⟩

/-- Two sound areas are the same map when their allocated buffers are the same. -/
theorem live_setArea {ar : Area} (h : (s.area p).Sound L) (h' : ar.Sound L) {c : ℕ}
    (hlive : ∀ b, b.addr = c → (b ∈ liveBuffers ar.buffers ↔ b ∈ liveBuffers (s.area p).buffers)) :
    (s.setArea p ar).live (p, c) = s.live (p, c) := by
  have harea : (s.setArea p ar).area p = ar := by simp [State.setArea]
  refine Option.ext fun b => ?_
  rw [live_eq_some_of_sound (L := L) (by rwa [harea]), live_eq_some_of_sound h, harea]
  exact ⟨fun hb => ⟨(hlive b hb.2).mp hb.1, hb.2⟩, fun hb => ⟨(hlive b hb.2).mpr hb.1, hb.2⟩⟩

theorem live_freeBuf (h : AreaOk L (s.area p)) (hb : derefBuffer s p a = .ok b) {ar : Area}
    (hrun : binderFreeBuf L (s.area p) a = .ok ar) :
    b.transaction = none ∧ (s.setArea p ar).live = Function.update s.live (p, a) none := by
  obtain ⟨⟨hsound, hpos⟩, rfl, hfree, pre, post, hbs, hcut⟩ := h.split hb
  have hfind : findBuffer (s.area p).buffers b.addr = some b := by
    rw [hbs, hcut.findBuffer_eq]
  have htxn : b.transaction = none := by
    simp only [binderFreeBuf, hfind, except_bind_eq_ok, bugOn_eq_ok] at hrun
    obtain ⟨_, _, _, _, _, htxn, _⟩ := hrun
    simpa using htxn
  obtain ⟨ar', pre', post', hrun', hsound', hrel⟩ :=
    binderFreeBuf_ok hsound (hbs ▸ by simp) hfree htxn
  obtain rfl : ar = ar' := by
    rw [hrun'] at hrun
    cases hrun
    rfl
  refine ⟨htxn, funext fun x => ?_⟩
  obtain ⟨q, c⟩ := x
  by_cases hq : q = p
  · subst hq
    have hcut' : Cut pre' b post' := cut_of_pairwise (hrel.buffers ▸ hsound.pairwise)
    by_cases hc : c = b.addr
    · subst hc
      rw [Function.update_self, Option.eq_none_iff_forall_ne_some]
      intro b' hb'
      have harea : (s.setArea q ar).area q = ar := by simp [State.setArea]
      obtain ⟨hmem, haddr⟩ := (live_eq_some_of_sound (L := L) (by rwa [harea])).mp hb'
      rw [harea, hrel.live] at hmem
      have hmem : b' ∈ pre' ++ post' := (List.mem_filter.mp hmem).1
      rcases List.mem_append.mp hmem with hmem | hmem
      · exact hcut'.1 b' hmem haddr
      · exact hcut'.2 b' hmem haddr
    · rw [Function.update_of_ne (by simpa using hc)]
      refine live_setArea hsound hsound' fun b' hb' => ?_
      have hne : b' ≠ b := fun h => hc (by rw [← hb', h])
      rw [hrel.live, hrel.buffers]
      simp [liveBuffers, hne]
  · rw [live_setArea_of_ne hq, Function.update_of_ne (by simp [hq])]

theorem live_allocBuf (h : AreaOk L (s.area p)) {dataSize offsetsSize : ℕ} {isAsync : Bool}
    {env : PageEnv} {ar : Area}
    (hrun : binderAllocBuf L (s.area p) dataSize offsetsSize isAsync env = .ok (some a, ar)) :
    s.live (p, a) = none ∧ ∃ b, b.addr = a ∧ b.asyncTransaction = isAsync ∧
      b.transaction = none ∧ b.targetNode = none ∧ b.allowUserFree = false ∧
      ((s.setArea p ar).updateBuffer p a Buffer.cleared).live =
        Function.update s.live (p, a) (some b) := by
  rcases h with hun | ⟨hsound, hpos⟩
  · have : binderAllocBuf L (s.area p) dataSize offsetsSize isAsync env =
        .ok (none, s.area p) := by
      simp [binderAllocBuf, hun, Area.unmapped, pure, Except.pure]
    rw [this] at hrun
    cases hrun
  · rcases binderAllocBuf_ok hsound dataSize offsetsSize isAsync env with hnone |
        ⟨ar', pre, b, post, rest, hsome, hsound', htakes⟩
    · rw [hnone] at hrun
      cases hrun
    · rw [hsome] at hrun
      cases hrun
      have hcut : Cut pre b post := cut_of_pairwise (htakes.buffers ▸ hsound.pairwise)
      have hcut' : Cut pre (b.taken dataSize offsetsSize isAsync) (rest ++ post) :=
        cut_of_pairwise (htakes.buffers' ▸ hsound'.pairwise)
      have hrest : liveBuffers rest = [] :=
        List.filter_eq_nil_iff.mpr fun c hc => by simp [htakes.rest c hc]
      have hfind : findBuffer (s.area p).buffers b.addr = some b := by
        rw [htakes.buffers, hcut.findBuffer_eq]
      have hfind' : findBuffer ar.buffers b.addr = some (b.taken dataSize offsetsSize isAsync) := by
        rw [htakes.buffers']
        exact hcut'.findBuffer_eq
      have hat : ((s.setArea p ar).live (p, b.addr)) =
          some (b.taken dataSize offsetsSize isAsync) := by
        simp [State.live, derefBuffer, State.setArea, hfind', Buffer.taken, Except.toOption]
      refine ⟨?_, (b.taken dataSize offsetsSize isAsync).cleared, rfl, rfl, rfl, rfl, rfl, ?_⟩
      · simp [State.live, derefBuffer, hfind, htakes.free, Except.toOption]
      · rw [live_updateBuffer keepsBuffer_cleared, hat]
        funext x
        obtain ⟨q, c⟩ := x
        by_cases hx : (q, c) = (p, b.addr)
        · rw [hx, Function.update_self, Function.update_self]
          rfl
        · rw [Function.update_of_ne hx, Function.update_of_ne hx]
          by_cases hq : q = p
          · subst hq
            have hc : c ≠ b.addr := fun h => hx (by rw [h])
            refine live_setArea hsound hsound' fun b' hb' => ?_
            have hne : b' ≠ b := fun h => hc (by rw [← hb', h])
            have hne' : b' ≠ b.taken dataSize offsetsSize isAsync := fun h => hc (by
              rw [← hb', h]
              rfl)
            rw [htakes.buffers', htakes.buffers, liveBuffers_append, liveBuffers_append,
              liveBuffers_cons _ _ (by rfl), liveBuffers_append, hrest,
              liveBuffers_cons_free _ htakes.free]
            simp [hne']
          · exact live_setArea_of_ne hq

end Live

end Driver

end BinderForLinux
