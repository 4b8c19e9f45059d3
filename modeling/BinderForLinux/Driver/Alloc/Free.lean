import BinderForLinux.Driver.Alloc.Take

/-!
# `binder_free_buf` keeps the invariant

`binder_free_buf` marks the buffer free, which leaves it loose, takes away the
header after it and its own header when the neighbour there is free too, and
puts what is left into the free tree. Taking a header away is one lemma,
`binderDeleteFreeBuffer_ok`, used at both ends.
-/

namespace BinderForLinux

namespace Driver

open Library

/-- Every allocated buffer of the list has room for what was asked for. -/
def Fits (L : Layout) (ar : Area) (bs : List Buffer) : Prop :=
  ∀ c ∈ bs, c.free = false → c.needed ≤ binderBufferSize L ar c.addr

/-- A loose buffer in an area that is otherwise sound. -/
structure LooseSound (L : Layout) (ar : Area) (pre : List Buffer) (b : Buffer)
    (post : List Buffer) : Prop extends Loose L ar pre b post where
  fits : Fits L ar (pre ++ post)
  aligned : ar.PageAligned L
  pages : ar.PagesFor L (pre ++ b :: post)

section Free

variable {L : Layout} {ar : Area} {pre post : List Buffer} {b : Buffer}

theorem LooseSound.close_free (h : LooseSound L ar pre b post)
    (hlast : ∀ c ∈ pre.getLast?, c.free = false) (hhead : ∀ c ∈ post.head?, c.free = false) :
    ∃ t, binderInsertFreeBuffer L ar b.addr = .ok { ar with freeBuffers := t } ∧
      Area.Sound L { ar with freeBuffers := t } := by
  obtain ⟨t, hins, hshape⟩ := h.toLoose.close_free hlast hhead
  refine ⟨t, hins, ⟨hshape, ?_⟩, ⟨h.aligned.buffer, h.aligned.bufferSize⟩, ?_⟩
  · intro c hc hcf
    have hc : c ∈ pre ++ b :: post := h.buffers ▸ hc
    refine h.fits c ?_ hcf
    rcases List.mem_append.mp hc with hc | hc
    · simp [hc]
    · rcases List.mem_cons.mp hc with rfl | hc
      · rw [h.free] at hcf
        cases hcf
      · simp [hc]
  · rw [show ({ ar with freeBuffers := t } : Area).buffers = pre ++ b :: post from h.buffers]
    exact h.pages

/-- The header of the free buffer `y` after the free buffer `x` goes away. -/
theorem binderDeleteFreeBuffer_ok {x y : Buffer} {f : SearchTree ℕ}
    (hbs : ar.buffers = pre ++ x :: y :: post)
    (htiles : Tiles L.headerSize (ar.buffer + ar.bufferSize) ar.buffer ar.buffers)
    (hx : x.free = true) (hy : y.free = true)
    (hpre : pre.IsChain Apart) (hpost : post.IsChain Apart)
    (hperm : f.toList.Perm (freeAddrs (pre ++ post))) (hord : f.Ordered (binderBufferSize L ar))
    (hall : ar.allocatedBuffers.toList = allocatedAddrs (pre ++ post))
    (hfits : Fits L ar (pre ++ post)) (hal : ar.PageAligned L) (hpages : ar.PagesFor L ar.buffers) :
    ∃ ps, binderDeleteFreeBuffer L ar y.addr =
        .ok { ar with buffers := pre ++ x :: post, pages := ps } ∧
      LooseSound L { ar with buffers := pre ++ x :: post, pages := ps, freeBuffers := f }
        pre x post := by
  have hpw : ar.buffers.Pairwise fun b c => b.addr < c.addr := htiles.pairwise L.headerSize_pos
  have hbs' : ar.buffers = (pre ++ [x]) ++ y :: post := by simp [hbs]
  have hcut : Cut (pre ++ [x]) y post := cut_of_pairwise (hbs' ▸ hpw)
  have hprev : prevBuffer ar.buffers y.addr = some x := by
    rw [hbs', hcut.prevBuffer_eq]
    simp
  have hnext : nextBuffer ar.buffers y.addr = post.head? := by
    rw [hbs', hcut.nextBuffer_eq]
  have hrem : removeBuffer y.addr ar.buffers = pre ++ x :: post := by
    rw [hbs', hcut.removeBuffer_eq]
    simp
  have hhead : ar.buffers.head?.map Buffer.addr ≠ some y.addr := by
    have : ar.buffers.head?.map Buffer.addr = (pre ++ [x]).head?.map Buffer.addr := by
      rw [hbs']
      cases pre <;> simp
    rw [this]
    intro heq
    obtain ⟨c, hc, hca⟩ := Option.map_eq_some_iff.mp heq
    exact hcut.1 c (List.mem_of_mem_head? hc) hca
  obtain ⟨htpre, _, htx, _, hty, htpost⟩ := tiles_append_cons.mp (hbs ▸ htiles)
  simp only [startOr_cons] at htx
  have hlow := htpre.le
  have htiles' : Tiles L.headerSize (ar.buffer + ar.bufferSize) ar.buffer (pre ++ x :: post) := by
    have hstart := htpost.startOr_eq
    refine tiles_append_cons.mpr ⟨htpre, rfl, by omega, ?_⟩
    exact htpost
  have hpw' := htiles'.pairwise L.headerSize_pos
  have hneed := fun i => needs_delete_header (a := ar.buffer + i * L.pageSize) (hbs ▸ htiles) hx hy
  obtain ⟨ps, hrel, hps⟩ := @releaseHeaderPages_ok L
    { ar with buffers := pre ++ x :: post } _ y.addr (post.head?.map Buffer.addr) hal.buffer
    (by change ar.buffer ≤ _; omega) htx
    (by
      intro n hn
      cases post with
      | nil => simp at hn
      | cons d post =>
          obtain rfl : d.addr = n := by simpa using hn
          exact hty)
    (by
      intro i hi
      refine (hpages i).mpr ?_
      rw [hbs, needs_append_cons]
      exact .inr (.inr (.inr (.inl ⟨hi.1, hi.2.1⟩))))
  have hsize : ∀ c ∈ pre ++ post, binderBufferSize L
      { ar with buffers := pre ++ x :: post, pages := ps, freeBuffers := f } c.addr =
      binderBufferSize L ar c.addr := fun c hc =>
    congrArg (· - (c.addr + L.headerSize))
      (@bufferEnd_congr _ _ _ [y] [] _ x _ _ rfl hpw hpw' hbs rfl rfl hc)
  refine ⟨ps, ?_, ⟨rfl, hx, htiles', hpre, hpost, hperm, hord.congr ?_, hall⟩, ?_,
    ⟨hal.buffer, hal.bufferSize⟩, ?_⟩
  · simp only [binderDeleteFreeBuffer, bugOn, hhead, hprev, hx, hnext, hrem, hrel]
    simp
  · intro a ha
    obtain ⟨c, hc, _, rfl⟩ := mem_freeAddrs.mp (hperm.mem_iff.mp ha)
    exact hsize c hc
  · intro c hc hcf
    rw [hsize c hc]
    exact hfits c hc hcf
  · intro i
    rw [hneed i, ← hbs, ← hpages i]
    exact hps i

/-- A free buffer taken out of a list of free addresses that is a permutation
of the tree. -/
theorem perm_remove {f : SearchTree ℕ} {c : Buffer} (hc : c.free = true)
    (hperm : f.toList.Perm (freeAddrs (pre ++ c :: post))) (hcut : Cut pre c post) :
    (f.remove c.addr).toList.Perm (freeAddrs (pre ++ post)) := by
  have := hperm.filter fun x => !decide (x = c.addr)
  simpa [freeAddrs_cons, hc, filter_ne_freeAddrs hcut.1, filter_ne_freeAddrs hcut.2] using this

theorem mergeNext_ok (h : LooseSound L ar pre b post) :
    ∃ post' ps f, mergeNext L ar b.addr =
        .ok { ar with buffers := pre ++ b :: post', pages := ps, freeBuffers := f } ∧
      LooseSound L { ar with buffers := pre ++ b :: post', pages := ps, freeBuffers := f }
        pre b post' ∧
      (∀ c ∈ post'.head?, c.free = false) ∧
      (post = post' ∨ ∃ c, c.free = true ∧ post = c :: post') := by
  have hnext : nextBuffer ar.buffers b.addr = post.head? := by
    rw [h.buffers, h.cut.nextBuffer_eq]
  have hsame : ({ ar with buffers := pre ++ b :: post } : Area) = ar := by rw [← h.buffers]
  cases post with
  | nil =>
      refine ⟨[], ar.pages, ar.freeBuffers, ?_, ?_, by simp, .inl rfl⟩
      · simp [mergeNext, hnext, hsame]
      · exact hsame.symm ▸ h
  | cons next post =>
      cases hfree : next.free with
      | false =>
          refine ⟨next :: post, ar.pages, ar.freeBuffers, ?_, ?_, by simp [hfree], .inl rfl⟩
          · simp [mergeNext, hnext, hfree, hsame]
          · exact hsame.symm ▸ h
      | true =>
          obtain ⟨hhead, hchain⟩ := List.isChain_cons.mp h.apartPost
          have hcut : Cut pre next post := by
            refine cut_of_pairwise (h.pairwise.sublist ?_)
            simp
          obtain ⟨ps, hdel, hloose⟩ := @binderDeleteFreeBuffer_ok L
            { ar with freeBuffers := ar.freeBuffers.remove next.addr } _ _ _ _
            (ar.freeBuffers.remove next.addr) h.buffers (h.buffers ▸ h.tiles) h.free hfree
            h.apartPre hchain (perm_remove hfree h.freePerm hcut) (h.freeOrdered.remove _)
            (by simpa [allocatedAddrs_cons, hfree] using h.allocated)
            (fun c hc hcf => h.fits c (by
              rcases List.mem_append.mp hc with hc | hc <;> simp [hc]) hcf)
            ⟨h.aligned.buffer, h.aligned.bufferSize⟩ (h.buffers ▸ h.pages)
          refine ⟨post, ps, ar.freeBuffers.remove next.addr, ?_, hloose, ?_,
            .inr ⟨next, hfree, rfl⟩⟩
          · simpa [mergeNext, hnext, hfree] using hdel
          · intro c hc
            simpa [Apart, hfree] using hhead c hc

theorem mergePrev_ok (h : LooseSound L ar pre b post) :
    ∃ pre' x ps f, mergePrev L ar b.addr = .ok (x.addr,
        { ar with buffers := pre' ++ x :: post, pages := ps, freeBuffers := f }) ∧
      LooseSound L { ar with buffers := pre' ++ x :: post, pages := ps, freeBuffers := f }
        pre' x post ∧
      (∀ c ∈ pre'.getLast?, c.free = false) ∧
      (pre = pre' ∧ b = x ∨ x.free = true ∧ pre = pre' ++ [x]) := by
  have hprev : prevBuffer ar.buffers b.addr = pre.getLast? := by
    rw [h.buffers, h.cut.prevBuffer_eq]
  have hsame : ({ ar with buffers := pre ++ b :: post } : Area) = ar := by rw [← h.buffers]
  rcases List.eq_nil_or_concat pre with rfl | ⟨pre', x, rfl⟩
  · refine ⟨[], b, ar.pages, ar.freeBuffers, ?_, ?_, by simp, .inl ⟨rfl, rfl⟩⟩
    · simp only [mergePrev, hprev, hsame]
      rfl
    · exact hsame.symm ▸ h
  · rw [List.concat_eq_append] at *
    cases hfree : x.free with
    | false =>
        refine ⟨pre' ++ [x], b, ar.pages, ar.freeBuffers, ?_, ?_, by simp [hfree],
          .inl ⟨rfl, rfl⟩⟩
        · simp only [mergePrev, hprev, hsame]
          simp [hfree]
        · exact hsame.symm ▸ h
    | true =>
        obtain ⟨hchain, _, hlast⟩ := List.isChain_append.mp h.apartPre
        have hbs : ar.buffers = pre' ++ x :: b :: post := by simp [h.buffers]
        have hcut : Cut pre' x post := by
          refine cut_of_pairwise (h.pairwise.sublist ?_)
          simp
        have hperm : ar.freeBuffers.toList.Perm (freeAddrs (pre' ++ x :: post)) := by
          simpa using h.freePerm
        obtain ⟨ps, hdel, hloose⟩ := binderDeleteFreeBuffer_ok
          (f := ar.freeBuffers.remove x.addr) hbs (h.buffers ▸ h.tiles) hfree h.free
          hchain h.apartPost (perm_remove hfree hperm hcut) (h.freeOrdered.remove _)
          (by simpa [allocatedAddrs_cons, hfree] using h.allocated)
          (fun c hc hcf => h.fits c (by
            rcases List.mem_append.mp hc with hc | hc <;> simp [hc]) hcf)
          h.aligned (h.buffers ▸ h.pages)
        refine ⟨pre', x, ps, ar.freeBuffers.remove x.addr, ?_, hloose, ?_, .inr ⟨hfree, rfl⟩⟩
        · simp only [mergePrev, hprev]
          simp [hfree, hdel, Except.map]
        · intro c hc
          simpa [Apart, hfree] using hlast c hc x (by simp)

theorem Area.Sound.open_allocated (h : ar.Sound L) (hbs : ar.buffers = pre ++ b :: post)
    (hb : b.free = false) {ps : ℕ → Bool}
    (hps : ∀ i, ps i = true ↔ ar.pages i = true ∧
      ¬ (b.addr + L.headerSize ≤ ar.buffer + i * L.pageSize ∧ ar.buffer + i * L.pageSize +
        L.pageSize ≤ startOr (ar.buffer + ar.bufferSize) post)) (space : ℕ) :
    LooseSound L { ar with
        freeAsyncSpace := space
        pages := ps
        allocatedBuffers := ar.allocatedBuffers.remove b.addr
        buffers := pre ++ { b with free := true } :: post }
      pre { b with free := true } post := by
  have hcut : Cut pre b post := cut_of_pairwise (hbs ▸ h.pairwise)
  have htiles : Tiles L.headerSize (ar.buffer + ar.bufferSize) ar.buffer
      (pre ++ { b with free := true } :: post) :=
    (@tiles_congr _ _ b _ _ _ { b with free := true } rfl).mpr (hbs ▸ h.tiles)
  have hchain := h.apart
  rw [hbs, List.isChain_append, List.isChain_cons] at hchain
  obtain ⟨hpre, ⟨_, hpost⟩, _⟩ := hchain
  have hsize : ∀ c ∈ pre ++ post, binderBufferSize L { ar with
        freeAsyncSpace := space
        pages := ps
        allocatedBuffers := ar.allocatedBuffers.remove b.addr
        buffers := pre ++ { b with free := true } :: post } c.addr =
      binderBufferSize L ar c.addr := fun c hc =>
    congrArg (· - (c.addr + L.headerSize))
      (@bufferEnd_congr _ _ _ [] [] _ b _ _ rfl h.pairwise (htiles.pairwise L.headerSize_pos) hbs
        rfl rfl hc)
  have hperm : ar.freeBuffers.toList.Perm (freeAddrs (pre ++ post)) := by
    simpa [hbs, freeAddrs_cons, hb] using h.freePerm
  refine ⟨⟨rfl, rfl, htiles, hpre, hpost, hperm, h.freeOrdered.congr ?_, ?_⟩, ?_,
    ⟨h.aligned.buffer, h.aligned.bufferSize⟩, ?_⟩
  · intro a ha
    obtain ⟨c, hc, _, rfl⟩ := mem_freeAddrs.mp (hperm.mem_iff.mp ha)
    exact hsize c hc
  · have := congrArg (List.filter fun x => !decide (x = b.addr)) h.allocated
    simpa [hbs, allocatedAddrs_cons, hb, filter_ne_allocatedAddrs hcut.1,
      filter_ne_allocatedAddrs hcut.2] using this
  · intro c hc hcf
    rw [hsize c hc]
    refine h.fits c ?_ hcf
    rw [hbs]
    rcases List.mem_append.mp hc with hc | hc <;> simp [hc]
  · intro i
    have := @needs_free_data _ _ _ _ _ _ b { b with free := true } (hbs ▸ h.tiles) hb rfl rfl
      (h.aligned.dvd_page i) h.aligned.dvd_end
    rw [this, ← hbs, ← h.pages i]
    exact hps i

def liveBuffers (bs : List Buffer) : List Buffer := bs.filter fun b => !b.free

/-- What `binder_free_buf` does to the area. -/
structure Area.Releases (L : Layout) (ar ar' : Area) (pre : List Buffer) (b : Buffer)
    (post : List Buffer) : Prop where
  buffers : ar.buffers = pre ++ b :: post
  free : b.free = false
  live : liveBuffers ar'.buffers = liveBuffers (pre ++ post)
  space : ar.SameSpace ar'
  async : ar'.freeAsyncSpace = if b.asyncTransaction then
      ar.freeAsyncSpace + (requestSize b.dataSize b.offsetsSize + L.headerSize)
    else ar.freeAsyncSpace

theorem liveBuffers_append (bs cs : List Buffer) :
    liveBuffers (bs ++ cs) = liveBuffers bs ++ liveBuffers cs := by
  simp [liveBuffers]

theorem liveBuffers_cons_free (bs : List Buffer) (hb : b.free = true) :
    liveBuffers (b :: bs) = liveBuffers bs := by
  simp [liveBuffers, hb]

theorem binderFreeBuf_ok (h : ar.Sound L) (hmem : b ∈ ar.buffers) (hb : b.free = false)
    (htxn : b.transaction = none) :
    ∃ ar' pre post, binderFreeBuf L ar b.addr = .ok ar' ∧ ar'.Sound L ∧
      ar.Releases L ar' pre b post := by
  obtain ⟨pre, post, hbs, hcut⟩ := h.exists_cut hmem
  have hfind : findBuffer ar.buffers b.addr = some b := by rw [hbs, hcut.findBuffer_eq]
  have hend := bufferEnd_of_cut hcut hbs
  obtain ⟨hpret, _, hlow, hpostt⟩ := tiles_append_cons.mp (hbs ▸ h.tiles)
  have hlowb := hpret.le
  have hstop := hpostt.le
  have hupb : b.addr ≤ ar.buffer + ar.bufferSize := by omega
  have hroom : b.addr + L.headerSize + binderBufferSize L ar b.addr =
      startOr (ar.buffer + ar.bufferSize) post := by
    rw [binderBufferSize, hend]
    omega
  have hfits : ¬ requestSize b.dataSize b.offsetsSize > binderBufferSize L ar b.addr := by
    have hle : requestSize b.dataSize b.offsetsSize ≤ b.needed := Nat.mod_le _ _
    have := h.fits b hmem hb
    omega
  obtain ⟨space, hspace⟩ : ∃ space, space = if b.asyncTransaction then
      ar.freeAsyncSpace + (requestSize b.dataSize b.offsetsSize + L.headerSize)
    else ar.freeAsyncSpace := ⟨_, rfl⟩
  have hrange : ∀ i, pageIn L ar (L.pageAlign (b.addr + L.headerSize))
      (L.pageMask (b.addr + L.headerSize + binderBufferSize L ar b.addr)) i ↔
      b.addr + L.headerSize ≤ ar.buffer + i * L.pageSize ∧ ar.buffer + i * L.pageSize +
        L.pageSize ≤ startOr (ar.buffer + ar.bufferSize) post := by
    intro i
    rw [pageIn, L.pageAlign_le_iff (h.aligned.dvd_page i), L.lt_pageMask_iff (h.aligned.dvd_page i),
      hroom]
  have hdata : ar.buffer ≤ L.pageAlign (b.addr + L.headerSize) :=
    (by omega : ar.buffer ≤ b.addr + L.headerSize).trans (L.le_pageAlign _)
  obtain ⟨ok, ps, hup, hps⟩ := @binderUpdatePageRange_free L
    { ar with freeAsyncSpace := space } _ _ PageEnv.unused h.aligned.buffer
    (L.dvd_pageAlign (b.addr + L.headerSize))
    (L.dvd_pageMask (b.addr + L.headerSize + binderBufferSize L ar b.addr)) hdata
    (fun i hi => (h.pages i).mpr (hbs ▸ needs_inside hb ((hrange i).mp hi).1 ((hrange i).mp hi).2))
  have hloose := h.open_allocated hbs hb
    (fun i => (hps i).trans (and_congr_right fun _ => not_congr (hrange i))) space
  obtain ⟨post', ps₁, f₁, hnext, hloose₁, hhead, hpost'⟩ := mergeNext_ok hloose
  obtain ⟨pre', x, ps₂, f₂, hprev, hloose₂, hlast, hpre'⟩ := mergePrev_ok hloose₁
  obtain ⟨t, hins, hsound⟩ := hloose₂.close_free hlast hhead
  refine ⟨_, pre, post, ?_, hsound, hbs, hb, ?_, ⟨rfl, rfl, rfl, rfl⟩, hspace⟩
  · have hmod : modifyBuffer b.addr (fun b => { b with free := true }) ar.buffers =
        pre ++ { b with free := true } :: post := by
      rw [hbs]
      exact hcut.modifyBuffer_eq _
    simp only [binderFreeBuf, hfind, bugOn, hb, hfits, htxn, ← hspace, not_lt.mpr hlowb,
      not_lt.mpr hupb, Option.isSome_none, decide_false, Bool.false_eq_true, ↓reduceIte]
    rw [except_bind_ok rfl, except_bind_ok rfl, except_bind_ok rfl, except_bind_ok rfl,
      except_bind_ok rfl, except_bind_ok hup]
    simp only [hmod]
    rw [except_bind_ok hnext, except_bind_ok hprev]
    exact hins
  · have hp : liveBuffers post' = liveBuffers post := by
      rcases hpost' with rfl | ⟨c, hc, rfl⟩
      · rfl
      · rw [liveBuffers_cons_free _ hc]
    have hx : liveBuffers (pre' ++ [x]) = liveBuffers pre := by
      rcases hpre' with ⟨rfl, rfl⟩ | ⟨hx, rfl⟩
      · rw [liveBuffers_append, liveBuffers_cons_free _ rfl]
        simp [liveBuffers]
      · rfl
    change liveBuffers (pre' ++ x :: post') = _
    rw [show pre' ++ x :: post' = (pre' ++ [x]) ++ post' by simp, liveBuffers_append, hx, hp,
      ← liveBuffers_append]

end Free

end Driver

end BinderForLinux
