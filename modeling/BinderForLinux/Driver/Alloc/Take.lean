import BinderForLinux.Driver.Alloc.Pages

/-!
# `binder_alloc_buf` keeps the invariant

`Area.Sound` is the whole invariant of an area: the representation invariant
and the exact page map. `binderAllocBuf_ok` says that `binder_alloc_buf` never
faults on a sound area: it either refuses and changes nothing or takes one free
buffer, whole or split in two, and leaves a sound area.
-/

namespace BinderForLinux

namespace Driver

open Library

/-- The map holds exactly the pages that the buffers of the list need. -/
def Area.PagesFor (L : Layout) (ar : Area) (bs : List Buffer) : Prop :=
  ∀ i, ar.pages i = true ↔
    Needs L (ar.buffer + ar.bufferSize) (ar.buffer + i * L.pageSize) bs

structure Area.Sound (L : Layout) (ar : Area) : Prop extends ar.WellFormed L where
  aligned : ar.PageAligned L
  pages : ar.PagesFor L ar.buffers

theorem Area.Sound.pagesExact {L : Layout} {ar : Area} (h : ar.Sound L) : ar.PagesExact L :=
  fun i => (h.pages i).trans (needs_iff_byteInUse h.pairwise i)

theorem Area.PageAligned.dvd_page {L : Layout} {ar : Area} (h : ar.PageAligned L) (i : ℕ) :
    L.pageSize ∣ ar.buffer + i * L.pageSize :=
  Nat.dvd_add h.buffer ⟨i, Nat.mul_comm _ _⟩

theorem Area.PageAligned.dvd_end {L : Layout} {ar : Area} (h : ar.PageAligned L) :
    L.pageSize ∣ ar.buffer + ar.bufferSize :=
  Nat.dvd_add h.buffer h.bufferSize

/-- The representation invariant does not see the page map, the asynchronous
space and the mapping. -/
theorem Area.Shaped.congr {L : Layout} {ar ar' : Area} (h : ar.Shaped L)
    (hb : ar'.buffer = ar.buffer) (hs : ar'.bufferSize = ar.bufferSize)
    (hbs : ar'.buffers = ar.buffers) (hf : ar'.freeBuffers = ar.freeBuffers)
    (ha : ar'.allocatedBuffers = ar.allocatedBuffers) : ar'.Shaped L := by
  have hkey : binderBufferSize L ar' = binderBufferSize L ar := by
    funext a
    simp only [binderBufferSize, Area.bufferEnd, hbs, hb, hs]
  exact ⟨by rw [hb, hs, hbs]; exact h.tiles, by rw [hbs]; exact h.apart,
    by rw [hf, hbs]; exact h.freePerm, by rw [hf, hkey]; exact h.freeOrdered,
    by rw [ha, hbs]; exact h.allocated⟩

theorem Area.WellFormed.congr {L : Layout} {ar ar' : Area} (h : ar.WellFormed L)
    (hb : ar'.buffer = ar.buffer) (hs : ar'.bufferSize = ar.bufferSize)
    (hbs : ar'.buffers = ar.buffers) (hf : ar'.freeBuffers = ar.freeBuffers)
    (ha : ar'.allocatedBuffers = ar.allocatedBuffers) : ar'.WellFormed L := by
  refine ⟨h.toShaped.congr hb hs hbs hf ha, ?_⟩
  intro b hmem hfree
  have := h.fits b (hbs ▸ hmem) hfree
  simpa only [binderBufferSize, Area.bufferEnd, hbs, hb, hs] using this

/-! ### The request -/

theorem requestSize_eq {d o : ℕ} (hd : d ≤ requestSize d o) :
    requestSize d o = ptrAlign d + ptrAlign o := by
  unfold requestSize ptrAlign at *
  omega

/-! ### Taking a buffer -/

section Take

variable {L : Layout} {ar : Area} {pre post : List Buffer} {b : Buffer}

def Buffer.taken (b : Buffer) (d o : ℕ) (isAsync : Bool) : Buffer :=
  { b with free := false, dataSize := d, offsetsSize := o, asyncTransaction := isAsync }

theorem insertAllocated_of_open (h : ar.Shaped L) (hbs : ar.buffers = pre ++ b :: post)
    (hb : b.free = true) :
    ∃ t, binderInsertAllocatedBuffer { ar with
          freeBuffers := ar.freeBuffers.remove b.addr
          buffers := modifyBuffer b.addr (fun b => { b with free := false }) ar.buffers }
        b.addr = .ok { ar with
          freeBuffers := ar.freeBuffers.remove b.addr
          buffers := pre ++ { b with free := false } :: post
          allocatedBuffers := t } ∧
      t.toList = allocatedAddrs (pre ++ { b with free := false } :: post) := by
  have hpw := h.pairwise
  rw [hbs] at hpw
  have hcut : Cut pre b post := cut_of_pairwise hpw
  have hmod : modifyBuffer b.addr (fun b => { b with free := false }) ar.buffers =
      pre ++ { b with free := false } :: post := by
    rw [hbs]
    exact hcut.modifyBuffer_eq _
  set b₁ : Buffer := { b with free := false } with hb₁
  have hpw₁ : (pre ++ b₁ :: post).Pairwise fun b c => b.addr < c.addr := by
    simpa [List.pairwise_append, hb₁] using hpw
  have hshape : ∀ c ∈ pre ++ b₁ :: post, ∀ ar' : Area, ar'.buffers = pre ++ b₁ :: post →
      ar'.isFree c.addr = c.free := by
    intro c hc ar' har'
    obtain ⟨p, q, hpq⟩ := List.append_of_mem hc
    exact isFree_of_cut (cut_of_pairwise (hpq ▸ hpw₁)) (har'.trans hpq)
  have hall : ar.allocatedBuffers.toList = allocatedAddrs (pre ++ post) := by
    simpa [hbs, allocatedAddrs_cons, hb] using h.allocated
  have hpwall : (allocatedAddrs (pre ++ b₁ :: post)).Pairwise (· < ·) :=
    pairwise_allocatedAddrs hpw₁
  obtain ⟨t, hins, hperm, hord⟩ := @binderInsertAllocatedBuffer_ok
    { ar with freeBuffers := ar.freeBuffers.remove b.addr, buffers := pre ++ b₁ :: post } _
    (hshape b₁ (by simp) _ rfl)
    (by
      intro a ha
      change a ∈ ar.allocatedBuffers.toList at ha
      rw [hall] at ha
      obtain ⟨c, hc, hcf, rfl⟩ := mem_allocatedAddrs.mp ha
      have hmem : c ∈ pre ++ b₁ :: post := by
        rcases List.mem_append.mp hc with hc | hc <;> simp [hc]
      refine ⟨by rw [hshape c hmem _ rfl, hcf], ?_⟩
      rcases List.mem_append.mp hc with hc | hc
      · exact hcut.1 c hc
      · exact hcut.2 c hc)
    (by
      rw [SearchTree.Ordered]
      refine List.Pairwise.imp (fun hlt => le_of_lt hlt) ?_
      rw [hall]
      refine hpwall.sublist ?_
      simp [allocatedAddrs_cons])
  refine ⟨t, by rw [hmod]; exact hins, ?_⟩
  have hperm' : t.toList.Perm (allocatedAddrs (pre ++ b₁ :: post)) := by
    refine hperm.trans ?_
    simp only [hall, allocatedAddrs_append, allocatedAddrs_cons]
    exact List.perm_middle.symm
  exact List.Perm.eq_of_pairwise' hord (hpwall.imp fun hlt => le_of_lt hlt) hperm'

theorem tiles_congr {H hi lo : ℕ} {b' : Buffer} (haddr : b'.addr = b.addr) :
    Tiles H hi lo (pre ++ b' :: post) ↔ Tiles H hi lo (pre ++ b :: post) := by
  rw [tiles_append_cons, tiles_append_cons, haddr]
  simp only [Tiles, haddr]

theorem Area.Shaped.take (h : ar.Shaped L) (hbs : ar.buffers = pre ++ b :: post)
    (hb : b.free = true) {t : SearchTree ℕ}
    (ht : t.toList = allocatedAddrs (pre ++ { b with free := false } :: post)) :
    Area.Shaped L { ar with
      freeBuffers := ar.freeBuffers.remove b.addr
      buffers := pre ++ { b with free := false } :: post
      allocatedBuffers := t } := by
  obtain ⟨hloose, _, _⟩ := h.open_free hbs hb
  have htiles : Tiles L.headerSize (ar.buffer + ar.bufferSize) ar.buffer
      (pre ++ { b with free := false } :: post) :=
    (@tiles_congr _ _ b _ _ _ { b with free := false } rfl).mpr hloose.tiles
  refine ⟨htiles, ?_, ?_, hloose.freeOrdered.congr ?_, ht⟩
  · refine List.isChain_append.mpr ⟨hloose.apartPre, List.isChain_cons.mpr
      ⟨fun c _ => by simp [Apart], hloose.apartPost⟩, ?_⟩
    intro c _ d hd
    obtain rfl : _ = d := by simpa using hd
    simp [Apart]
  · simpa [freeAddrs_cons] using hloose.freePerm
  · intro a ha
    obtain ⟨c, hc, _, rfl⟩ := hloose.free_of_mem ha
    exact congrArg (· - (c.addr + L.headerSize)) (@bufferEnd_congr _ _ _ [] []
      _ b _ _ rfl (hloose.buffers ▸ hloose.pairwise) (htiles.pairwise L.headerSize_pos)
      hloose.buffers rfl rfl hc)

theorem Area.Shaped.split (h : ar.Shaped L) (hbs : ar.buffers = pre ++ b :: post)
    (hb : b.free = true) {t : SearchTree ℕ}
    (ht : t.toList = allocatedAddrs (pre ++ { b with free := false } :: post))
    {new : Buffer} (hnew : new.free = true) (hlow : b.addr + L.headerSize ≤ new.addr)
    (hup : new.addr + L.headerSize ≤ startOr (ar.buffer + ar.bufferSize) post) :
    Loose L { ar with
        freeBuffers := ar.freeBuffers.remove b.addr
        buffers := pre ++ { b with free := false } :: new :: post
        allocatedBuffers := t } (pre ++ [{ b with free := false }]) new post ∧
      ∀ c ∈ post.head?, c.free = false := by
  obtain ⟨hloose, _, hhead⟩ := h.open_free hbs hb
  obtain ⟨hpre, _, _, hpost⟩ := tiles_append_cons.mp hloose.tiles
  have htiles : Tiles L.headerSize (ar.buffer + ar.bufferSize) ar.buffer
      (pre ++ { b with free := false } :: new :: post) :=
    tiles_append_cons.mpr ⟨hpre, rfl, hlow, rfl, hup, hpost⟩
  refine ⟨⟨by simp, hnew, by simpa using htiles, ?_, hloose.apartPost, ?_,
    hloose.freeOrdered.congr ?_, ?_⟩, hhead⟩
  · refine List.isChain_append.mpr ⟨hloose.apartPre, List.isChain_singleton _, ?_⟩
    intro c _ d hd
    obtain rfl : _ = d := by simpa using hd
    simp [Apart]
  · simpa [freeAddrs_cons] using hloose.freePerm
  · intro a ha
    obtain ⟨c, hc, _, rfl⟩ := hloose.free_of_mem ha
    exact congrArg (· - (c.addr + L.headerSize)) (@bufferEnd_congr _ _ _ [] [new]
      _ b _ _ rfl (hloose.buffers ▸ hloose.pairwise) (htiles.pairwise L.headerSize_pos)
      hloose.buffers rfl rfl hc)
  · simpa [allocatedAddrs_cons] using ht

/-- The fields of an area that only `binder_mmap` and the death of the mapping
write. -/
structure Area.SameSpace (ar ar' : Area) : Prop where
  vma : ar'.vma = ar.vma
  buffer : ar'.buffer = ar.buffer
  bufferSize : ar'.bufferSize = ar.bufferSize
  userBufferOffset : ar'.userBufferOffset = ar.userBufferOffset

/-- What is left of a taken buffer: nothing, or one free buffer. -/
def Leftover (L : Layout) (a size : ℕ) (split : Bool) (rest : List Buffer) : Prop :=
  if split then ∃ new : Buffer, rest = [new] ∧ new.free = true ∧
    new.addr = a + L.headerSize + size
  else rest = []

/-- The room of the taken buffer and of all others after the list changed
behind the taken one. -/
theorem fits_of_taken (h : ar.WellFormed L) (hbs : ar.buffers = pre ++ b :: post) {ar' : Area}
    {rest : List Buffer} {d o size : ℕ} {isAsync split : Bool}
    (hE : ar'.buffer + ar'.bufferSize = ar.buffer + ar.bufferSize) (h' : ar'.Shaped L)
    (hbs' : ar'.buffers = pre ++ b.taken d o isAsync :: (rest ++ post))
    (hrest : Leftover L b.addr size split rest) (hneed : ptrAlign d + ptrAlign o ≤ size)
    (hsize : b.addr + L.headerSize + size ≤ startOr (ar.buffer + ar.bufferSize) post) :
    ∀ c ∈ ar'.buffers, c.free = false → c.needed ≤ binderBufferSize L ar' c.addr := by
  have hpw' := h'.pairwise
  intro c hc hcf
  have hcases : c = b.taken d o isAsync ∨ c ∈ rest ∨ c ∈ pre ++ post := by
    rw [hbs'] at hc
    simp only [List.mem_append, List.mem_cons] at hc ⊢
    tauto
  rcases hcases with rfl | hc | hc
  · have hend := bufferEnd_of_cut (cut_of_pairwise (hbs' ▸ hpw')) hbs'
    have hneeded : (b.taken d o isAsync).needed ≤ size := hneed
    have haddr : (b.taken d o isAsync).addr = b.addr := rfl
    rw [hE] at hend
    rw [binderBufferSize, hend, haddr]
    unfold Leftover at hrest
    split at hrest
    · obtain ⟨new, rfl, _, hnew⟩ := hrest
      simp only [List.cons_append, startOr_cons]
      omega
    · subst hrest
      simp only [List.nil_append]
      omega
  · unfold Leftover at hrest
    split at hrest
    · obtain ⟨new, rfl, hnew, _⟩ := hrest
      obtain rfl : c = new := by simpa using hc
      rw [hnew] at hcf
      cases hcf
    · subst hrest
      cases hc
  · have hold : c ∈ ar.buffers := by
      rw [hbs]
      rcases List.mem_append.mp hc with hc | hc <;> simp [hc]
    have hsame : ar'.bufferEnd c.addr = ar.bufferEnd c.addr :=
      @bufferEnd_congr _ _ _ [] _ _ _ _ _ hE h.pairwise hpw' hbs hbs' rfl hc
    rw [binderBufferSize, hsame]
    exact h.fits c hold hcf

theorem takeBuffer_ok (h : ar.WellFormed L) (hbs : ar.buffers = pre ++ b :: post)
    (hb : b.free = true) {d o size : ℕ} {isAsync split : Bool}
    (hneed : ptrAlign d + ptrAlign o ≤ size)
    (hsize : b.addr + L.headerSize + (size + if split then L.headerSize else 0) ≤
      startOr (ar.buffer + ar.bufferSize) post) :
    ∃ ar' rest, takeBuffer L ar b.addr size split d o isAsync = .ok ar' ∧ ar'.WellFormed L ∧
      ar'.buffers = pre ++ b.taken d o isAsync :: (rest ++ post) ∧
      Leftover L b.addr size split rest ∧ ar'.pages = ar.pages ∧ ar.SameSpace ar' ∧
      ar'.freeAsyncSpace =
        (if isAsync then ar.freeAsyncSpace - (size + L.headerSize) else ar.freeAsyncSpace) := by
  obtain ⟨t, hins, ht⟩ := insertAllocated_of_open h.toShaped hbs hb
  have hcut : Cut pre { b with free := false } post :=
    cut_of_pairwise (b := b) (hbs ▸ h.pairwise)
  cases split with
  | false =>
      have hmod := hcut.modifyBuffer_eq fun c =>
        { c with dataSize := d, offsetsSize := o, asyncTransaction := isAsync }
      have hshape := (h.toShaped.take hbs hb ht).modifyBuffer b.addr (f := fun c => { c with
        dataSize := d, offsetsSize := o, asyncTransaction := isAsync }) (fun _ => rfl) fun _ => rfl
      let ar' : Area := { ar with
        freeBuffers := ar.freeBuffers.remove b.addr
        buffers := pre ++ b.taken d o isAsync :: post
        allocatedBuffers := t
        freeAsyncSpace :=
          if isAsync then ar.freeAsyncSpace - (size + L.headerSize) else ar.freeAsyncSpace }
      have hshape' : ar'.Shaped L := hshape.congr rfl rfl hmod.symm rfl rfl
      have hfits := @fits_of_taken _ _ _ _ _ h hbs ar' _ _ _ _ _ false rfl hshape'
        rfl rfl hneed (by simpa using hsize)
      refine ⟨ar', [], ?_, ⟨hshape', hfits⟩, rfl, rfl, rfl, ⟨rfl, rfl, rfl, rfl⟩, rfl⟩
      simp only [takeBuffer]
      rw [except_bind_ok hins]
      simp only [Bool.false_eq_true, ↓reduceIte, pure_bind]
      exact congrArg (fun bs => Except.ok { ar' with buffers := bs }) hmod
  | true =>
      let new : Buffer :=
        { addr := b.addr + L.headerSize + size, free := true, allowUserFree := false,
          asyncTransaction := false, transaction := none, targetNode := none,
          dataSize := 0, offsetsSize := 0, data := fun _ => 0, offsets := [] }
      simp only [↓reduceIte] at hsize
      obtain ⟨hloose, hhead⟩ := @Area.Shaped.split _ _ _ _ _ h.toShaped hbs hb _ ht new rfl
        (Nat.le_add_right _ _) (by change b.addr + L.headerSize + size + L.headerSize ≤ _; omega)
      obtain ⟨f, hinsf, hshape⟩ := hloose.close_free (by simp) hhead
      have hinsert := hcut.insertAfter_eq new
      have hcut' : Cut pre { b with free := false } (new :: post) :=
        cut_of_pairwise (by simpa using hloose.pairwise)
      have hmod := hcut'.modifyBuffer_eq fun c =>
        { c with dataSize := d, offsetsSize := o, asyncTransaction := isAsync }
      let ar' : Area := { ar with
        freeBuffers := f
        buffers := pre ++ b.taken d o isAsync :: new :: post
        allocatedBuffers := t
        freeAsyncSpace :=
          if isAsync then ar.freeAsyncSpace - (size + L.headerSize) else ar.freeAsyncSpace }
      have hshape' : ar'.Shaped L :=
        (hshape.modifyBuffer b.addr (f := fun c => { c with
          dataSize := d, offsetsSize := o, asyncTransaction := isAsync }) (fun _ => rfl)
          fun _ => rfl).congr rfl rfl hmod.symm rfl rfl
      have hrest : Leftover L b.addr size true [new] := ⟨new, rfl, rfl, rfl⟩
      have hfits := @fits_of_taken _ _ _ _ _ h hbs ar' _ _ _ _ _ _ rfl hshape' rfl hrest
        hneed (by omega)
      refine ⟨ar', [new], ?_, ⟨hshape', hfits⟩, rfl, hrest, rfl, ⟨rfl, rfl, rfl, rfl⟩, rfl⟩
      simp only [takeBuffer]
      rw [except_bind_ok hins]
      simp only [↓reduceIte]
      rw [hinsert]
      rw [except_bind_ok hinsf]
      exact congrArg (fun bs => Except.ok { ar' with buffers := bs }) hmod

/-- What a successful `binder_alloc_buf` does to the area. -/
structure Area.Takes (L : Layout) (ar ar' : Area) (d o : ℕ) (isAsync : Bool)
    (pre : List Buffer) (b : Buffer) (post rest : List Buffer) : Prop where
  buffers : ar.buffers = pre ++ b :: post
  free : b.free = true
  buffers' : ar'.buffers = pre ++ b.taken d o isAsync :: (rest ++ post)
  rest : ∀ c ∈ rest, c.free = true
  vma : ar.vma = true
  space : ar.SameSpace ar'
  async : ar'.freeAsyncSpace = if isAsync then ar.freeAsyncSpace - (requestSize d o + L.headerSize)
    else ar.freeAsyncSpace

theorem binderBestFit_ok (h : ar.Shaped L) (size : ℕ) :
    binderBestFit L ar size = .ok (none, false) ∨
      ∃ pre b post exact, binderBestFit L ar size = .ok (some b.addr, exact) ∧
        ar.buffers = pre ++ b :: post ∧ b.free = true ∧
        size ≤ binderBufferSize L ar b.addr ∧
        (exact = true ↔ binderBufferSize L ar b.addr = size) := by
  have hfree : ∀ a ∈ ar.freeBuffers.toList, ∃ b ∈ ar.buffers, b.free = true ∧ b.addr = a :=
    fun a ha => mem_freeAddrs.mp (h.freePerm.mem_iff.mp ha)
  have hcmp : ∀ a ∈ ar.freeBuffers.toList,
      (if ar.isFree a then (.ok (compare size (binderBufferSize L ar a)) : Except Fault Ordering)
        else .error (.bug .allocBuf)) = .ok (compare size (binderBufferSize L ar a)) := by
    intro a ha
    obtain ⟨b, hb, hbf, rfl⟩ := hfree a ha
    simp [h.isFree_eq hb, hbf]
  rcases SearchTree.bestFit_ordered hcmp h.freeOrdered none with
    ⟨hnone, _⟩ | ⟨a, exact, hsome, ha, hle, hiff, _⟩
  · exact .inl hnone
  · obtain ⟨b, hb, hbf, rfl⟩ := hfree a ha
    obtain ⟨pre, post, hbs, _⟩ := h.exists_cut hb
    exact .inr ⟨pre, b, post, exact, hsome, hbs, hbf, hle, hiff⟩

theorem pageIn_take {data used stop i : ℕ} (hal : ar.PageAligned L) :
    pageIn L ar (L.pageAlign data) (min (L.pageAlign (data + used)) (L.pageMask stop)) i ↔
      data ≤ ar.buffer + i * L.pageSize ∧ ar.buffer + i * L.pageSize < data + used ∧
        ar.buffer + i * L.pageSize + L.pageSize ≤ stop := by
  have hd := hal.dvd_page i
  rw [pageIn, Nat.lt_min, L.pageAlign_le_iff hd, L.lt_pageAlign_iff hd, L.lt_pageMask_iff hd]

theorem takeBuffer_sound (h : ar.Sound L) (hbs : ar.buffers = pre ++ b :: post)
    (hb : b.free = true) {d o size used : ℕ} {isAsync split : Bool} {ps : ℕ → Bool}
    (hneed : ptrAlign d + ptrAlign o ≤ size)
    (hused : used = size + if split then L.headerSize else 0)
    (hle : b.addr + L.headerSize + used ≤ startOr (ar.buffer + ar.bufferSize) post)
    (hslack : split = false → startOr (ar.buffer + ar.bufferSize) post ≤
      b.addr + L.headerSize + size + (L.headerSize + 4))
    (hps : ∀ i, ps i = true ↔ ar.pages i = true ∨ b.addr + L.headerSize ≤
        ar.buffer + i * L.pageSize ∧ ar.buffer + i * L.pageSize < b.addr + L.headerSize + used ∧
      ar.buffer + i * L.pageSize + L.pageSize ≤ startOr (ar.buffer + ar.bufferSize) post) :
    ∃ ar' rest, takeBuffer L { ar with pages := ps } b.addr size split d o isAsync = .ok ar' ∧
      ar'.Sound L ∧ ar'.buffers = pre ++ b.taken d o isAsync :: (rest ++ post) ∧
      (∀ c ∈ rest, c.free = true) ∧ ar.SameSpace ar' ∧
      ar'.freeAsyncSpace =
        (if isAsync then ar.freeAsyncSpace - (size + L.headerSize) else ar.freeAsyncSpace) := by
  have hwf : Area.WellFormed L { ar with pages := ps } :=
    h.toWellFormed.congr rfl rfl rfl rfl rfl
  obtain ⟨ar', rest, hrun, hwf', hbs', hrest, hpages, hspace, hasync⟩ :=
    takeBuffer_ok hwf hbs hb hneed (hused ▸ hle)
  have hsp : ar.SameSpace ar' := ⟨hspace.vma, hspace.buffer, hspace.bufferSize,
    hspace.userBufferOffset⟩
  have hal : ar'.PageAligned L :=
    ⟨hsp.buffer ▸ h.aligned.buffer, hsp.bufferSize ▸ h.aligned.bufferSize⟩
  have hpf : ar'.PagesFor L ar'.buffers := by
    intro i
    have hd := h.aligned.dvd_page i
    rw [hpages, hbs', hsp.buffer, hsp.bufferSize]
    refine (hps i).trans ?_
    rw [h.pages i, hbs]
    cases split with
    | true =>
        obtain ⟨new, rfl, hnew, hnewaddr⟩ := hrest
        simp only [↓reduceIte] at hused
        subst hused
        exact (@needs_take_split _ _ _ _ _ _ (b.taken d o isAsync) _ hb rfl rfl _ hnew hnewaddr
          (by omega) hd h.aligned.dvd_end).symm
    | false =>
        obtain rfl : rest = [] := hrest
        simp only [Bool.false_eq_true, ↓reduceIte, Nat.add_zero] at hused
        subst hused
        exact (@needs_take_whole _ _ _ _ _ _ (b.taken d o isAsync) hb rfl rfl _ hle (hslack rfl) hd
          h.aligned.dvd_end).symm
  refine ⟨ar', rest, hrun, ⟨hwf', hal, hpf⟩, hbs', ?_, hsp, hasync⟩
  intro c hc
  cases split with
  | true =>
      obtain ⟨new, rfl, hnew, _⟩ := hrest
      obtain rfl : c = new := by simpa using hc
      exact hnew
  | false =>
      obtain rfl : rest = [] := hrest
      cases hc

/-- `binder_alloc_buf` on a sound area refuses without a trace or takes a
buffer. -/
theorem binderAllocBuf_ok (h : ar.Sound L) (d o : ℕ) (isAsync : Bool) (env : PageEnv) :
    binderAllocBuf L ar d o isAsync env = .ok (none, ar) ∨
      ∃ ar' pre b post rest, binderAllocBuf L ar d o isAsync env = .ok (some b.addr, ar') ∧
        ar'.Sound L ∧ ar.Takes L ar' d o isAsync pre b post rest := by
  cases hvma : ar.vma with
  | false => exact .inl (by simp [binderAllocBuf, hvma, pure, Except.pure])
  | true =>
  by_cases hsz : requestSize d o < d ∨ requestSize d o < o
  · exact .inl (by simp [binderAllocBuf, hvma, hsz, pure, Except.pure])
  by_cases hasync : isAsync = true ∧
      ar.freeAsyncSpace < (requestSize d o + L.headerSize) % 2 ^ 64
  · left
    have hfull : (isAsync && decide
        (ar.freeAsyncSpace < (requestSize d o + L.headerSize) % 2 ^ 64)) = true := by
      simpa only [Bool.and_eq_true, decide_eq_true_eq] using hasync
    simp only [binderAllocBuf, hvma, hfull]
    simp [hsz, pure, Except.pure]
  rcases binderBestFit_ok h.toShaped (requestSize d o) with
    hfit | ⟨pre, b, post, exact, hfit, hbs, hbf, hle, hexact⟩
  · left
    have hroom : (isAsync && decide
        (ar.freeAsyncSpace < (requestSize d o + L.headerSize) % 2 ^ 64)) = false := by
      simpa only [← Bool.not_eq_true, Bool.and_eq_true, decide_eq_true_eq] using hasync
    simp only [binderAllocBuf, hvma, hfit, hroom]
    simp [hsz, pure, Except.pure, bind, Except.bind]
  have hcut : Cut pre b post := cut_of_pairwise (hbs ▸ h.pairwise)
  have hend := bufferEnd_of_cut hcut hbs
  obtain ⟨hpret, _, hlow, _⟩ := tiles_append_cons.mp (hbs ▸ h.tiles)
  have hstart := hpret.le
  have hroom : startOr (ar.buffer + ar.bufferSize) post =
      b.addr + L.headerSize + binderBufferSize L ar b.addr := by
    rw [binderBufferSize, hend]
    omega
  have hH := L.eight_le_headerSize
  push Not at hsz
  have hneed := requestSize_eq hsz.1
  obtain ⟨used, hused⟩ : ∃ used, used =
      if exact = true then binderBufferSize L ar b.addr
      else if requestSize d o + L.headerSize + 4 ≥ binderBufferSize L ar b.addr
        then requestSize d o else requestSize d o + L.headerSize := ⟨_, rfl⟩
  obtain ⟨split, hsplit⟩ : ∃ split, split = decide (used ≠ requestSize d o) := ⟨_, rfl⟩
  have hrun : binderAllocBuf L ar d o isAsync env =
      (do
        let r ← binderUpdatePageRange L ar true (L.pageAlign (b.addr + L.headerSize))
          (min (L.pageAlign (b.addr + L.headerSize + used))
            (L.pageMask (b.addr + L.headerSize + binderBufferSize L ar b.addr))) env
        if !r.1 then return (none, r.2)
        let ar' ← takeBuffer L r.2 b.addr (requestSize d o) split d o isAsync
        return (some b.addr, ar')) := by
    rw [hsplit, hused]
    simp only [binderAllocBuf, hvma, hfit, Bool.not_true, Bool.false_eq_true, ↓reduceIte,
      Bool.or_eq_true, decide_eq_true_eq, not_lt.mpr hsz.1, not_lt.mpr hsz.2, or_self,
      Bool.and_eq_true, hasync]
    rfl
  have hfresh : ∀ i, pageIn L ar (L.pageAlign (b.addr + L.headerSize))
      (min (L.pageAlign (b.addr + L.headerSize + used))
        (L.pageMask (b.addr + L.headerSize + binderBufferSize L ar b.addr))) i →
      ar.pages i = false := by
    intro i hi
    rw [pageIn_take h.aligned, ← hroom] at hi
    have := not_needs_inside (hbs ▸ h.tiles) hbf hi.1 hi.2.2
    rw [← hbs, ← h.pages i] at this
    simpa using this
  have hdata : ar.buffer ≤ L.pageAlign (b.addr + L.headerSize) :=
    (by omega : ar.buffer ≤ b.addr + L.headerSize).trans (L.le_pageAlign _)
  rcases binderUpdatePageRange_alloc h.aligned.buffer (L.dvd_pageAlign _)
      (by rw [min_def]; split_ifs; exacts [L.dvd_pageAlign _, L.dvd_pageMask _]) hdata hfresh with
    ⟨ps, hup, hps⟩ | ⟨hup, _⟩
  · right
    obtain ⟨ar', rest, htake, hsound, hbs', hrest, hspace, hasync'⟩ :=
      @takeBuffer_sound _ _ _ _ _ h hbs hbf d o _ used _ split _ hneed.ge
        (by subst hsplit; split_ifs at hused <;> simp_all)
        (by rw [hroom]; split_ifs at hused <;> omega)
        (by intro hs; rw [hroom]; subst hsplit; split_ifs at hused <;> simp_all; omega)
        (fun i => by rw [hps i, pageIn_take h.aligned, hroom])
    refine ⟨ar', pre, b, post, rest, ?_, hsound, hbs, hbf, hbs', hrest, hvma, hspace, hasync'⟩
    rw [hrun, except_bind_ok hup]
    simp only [Bool.not_true, Bool.false_eq_true, ↓reduceIte]
    rw [except_bind_ok htake]
    rfl
  · left
    rw [hrun, except_bind_ok hup]
    rfl

end Take

end Driver

end BinderForLinux
