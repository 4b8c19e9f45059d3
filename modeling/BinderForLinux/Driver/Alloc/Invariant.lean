import BinderForLinux.Driver.Alloc.Tiling

/-!
# The representation invariant of the allocator

`Area.WellFormed` is the invariant: the buffers tile the area, no two
neighbours are both free, the two trees hold the free and the allocated buffers
in the order of the keys as they are now (together `Area.Shaped`), and every
allocated buffer has room for what was asked for. Both `binder_alloc_buf` and `binder_free_buf` pass
through states in which one free buffer is in the list but in no tree; these are
described by `Loose`, and each step of the two functions is a lemma that opens,
moves or closes a loose buffer.
-/

namespace BinderForLinux

namespace Driver

open Library

def Apart (b c : Buffer) : Prop := ¬ (b.free = true ∧ c.free = true)

def freeAddrs (bs : List Buffer) : List ℕ := (bs.filter fun b => b.free).map Buffer.addr

/-- The addresses of the allocated buffers of a list. -/
def allocatedAddrs (bs : List Buffer) : List ℕ := (bs.filter fun b => !b.free).map Buffer.addr

def Buffer.needed (b : Buffer) : ℕ := ptrAlign b.dataSize + ptrAlign b.offsetsSize

/-- The list and the two trees agree with each other. -/
structure Area.Shaped (L : Layout) (ar : Area) : Prop where
  tiles : Tiles L.headerSize (ar.buffer + ar.bufferSize) ar.buffer ar.buffers
  apart : ar.buffers.IsChain Apart
  freePerm : ar.freeBuffers.toList.Perm (freeAddrs ar.buffers)
  freeOrdered : ar.freeBuffers.Ordered (binderBufferSize L ar)
  allocated : ar.allocatedBuffers.toList = allocatedAddrs ar.buffers

structure Area.WellFormed (L : Layout) (ar : Area) : Prop extends ar.Shaped L where
  fits : ∀ b ∈ ar.buffers, b.free = false → b.needed ≤ binderBufferSize L ar b.addr

/-- The free buffer `b` between `pre` and `post` is in no tree; everything else
is as in a shaped area, except that `b` may have free neighbours. -/
structure Loose (L : Layout) (ar : Area) (pre : List Buffer) (b : Buffer)
    (post : List Buffer) : Prop where
  buffers : ar.buffers = pre ++ b :: post
  free : b.free = true
  tiles : Tiles L.headerSize (ar.buffer + ar.bufferSize) ar.buffer (pre ++ b :: post)
  apartPre : pre.IsChain Apart
  apartPost : post.IsChain Apart
  freePerm : ar.freeBuffers.toList.Perm (freeAddrs (pre ++ post))
  freeOrdered : ar.freeBuffers.Ordered (binderBufferSize L ar)
  allocated : ar.allocatedBuffers.toList = allocatedAddrs (pre ++ post)

/-! ### Addresses by kind -/

@[simp] theorem freeAddrs_nil : freeAddrs [] = [] := rfl

@[simp] theorem freeAddrs_append (bs cs : List Buffer) :
    freeAddrs (bs ++ cs) = freeAddrs bs ++ freeAddrs cs := by
  simp [freeAddrs]

theorem freeAddrs_cons (b : Buffer) (bs : List Buffer) :
    freeAddrs (b :: bs) = if b.free then b.addr :: freeAddrs bs else freeAddrs bs := by
  cases hb : b.free <;> simp [freeAddrs, hb]

@[simp] theorem allocatedAddrs_append (bs cs : List Buffer) :
    allocatedAddrs (bs ++ cs) = allocatedAddrs bs ++ allocatedAddrs cs := by
  simp [allocatedAddrs]

theorem allocatedAddrs_cons (b : Buffer) (bs : List Buffer) :
    allocatedAddrs (b :: bs) =
      if b.free then allocatedAddrs bs else b.addr :: allocatedAddrs bs := by
  cases hb : b.free <;> simp [allocatedAddrs, hb]

theorem mem_freeAddrs {bs : List Buffer} {a : ℕ} :
    a ∈ freeAddrs bs ↔ ∃ b ∈ bs, b.free = true ∧ b.addr = a := by
  simp [freeAddrs, and_assoc]

theorem mem_allocatedAddrs {bs : List Buffer} {a : ℕ} :
    a ∈ allocatedAddrs bs ↔ ∃ b ∈ bs, b.free = false ∧ b.addr = a := by
  simp [allocatedAddrs, and_assoc]

theorem filter_ne_freeAddrs {bs : List Buffer} {a : ℕ} (h : ∀ c ∈ bs, c.addr ≠ a) :
    (freeAddrs bs).filter (fun x => !decide (x = a)) = freeAddrs bs := by
  rw [List.filter_eq_self]
  intro x hx
  obtain ⟨c, hc, _, rfl⟩ := mem_freeAddrs.mp hx
  simpa using h c hc

theorem filter_ne_allocatedAddrs {bs : List Buffer} {a : ℕ} (h : ∀ c ∈ bs, c.addr ≠ a) :
    (allocatedAddrs bs).filter (fun x => !decide (x = a)) = allocatedAddrs bs := by
  rw [List.filter_eq_self]
  intro x hx
  obtain ⟨c, hc, _, rfl⟩ := mem_allocatedAddrs.mp hx
  simpa using h c hc

theorem pairwise_allocatedAddrs {bs : List Buffer}
    (h : bs.Pairwise fun b c => b.addr < c.addr) : (allocatedAddrs bs).Pairwise (· < ·) := by
  rw [allocatedAddrs, List.pairwise_map]
  exact h.filter _

section Map

variable {g : Buffer → Buffer}

theorem freeAddrs_map (haddr : ∀ b, (g b).addr = b.addr) (hfree : ∀ b, (g b).free = b.free)
    (bs : List Buffer) : freeAddrs (bs.map g) = freeAddrs bs := by
  induction bs with
  | nil => rfl
  | cons b bs ih => simp only [List.map_cons, freeAddrs_cons, haddr, hfree, ih]

theorem allocatedAddrs_map (haddr : ∀ b, (g b).addr = b.addr) (hfree : ∀ b, (g b).free = b.free)
    (bs : List Buffer) : allocatedAddrs (bs.map g) = allocatedAddrs bs := by
  induction bs with
  | nil => rfl
  | cons b bs ih => simp only [List.map_cons, allocatedAddrs_cons, haddr, hfree, ih]

end Map

/-! ### Extents that a change elsewhere leaves alone -/

theorem Layout.headerSize_pos (L : Layout) : 0 < L.headerSize :=
  lt_of_lt_of_le (by decide) L.eight_le_headerSize

/-- Changing the list between a buffer, whose address stays, and the part `post`
leaves the ends of all buffers before and after as they were. -/
theorem bufferEnd_congr {ar ar' : Area} {pre mid mid' post : List Buffer} {b b' c : Buffer}
    (hE : ar'.buffer + ar'.bufferSize = ar.buffer + ar.bufferSize)
    (hpw : ar.buffers.Pairwise fun b c => b.addr < c.addr)
    (hpw' : ar'.buffers.Pairwise fun b c => b.addr < c.addr)
    (hbs : ar.buffers = pre ++ b :: (mid ++ post))
    (hbs' : ar'.buffers = pre ++ b' :: (mid' ++ post)) (haddr : b'.addr = b.addr)
    (hc : c ∈ pre ++ post) : ar'.bufferEnd c.addr = ar.bufferEnd c.addr := by
  rcases List.mem_append.mp hc with hc | hc
  · obtain ⟨p, q, rfl⟩ := List.append_of_mem hc
    have h₁ : ar.buffers = p ++ c :: (q ++ b :: (mid ++ post)) := by simp [hbs]
    have h₂ : ar'.buffers = p ++ c :: (q ++ b' :: (mid' ++ post)) := by simp [hbs']
    rw [bufferEnd_of_cut (cut_of_pairwise (h₁ ▸ hpw)) h₁,
      bufferEnd_of_cut (cut_of_pairwise (h₂ ▸ hpw')) h₂,
      startOr_append_cons, startOr_append_cons, haddr]
  · obtain ⟨p, q, rfl⟩ := List.append_of_mem hc
    have h₁ : ar.buffers = (pre ++ b :: (mid ++ p)) ++ c :: q := by simp [hbs]
    have h₂ : ar'.buffers = (pre ++ b' :: (mid' ++ p)) ++ c :: q := by simp [hbs']
    rw [bufferEnd_of_cut (cut_of_pairwise (h₁ ▸ hpw)) h₁,
      bufferEnd_of_cut (cut_of_pairwise (h₂ ▸ hpw')) h₂, hE]

/-- A header field other than the address and the free bit is not seen by the
list and the trees. -/
theorem Area.Shaped.map {L : Layout} {ar : Area} (h : ar.Shaped L) {g : Buffer → Buffer}
    (haddr : ∀ b, (g b).addr = b.addr) (hfree : ∀ b, (g b).free = b.free) :
    Area.Shaped L { ar with buffers := ar.buffers.map g } := by
  refine ⟨(tiles_map haddr).mpr h.tiles, ?_, ?_, ?_, ?_⟩
  · rw [List.isChain_map]
    simp only [Apart, hfree]
    exact h.apart
  · rw [freeAddrs_map haddr hfree]
    exact h.freePerm
  · have hkey := bufferEnd_map haddr ar
    refine h.freeOrdered.congr fun a _ => ?_
    simp only [binderBufferSize, hkey]
  · rw [allocatedAddrs_map haddr hfree]
    exact h.allocated

theorem modify_keeps {α : Type*} {f : Buffer → Buffer} {k : Buffer → α} (hf : ∀ b, k (f b) = k b)
    (a : ℕ) (b : Buffer) : k (if b.addr = a then f b else b) = k b := by
  split
  · exact hf b
  · rfl

theorem Area.Shaped.modifyBuffer {L : Layout} {ar : Area} (h : ar.Shaped L) (a : ℕ)
    {f : Buffer → Buffer} (haddr : ∀ b, (f b).addr = b.addr) (hfree : ∀ b, (f b).free = b.free) :
    Area.Shaped L { ar with buffers := modifyBuffer a f ar.buffers } :=
  h.map (modify_keeps haddr a) (modify_keeps hfree a)

/-! ### The tree insertions -/

theorem binderInsertFreeBuffer_ok {L : Layout} {ar : Area} {new : ℕ}
    (hnew : ar.isFree new = true)
    (hfree : ∀ a ∈ ar.freeBuffers.toList, ar.isFree a = true)
    (hord : ar.freeBuffers.Ordered (binderBufferSize L ar)) :
    ∃ t, binderInsertFreeBuffer L ar new = .ok { ar with freeBuffers := t } ∧
      t.toList.Perm (new :: ar.freeBuffers.toList) ∧ t.Ordered (binderBufferSize L ar) := by
  obtain ⟨t, hlink, hperm, hord'⟩ := SearchTree.link_ordered (x := new)
    (d := fun a => if ar.isFree a then
        (.ok (decide (binderBufferSize L ar new < binderBufferSize L ar a)) : Except Fault Bool)
      else .error (.bug .insertFreeBuffer)) (t := ar.freeBuffers)
    (fun a ha => by simp [hfree a ha]) hord
  refine ⟨t, ?_, hperm, hord'⟩
  simp only [binderInsertFreeBuffer, bugOn, hnew]
  exact except_bind_ok hlink

theorem binderInsertAllocatedBuffer_ok {ar : Area} {new : ℕ}
    (hnew : ar.isFree new = false)
    (hall : ∀ a ∈ ar.allocatedBuffers.toList, ar.isFree a = false ∧ a ≠ new)
    (hord : ar.allocatedBuffers.Ordered (fun a => a)) :
    ∃ t, binderInsertAllocatedBuffer ar new = .ok { ar with allocatedBuffers := t } ∧
      t.toList.Perm (new :: ar.allocatedBuffers.toList) ∧ t.Ordered (fun a => a) := by
  obtain ⟨t, hlink, hperm, hord'⟩ := SearchTree.link_ordered (x := new)
    (d := fun a => if ar.isFree a then
        (.error (.bug .insertAllocatedBuffer) : Except Fault Bool)
      else if new < a then .ok true
      else if a < new then .ok false
      else .error (.bug .insertAllocatedBuffer)) (t := ar.allocatedBuffers)
    (fun a ha => by
      obtain ⟨hfa, hne⟩ := hall a ha
      by_cases hlt : new < a
      · simp [hfa, hlt]
      · have : a < new := by omega
        simp [hfa, hlt, this]) hord
  refine ⟨t, ?_, hperm, hord'⟩
  simp only [binderInsertAllocatedBuffer, bugOn, hnew]
  exact except_bind_ok hlink

/-! ### Opening, moving and closing a loose buffer -/

theorem Area.Shaped.pairwise {L : Layout} {ar : Area} (h : ar.Shaped L) :
    ar.buffers.Pairwise fun b c => b.addr < c.addr :=
  h.tiles.pairwise L.headerSize_pos

theorem Area.Shaped.exists_cut {L : Layout} {ar : Area} (h : ar.Shaped L) {b : Buffer}
    (hb : b ∈ ar.buffers) :
    ∃ pre post, ar.buffers = pre ++ b :: post ∧ Cut pre b post := by
  obtain ⟨pre, post, hbs⟩ := List.append_of_mem hb
  exact ⟨pre, post, hbs, cut_of_pairwise (hbs ▸ h.pairwise)⟩

theorem Area.Shaped.isFree_eq {L : Layout} {ar : Area} (h : ar.Shaped L) {b : Buffer}
    (hb : b ∈ ar.buffers) : ar.isFree b.addr = b.free := by
  obtain ⟨pre, post, hbs, hcut⟩ := h.exists_cut hb
  exact isFree_of_cut hcut hbs

namespace Loose

variable {L : Layout} {ar : Area} {pre post : List Buffer} {b : Buffer}

theorem pairwise (h : Loose L ar pre b post) :
    (pre ++ b :: post).Pairwise fun b c => b.addr < c.addr :=
  h.tiles.pairwise L.headerSize_pos

theorem cut (h : Loose L ar pre b post) : Cut pre b post :=
  cut_of_pairwise h.pairwise

theorem isFree_eq (h : Loose L ar pre b post) {c : Buffer} (hc : c ∈ pre ++ post) :
    ar.isFree c.addr = c.free := by
  have hmem : c ∈ pre ++ b :: post := by
    rcases List.mem_append.mp hc with hc | hc <;> simp [hc]
  obtain ⟨p, q, hbs⟩ := List.append_of_mem hmem
  exact isFree_of_cut (cut_of_pairwise (hbs ▸ h.pairwise)) (h.buffers.trans hbs)

theorem free_of_mem (h : Loose L ar pre b post) {a : ℕ} (ha : a ∈ ar.freeBuffers.toList) :
    ∃ c ∈ pre ++ post, c.free = true ∧ c.addr = a :=
  mem_freeAddrs.mp (h.freePerm.mem_iff.mp ha)

end Loose

theorem Area.Shaped.open_free {L : Layout} {ar : Area} (h : ar.Shaped L)
    {pre post : List Buffer} {b : Buffer} (hbs : ar.buffers = pre ++ b :: post)
    (hb : b.free = true) :
    Loose L { ar with freeBuffers := ar.freeBuffers.remove b.addr } pre b post ∧
      (∀ c ∈ pre.getLast?, c.free = false) ∧ ∀ c ∈ post.head?, c.free = false := by
  have hpw := h.pairwise
  have hchain := h.apart
  rw [hbs] at hpw hchain
  have hcut := cut_of_pairwise hpw
  obtain ⟨hpre, hpost, hlast⟩ := List.isChain_append.mp hchain
  obtain ⟨hhead, hpost⟩ := List.isChain_cons.mp hpost
  refine ⟨⟨hbs, hb, hbs ▸ h.tiles, hpre, hpost, ?_, h.freeOrdered.remove _, ?_⟩, ?_, ?_⟩
  · have := h.freePerm.filter fun x => !decide (x = b.addr)
    simpa [hbs, freeAddrs_cons, hb, filter_ne_freeAddrs hcut.1,
      filter_ne_freeAddrs hcut.2] using this
  · simpa [hbs, allocatedAddrs_cons, hb] using h.allocated
  · intro c hc
    have := hlast c hc b (by simp)
    simpa [Apart, hb] using this
  · intro c hc
    have := hhead c hc
    simpa [Apart, hb] using this

theorem Loose.close_free {L : Layout} {ar : Area} {pre post : List Buffer} {b : Buffer}
    (h : Loose L ar pre b post) (hlast : ∀ c ∈ pre.getLast?, c.free = false)
    (hhead : ∀ c ∈ post.head?, c.free = false) :
    ∃ t, binderInsertFreeBuffer L ar b.addr = .ok { ar with freeBuffers := t } ∧
      Area.Shaped L { ar with freeBuffers := t } := by
  obtain ⟨t, hins, hperm, hord⟩ := binderInsertFreeBuffer_ok (L := L)
    (by rw [isFree_of_cut h.cut h.buffers, h.free])
    (fun a ha => by
      obtain ⟨c, hc, hcf, rfl⟩ := h.free_of_mem ha
      rw [h.isFree_eq hc, hcf])
    h.freeOrdered
  refine ⟨t, hins, ?_, ?_, ?_, hord, ?_⟩
  · exact h.buffers ▸ h.tiles
  · rw [show ({ ar with freeBuffers := t } : Area).buffers = pre ++ b :: post from h.buffers]
    refine List.isChain_append.mpr ⟨h.apartPre, List.isChain_cons.mpr ⟨?_, h.apartPost⟩, ?_⟩
    · intro c hc
      simp [Apart, hhead c hc]
    · intro c hc d _
      simp [Apart, hlast c hc]
  · refine (hperm.trans (h.freePerm.cons _)).trans ?_
    simp only [h.buffers, freeAddrs_append, freeAddrs_cons, h.free, ↓reduceIte]
    exact List.perm_middle.symm
  · simpa [h.buffers, allocatedAddrs_cons, h.free] using h.allocated

end Driver

end BinderForLinux
