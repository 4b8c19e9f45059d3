import BinderForLinux.MemoryDealer.Steps

/-!
# Every sequence of allocations

The chunks are in order in every state that is reached by allocating blocks and giving them back.
-/

namespace BinderForLinux

namespace MemoryDealer

open Library LinkedList

variable {pagesize size : ℕ} {flags : UInt32} {s s' s₀ : Allocator × List ℕ} {ids : List ℕ}

theorem inOrder_new : InOrder (bits28 ((Allocator.new pagesize size).heapSize / memoryAlign))
    (Allocator.new pagesize size) [0] ∧
      taken (vals (Allocator.new pagesize size).list [0]) = [] := by
  have hvals : vals (Allocator.new pagesize size).list [0] =
      [⟨0, bits28 ((Allocator.new pagesize size).heapSize / memoryAlign), true⟩] := rfl
  have hlinked : Linked (Allocator.new pagesize size).list [0] :=
    linked_insertHead (l := (⟨fun _ => ⟨⟨0, 0, false⟩, none, none⟩, none, none⟩ :
      LinkedList Chunk)) rfl _
  rw [hvals]
  refine ⟨⟨⟨hlinked, fun n hn => ?_, ?_, ?_, Nat.mod_lt _ (by decide)⟩, ?_⟩, rfl⟩
  · rw [List.mem_singleton.mp hn]
    exact Nat.zero_lt_one
  · rw [hvals]
    exact ⟨rfl, Nat.zero_add _⟩
  · rw [hvals]
    rcases Nat.eq_zero_or_pos
      (bits28 ((Allocator.new pagesize size).heapSize / memoryAlign)) with h | h
    · exact .inr (by rw [h])
    · exact .inl fun x hx => by rwa [List.mem_singleton.mp hx]
  · rw [hvals]
    exact List.isChain_singleton _

theorem takenOffsets_perm_cons {cs ds : List Chunk} {x : Chunk}
    (h : (taken cs).Perm (x :: taken ds)) :
    (takenOffsets cs).Perm (x.start * memoryAlign :: takenOffsets ds) := by
  have hmap := h.map fun c => c.start * memoryAlign
  rwa [List.map_cons] at hmap

/-- The chunks are in order, in a heap of the size it was made with. -/
def Kept (s₀ s : Allocator × List ℕ) : Prop :=
  (∃ ids, InOrder (s₀.1.heapSize / memoryAlign) s.1 ids ∧
    s.2.Perm (takenOffsets (vals s.1.list ids))) ∧ s.1.heapSize = s₀.1.heapSize

theorem Kept.step {op : Op} (h : Kept s₀ s) (hok : op.Proper s)
    (hstep : step pagesize s op = .ok s') : Kept s₀ s' := by
  obtain ⟨⟨ids, horder, hblocks⟩, hheap⟩ := h
  cases op with
  | alloc size flags =>
      by_cases hzero : size = 0
      · have heq : alloc s.1 pagesize flags size = .ok (s.1, some 0) := if_pos hzero
        simp only [MemoryDealer.step, heq, Except.map, if_pos hzero] at hstep
        cases hstep
        exact ⟨⟨ids, horder, hblocks⟩, hheap⟩
      · rcases alloc_spec pagesize flags horder hzero hok with
          ⟨heq, -⟩ | ⟨a', ids', x, heq, ⟨horder', htaken⟩, hheap', -⟩
        · simp only [MemoryDealer.step, heq, Except.map, if_neg hzero] at hstep
          cases hstep
          exact ⟨⟨ids, horder, hblocks⟩, hheap⟩
        · simp only [MemoryDealer.step, heq, Except.map, if_neg hzero] at hstep
          cases hstep
          exact ⟨⟨ids', horder', (hblocks.cons _).trans (takenOffsets_perm_cons htaken).symm⟩,
            hheap'.trans hheap⟩
  | dealloc offset =>
      obtain ⟨x, hx, rfl⟩ := List.mem_map.mp (hblocks.mem_iff.mp hok)
      obtain ⟨a', ids', f, heq, ⟨horder', htaken⟩, hheap'⟩ := dealloc_spec horder hx
      rw [MemoryDealer.step, heq] at hstep
      cases hstep
      refine ⟨⟨ids', horder', ?_⟩, hheap'.trans hheap⟩
      have herase := (hblocks.trans (takenOffsets_perm_cons htaken)).erase (x.start * memoryAlign)
      rwa [List.erase_cons_head] at herase

theorem kept_of_reach (hunits : (Allocator.new pagesize size).heapSize / memoryAlign < 2 ^ 28)
    (h : Reach (step pagesize) (fun s op => op.Proper s) (Allocator.new pagesize size, []) s) :
    Kept (Allocator.new pagesize size, []) s :=
  h.invariant ⟨⟨[0], by
    obtain ⟨horder, htaken⟩ : _ ∧ taken (vals (Allocator.new pagesize size).list [0]) = [] :=
      inOrder_new
    rw [bits28_of_lt hunits] at horder
    exact ⟨horder, by rw [takenOffsets_eq, htaken]; rfl⟩⟩, rfl⟩
    fun _ _ _ hkept hok hstep => hkept.step hok hstep

/-- What a request for some bytes does, where the nodes of the list are `ids`. -/
def TakesBest (a : Allocator) (ids : List ℕ) (pagesize : ℕ) (flags : UInt32) (size : ℕ) : Prop :=
  (alloc a pagesize flags size = .ok (a, none) ∧
      ∀ x ∈ vals a.list ids, ¬ Fits pagesize flags (unitsOf size) x) ∨
    ∃ a' ids' offset x y, alloc a pagesize flags size = .ok (a', some offset) ∧
      (memoryAlign ∣ offset ∧ (flags &&& pageAligned ≠ 0 → pagesize ∣ offset)) ∧
      (Linked a'.list ids' ∧ y ∈ vals a'.list ids' ∧ y.free = false ∧
        y.start * memoryAlign = offset ∧ size ≤ y.size * memoryAlign) ∧
      x ∈ vals a.list ids ∧ Fits pagesize flags (unitsOf size) x ∧
        offset = (x.start + extra pagesize flags x.start) * memoryAlign ∧
        ∀ z ∈ vals a.list ids, Fits pagesize flags (unitsOf size) z → x.size ≤ z.size

theorem le_unitsOf (size : ℕ) : size ≤ unitsOf size * memoryAlign := by
  unfold unitsOf memoryAlign
  omega

theorem InOrder.takesBest {a : Allocator} {units : ℕ} (hpage : PageSize pagesize)
    (h : InOrder units a ids) (hsize : size ≠ 0) (hle : size ≤ sizeT - memoryAlign) :
    TakesBest a ids pagesize flags size := by
  rcases alloc_spec pagesize flags h hsize hle with
    hnone | ⟨a', ids', x, heq, ⟨horder, -⟩, -, ⟨hx, hfits, hmin⟩, hmem⟩
  · exact .inl hnone
  · have hstart : x.start < 2 ^ 28 := by
      have := h.laid.size_lt hx
      omega
    exact .inr ⟨a', ids', _, x, _, heq,
      ⟨Nat.dvd_mul_left .., fun hflags => page_aligned hpage hflags hstart⟩,
      ⟨horder.laid.linked, hmem, rfl, rfl, le_unitsOf size⟩, hx, hfits, rfl, hmin⟩

/-- In every run in which only blocks that are held are given back: the list is linked, its chunks
tile the heap, no two free ones are neighbours, and those that are taken are the blocks. Of the
chunks that fit a request takes a smallest one, and it fails only if there is none; a request for
nothing takes nothing. Blocks can be given back. -/
theorem chunks_in_order (hpage : PageSize pagesize)
    (hunits : (Allocator.new pagesize size).heapSize / memoryAlign < 2 ^ 28)
    (h : Reach (step pagesize) (fun s op => op.Proper s) (Allocator.new pagesize size, []) s) :
    ∃ ids, Linked s.1.list ids ∧
      Tiles 0 (vals s.1.list ids) ((Allocator.new pagesize size).heapSize / memoryAlign) ∧
      Apart (vals s.1.list ids) ∧ s.2.Perm (takenOffsets (vals s.1.list ids)) ∧
      (∀ request flags, request ≠ 0 → request ≤ sizeT - memoryAlign →
        TakesBest s.1 ids pagesize flags request) ∧
      (∀ flags, alloc s.1 pagesize flags 0 = .ok (s.1, some 0)) ∧
      ∀ offset ∈ s.2, ∃ a' freed, dealloc s.1 offset = .ok (a', some freed) := by
  obtain ⟨⟨ids, horder, hblocks⟩, -⟩ := kept_of_reach hunits h
  refine ⟨ids, horder.laid.linked, horder.laid.tiles, horder.apart, hblocks,
    fun request flags hne hle => horder.takesBest hpage hne hle, fun flags => rfl,
    fun offset hoffset => ?_⟩
  obtain ⟨x, hx, rfl⟩ := List.mem_map.mp (hblocks.mem_iff.mp hoffset)
  obtain ⟨a', -, freed, heq, -⟩ := dealloc_spec horder hx
  exact ⟨a', freed, heq⟩

instance (s : Allocator × List ℕ) (op : Op) : Decidable (op.Proper s) :=
  match op with
  | .alloc size _ => inferInstanceAs (Decidable (size ≤ sizeT - memoryAlign))
  | .dealloc offset => inferInstanceAs (Decidable (offset ∈ s.2))

/-- Three blocks in four pages, one of them on a page, and two of them given back. -/
theorem chunks_in_order_merged : ∃ s, Reach (step 4096) (fun s op => op.Proper s)
      (Allocator.new 4096 16384, []) s ∧ s.2 = [4096] ∧
    ∃ ids, Linked s.1.list ids ∧ s.2.Perm (takenOffsets (vals s.1.list ids)) := by
  obtain ⟨s, hs, hfinal⟩ := Option.map_eq_some_iff.mp
    (show (runChecked (step 4096) (fun s op => op.Proper s) (Allocator.new 4096 16384, [])
        [.alloc 100 0, .alloc 50 1, .alloc 200 0, .dealloc 0, .dealloc 128]).map Prod.snd =
        some [4096] by decide +kernel)
  have hreach := reach_of_runChecked hs
  obtain ⟨ids, hlinked, -, -, hblocks, -⟩ :=
    chunks_in_order ⟨12, by decide, by decide, rfl⟩ (by decide) hreach
  exact ⟨s, hreach, hfinal, ids, hlinked, hblocks⟩

/-- A request for nothing gets an offset at which nothing is taken. -/
theorem nothing_taken : alloc (Allocator.new 4096 16384) 4096 0 0 =
      .ok (Allocator.new 4096 16384, some 0) ∧
    ∀ ids, Linked (Allocator.new 4096 16384).list ids →
      ∀ y ∈ vals (Allocator.new 4096 16384).list ids, y.free = true := by
  refine ⟨rfl, fun ids hlinked y hy => ?_⟩
  have hfirst : some 0 = ids.head?.or none := hlinked.front.first
  cases ids with
  | nil => cases hfirst
  | cons n ids =>
      obtain rfl : 0 = n := by simpa using hfirst
      have hnext : none = ids.head?.or none := hlinked.front.seg.2.1
      cases ids with
      | nil =>
          rw [List.mem_singleton.mp hy]
          rfl
      | cons m ids => cases hnext

end MemoryDealer

end BinderForLinux
