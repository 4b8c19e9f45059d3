import BinderForLinux.MemoryDealer.Runs
import Mathlib.Order.CompletePartialOrder
import Mathlib.Order.Interval.Set.Disjoint

/-!
# The memories of a dealer

`MemoryDealer::allocate` gives out memories of the heap, and a memory that is destroyed gives its
chunk back. A request is rounded up to units of the allocator in `size_t`, where the largest ones
wrap to no unit at all.
-/

namespace BinderForLinux

namespace MemoryDealer

open Library LinkedList

/-- `MemoryDealer`, with the memories that are held: their offsets and sizes. -/
structure Dealer where
  allocator : Allocator
  live : List (ℕ × ℕ)

namespace Dealer

variable {pagesize size units n : ℕ} {d d' : Dealer} {ids : List ℕ} {m : ℕ × ℕ}

def new (pagesize size : ℕ) : Dealer := ⟨Allocator.new pagesize size, []⟩

/-- `allocate`, which reads the offset as `ssize_t`. A null pointer is `none`. -/
def allocate (pagesize : ℕ) (d : Dealer) (n : ℕ) : Except Fault (Dealer × Option (ℕ × ℕ)) :=
  match alloc d.allocator pagesize 0 n with
  | .error e => .error e
  | .ok (a, none) => .ok ({ d with allocator := a }, none)
  | .ok (a, some offset) =>
      if offset < 2 ^ 63 then .ok (⟨a, (offset, n) :: d.live⟩, some (offset, n))
      else .ok ({ d with allocator := a }, none)

/-- `~Allocation`. A memory without bytes has no chunk. -/
def destroy (d : Dealer) (m : ℕ × ℕ) : Except Fault Dealer :=
  if m.2 ≠ 0 then (dealloc d.allocator m.1).map fun r => ⟨r.1, d.live.erase m⟩
  else .ok { d with live := d.live.erase m }

inductive Op
  | allocate (n : ℕ)
  | destroy (m : ℕ × ℕ)

def step (pagesize : ℕ) (d : Dealer) : Op → Except Fault Dealer
  | .allocate n => (d.allocate pagesize n).map Prod.fst
  | .destroy m => d.destroy m

/-- Rounding the request up does not wrap, or no chunk is free. -/
def Rounds (d : Dealer) (n : ℕ) : Prop :=
  n ≤ sizeT - memoryAlign ∨
    ∀ ids, Linked d.allocator.list ids → ∀ x ∈ vals d.allocator.list ids, x.free = false

/-- Requests that round, and memories that are held. -/
def Op.Rounded (d : Dealer) : Op → Prop
  | .allocate n => n < sizeT ∧ d.Rounds n
  | .destroy m => m ∈ d.live

/-- A request gets bytes of the heap that no memory has, or nothing happens. -/
def Placed (pagesize heapSize : ℕ) (d : Dealer) (n : ℕ) : Prop :=
  ∃ d' r, d.allocate pagesize n = .ok (d', r) ∧
    (∀ m, r = some m → m.2 = n ∧ m.1 + n ≤ heapSize ∧
      ∀ m' ∈ d.live, Disjoint (Set.Ico m.1 (m.1 + n)) (Set.Ico m'.1 (m'.1 + m'.2))) ∧
    (r = none → d' = d)

/-! ### Memories and chunks -/

/-- The chunk of a memory. -/
structure Covers (m : ℕ × ℕ) (x : Chunk) : Prop where
  start : x.start * memoryAlign = m.1
  size : m.2 ≤ x.size * memoryAlign

def sized (live : List (ℕ × ℕ)) : List (ℕ × ℕ) := live.filter fun m => 0 < m.2

variable {live : List (ℕ × ℕ)}

theorem sized_cons (hpos : 0 < m.2) : sized (m :: live) = m :: sized live :=
  List.filter_cons_of_pos (decide_eq_true hpos)

theorem sized_cons_of_empty (hzero : m.2 = 0) : sized (m :: live) = sized live :=
  List.filter_cons_of_neg (by simp [hzero])

theorem mem_sized : m ∈ sized live ↔ m ∈ live ∧ 0 < m.2 := by simp [sized]

/-- The memories with bytes have one chunk each, and these are the chunks that are taken. -/
structure Held (units : ℕ) (d : Dealer) (ids : List ℕ) : Prop where
  order : InOrder units d.allocator ids
  chunks : ∃ ps : List ((ℕ × ℕ) × Chunk), (ps.map Prod.fst).Perm (sized d.live) ∧
    (ps.map Prod.snd).Perm (taken (vals d.allocator.list ids)) ∧ ∀ p ∈ ps, Covers p.1 p.2

theorem Held.exists_chunk (h : Held units d ids) (hm : m ∈ d.live) (hpos : 0 < m.2) :
    ∃ x ∈ taken (vals d.allocator.list ids), Covers m x := by
  obtain ⟨ps, hlive, htaken, hcovers⟩ := h.chunks
  have hmem : m ∈ ps.map Prod.fst := hlive.mem_iff.mpr (mem_sized.mpr ⟨hm, hpos⟩)
  obtain ⟨p, hp, rfl⟩ := List.mem_map.mp hmem
  exact ⟨p.2, htaken.mem_iff.mp (List.mem_map_of_mem hp), hcovers p hp⟩

theorem Held.cons {a' : Allocator} {ids' : List ℕ} {x : Chunk} (h : Held units d ids)
    (horder : InOrder units a' ids')
    (htaken : (taken (vals a'.list ids')).Perm (x :: taken (vals d.allocator.list ids)))
    (hpos : 0 < m.2) (hcovers : Covers m x) : Held units ⟨a', m :: d.live⟩ ids' := by
  obtain ⟨ps, hlive, hchunks, hall⟩ := h.chunks
  refine ⟨horder, (m, x) :: ps, ?_, ?_, fun p hp => ?_⟩
  · dsimp only
    rw [sized_cons hpos]
    exact hlive.cons m
  · exact (hchunks.cons x).trans htaken.symm
  · rcases List.mem_cons.mp hp with rfl | hp
    · exact hcovers
    · exact hall p hp

theorem Held.erase (h : Held units d ids) (hm : m ∈ d.live) (hpos : 0 < m.2) :
    ∃ a' ids' f, dealloc d.allocator m.1 = .ok (a', some f) ∧
      a'.heapSize = d.allocator.heapSize ∧ Held units ⟨a', d.live.erase m⟩ ids' := by
  obtain ⟨ps, hlive, hchunks, hall⟩ := h.chunks
  have hperm : (ps.map Prod.fst).Perm (m :: sized (d.live.erase m)) := by
    rw [← sized_cons hpos]
    exact hlive.trans ((List.perm_cons_erase hm).filter _)
  obtain ⟨p, hp, rfl⟩ := List.mem_map.mp (hperm.mem_iff.mpr List.mem_cons_self)
  have hsplit := List.perm_cons_erase hp
  have hcovers := hall p hp
  obtain ⟨a', ids', f, heq, ⟨horder, htaken⟩, hheap⟩ :=
    dealloc_spec h.order (hchunks.mem_iff.mp (List.mem_map_of_mem hp))
  rw [hcovers.start] at heq
  refine ⟨a', ids', f, heq, hheap, horder, ps.erase p, ?_, ?_,
    fun q hq => hall q (List.mem_of_mem_erase hq)⟩
  · exact (List.perm_cons p.1).mp ((hsplit.map Prod.fst).symm.trans hperm)
  · exact (List.perm_cons p.2).mp ((hsplit.map Prod.snd).symm.trans (hchunks.trans htaken))

theorem Held.of_sized (h : Held units d ids) (hlive : (sized d.live).Perm (sized live)) :
    Held units { d with live := live } ids := by
  obtain ⟨ps, hfst, hchunks, hall⟩ := h.chunks
  exact ⟨h.order, ps, hfst.trans hlive, hchunks, hall⟩

/-! ### Requests -/

theorem allocate_none (h : alloc d.allocator pagesize 0 n = .ok (d.allocator, none)) :
    d.allocate pagesize n = .ok (d, none) := by
  unfold allocate
  rw [h]

theorem allocate_some {a' : Allocator} {x : Chunk}
    (h : alloc d.allocator pagesize 0 n = .ok (a', some (x.start * memoryAlign)))
    (hlt : x.start < 2 ^ 28) : d.allocate pagesize n =
      .ok (⟨a', (x.start * memoryAlign, n) :: d.live⟩, some (x.start * memoryAlign, n)) := by
  unfold allocate
  rw [h]
  dsimp only
  rw [if_pos (by unfold memoryAlign; omega)]

theorem Held.allocate_rounded (h : Held units d ids) (hpos : 0 < n)
    (hle : n ≤ sizeT - memoryAlign) :
    d.allocate pagesize n = .ok (d, none) ∨
      ∃ a' ids' x, d.allocate pagesize n =
          .ok (⟨a', (x.start * memoryAlign, n) :: d.live⟩, some (x.start * memoryAlign, n)) ∧
        InOrder units a' ids' ∧
        (taken (vals a'.list ids')).Perm (x :: taken (vals d.allocator.list ids)) ∧
        a'.heapSize = d.allocator.heapSize ∧ Covers (x.start * memoryAlign, n) x := by
  rcases alloc_spec pagesize 0 h.order (Nat.ne_of_gt hpos) hle with
    ⟨heq, -⟩ | ⟨a', ids', x, heq, ⟨horder, htaken⟩, hheap, -, hmem⟩
  · exact .inl (allocate_none heq)
  · have hlt := horder.laid.size_lt hmem
    have hstart : x.start + extra pagesize 0 x.start < 2 ^ 28 := by
      dsimp only at hlt
      omega
    exact .inr ⟨a', ids', ⟨x.start + extra pagesize 0 x.start, unitsOf n, false⟩,
      allocate_some heq hstart, horder, htaken, hheap, rfl, le_unitsOf n⟩

theorem extra_zero (start : ℕ) : extra pagesize 0 start = 0 := if_neg (by decide)

theorem Held.allocate_wrapped (h : Held units d ids) (hlt : sizeT - memoryAlign < n)
    (hn : n < sizeT) :
    (d.allocate pagesize n = .ok (d, none) ∧
      ∀ x ∈ vals d.allocator.list ids, x.free = false) ∨
    ∃ d' m, d.allocate pagesize n = .ok (d', some m) ∧ m.2 = n ∧
      ∃ x ∈ vals d.allocator.list ids, x.free = true := by
  have hwrap : (n + (memoryAlign - 1)) % sizeT / memoryAlign = 0 := by
    unfold sizeT memoryAlign at *
    omega
  have hbest : IsBest d.allocator pagesize 0 0 [] none := fun n hn => by cases hn
  obtain ⟨r, hscan, hbest⟩ := scan_spec (ids.nil_append ▸ h.order.laid.linked) hbest
    (length_le_of_fresh h.order.laid.linked.nodup h.order.laid.fresh)
  have hpos : n ≠ 0 := by
    unfold sizeT memoryAlign at hlt
    omega
  have halloc := alloc_of_scan h.order.laid.linked hpos hwrap hscan
  rw [List.nil_append] at hbest
  cases r with
  | none =>
      refine .inl ⟨allocate_none halloc, fun x hx => ?_⟩
      obtain ⟨c, hc, rfl⟩ := List.mem_map.mp hx
      by_contra hfree
      refine hbest c hc ⟨Bool.not_eq_false _ ▸ hfree, ?_⟩
      rw [extra_zero]
      exact Nat.zero_le _
  | some c =>
      obtain ⟨hc, hfits, -⟩ := hbest
      have hmem : d.allocator.chunk c ∈ vals d.allocator.list ids := List.mem_map_of_mem hc
      have hlt' := h.order.laid.size_lt hmem
      obtain ⟨pre, post, rfl⟩ := List.append_of_mem hc
      have hnodes : Nodes d.allocator.list (pre ++ c :: post) d.allocator.next
          (vals d.allocator.list pre ++ d.allocator.chunk c :: vals d.allocator.list post) :=
        ⟨h.order.laid.linked, h.order.laid.fresh, by rw [vals_append, vals_cons]; rfl⟩
      obtain ⟨-, -, -, hchunk⟩ :=
        takeChunk_nodes hnodes (List.length_map _) hfits.2 (by omega)
      rw [extra_zero, Nat.add_zero] at hchunk
      refine .inr ⟨_, _, allocate_some halloc ?_, rfl, d.allocator.chunk c, hmem, hfits.1⟩
      rw [hchunk]
      exact Nat.lt_of_le_of_lt (Nat.le_add_right _ _) hlt'

/-! ### Runs -/

/-- What holds in every state of a run from a new dealer. -/
structure Sound (pagesize size : ℕ) (d : Dealer) : Prop where
  heapSize : d.allocator.heapSize = (Allocator.new pagesize size).heapSize
  held : ∃ ids, Held (bits28 ((Allocator.new pagesize size).heapSize / memoryAlign)) d ids

theorem sound_new : Sound pagesize size (Dealer.new pagesize size) := by
  obtain ⟨horder, htaken⟩ : _ ∧ taken (vals (Allocator.new pagesize size).list [0]) = [] :=
    inOrder_new
  refine ⟨rfl, [0], horder, [], List.Perm.refl _, ?_, fun p hp => by cases hp⟩
  rw [show (Dealer.new pagesize size).allocator = Allocator.new pagesize size from rfl, htaken]
  exact List.Perm.refl _

theorem Rounds.allocate_wrapped (h : Held units d ids) (hround : d.Rounds n)
    (hlt : sizeT - memoryAlign < n) (hn : n < sizeT) :
    d.allocate pagesize n = .ok (d, none) := by
  rcases h.allocate_wrapped hlt hn with ⟨heq, -⟩ | ⟨-, -, -, -, x, hx, hfree⟩
  · exact heq
  · rcases hround with hle | hnone
    · omega
    · rw [hnone ids h.order.laid.linked x hx] at hfree
      cases hfree

theorem Sound.step {op : Op} (h : Sound pagesize size d) (hok : op.Rounded d)
    (hstep : d.step pagesize op = .ok d') : Sound pagesize size d' := by
  obtain ⟨hheap, ids, hheld⟩ := h
  cases op with
  | allocate n =>
      obtain ⟨hn, hround⟩ := hok
      have hnone (heq : d.allocate pagesize n = .ok (d, none)) : Sound pagesize size d' := by
        rw [Dealer.step, heq] at hstep
        cases hstep
        exact ⟨hheap, ids, hheld⟩
      rcases Nat.eq_zero_or_pos n with rfl | hpos
      · have hzero : alloc d.allocator pagesize 0 0 = .ok (d.allocator, some 0) := rfl
        rw [Dealer.step, allocate, hzero] at hstep
        cases hstep
        refine ⟨hheap, ids, hheld.of_sized ?_⟩
        rw [sized_cons_of_empty rfl]
      · rcases Nat.lt_or_ge (sizeT - memoryAlign) n with hlt | hle
        · exact hnone (hround.allocate_wrapped hheld hlt hn)
        · rcases hheld.allocate_rounded hpos hle with
            heq | ⟨a', ids', x, heq, horder, htaken, hheap', hcovers⟩
          · exact hnone heq
          · rw [Dealer.step, heq] at hstep
            cases hstep
            exact ⟨hheap'.trans hheap, ids', hheld.cons horder htaken hpos hcovers⟩
  | destroy m =>
      rcases Nat.eq_zero_or_pos m.2 with hzero | hpos
      · rw [Dealer.step, destroy, if_neg (not_not.mpr hzero)] at hstep
        cases hstep
        refine ⟨hheap, ids, hheld.of_sized ?_⟩
        have hperm := (List.perm_cons_erase hok).filter fun m : ℕ × ℕ => 0 < m.2
        exact hperm.trans (sized_cons_of_empty hzero ▸ List.Perm.refl _)
      · obtain ⟨a', ids', f, heq, hheap', hheld'⟩ := hheld.erase hok hpos
        rw [Dealer.step, destroy, if_pos (Nat.ne_of_gt hpos), heq] at hstep
        cases hstep
        exact ⟨hheap'.trans hheap, ids', hheld'⟩

theorem sound_of_reach (h : Reach (Dealer.step pagesize) (fun d op => op.Rounded d)
    (Dealer.new pagesize size) d) : Sound pagesize size d :=
  h.invariant sound_new fun _ _ _ hs hok hstep => hs.step hok hstep

/-! ### Places -/

theorem units_le (pagesize size : ℕ) :
    bits28 ((Allocator.new pagesize size).heapSize / memoryAlign) * memoryAlign ≤
      (Allocator.new pagesize size).heapSize :=
  Nat.le_trans (Nat.mul_le_mul_right _ (Nat.mod_le _ _)) (Nat.div_mul_le_self _ _)

theorem heapSize_le (size : ℕ) (hpage : PageSize pagesize) :
    (Allocator.new pagesize size).heapSize ≤ sizeT - memoryAlign := by
  obtain ⟨k, hk, -, rfl⟩ := hpage
  have hheap : (Allocator.new (2 ^ k) size).heapSize =
      (size + (2 ^ k - 1)) % sizeT / 2 ^ k * 2 ^ k := rfl
  have hdvd : memoryAlign ∣ (Allocator.new (2 ^ k) size).heapSize :=
    (pow_dvd_pow 2 hk).trans (hheap ▸ Nat.dvd_mul_left _ _)
  have hlt : (Allocator.new (2 ^ k) size).heapSize < sizeT := by
    rw [hheap]
    exact Nat.lt_of_le_of_lt (Nat.div_mul_le_self _ _) (Nat.mod_lt _ (by decide))
  unfold sizeT memoryAlign at *
  omega

theorem Covers.disjoint {x y : Chunk} {m' : ℕ × ℕ} (h : Covers m x) (h' : Covers m' y)
    (hclear : Clear x y) : Disjoint (Set.Ico m.1 (m.1 + m.2)) (Set.Ico m'.1 (m'.1 + m'.2)) := by
  rw [Set.Ico_disjoint_Ico]
  have hstart := h.start
  have hstart' := h'.start
  have hsize := h.size
  have hsize' := h'.size
  unfold Clear at hclear
  unfold memoryAlign at *
  omega

theorem Held.disjoint {a' : Allocator} {ids' : List ℕ} {x : Chunk} {m' : ℕ × ℕ}
    (h : Held units d ids) (horder : InOrder units a' ids')
    (htaken : (taken (vals a'.list ids')).Perm (x :: taken (vals d.allocator.list ids)))
    (hcovers : Covers m x) (hm' : m' ∈ d.live) :
    Disjoint (Set.Ico m.1 (m.1 + m.2)) (Set.Ico m'.1 (m'.1 + m'.2)) := by
  rcases Nat.eq_zero_or_pos m'.2 with hzero | hpos
  · rw [hzero, Nat.add_zero, Set.Ico_self]
    exact disjoint_bot_right
  · obtain ⟨y, hy, hcovers'⟩ := h.exists_chunk hm' hpos
    have hclear := (htaken.pairwise_iff fun hc => hc.symm).mp
      (horder.laid.tiles.clear.sublist List.filter_sublist)
    exact hcovers.disjoint hcovers' ((List.pairwise_cons.mp hclear).1 y hy)

theorem Sound.placed (h : Sound pagesize size d) (hpos : 0 < n) (hn : n < sizeT)
    (hround : d.Rounds n) :
    Placed pagesize (Allocator.new pagesize size).heapSize d n := by
  obtain ⟨-, ids, hheld⟩ := h
  have hnone (heq : d.allocate pagesize n = .ok (d, none)) :
      Placed pagesize (Allocator.new pagesize size).heapSize d n :=
    ⟨d, none, heq, (fun m hm => by cases hm), fun _ => rfl⟩
  rcases Nat.lt_or_ge (sizeT - memoryAlign) n with hlt | hle
  · exact hnone (hround.allocate_wrapped hheld hlt hn)
  · rcases hheld.allocate_rounded hpos hle with
      heq | ⟨a', ids', x, heq, horder, htaken, -, hcovers⟩
    · exact hnone heq
    · refine ⟨_, _, heq, fun m hm => ?_, fun hnull => by cases hnull⟩
      cases hm
      refine ⟨rfl, ?_, fun m' hm' => hheld.disjoint horder htaken hcovers hm'⟩
      obtain ⟨hx, -⟩ := mem_taken.mp (htaken.mem_iff.mpr List.mem_cons_self)
      have hend := (horder.laid.tiles.bounds hx).2
      have hsize := hcovers.size
      have hunits := units_le pagesize size
      unfold memoryAlign at *
      omega

/-- In a run whose requests round, what a request gets lies in the heap and in no other memory, or
nothing happens: exactly if the request rounds as well. -/
theorem sizes_do_not_wrap_iff (hpage : PageSize pagesize)
    (h : Reach (Dealer.step pagesize) (fun d op => op.Rounded d) (Dealer.new pagesize size) d)
    (hpos : 0 < n) (hn : n < sizeT) :
    Placed pagesize (Allocator.new pagesize size).heapSize d n ↔ d.Rounds n := by
  have hsound := sound_of_reach h
  refine ⟨fun hplaced => ?_, hsound.placed hpos hn⟩
  by_contra hround
  obtain ⟨hlt, hfree⟩ := not_or.mp hround
  obtain ⟨d', r, heq, hsome, -⟩ := hplaced
  obtain ⟨ids, hheld⟩ := hsound.held
  rcases hheld.allocate_wrapped (Nat.not_le.mp hlt) hn with ⟨-, hnone⟩ | ⟨d'', m, heq', hm, -⟩
  · refine hfree fun ids' hlinked x hx => ?_
    rw [hlinked.unique hheld.order.laid.linked] at hx
    exact hnone x hx
  · cases heq.symm.trans heq'
    have hend := (hsome m rfl).2.1
    have hheap := heapSize_le size hpage
    omega

/-- A second request in a heap of a page. -/
theorem sizes_do_not_wrap_page : ∃ d, Reach (Dealer.step 4096) (fun d op => op.Rounded d)
      (Dealer.new 4096 4096) d ∧ d.live = [(0, 100)] ∧
    (Placed 4096 4096 d 50 ↔ d.Rounds 50) := by
  obtain ⟨d, hstep, hlive⟩ : ∃ d, Dealer.step 4096 (Dealer.new 4096 4096) (.allocate 100) = .ok d ∧
      d.live = [(0, 100)] := ⟨_, rfl, rfl⟩
  have hreach : Reach (Dealer.step 4096) (fun d op => op.Rounded d) (Dealer.new 4096 4096) d :=
    .tail (a := .allocate 100) .refl ⟨by decide, .inl (by decide)⟩ hstep
  exact ⟨d, hreach, hlive,
    sizes_do_not_wrap_iff ⟨12, by decide, by decide, rfl⟩ hreach (by decide) (by decide)⟩

/-- All bytes but one of the address space are found in a page. -/
theorem wrapped_getsPage : ¬ Placed 4096 4096 (Dealer.new 4096 4096) (2 ^ 64 - 1) := by
  rintro ⟨d', r, heq, hsome, -⟩
  have hgets : (((Dealer.new 4096 4096).allocate 4096 (2 ^ 64 - 1)).toOption.map Prod.snd) =
      some (some (0, 2 ^ 64 - 1)) := by decide +kernel
  rw [heq] at hgets
  cases Option.some.inj hgets
  exact absurd (hsome (0, 2 ^ 64 - 1) rfl).2.1 (by decide)

end Dealer

end MemoryDealer

end BinderForLinux
