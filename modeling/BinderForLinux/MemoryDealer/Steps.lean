import BinderForLinux.MemoryDealer.Chunks
import Mathlib.Data.List.Perm.Subperm

/-!
# Taking and giving back chunks

Both operations keep the chunks in order. The scan finds a smallest chunk that fits, also when it
stops early; of a chunk that is given back only its two neighbours can be merged with it, so the
loop ends after at most two rounds.
-/

namespace BinderForLinux

namespace MemoryDealer

open Library LinkedList

variable {a : Allocator} {l : LinkedList Chunk} {ids pre post : List ℕ}
  {pagesize size units n m c : ℕ} {flags : UInt32}

def vals (l : LinkedList Chunk) (ids : List ℕ) : List Chunk := ids.map fun n => (l.node n).val

theorem vals_append : vals l (pre ++ post) = vals l pre ++ vals l post := List.map_append

theorem vals_cons : vals l (n :: ids) = (l.node n).val :: vals l ids := rfl

theorem vals_congr {l' : LinkedList Chunk} (h : ∀ n ∈ ids, (l'.node n).val = (l.node n).val) :
    vals l' ids = vals l ids := List.map_congr_left h

/-- The list has these nodes; its chunks tile the heap, and have room unless there is none. -/
structure Laid (l : LinkedList Chunk) (ids : List ℕ) (next units : ℕ) : Prop where
  linked : Linked l ids
  fresh : ∀ n ∈ ids, n < next
  tiles : Tiles 0 (vals l ids) units
  pos : (∀ x ∈ vals l ids, 0 < x.size) ∨ vals l ids = [⟨0, 0, true⟩]
  few : units < 2 ^ 28

structure InOrder (units : ℕ) (a : Allocator) (ids : List ℕ) : Prop where
  laid : Laid a.list ids a.next units
  apart : Apart (vals a.list ids)

theorem bits28_of_lt (h : n < 2 ^ 28) : bits28 n = n := Nat.mod_eq_of_lt h

theorem Laid.size_lt {next : ℕ} (h : Laid l ids next units) {x : Chunk} (hx : x ∈ vals l ids) :
    x.start + x.size < 2 ^ 28 := Nat.lt_of_le_of_lt (h.tiles.bounds hx).2 h.few

/-! ### Looking for a chunk -/

def Fits (pagesize : ℕ) (flags : UInt32) (size : ℕ) (x : Chunk) : Prop :=
  x.free = true ∧ size + extra pagesize flags x.start ≤ x.size

/-- The result is a smallest one of those that fit, if there are any. -/
def IsBest (a : Allocator) (pagesize : ℕ) (flags : UInt32) (size : ℕ) (ids : List ℕ) :
    Option ℕ → Prop
  | none => ∀ n ∈ ids, ¬ Fits pagesize flags size (a.chunk n)
  | some c => c ∈ ids ∧ Fits pagesize flags size (a.chunk c) ∧
      ∀ n ∈ ids, Fits pagesize flags size (a.chunk n) → (a.chunk c).size ≤ (a.chunk n).size

theorem isBest_better {best : Option ℕ} (h : IsBest a pagesize flags size pre best)
    (hfits : Fits pagesize flags size (a.chunk n)) :
    IsBest a pagesize flags size (pre ++ [n]) (some (better a n best)) := by
  have hmem (m : ℕ) (hm : m ∈ pre ++ [n]) : m ∈ pre ∨ m = n := by simpa using hm
  cases best with
  | none =>
      refine ⟨by simp [better], hfits, fun m hm hfm => ?_⟩
      rcases hmem m hm with hm | rfl
      · exact absurd hfm (h m hm)
      · exact Nat.le_refl _
  | some c =>
      obtain ⟨hc, hfc, hbest⟩ := h
      unfold better
      dsimp only
      split
      · rename_i hlt
        refine ⟨by simp, hfits, fun m hm hfm => ?_⟩
        rcases hmem m hm with hm | rfl
        · exact Nat.le_trans (Nat.le_of_lt hlt) (hbest m hm hfm)
        · exact Nat.le_refl _
      · rename_i hge
        refine ⟨List.mem_append_left _ hc, hfc, fun m hm hfm => ?_⟩
        rcases hmem m hm with hm | rfl
        · exact hbest m hm hfm
        · exact Nat.not_lt.mp hge

theorem isBest_skip {best : Option ℕ} (h : IsBest a pagesize flags size pre best)
    (hfits : ¬ Fits pagesize flags size (a.chunk n)) :
    IsBest a pagesize flags size (pre ++ [n]) best := by
  have hmem (m : ℕ) (hm : m ∈ pre ++ [n]) : m ∈ pre ∨ m = n := by simpa using hm
  cases best with
  | none =>
      intro m hm
      rcases hmem m hm with hm | rfl
      · exact h m hm
      · exact hfits
  | some c =>
      refine ⟨List.mem_append_left _ h.1, h.2.1, fun m hm hfm => ?_⟩
      rcases hmem m hm with hm | rfl
      · exact h.2.2 m hm hfm
      · exact absurd hfm hfits

theorem isBest_exact {best : ℕ} (h : IsBest a pagesize flags size (pre ++ [n]) (some best))
    (hn : Fits pagesize flags size (a.chunk n)) (hsize : (a.chunk n).size = size) :
    IsBest a pagesize flags size (pre ++ n :: post) (some best) := by
  have hle := h.2.2 n (by simp) hn
  refine ⟨?_, h.2.1, fun m _ hfm => ?_⟩
  · have := h.1
    simp only [List.mem_append, List.mem_singleton] at this
    simp only [List.mem_append, List.mem_cons]
    tauto
  · have := hfm.2
    omega

theorem scan_spec {fuel : ℕ} {best : Option ℕ} (hlinked : Linked a.list (pre ++ post))
    (hbest : IsBest a pagesize flags size pre best) (hfuel : post.length ≤ fuel) :
    ∃ r, scan a pagesize flags size fuel post.head? best = .ok r ∧
      IsBest a pagesize flags size (pre ++ post) r := by
  induction post generalizing pre fuel best with
  | nil =>
      rw [List.append_nil]
      refine ⟨best, ?_, hbest⟩
      cases fuel <;> rfl
  | cons n post ih =>
      obtain ⟨fuel, rfl⟩ : ∃ k, fuel = k + 1 := ⟨fuel - 1, by rw [List.length_cons] at hfuel; omega⟩
      have hnext : (a.list.node n).next = post.head? := (linked_cons.mp hlinked).2.2.2.1
      have happend : pre ++ n :: post = (pre ++ [n]) ++ post := by simp
      have hlength : post.length ≤ fuel := by
        rw [List.length_cons] at hfuel
        omega
      rw [List.head?_cons, scan, hnext]
      split
      · rename_i hfits
        split
        · rename_i hsize
          exact ⟨_, rfl, isBest_exact (isBest_better hbest hfits) hfits hsize⟩
        · rw [happend] at hlinked ⊢
          exact ih hlinked (isBest_better hbest hfits) hlength
      · rename_i hfits
        rw [happend] at hlinked ⊢
        exact ih hlinked (isBest_skip hbest hfits) hlength

theorem length_le_of_fresh (hnodup : ids.Nodup) (hfresh : ∀ n ∈ ids, n < m) : ids.length ≤ m := by
  have hsub : ids ⊆ List.range m := fun n hn => List.mem_range.mpr (hfresh n hn)
  have hle := (List.Nodup.subperm hnodup hsub).length_le
  rwa [List.length_range] at hle

/-! ### Taking a chunk -/

section Take

variable {next : ℕ} {x y : Chunk}

theorem vals_setVal_of_notMem (v : Chunk) (hn : n ∉ ids) : vals (l.setVal n v) ids = vals l ids :=
  vals_congr fun m hm => by rw [setVal_of_ne v (ne_of_mem_of_not_mem hm hn)]

/-- What is known while a chunk is being taken: the nodes, and their chunks. -/
structure Nodes (l : LinkedList Chunk) (ids : List ℕ) (next : ℕ) (cs : List Chunk) : Prop where
  linked : Linked l ids
  fresh : ∀ n ∈ ids, n < next
  values : vals l ids = cs

variable {cs ds : List Chunk}

theorem Nodes.setVal (h : Nodes l (pre ++ n :: post) next (cs ++ x :: ds))
    (hlen : cs.length = pre.length) (v : Chunk) :
    Nodes (l.setVal n v) (pre ++ n :: post) next (cs ++ v :: ds) := by
  refine ⟨h.linked.setVal v, h.fresh, ?_⟩
  have hvals := h.values
  rw [vals_append, vals_cons] at hvals
  obtain ⟨hpre, hcons⟩ := List.append_inj hvals (by rw [vals, List.length_map, hlen])
  obtain ⟨-, hpost⟩ := List.cons.inj hcons
  rw [vals_append, vals_cons, setVal_self, vals_setVal_of_notMem v h.linked.notMem.1,
    vals_setVal_of_notMem v h.linked.notMem.2, hpre, hpost]

theorem Nodes.insertBefore (h : Nodes l (pre ++ n :: post) next (cs ++ x :: ds))
    (hlen : cs.length = pre.length) (v : Chunk) :
    Nodes (l.insertBefore n next v) ((pre ++ [next]) ++ n :: post) (next + 1)
      ((cs ++ [v]) ++ x :: ds) := by
  have hnew : next ∉ pre ++ n :: post := fun hmem => absurd (h.fresh next hmem) (Nat.lt_irrefl _)
  have hsplit : (pre ++ [next]) ++ n :: post = pre ++ next :: n :: post := by simp
  have hold : vals (l.insertBefore n next v) (pre ++ n :: post) = cs ++ x :: ds := by
    rw [← h.values]
    exact vals_congr fun m hm => insertBefore_val v (ne_of_mem_of_not_mem hm hnew)
  rw [vals_append] at hold
  obtain ⟨hpre, hcons⟩ := List.append_inj hold (by rw [vals, List.length_map, hlen])
  rw [hsplit]
  refine ⟨h.linked.insertBefore hnew v, fun m hm => ?_, ?_⟩
  · simp only [List.mem_append, List.mem_cons] at hm
    have hfresh (k : ℕ) (hk : k ∈ pre ∨ k = n ∨ k ∈ post) : k < next :=
      h.fresh k (by simpa using hk)
    rcases hm with hm | rfl | hm
    · exact Nat.lt_succ_of_lt (hfresh m (.inl hm))
    · exact Nat.lt_succ_self _
    · exact Nat.lt_succ_of_lt (hfresh m (.inr hm))
  · rw [vals_append, vals_cons, insertBefore_val_new, hpre, hcons]
    simp

theorem Nodes.insertAfter (h : Nodes l (pre ++ n :: post) next (cs ++ x :: ds))
    (hlen : cs.length = pre.length) (v : Chunk) :
    Nodes (l.insertAfter n next v) (pre ++ n :: next :: post) (next + 1)
      (cs ++ x :: v :: ds) := by
  have hnew : next ∉ pre ++ n :: post := fun hmem => absurd (h.fresh next hmem) (Nat.lt_irrefl _)
  have hold : vals (l.insertAfter n next v) (pre ++ n :: post) = cs ++ x :: ds := by
    rw [← h.values]
    exact vals_congr fun m hm => insertAfter_val v (ne_of_mem_of_not_mem hm hnew)
  rw [vals_append, vals_cons] at hold
  obtain ⟨hpre, hcons⟩ := List.append_inj hold (by rw [vals, List.length_map, hlen])
  obtain ⟨hn, hpost⟩ := List.cons.inj hcons
  refine ⟨h.linked.insertAfter hnew v, fun m hm => ?_, ?_⟩
  · simp only [List.mem_append, List.mem_cons] at hm
    have hfresh (k : ℕ) (hk : k ∈ pre ∨ k = n ∨ k ∈ post) : k < next :=
      h.fresh k (by simpa using hk)
    rcases hm with hm | hm | rfl | hm
    · exact Nat.lt_succ_of_lt (hfresh m (.inl hm))
    · exact Nat.lt_succ_of_lt (hfresh m (.inr (.inl hm)))
    · exact Nat.lt_succ_self _
    · exact Nat.lt_succ_of_lt (hfresh m (.inr (.inr hm)))
  · rw [vals_append, vals_cons, vals_cons, insertAfter_val_new, hpre, hn, hpost]

theorem Nodes.remove (h : Nodes l (pre ++ n :: post) next (cs ++ x :: ds))
    (hlen : cs.length = pre.length) : Nodes (l.remove n) (pre ++ post) next (cs ++ ds) := by
  have hvals := h.values
  rw [vals_append, vals_cons] at hvals
  obtain ⟨hpre, hcons⟩ := List.append_inj hvals (by rw [vals, List.length_map, hlen])
  obtain ⟨-, hpost⟩ := List.cons.inj hcons
  refine ⟨h.linked.remove, fun m hm => h.fresh m ?_, ?_⟩
  · exact (List.Sublist.append_left (List.sublist_cons_self n post) pre).subset hm
  · rw [vals_congr (l := l) fun m _ => remove_val, vals_append, hpre, hpost]

theorem Nodes.chunk (h : Nodes l (pre ++ n :: post) next (cs ++ x :: ds))
    (hlen : cs.length = pre.length) : (l.node n).val = x := by
  have hvals := h.values
  rw [vals_append, vals_cons] at hvals
  obtain ⟨-, hcons⟩ := List.append_inj hvals (by rw [vals, List.length_map, hlen])
  exact (List.cons.inj hcons).1

theorem splitFront_nodes {extra : ℕ} (h : Nodes a.list (pre ++ c :: post) a.next (cs ++ x :: ds))
    (hlen : cs.length = pre.length) (hlt : extra < 2 ^ 28) :
    ∃ pre', Nodes (splitFront a c extra).list (pre' ++ c :: post) (splitFront a c extra).next
        ((cs ++ if extra ≠ 0 then [⟨x.start, extra, true⟩] else []) ++
          { x with start := x.start + extra } :: ds) ∧
      (cs ++ if extra ≠ 0 then [⟨x.start, extra, true⟩] else [] : List Chunk).length =
        pre'.length ∧ (splitFront a c extra).heapSize = a.heapSize := by
  have hx : a.chunk c = x := h.chunk hlen
  unfold splitFront
  split
  · dsimp only
    rw [hx, bits28_of_lt hlt]
    exact ⟨pre ++ [a.next], (h.setVal hlen _).insertBefore hlen _, by simp [hlen], rfl⟩
  · rename_i hzero
    obtain rfl : extra = 0 := not_not.mp hzero
    rw [List.append_nil]
    exact ⟨pre, h, hlen, rfl⟩

theorem splitTail_nodes {t : ℤ} (h : Nodes a.list (pre ++ c :: post) a.next (cs ++ x :: ds))
    (hlen : cs.length = pre.length) (hlt : t.toNat < 2 ^ 28) :
    ∃ post', Nodes (splitTail a c t).list (pre ++ c :: post') (splitTail a c t).next
        (cs ++ x :: ((if 0 < t then [⟨x.start + x.size, t.toNat, true⟩] else []) ++ ds)) ∧
      (splitTail a c t).heapSize = a.heapSize := by
  have hx : a.chunk c = x := h.chunk hlen
  unfold splitTail
  split
  · dsimp only
    rw [hx, bits28_of_lt hlt]
    exact ⟨a.next :: post, h.insertAfter hlen _, rfl⟩
  · exact ⟨post, h, rfl⟩

theorem takeChunk_nodes (h : Nodes a.list (pre ++ c :: post) a.next (cs ++ x :: ds))
    (hlen : cs.length = pre.length) (hfit : size + extra pagesize flags x.start ≤ x.size)
    (hlt : x.size < 2 ^ 28) :
    ∃ ids, Nodes (takeChunk a pagesize flags size c).list ids
        (takeChunk a pagesize flags size c).next
        (cs ++ (carve x size (extra pagesize flags x.start) ++ ds)) ∧
      (takeChunk a pagesize flags size c).heapSize = a.heapSize ∧
      (takeChunk a pagesize flags size c).chunk c =
        ⟨x.start + extra pagesize flags x.start, size, false⟩ := by
  have hx : a.chunk c = x := h.chunk hlen
  have htaken := h.setVal hlen { x with free := false, size := size }
  unfold takeChunk
  dsimp only
  rw [hx, bits28_of_lt (by omega)]
  have hstart : (Allocator.chunk { a with list := a.list.setVal c { x with
      free := false, size := size } } c).start = x.start := by
    unfold Allocator.chunk
    rw [setVal_self]
  rw [hstart]
  generalize extra pagesize flags x.start = e at hfit ⊢
  split
  · rename_i hmore
    obtain ⟨pre', hfront, hlen', hheap⟩ := splitFront_nodes (a := { a with
      list := a.list.setVal c { x with free := false, size := size } }) htaken hlen
      (show e < 2 ^ 28 by omega)
    obtain ⟨post', htail, hheap'⟩ :=
      splitTail_nodes (t := (x.size : ℤ) - (size + e : ℕ)) hfront hlen'
      (by omega)
    refine ⟨pre' ++ c :: post', ?_, hheap'.trans hheap, htail.chunk hlen'⟩
    have htoNat : ((x.size : ℤ) - (size + e : ℕ)).toNat = x.size - (size + e) := by omega
    have hpos : 0 < (x.size : ℤ) - (size + e : ℕ) ↔ size + e < x.size := by omega
    simp only [htoNat, hpos] at htail
    have hlist : (cs ++ if e ≠ 0 then [⟨x.start, e, true⟩] else []) ++
        ⟨x.start + e, size, false⟩ :: ((if size + e < x.size then
          [⟨x.start + e + size, x.size - (size + e), true⟩] else []) ++ ds) =
        cs ++ (carve x size e ++ ds) := by
      unfold carve
      simp only [List.append_assoc, List.cons_append]
    rw [← hlist]
    exact htail
  · rename_i hmore
    obtain rfl : e = 0 := by omega
    refine ⟨pre ++ c :: post, ?_, rfl, ?_⟩
    · have hcarve : carve x size 0 = [⟨x.start, size, false⟩] := by
        unfold carve
        rw [if_neg (by simp), if_neg (by omega)]
        rfl
      rw [hcarve]
      exact htaken
    · exact htaken.chunk hlen

end Take

def unitsOf (size : ℕ) : ℕ := (size + (memoryAlign - 1)) / memoryAlign

def PageSize (pagesize : ℕ) : Prop := ∃ k, 5 ≤ k ∧ k < 31 ∧ pagesize = 2 ^ k

theorem page_aligned (hpage : PageSize pagesize) (hflags : flags &&& pageAligned ≠ 0)
    {start : ℕ} (hstart : start < 2 ^ 28) :
    pagesize ∣ (start + extra pagesize flags start) * memoryAlign := by
  obtain ⟨k, hk, hk', rfl⟩ := hpage
  obtain ⟨j, rfl⟩ : ∃ j, k = j + 5 := ⟨k - 5, by omega⟩
  have hunits : 2 ^ (j + 5) / memoryAlign = 2 ^ j := by
    rw [Nat.pow_add]
    exact Nat.mul_div_cancel _ (by decide)
  have hdvd : 2 ^ j ∣ 2 ^ 64 := Nat.pow_dvd_pow 2 (by omega)
  unfold extra
  rw [if_pos hflags, hunits, Nat.and_two_pow_sub_one_eq_mod, Nat.pow_add]
  refine Nat.mul_dvd_mul ?_ (Nat.dvd_refl _)
  have hsum : 2 ^ j ∣ start + (sizeT - start % sizeT) % sizeT := by
    unfold sizeT
    rcases Nat.eq_zero_or_pos start with rfl | hpos
    · simp
    · have heq : start + (2 ^ 64 - start % 2 ^ 64) % 2 ^ 64 = 2 ^ 64 := by omega
      rwa [heq]
  have hmod := Nat.mod_eq_zero_of_dvd hsum
  rw [Nat.add_mod] at hmod
  refine Nat.dvd_of_mod_eq_zero ?_
  rw [Nat.add_mod, Nat.mod_mod]
  exact hmod

theorem Laid.all_pos {next : ℕ} (h : Laid l ids next units) {x : Chunk} (hx : x ∈ vals l ids)
    (hpos : 0 < x.size) : ∀ y ∈ vals l ids, 0 < y.size := by
  rcases h.pos with hall | hempty
  · exact hall
  · rw [hempty] at hx
    obtain rfl := List.mem_singleton.mp hx
    cases hpos

theorem InOrder.take (h : InOrder units a ids) (hc : c ∈ ids) (hsize : 0 < size)
    (hfits : Fits pagesize flags size (a.chunk c)) :
    ∃ ids', InOrder units (takeChunk a pagesize flags size c) ids' ∧
      (taken (vals (takeChunk a pagesize flags size c).list ids')).Perm
        (⟨(a.chunk c).start + extra pagesize flags (a.chunk c).start, size, false⟩ ::
          taken (vals a.list ids)) ∧
      (takeChunk a pagesize flags size c).heapSize = a.heapSize ∧
      (takeChunk a pagesize flags size c).chunk c =
        ⟨(a.chunk c).start + extra pagesize flags (a.chunk c).start, size, false⟩ ∧
      (takeChunk a pagesize flags size c).chunk c ∈
        vals (takeChunk a pagesize flags size c).list ids' := by
  have hmem : a.chunk c ∈ vals a.list ids := List.mem_map_of_mem hc
  obtain ⟨hfree, hfit⟩ := hfits
  have hpos := h.laid.all_pos hmem (by omega)
  have hlt := h.laid.size_lt hmem
  obtain ⟨pre, post, rfl⟩ := List.append_of_mem hc
  have hvals : vals a.list (pre ++ c :: post) =
      vals a.list pre ++ a.chunk c :: vals a.list post := by
    rw [vals_append, vals_cons, Allocator.chunk]
  have htiles := h.laid.tiles
  have hapart := h.apart
  have hnodes : Nodes a.list (pre ++ c :: post) a.next
      (vals a.list pre ++ a.chunk c :: vals a.list post) := ⟨h.laid.linked, h.laid.fresh, hvals⟩
  rw [hvals] at htiles hapart hpos
  obtain ⟨ids', hnodes', hheap, hchunk⟩ :=
    takeChunk_nodes hnodes (List.length_map _) hfit (by omega)
  have hvals' := hnodes'.values
  obtain ⟨hlast, hhead⟩ := hapart.taken hfree
  obtain ⟨hpre, -, -, hpost⟩ := apart_middle.mp hapart
  refine ⟨ids', ⟨⟨hnodes'.linked, hnodes'.fresh, ?_, .inl ?_, h.laid.few⟩, ?_⟩, ?_, hheap,
    hchunk, ?_⟩
  · rw [hvals']
    exact htiles.replace (tiles_carve hfit)
  · rw [hvals']
    intro y hy
    rcases List.mem_append.mp hy with hy | hy
    · exact hpos y (List.mem_append_left _ hy)
    · rcases List.mem_append.mp hy with hy | hy
      · exact pos_of_mem_carve hsize hy
      · exact hpos y (List.mem_append_right _ (List.mem_cons_of_mem _ hy))
  · rw [hvals']
    exact apart_carve hpre hpost hlast hhead
  · rw [hvals', hvals, taken_append, taken_append, taken_append, taken_carve, taken_free hfree]
    exact List.perm_middle
  · rw [hvals', hchunk]
    refine List.mem_append_right _ (List.mem_append_left _ ?_)
    unfold carve
    exact List.mem_append_right _ List.mem_cons_self

theorem unitsOf_pos (hsize : size ≠ 0) : 0 < unitsOf size := by
  unfold unitsOf memoryAlign
  omega

theorem rounded (hle : size ≤ sizeT - memoryAlign) :
    (size + (memoryAlign - 1)) % sizeT / memoryAlign = unitsOf size := by
  unfold unitsOf
  rw [Nat.mod_eq_of_lt]
  unfold sizeT memoryAlign at hle ⊢
  omega

theorem alloc_of_scan {request : ℕ} {best : Option ℕ} (hlinked : Linked a.list ids)
    (hrequest : request ≠ 0)
    (hsize : (request + (memoryAlign - 1)) % sizeT / memoryAlign = size)
    (hscan : scan a pagesize flags size a.next ids.head? none = .ok best) :
    alloc a pagesize flags request = .ok (best.elim (a, none) fun c =>
      (takeChunk a pagesize flags size c,
        some (((takeChunk a pagesize flags size c).chunk c).start * memoryAlign))) := by
  have hfirst : a.list.first = ids.head? := by rw [hlinked.front.first, Option.or_none]
  unfold alloc
  rw [if_neg hrequest]
  dsimp only
  rw [hsize, hfirst, hscan]
  cases best <;> rfl

/-- What a request for blocks does: nothing if no chunk fits, otherwise it takes a smallest one. -/
theorem alloc_spec (pagesize : ℕ) (flags : UInt32) (h : InOrder units a ids) (hsize : size ≠ 0)
    (hle : size ≤ sizeT - memoryAlign) :
    (alloc a pagesize flags size = .ok (a, none) ∧
      ∀ x ∈ vals a.list ids, ¬ Fits pagesize flags (unitsOf size) x) ∨
    ∃ a' ids' x, alloc a pagesize flags size =
        .ok (a', some ((x.start + extra pagesize flags x.start) * memoryAlign)) ∧
      (InOrder units a' ids' ∧ (taken (vals a'.list ids')).Perm
        (⟨x.start + extra pagesize flags x.start, unitsOf size, false⟩ ::
          taken (vals a.list ids))) ∧
      a'.heapSize = a.heapSize ∧
      (x ∈ vals a.list ids ∧ Fits pagesize flags (unitsOf size) x ∧
        ∀ y ∈ vals a.list ids, Fits pagesize flags (unitsOf size) y → x.size ≤ y.size) ∧
      ⟨x.start + extra pagesize flags x.start, unitsOf size, false⟩ ∈ vals a'.list ids' := by
  have hbest : IsBest a pagesize flags (unitsOf size) [] none := fun n hn => by cases hn
  obtain ⟨r, hscan, hbest⟩ := scan_spec (ids.nil_append ▸ h.laid.linked) hbest
    (length_le_of_fresh h.laid.linked.nodup h.laid.fresh)
  rw [List.nil_append] at hbest
  have halloc := alloc_of_scan h.laid.linked hsize (rounded hle) hscan
  cases r with
  | none =>
      refine .inl ⟨halloc, fun x hx => ?_⟩
      obtain ⟨n, hn, rfl⟩ := List.mem_map.mp hx
      exact hbest n hn
  | some c =>
      obtain ⟨hc, hfits, hmin⟩ := hbest
      obtain ⟨ids', horder, htaken, hheap, hchunk, hmem⟩ := h.take hc (unitsOf_pos hsize) hfits
      refine .inr ⟨_, ids', a.chunk c, ?_, ⟨horder, htaken⟩, hheap,
        ⟨List.mem_map_of_mem hc, hfits, ?_⟩, ?_⟩
      · rw [halloc, Option.elim_some, hchunk]
      · intro y hy hfity
        obtain ⟨n, hn, rfl⟩ := List.mem_map.mp hy
        exact hmin n hn hfity
      · rw [hchunk] at hmem
        exact hmem

/-! ### Giving a chunk back -/

section Give

variable {next : ℕ} {x y : Chunk} {cs ds : List Chunk} {freed : ℕ}

theorem find_spec {fuel start : ℕ} {done : List ℕ}
    (hlinked : Linked a.list (done ++ (pre ++ c :: post))) (hc : (a.chunk c).start = start)
    (hpre : ∀ n ∈ pre, (a.chunk n).start ≠ start) (hfuel : pre.length < fuel) :
    find a start fuel (pre ++ c :: post).head? = .ok (some c) := by
  obtain ⟨fuel, rfl⟩ : ∃ k, fuel = k + 1 := ⟨fuel - 1, by omega⟩
  induction pre generalizing fuel done with
  | nil => rw [List.nil_append, List.head?_cons, find, if_pos hc]
  | cons n pre ih =>
      have hlength : pre.length < fuel := by
        rw [List.length_cons] at hfuel
        omega
      obtain ⟨fuel, rfl⟩ : ∃ k, fuel = k + 1 := ⟨fuel - 1, by omega⟩
      have hnext : (a.list.node n).next = (pre ++ c :: post).head? :=
        (linked_cons.mp hlinked).2.2.2.1
      have happend : done ++ (n :: pre ++ c :: post) = (done ++ [n]) ++ (pre ++ c :: post) := by
        simp
      rw [happend] at hlinked
      rw [List.cons_append, List.head?_cons, find, if_neg (hpre n List.mem_cons_self), hnext]
      exact ih hlinked (fun m hm => hpre m (List.mem_cons_of_mem n hm)) fuel hlength

theorem mergeStep_taken (h : Nodes l (pre ++ n :: post) next (cs ++ x :: ds))
    (hlen : cs.length = pre.length) (hlast : TakenLast cs) (hpos : 0 < x.size) :
    mergeStep l n freed = (l, freed) := by
  have hprev : (l.node n).prev = pre.getLast? := (linked_cons.mp h.linked).2.2.1
  have hx : (l.node n).val = x := h.chunk hlen
  unfold mergeStep
  rw [hprev]
  rcases List.eq_nil_or_concat' pre with rfl | ⟨pre, p, rfl⟩
  · rfl
  · obtain ⟨cs, y, rfl⟩ : ∃ cs' y, cs = cs' ++ [y] := by
      rcases List.eq_nil_or_concat' cs with rfl | hcs
      · simp at hlen
      · exact hcs
    have hp : (l.node p).val = y := by
      rw [List.append_assoc, List.append_assoc] at h
      refine Nodes.chunk h ?_
      simpa using hlen
    have hy : y.free = false := hlast y (by simp)
    rw [List.getLast?_concat]
    dsimp only
    rw [if_neg]
    rw [hp, hx, hy]
    rintro (hfree | hzero)
    · cases hfree
    · omega

theorem mergeStep_free {p : ℕ} (freed : ℕ)
    (h : Nodes l (pre ++ p :: n :: post) next (cs ++ x :: y :: ds))
    (hlen : cs.length = pre.length) (hfree : x.free = true) (hlt : x.size + y.size < 2 ^ 28) :
    ∃ l', mergeStep l n freed = (l', p) ∧
      Nodes l' (pre ++ p :: post) next (cs ++ absorb x y :: ds) := by
  have hsplit : pre ++ p :: n :: post = (pre ++ [p]) ++ n :: post := by simp
  have hsplit' (z : Chunk) : cs ++ z :: y :: ds = (cs ++ [z]) ++ y :: ds := by simp
  have hprev : (l.node n).prev = some p := by
    have hlinked := h.linked
    rw [hsplit] at hlinked
    rw [(linked_cons.mp hlinked).2.2.1, List.getLast?_concat]
  have hx : (l.node p).val = x := h.chunk hlen
  have hy : (l.node n).val = y := by
    have hnodes := h
    rw [hsplit, hsplit'] at hnodes
    exact hnodes.chunk (by simp [hlen])
  unfold mergeStep
  rw [hprev]
  dsimp only
  rw [hx, hy, if_pos (.inl hfree), bits28_of_lt hlt]
  refine ⟨_, rfl, ?_⟩
  have hset := h.setVal hlen (absorb x y)
  rw [hsplit, hsplit'] at hset
  have hremoved := hset.remove (by simp [hlen])
  simp only [List.append_assoc, List.cons_append, List.nil_append] at hremoved
  exact hremoved

theorem mergeStep_spec {units : ℕ} (h : Nodes l (pre ++ c :: post) next (cs ++ x :: ds))
    (hlen : cs.length = pre.length) (hx : Around cs x ds units) (hfew : units < 2 ^ 28) :
    ∃ l' pre' f cs' z, mergeStep l c c = (l', f) ∧
      Nodes l' (pre' ++ f :: post) next (cs' ++ z :: ds) ∧ cs'.length = pre'.length ∧
      Around cs' z ds units ∧ TakenLast cs' ∧ taken cs' = taken cs := by
  by_cases htaken : TakenLast cs
  · exact ⟨l, pre, c, cs, x, mergeStep_taken h hlen htaken (hx.pos x (by simp)), h, hlen, hx,
      htaken, rfl⟩
  · obtain ⟨cs, y, rfl⟩ : ∃ cs' y, cs = cs' ++ [y] := by
      rcases List.eq_nil_or_concat' cs with rfl | hcs
      · exact absurd (by simp [TakenLast]) htaken
      · exact hcs
    obtain ⟨pre, p, rfl⟩ : ∃ pre' p, pre = pre' ++ [p] := by
      rcases List.eq_nil_or_concat' pre with rfl | hpre
      · simp at hlen
      · exact hpre
    have hy : y.free = true := by
      by_contra hne
      refine htaken fun z hz => ?_
      rw [List.getLast?_concat, Option.mem_some_iff] at hz
      rw [← hz]
      simpa using hne
    obtain ⟨habsorb, hlast⟩ := hx.absorbLeft hy
    have hlt : y.size + x.size < 2 ^ 28 := by
      have := habsorb.tiles.split.2.le
      simp only [absorb] at this
      omega
    have hlen' : cs.length = pre.length := by simpa using hlen
    simp only [List.append_assoc, List.cons_append, List.nil_append] at h
    obtain ⟨l', hstep, hnodes⟩ := mergeStep_free c h hlen' hy hlt
    refine ⟨l', pre, p, cs, absorb y x, hstep, hnodes, hlen', habsorb, hlast, ?_⟩
    rw [taken_append, taken_free hy]
    simp [taken]

theorem Nodes.length (h : Nodes l (pre ++ n :: post) next (cs ++ x :: ds))
    (hlen : cs.length = pre.length) : ds.length = post.length := by
  have hvals := congrArg List.length h.values
  simp only [vals, List.length_map, List.length_append, List.length_cons] at hvals
  omega

theorem mergeLoop_ends {fuel : ℕ} {cur : ℕ} {r : LinkedList Chunk × ℕ} {f : ℕ} {z : Chunk}
    (hnext : (l.node cur).next = post.head?) (hstep : mergeStep l cur freed = r)
    (h : Nodes r.1 (pre ++ f :: post) next (cs ++ z :: ds)) (hlen : cs.length = pre.length)
    (hhead : TakenHead ds) : mergeLoop (fuel + 1) l cur freed = .ok r := by
  rw [mergeLoop, hnext, hstep]
  cases post with
  | nil => rfl
  | cons m post =>
      obtain ⟨y, ds, rfl⟩ : ∃ y ds', ds = y :: ds' := by
        have := h.length hlen
        cases ds with
        | nil => cases this
        | cons y ds => exact ⟨y, ds, rfl⟩
      have hsplit : pre ++ f :: m :: post = (pre ++ [f]) ++ m :: post := by simp
      have hsplit' : cs ++ z :: y :: ds = (cs ++ [z]) ++ y :: ds := by simp
      rw [hsplit, hsplit'] at h
      have hm : (r.1.node m).val = y := h.chunk (by simp [hlen])
      have hy : y.free = false := hhead y rfl
      dsimp only [List.head?_cons]
      rw [hm, hy, if_neg Bool.false_ne_true]

theorem mergeLoop_spec {units : ℕ} (h : Nodes l (pre ++ c :: post) next (cs ++ x :: ds))
    (hlen : cs.length = pre.length) (hx : Around cs x ds units) (hfew : units < 2 ^ 28) :
    ∃ l' ids' f cs' z ds', mergeLoop (next + 1) l c c = .ok (l', f) ∧
      Nodes l' ids' next (cs' ++ z :: ds') ∧ (l'.node f).val = z ∧ Around cs' z ds' units ∧
      TakenLast cs' ∧ TakenHead ds' ∧ taken cs' = taken cs ∧ taken ds' = taken ds := by
  have hnext : (l.node c).next = post.head? := (linked_cons.mp h.linked).2.2.2.1
  have hfresh : c < next := h.fresh c (by simp)
  obtain ⟨l', pre', f, cs', z, hstep, hnodes, hlen', hz, hlast, hoffsets⟩ :=
    mergeStep_spec h hlen hx hfew
  by_cases hhead : TakenHead ds
  · exact ⟨l', pre' ++ f :: post, f, cs', z, ds, mergeLoop_ends hnext hstep hnodes hlen' hhead,
      hnodes, hnodes.chunk hlen', hz, hlast, hhead, hoffsets, rfl⟩
  · obtain ⟨y, ds, rfl⟩ : ∃ y ds', ds = y :: ds' := by
      cases ds with
      | nil => exact absurd (by simp [TakenHead]) hhead
      | cons y ds => exact ⟨y, ds, rfl⟩
    obtain ⟨n, post, rfl⟩ : ∃ n post', post = n :: post' := by
      have := hnodes.length hlen'
      cases post with
      | nil => cases this
      | cons n post => exact ⟨n, post, rfl⟩
    have hy : y.free = true := by
      by_contra hne
      refine hhead fun w hw => ?_
      rw [List.head?_cons, Option.mem_some_iff] at hw
      rw [← hw]
      simpa using hne
    obtain ⟨habsorb, hhead'⟩ := hz.absorbRight hy
    have hlt : z.size + y.size < 2 ^ 28 := by
      have := habsorb.tiles.split.2.le
      simp only [absorb] at this
      omega
    obtain ⟨l'', hstep', hnodes'⟩ := mergeStep_free f hnodes hlen' hz.free hlt
    have hsplit : pre' ++ f :: n :: post = (pre' ++ [f]) ++ n :: post := by simp
    have hsplit' : cs' ++ z :: y :: ds = (cs' ++ [z]) ++ y :: ds := by simp
    rw [hsplit, hsplit'] at hnodes
    have hn : (l'.node n).val = y := hnodes.chunk (by simp [hlen'])
    have hnext' : (l'.node n).next = post.head? := (linked_cons.mp hnodes.linked).2.2.2.1
    refine ⟨l'', pre' ++ f :: post, f, cs', absorb z y, ds, ?_, hnodes', hnodes'.chunk hlen',
      habsorb, hlast, hhead', hoffsets, (taken_free hy).symm⟩
    obtain ⟨fuel, rfl⟩ : ∃ k, next = k + 1 := ⟨next - 1, by omega⟩
    rw [mergeLoop, hnext, hstep]
    dsimp only [List.head?_cons]
    rw [hn, hy, if_pos rfl]
    exact mergeLoop_ends hnext' hstep' hnodes' hlen' hhead'

theorem dealloc_spec (h : InOrder units a ids) (hx : x ∈ taken (vals a.list ids)) :
    ∃ a' ids' f, dealloc a (x.start * memoryAlign) = .ok (a', some f) ∧
      (InOrder units a' ids' ∧
        (taken (vals a.list ids)).Perm (x :: taken (vals a'.list ids'))) ∧
      a'.heapSize = a.heapSize := by
  obtain ⟨hx, htaken⟩ := mem_taken.mp hx
  obtain ⟨c, hc, rfl⟩ := List.mem_map.mp hx
  replace htaken : (a.chunk c).free = false := htaken
  have hpos : ∀ y ∈ vals a.list ids, 0 < y.size := by
    rcases h.laid.pos with hall | hempty
    · exact hall
    · rw [hempty] at hx
      rw [Allocator.chunk, List.mem_singleton.mp hx] at htaken
      cases htaken
  obtain ⟨pre, post, rfl⟩ := List.append_of_mem hc
  have hvals : vals a.list (pre ++ c :: post) =
      vals a.list pre ++ a.chunk c :: vals a.list post := by
    rw [vals_append, vals_cons, Allocator.chunk]
  have htiles := h.laid.tiles
  have hapart := h.apart
  have hnodes : Nodes a.list (pre ++ c :: post) a.next
      (vals a.list pre ++ a.chunk c :: vals a.list post) := ⟨h.laid.linked, h.laid.fresh, hvals⟩
  have hlen : (vals a.list pre).length = pre.length := List.length_map _
  rw [hvals] at htiles hapart hpos
  have hfind : find a ((a.chunk c).start * memoryAlign / memoryAlign) a.next a.list.first =
      .ok (some c) := by
    have hfirst : a.list.first = (pre ++ c :: post).head? := by
      rw [h.laid.linked.front.first, Option.or_none]
    have hle := length_le_of_fresh h.laid.linked.nodup h.laid.fresh
    have hlinked : Linked a.list ([] ++ (pre ++ c :: post)) := h.laid.linked
    rw [hfirst, Nat.mul_div_cancel _ (by decide)]
    refine find_spec hlinked rfl (fun n hn => ?_) ?_
    · have hn' : a.chunk n ∈ vals a.list pre := List.mem_map_of_mem hn
      have hbefore := (htiles.split.1.bounds hn').2
      have := hpos _ (List.mem_append_left _ hn')
      omega
    · rw [List.length_append, List.length_cons] at hle
      omega
  obtain ⟨hpre, -, -, hpost⟩ := apart_middle.mp hapart
  have haround : Around (vals a.list pre) { a.chunk c with free := true } (vals a.list post)
      units := by
    obtain ⟨mid, hfront, hback⟩ := tiles_append.mp htiles
    refine ⟨tiles_append.mpr ⟨mid, hfront, hback⟩, fun y hy => ?_, rfl, hpre, hpost⟩
    simp only [List.mem_append, List.mem_cons] at hy hpos
    rcases hy with hy | heq | hy
    · exact hpos y (.inl hy)
    · rw [heq]
      exact hpos (a.chunk c) (.inr (.inl rfl))
    · exact hpos y (.inr (.inr hy))
  obtain ⟨l', ids', f, cs', z, ds', hloop, hnodes', hf, hz, hlast, hhead, hcs, hds⟩ :=
    mergeLoop_spec (hnodes.setVal hlen { a.chunk c with free := true }) hlen haround h.laid.few
  refine ⟨{ a with list := l' }, ids', f, ?_, ⟨⟨⟨hnodes'.linked, hnodes'.fresh, ?_, .inl ?_,
    h.laid.few⟩, ?_⟩, ?_⟩, rfl⟩
  · change dealloc a ((a.chunk c).start * memoryAlign) = _
    unfold dealloc
    rw [hfind]
    dsimp only
    rw [if_neg (by rw [htaken]; exact Bool.false_ne_true), hloop]
    dsimp only
    rw [hf, if_pos hz.free]
  · dsimp only
    rw [hnodes'.values]
    exact hz.tiles
  · dsimp only
    rw [hnodes'.values]
    exact hz.pos
  · dsimp only
    rw [hnodes'.values]
    exact apart_of_taken hz.left hz.right hlast hhead
  · dsimp only
    rw [hnodes'.values, hz.taken, hcs, hds, hvals, taken_append, taken_taken htaken]
    exact List.perm_middle

end Give

end MemoryDealer

end BinderForLinux
