import BinderForLinux.MemoryDealer.Allocator
import Mathlib.Data.List.Chain
import Mathlib.Data.List.Perm.Basic
import Mathlib.Data.Nat.Basic

/-!
# The chunks of the heap

What the list of chunks looks like: the chunks tile the heap, no two free ones are neighbours.
Taking a chunk replaces it by what is carved out of it, giving one back merges it with its free
neighbours; both are first read as operations on lists of chunks.
-/

namespace BinderForLinux

namespace MemoryDealer

open Library LinkedList

variable {lo mid hi : ℕ} {cs ds : List Chunk} {c d x y : Chunk}

/-- The chunks cover `[lo, hi)` in order, without gaps and overlaps. -/
def Tiles : ℕ → List Chunk → ℕ → Prop
  | lo, [], hi => lo = hi
  | lo, c :: cs, hi => c.start = lo ∧ Tiles (lo + c.size) cs hi

theorem tiles_append : Tiles lo (cs ++ ds) hi ↔ ∃ mid, Tiles lo cs mid ∧ Tiles mid ds hi := by
  induction cs generalizing lo with
  | nil => simp [Tiles]
  | cons c cs ih => simp only [List.cons_append, Tiles, ih, and_assoc, exists_and_left]

theorem Tiles.le (h : Tiles lo cs hi) : lo ≤ hi := by
  induction cs generalizing lo with
  | nil => exact Nat.le_of_eq h
  | cons c cs ih =>
      have := ih h.2
      omega

theorem Tiles.split (h : Tiles lo (cs ++ c :: ds) hi) :
    Tiles lo cs c.start ∧ Tiles (c.start + c.size) ds hi := by
  obtain ⟨mid, hcs, rfl, hds⟩ := tiles_append.mp h
  exact ⟨hcs, hds⟩

theorem Tiles.replace {es : List Chunk} (h : Tiles lo (cs ++ c :: ds) hi)
    (hes : Tiles c.start es (c.start + c.size)) : Tiles lo (cs ++ (es ++ ds)) hi :=
  tiles_append.mpr ⟨_, h.split.1, tiles_append.mpr ⟨_, hes, h.split.2⟩⟩

theorem Tiles.bounds (h : Tiles lo cs hi) (hc : c ∈ cs) : lo ≤ c.start ∧ c.start + c.size ≤ hi := by
  obtain ⟨l, r, rfl⟩ := List.append_of_mem hc
  exact ⟨h.split.1.le, h.split.2.le⟩

/-- Of two chunks one ends before the other starts. -/
def Clear (c d : Chunk) : Prop := c.start + c.size ≤ d.start ∨ d.start + d.size ≤ c.start

theorem Tiles.clear (h : Tiles lo cs hi) : cs.Pairwise Clear := by
  induction cs generalizing lo with
  | nil => exact List.Pairwise.nil
  | cons c cs ih =>
      obtain ⟨rfl, hcs⟩ := h
      exact List.pairwise_cons.mpr ⟨fun d hd => .inl (hcs.bounds hd).1, ih hcs⟩

def NotBothFree (c d : Chunk) : Prop := ¬ (c.free = true ∧ d.free = true)

def Apart (cs : List Chunk) : Prop := cs.IsChain NotBothFree

def TakenLast (cs : List Chunk) : Prop := ∀ c ∈ cs.getLast?, c.free = false

def TakenHead (cs : List Chunk) : Prop := ∀ c ∈ cs.head?, c.free = false

theorem apart_append : Apart (cs ++ ds) ↔
    Apart cs ∧ Apart ds ∧ ∀ c ∈ cs.getLast?, ∀ d ∈ ds.head?, NotBothFree c d :=
  List.isChain_append

theorem apart_cons : Apart (c :: cs) ↔ (∀ d ∈ cs.head?, NotBothFree c d) ∧ Apart cs :=
  List.isChain_cons

theorem apart_middle : Apart (cs ++ c :: ds) ↔
    Apart cs ∧ (∀ d ∈ cs.getLast?, NotBothFree d c) ∧ (∀ d ∈ ds.head?, NotBothFree c d) ∧
      Apart ds := by
  rw [apart_append, apart_cons]
  simp only [List.head?_cons, Option.mem_some_iff, forall_eq']
  tauto

theorem Apart.taken (h : Apart (cs ++ c :: ds)) (hc : c.free = true) :
    TakenLast cs ∧ TakenHead ds := by
  obtain ⟨-, hlast, hhead, -⟩ := apart_middle.mp h
  constructor
  · intro d hd
    have := hlast d hd
    unfold NotBothFree at this
    simpa [hc] using this
  · intro d hd
    have := hhead d hd
    unfold NotBothFree at this
    simpa [hc] using this

theorem apart_of_taken (hcs : Apart cs) (hds : Apart ds) (hlast : TakenLast cs)
    (hhead : TakenHead ds) : Apart (cs ++ c :: ds) := by
  refine apart_middle.mpr ⟨hcs, fun d hd hboth => ?_, fun d hd hboth => ?_, hds⟩
  · rw [hlast d hd] at hboth
    cases hboth.1
  · rw [hhead d hd] at hboth
    cases hboth.2

theorem apart_of_not_free (hcs : Apart cs) (hds : Apart ds) (hc : c.free = false) :
    Apart (cs ++ c :: ds) := by
  refine apart_middle.mpr ⟨hcs, fun d _ hboth => ?_, fun d _ hboth => ?_, hds⟩
  · rw [hc] at hboth
    cases hboth.2
  · rw [hc] at hboth
    cases hboth.1

def takenOffsets (cs : List Chunk) : List ℕ :=
  (cs.filter fun c => !c.free).map fun c => c.start * memoryAlign

def taken (cs : List Chunk) : List Chunk := cs.filter fun c => !c.free

theorem takenOffsets_eq (cs : List Chunk) :
    takenOffsets cs = (taken cs).map fun c => c.start * memoryAlign := rfl

theorem mem_taken : c ∈ taken cs ↔ c ∈ cs ∧ c.free = false := by simp [taken]

theorem taken_append : taken (cs ++ ds) = taken cs ++ taken ds := List.filter_append ..

theorem taken_free (hc : c.free = true) : taken (c :: cs) = taken cs := by simp [taken, hc]

theorem taken_taken (hc : c.free = false) : taken (c :: cs) = c :: taken cs := by
  simp [taken, hc]

/-! ### Carving a chunk -/

/-- What a chunk becomes when `size` units of it are taken, `extra` units from its start. -/
def carve (c : Chunk) (size extra : ℕ) : List Chunk :=
  (if extra ≠ 0 then [⟨c.start, extra, true⟩] else []) ++
    ⟨c.start + extra, size, false⟩ ::
      if size + extra < c.size then
        [⟨c.start + extra + size, c.size - (size + extra), true⟩] else []

section Carve

variable {size extra : ℕ}

theorem tiles_carve (hfit : size + extra ≤ c.size) :
    Tiles c.start (carve c size extra) (c.start + c.size) := by
  unfold carve
  refine tiles_append.mpr ⟨c.start + extra, ?_, rfl, ?_⟩
  · split
    · exact ⟨rfl, rfl⟩
    · have : c.start = c.start + extra := by omega
      exact this
  · split
    · refine ⟨rfl, ?_⟩
      change _ = _
      dsimp only
      omega
    · change _ = _
      dsimp only
      omega

theorem pos_of_mem_carve (hsize : 0 < size) (hx : x ∈ carve c size extra) : 0 < x.size := by
  unfold carve at hx
  rcases List.mem_append.mp hx with hx | hx
  · split at hx
    · obtain rfl := List.mem_singleton.mp hx
      dsimp only
      omega
    · cases hx
  · rcases List.mem_cons.mp hx with rfl | hx
    · exact hsize
    · split at hx
      · obtain rfl := List.mem_singleton.mp hx
        dsimp only
        omega
      · cases hx

theorem taken_carve : taken (carve c size extra) = [⟨c.start + extra, size, false⟩] := by
  unfold carve
  rw [taken_append, taken_taken rfl]
  split
  · rw [taken_free rfl]
    split
    · rw [taken_free rfl]
      rfl
    · rfl
  · split
    · rw [taken_free rfl]
      rfl
    · rfl

theorem apart_carve (hcs : Apart cs) (hds : Apart ds) (hlast : TakenLast cs)
    (hhead : TakenHead ds) : Apart (cs ++ (carve c size extra ++ ds)) := by
  have hfront : Apart (cs ++ if extra ≠ 0 then [⟨c.start, extra, true⟩] else []) := by
    split
    · exact apart_of_taken hcs List.IsChain.nil hlast (by simp [TakenHead])
    · rwa [List.append_nil]
  have htail : Apart ((if size + extra < c.size then
      [⟨c.start + extra + size, c.size - (size + extra), true⟩] else []) ++ ds) := by
    split
    · exact apart_of_taken List.IsChain.nil hds (by simp [TakenLast]) hhead
    · exact hds
  have hall := apart_of_not_free (c := ⟨c.start + extra, size, false⟩) hfront htail rfl
  simpa only [carve, List.append_assoc, List.cons_append] using hall

end Carve

/-! ### Merging chunks -/

def absorb (x y : Chunk) : Chunk := { x with size := x.size + y.size }

/-- A free chunk in the heap, while its neighbours may be free too. -/
structure Around (cs : List Chunk) (x : Chunk) (ds : List Chunk) (units : ℕ) : Prop where
  tiles : Tiles 0 (cs ++ x :: ds) units
  pos : ∀ y ∈ cs ++ x :: ds, 0 < y.size
  free : x.free = true
  left : Apart cs
  right : Apart ds

section Merge

variable {units : ℕ}

theorem tiles_absorb (h : Tiles lo (x :: y :: ds) hi) : Tiles lo (absorb x y :: ds) hi := by
  obtain ⟨hx, hy, hds⟩ := h
  refine ⟨hx, ?_⟩
  rwa [absorb, ← Nat.add_assoc]

theorem Around.absorbLeft (h : Around (cs ++ [c]) x ds units) (hc : c.free = true) :
    Around cs (absorb c x) ds units ∧ TakenLast cs := by
  have hsplit : (cs ++ [c]) ++ x :: ds = cs ++ c :: x :: ds := by simp
  have htiles := h.tiles
  have hpos := h.pos
  rw [hsplit] at htiles hpos
  obtain ⟨mid, hcs, hrest⟩ := tiles_append.mp htiles
  refine ⟨⟨tiles_append.mpr ⟨mid, hcs, tiles_absorb hrest⟩, fun y hy => ?_, hc,
    (apart_append.mp h.left).1, h.right⟩, (h.left.taken hc).1⟩
  simp only [List.mem_append, List.mem_cons] at hy hpos
  rcases hy with hy | rfl | hy
  · exact hpos y (.inl hy)
  · exact Nat.add_pos_left (hpos c (.inr (.inl rfl))) _
  · exact hpos y (.inr (.inr (.inr hy)))

theorem Around.absorbRight (h : Around cs x (d :: ds) units) (hd : d.free = true) :
    Around cs (absorb x d) ds units ∧ TakenHead ds := by
  obtain ⟨mid, hcs, hrest⟩ := tiles_append.mp h.tiles
  have hpos := h.pos
  have hright : Apart ([] ++ d :: ds) := h.right
  refine ⟨⟨tiles_append.mpr ⟨mid, hcs, tiles_absorb hrest⟩, fun y hy => ?_, h.free, h.left,
    (apart_cons.mp h.right).2⟩, hright.taken hd |>.2⟩
  simp only [List.mem_append, List.mem_cons] at hy hpos
  rcases hy with hy | rfl | hy
  · exact hpos y (.inl hy)
  · exact Nat.add_pos_left (hpos x (.inr (.inl rfl))) _
  · exact hpos y (.inr (.inr (.inr hy)))

theorem Around.taken (h : Around cs x ds units) : MemoryDealer.taken (cs ++ x :: ds) =
    MemoryDealer.taken cs ++ MemoryDealer.taken ds := by
  rw [taken_append, taken_free h.free]

end Merge

end MemoryDealer

end BinderForLinux
