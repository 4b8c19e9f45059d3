import Mathlib.Data.List.Chain
import Mathlib.Data.List.Pairwise
import BinderForLinux.Driver.Alloc

/-!
# The list of buffers tiles the area

`Tiles H hi lo bs` says that the buffers of `bs`, each a header of `H` bytes and
the data up to the next header, cover `[lo, hi)` without gap or overlap. Cutting
such a list at one buffer gives the list operations of the allocator in closed
form: the neighbours of the buffer, its extent, and the list after it was
changed, split or taken out.
-/

namespace BinderForLinux

namespace Driver

open Library

/-- Where the list `bs` starts, or `hi` when it is empty. -/
def startOr (hi : ℕ) : List Buffer → ℕ
  | [] => hi
  | b :: _ => b.addr

/-- The buffers of the list cover `[lo, hi)`, header by header and data by
data. -/
def Tiles (H hi : ℕ) : ℕ → List Buffer → Prop
  | lo, [] => lo = hi
  | lo, b :: bs => b.addr = lo ∧ lo + H ≤ startOr hi bs ∧ Tiles H hi (startOr hi bs) bs

@[simp] theorem startOr_nil (hi : ℕ) : startOr hi [] = hi := rfl

@[simp] theorem startOr_cons (hi : ℕ) (b : Buffer) (bs : List Buffer) :
    startOr hi (b :: bs) = b.addr := rfl

theorem startOr_append_cons (hi : ℕ) (bs cs : List Buffer) (c : Buffer) :
    startOr hi (bs ++ c :: cs) = startOr c.addr bs := by
  cases bs <;> rfl

section Tiles

variable {H hi lo : ℕ} {bs cs : List Buffer} {b c : Buffer}

theorem tiles_append_cons :
    Tiles H hi lo (bs ++ c :: cs) ↔ Tiles H c.addr lo bs ∧ Tiles H hi c.addr (c :: cs) := by
  induction bs generalizing lo with
  | nil =>
      simp only [List.nil_append, Tiles]
      constructor
      · rintro ⟨rfl, h⟩
        exact ⟨rfl, trivial, h⟩
      · rintro ⟨rfl, _, h⟩
        exact ⟨rfl, h⟩
  | cons b bs ih =>
      simp only [List.cons_append, Tiles, startOr_append_cons, and_assoc]
      rw [ih]
      simp only [Tiles]

theorem Tiles.startOr_eq (h : Tiles H hi lo bs) : startOr hi bs = lo := by
  cases bs with
  | nil => exact h.symm
  | cons b bs => exact h.1

theorem Tiles.le (h : Tiles H hi lo bs) : lo ≤ hi := by
  induction bs generalizing lo with
  | nil => exact h.le
  | cons b bs ih =>
      obtain ⟨rfl, hb, hrest⟩ := h
      have := ih hrest
      omega

theorem Tiles.bounds (h : Tiles H hi lo bs) (hb : b ∈ bs) :
    lo ≤ b.addr ∧ b.addr + H ≤ hi := by
  induction bs generalizing lo with
  | nil => cases hb
  | cons c bs ih =>
      obtain ⟨rfl, hc, hrest⟩ := h
      rcases List.mem_cons.mp hb with rfl | hb
      · exact ⟨le_rfl, hc.trans hrest.le⟩
      · have := ih hrest hb
        omega

theorem Tiles.pairwise (hH : 0 < H) (h : Tiles H hi lo bs) :
    bs.Pairwise fun b c => b.addr < c.addr := by
  induction bs generalizing lo with
  | nil => exact List.Pairwise.nil
  | cons b bs ih =>
      obtain ⟨rfl, hb, hrest⟩ := h
      refine List.Pairwise.cons (fun c hc => ?_) (ih hrest)
      have := hrest.bounds hc
      omega

end Tiles

/-! ### Cutting the list at one buffer

`Cut pre b post` says that `b` is the only buffer at its address in
`pre ++ b :: post`. -/

/-- No other buffer of the list has the address of `b`. -/
def Cut (pre : List Buffer) (b : Buffer) (post : List Buffer) : Prop :=
  (∀ c ∈ pre, c.addr ≠ b.addr) ∧ ∀ c ∈ post, c.addr ≠ b.addr

theorem cut_of_pairwise {pre post : List Buffer} {b : Buffer}
    (h : (pre ++ b :: post).Pairwise fun b c => b.addr < c.addr) : Cut pre b post := by
  obtain ⟨_, hb, hpre⟩ := List.pairwise_append.mp h
  obtain ⟨hpost, _⟩ := List.pairwise_cons.mp hb
  exact ⟨fun c hc => (hpre c hc b (by simp)).ne, fun c hc => (hpost c hc).ne'⟩

namespace Cut

variable {pre post : List Buffer} {b : Buffer}

theorem findBuffer_eq (h : Cut pre b post) :
    findBuffer (pre ++ b :: post) b.addr = some b := by
  have hpre : pre.find? (fun c => decide (c.addr = b.addr)) = none := by
    simpa using h.1
  simp [findBuffer, List.find?_append, hpre]

theorem nextBuffer_eq (h : Cut pre b post) :
    nextBuffer (pre ++ b :: post) b.addr = post.head? := by
  obtain ⟨hpre, _⟩ := h
  induction pre with
  | nil => simp [nextBuffer]
  | cons c pre ih =>
      have hc : c.addr ≠ b.addr := hpre c (by simp)
      simp only [List.cons_append, nextBuffer, hc, ↓reduceIte]
      exact ih fun d hd => hpre d (by simp [hd])

theorem prevBuffer_eq (h : Cut pre b post) :
    prevBuffer (pre ++ b :: post) b.addr = pre.getLast? := by
  obtain ⟨hpre, hpost⟩ := h
  have hnone : prevBuffer (b :: post) b.addr = none := by
    have : ∀ (c : Buffer) (l : List Buffer), (∀ d ∈ l, d.addr ≠ b.addr) →
        prevBuffer (c :: l) b.addr = none := by
      intro c l hl
      induction l generalizing c with
      | nil => simp [prevBuffer]
      | cons d l ih =>
          have hd : d.addr ≠ b.addr := hl d (by simp)
          simp only [prevBuffer, List.head?_cons, Option.map_some, Option.some.injEq, hd,
            ↓reduceIte]
          exact ih d fun e he => hl e (by simp [he])
    exact this b post hpost
  induction pre with
  | nil => simpa using hnone
  | cons c pre ih =>
      cases pre with
      | nil => simp [prevBuffer]
      | cons d pre =>
          have hd : d.addr ≠ b.addr := hpre d (by simp)
          have := ih fun e he => hpre e (by simp [he])
          simp only [List.cons_append] at this ⊢
          rw [prevBuffer]
          simp only [List.head?_cons, Option.map_some, Option.some.injEq, hd, ↓reduceIte, this]
          simp

theorem modifyBuffer_eq (h : Cut pre b post) (f : Buffer → Buffer) :
    modifyBuffer b.addr f (pre ++ b :: post) = pre ++ f b :: post := by
  have hid : ∀ l : List Buffer, (∀ c ∈ l, c.addr ≠ b.addr) →
      l.map (fun c => if c.addr = b.addr then f c else c) = l := by
    intro l hl
    conv_rhs => rw [← List.map_id l]
    exact List.map_congr_left fun c hc => by simp [hl c hc]
  simp [modifyBuffer, hid pre h.1, hid post h.2]

theorem insertAfter_eq (h : Cut pre b post) (new : Buffer) :
    insertAfter new b.addr (pre ++ b :: post) = pre ++ b :: new :: post := by
  obtain ⟨hpre, _⟩ := h
  induction pre with
  | nil => simp [insertAfter]
  | cons c pre ih =>
      have hc : c.addr ≠ b.addr := hpre c (by simp)
      simp only [List.cons_append, insertAfter, hc, ↓reduceIte]
      rw [ih fun d hd => hpre d (by simp [hd])]

theorem removeBuffer_eq (h : Cut pre b post) :
    removeBuffer b.addr (pre ++ b :: post) = pre ++ post := by
  have hpre : pre.filter (fun c => decide (c.addr ≠ b.addr)) = pre := by
    simpa [List.filter_eq_self] using h.1
  have hpost : post.filter (fun c => decide (c.addr ≠ b.addr)) = post := by
    simpa [List.filter_eq_self] using h.2
  rw [removeBuffer, List.filter_append, hpre, List.filter_cons_of_neg (by simp), hpost]

end Cut

/-! ### Changing fields that are not the address -/

section Map

variable {g : Buffer → Buffer}

@[simp] theorem startOr_map (haddr : ∀ b, (g b).addr = b.addr) (hi : ℕ) (bs : List Buffer) :
    startOr hi (bs.map g) = startOr hi bs := by
  cases bs with
  | nil => rfl
  | cons b bs => exact haddr b

theorem tiles_map (haddr : ∀ b, (g b).addr = b.addr) {H hi lo : ℕ} {bs : List Buffer} :
    Tiles H hi lo (bs.map g) ↔ Tiles H hi lo bs := by
  induction bs generalizing lo with
  | nil => rfl
  | cons b bs ih =>
      simp only [List.map_cons, Tiles, haddr, startOr_map haddr]
      rw [ih]

theorem nextBuffer_map (haddr : ∀ b, (g b).addr = b.addr) (bs : List Buffer) (a : ℕ) :
    nextBuffer (bs.map g) a = (nextBuffer bs a).map g := by
  induction bs with
  | nil => rfl
  | cons b bs ih =>
      simp only [List.map_cons, nextBuffer, haddr]
      split
      · cases bs <;> rfl
      · exact ih

theorem bufferEnd_map (haddr : ∀ b, (g b).addr = b.addr) (ar : Area) :
    ({ ar with buffers := ar.buffers.map g } : Area).bufferEnd = ar.bufferEnd := by
  funext a
  simp only [Area.bufferEnd, nextBuffer_map haddr]
  cases nextBuffer ar.buffers a with
  | none => rfl
  | some b => exact haddr b

end Map

theorem bufferEnd_of_cut {ar : Area} {pre post : List Buffer} {b : Buffer}
    (h : Cut pre b post) (hbs : ar.buffers = pre ++ b :: post) :
    ar.bufferEnd b.addr = startOr (ar.buffer + ar.bufferSize) post := by
  rw [Area.bufferEnd, hbs, h.nextBuffer_eq]
  cases post <;> rfl

theorem isFree_of_cut {ar : Area} {pre post : List Buffer} {b : Buffer}
    (h : Cut pre b post) (hbs : ar.buffers = pre ++ b :: post) :
    ar.isFree b.addr = b.free := by
  simp [Area.isFree, hbs, h.findBuffer_eq]

end Driver

end BinderForLinux
