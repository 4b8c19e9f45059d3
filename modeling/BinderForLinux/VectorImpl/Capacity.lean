import BinderForLinux.VectorImpl.Sizes

/-!
# Capacities

The capacity of a buffer is what its size says, whatever is done to its items, and also where that
goes wrong. Where sizes and places do not wrap, they are what they would be without bound.
-/

namespace BinderForLinux

namespace VectorImpl

namespace Sized

open Library Block

variable {α : Type} {t : Traits} {dflt : α} {g : ℕ → ℕ → α} {z : ItemSize} {a : Allocator}
  {m m' : Memory α} {h h' h'' : Heap α} {v v' : Vec} {b bytes i n pos amount : ℕ}

/-! ### Arithmetic -/

theorem wrap_eq (hn : n < 2 ^ 64) : wrap n = n := Nat.mod_eq_of_lt hn

theorem wrap_lt : wrap n < 2 ^ 64 := Nat.mod_lt _ (by decide)

theorem sub_eq {x y : ℕ} (hx : x < 2 ^ 64) (hle : y ≤ x) : sub x y = x - y := by
  unfold sub wrap
  omega

theorem place_eq (hi : i * z.bytes < 2 ^ 64) : place z i = .ok i := by
  rw [place, wrap_eq hi, if_pos (Nat.dvd_mul_left _ _), Nat.mul_div_cancel _ z.pos]

theorem span_eq {bytewise : Bool} (hn : n * z.bytes < 2 ^ 64) : span z bytewise n = n := by
  unfold span
  rw [wrap_eq hn, Nat.mul_div_cancel _ z.pos, ite_self]

/-! ### What stays -/

def SameCaps (h h' : Heap α) : Prop := ∀ b, (h'.buf b).block.cap = (h.buf b).block.cap

/-- Only items are changed. -/
structure SameBuffers (h h' : Heap α) : Prop where
  caps : SameCaps h h'
  refs : ∀ b, (h'.buf b).refs = (h.buf b).refs
  next : h'.next = h.next

theorem SameCaps.trans (hfirst : SameCaps h h') (hthen : SameCaps h' h'') : SameCaps h h'' :=
  fun b => (hthen b).trans (hfirst b)

theorem SameBuffers.refl : SameBuffers h h := ⟨fun _ => rfl, fun _ => rfl, rfl⟩

theorem SameBuffers.trans (hfirst : SameBuffers h h') (hthen : SameBuffers h' h'') :
    SameBuffers h h'' :=
  ⟨hfirst.caps.trans hthen.caps, fun b => (hthen.refs b).trans (hfirst.refs b),
    hthen.next.trans hfirst.next⟩

theorem sameBuffers_setBlock {x : Block α} (hx : x.cap = (h.buf b).block.cap) :
    SameBuffers h (h.setBlock b x) := by
  refine ⟨fun b' => ?_, fun b' => ?_, rfl⟩
  · by_cases heq : b' = b
    · rw [heq, setBlock_self]
      exact hx
    · rw [setBlock_of_ne heq]
  · by_cases heq : b' = b
    · rw [heq, setBlock_self]
    · rw [setBlock_of_ne heq]

theorem sameCaps_setBuf {x : SharedBuffer α} (hx : x.block.cap = (h.buf b).block.cap) :
    SameCaps h (h.setBuf b x) := fun b' => by
  by_cases heq : b' = b
  · rw [heq, setBuf_self, hx]
  · rw [setBuf_of_ne heq]

theorem block_cap {x : Block α} (hblock : h.block b = .ok x) : x.cap = (h.buf b).block.cap := by
  unfold Heap.block at hblock
  split at hblock
  · cases hblock
    rfl
  · cases hblock

theorem edit_sameBuffers {f : Block α → Except Fault (Block α)}
    (hf : ∀ x x', f x = .ok x' → x'.cap = x.cap) (hedit : edit h v f = .ok h') :
    SameBuffers h h' := by
  unfold edit at hedit
  split at hedit
  · cases hedit
  · obtain ⟨x, hblock, hedit⟩ := except_bind_eq_ok.mp hedit
    obtain ⟨x', hx', hedit⟩ := except_bind_eq_ok.mp hedit
    cases hedit
    exact sameBuffers_setBlock ((hf x x' hx').trans (block_cap hblock))

theorem doCopy_sameBuffers {d j : ℕ} {src : Option ℕ}
    (hcopy : VectorImpl.doCopy t h d i src j n = .ok h') : SameBuffers h h' := by
  unfold VectorImpl.doCopy at hcopy
  split at hcopy
  · split at hcopy
    · cases hcopy
      exact .refl
    · cases hcopy
  · obtain ⟨x, -, hcopy⟩ := except_bind_eq_ok.mp hcopy
    obtain ⟨y, hblock, hcopy⟩ := except_bind_eq_ok.mp hcopy
    obtain ⟨y', hloop, hcopy⟩ := except_bind_eq_ok.mp hcopy
    cases hcopy
    exact sameBuffers_setBlock ((copyLoop_cap hloop).trans (block_cap hblock))

theorem free_sameCaps (hfree : free t h b = .ok h') : SameCaps h h' := by
  unfold free at hfree
  split at hfree
  · split at hfree
    · cases hfree
      exact sameCaps_setBuf rfl
    · cases hfree
  · cases hfree

theorem dealloc_sameCaps (hdealloc : dealloc t h b = .ok h') : SameCaps h h' := by
  unfold dealloc at hdealloc
  split at hdealloc
  · cases hdealloc
    exact fun _ => rfl
  · exact free_sameCaps hdealloc

theorem release_sameCaps {keep : Bool} {r : Heap α × ℕ} (hrelease : release t h b keep = .ok r) :
    SameCaps h r.1 := by
  unfold release at hrelease
  split at hrelease
  · dsimp only at hrelease
    split at hrelease
    · cases hfree : free t (h.setBuf b { h.buf b with refs := (h.buf b).refs - 1 }) b with
      | ok h' =>
          rw [hfree] at hrelease
          cases hrelease
          have hdec : SameCaps h (h.setBuf b { h.buf b with refs := (h.buf b).refs - 1 }) :=
            sameCaps_setBuf rfl
          exact hdec.trans (free_sameCaps hfree)
      | error e =>
          rw [hfree] at hrelease
          cases hrelease
    · cases hrelease
      exact sameCaps_setBuf rfl
  · cases hrelease

theorem doDestroy_cap {x x' : Block α} (hdestroy : VectorImpl.doDestroy t x i n = .ok x') :
    x'.cap = x.cap := by
  unfold VectorImpl.doDestroy at hdestroy
  split at hdestroy
  · cases hdestroy
    rfl
  · exact destroyLoop_cap hdestroy

theorem doConstruct_cap {x x' : Block α} (hconstruct : doConstruct t dflt x i n = .ok x') :
    x'.cap = x.cap := by
  unfold doConstruct at hconstruct
  split at hconstruct
  · exact beginLoop_cap hconstruct
  · exact fillLoop_cap hconstruct

theorem doMoveForward_cap {x x' : Block α} {d s : ℕ}
    (hmove : VectorImpl.doMoveForward t x d s n = .ok x') : x'.cap = x.cap := by
  unfold VectorImpl.doMoveForward at hmove
  split at hmove
  · exact memmove_cap hmove
  · exact forwardLoop_cap hmove

theorem doMoveBackward_cap {x x' : Block α} {d s : ℕ}
    (hmove : VectorImpl.doMoveBackward t x d s n = .ok x') : x'.cap = x.cap := by
  unfold VectorImpl.doMoveBackward at hmove
  split at hmove
  · exact memmove_cap hmove
  · exact backwardLoop_cap hmove

theorem releaseStorage_sameCaps (hrelease : releaseStorage t h v = .ok h') : SameCaps h h' := by
  unfold releaseStorage at hrelease
  split at hrelease
  · cases hrelease
    exact fun _ => rfl
  · obtain ⟨r, hone, hrelease⟩ := except_bind_eq_ok.mp hrelease
    split at hrelease
    · obtain ⟨x, hblock, hrelease⟩ := except_bind_eq_ok.mp hrelease
      obtain ⟨x', hdestroy, hrelease⟩ := except_bind_eq_ok.mp hrelease
      exact ((release_sameCaps hone).trans (sameBuffers_setBlock
        ((doDestroy_cap hdestroy).trans (block_cap hblock))).caps).trans (dealloc_sameCaps hrelease)
    · cases hrelease
      exact release_sameCaps hone

/-! ### Sizes -/

/-- The capacity of a buffer is how many items fit into it. -/
structure Memory.Wf (z : ItemSize) (m : Memory α) : Prop where
  cap : ∀ b, (m.heap.buf b).block.cap = m.size b / z.bytes
  lt : ∀ b, headerSize + m.size b < 2 ^ 64

theorem Memory.Wf.withHeap (hm : m.Wf z) (hsame : SameCaps m.heap h) : (m.withHeap h).Wf z :=
  ⟨fun b => (hsame b).trans (hm.cap b), hm.lt⟩

theorem make_size_self : (m.make h bytes).size m.heap.next = bytes := Function.update_self ..

theorem make_size_of_ne (hb : b ≠ m.heap.next) : (m.make h bytes).size b = m.size b :=
  Function.update_of_ne hb ..

theorem Memory.Wf.make (hm : m.Wf z) (hnew : (h.buf m.heap.next).block.cap = bytes / z.bytes)
    (hrest : ∀ b, b ≠ m.heap.next → (h.buf b).block.cap = (m.heap.buf b).block.cap)
    (hlt : headerSize + bytes < 2 ^ 64) : (m.make h bytes).Wf z := by
  refine ⟨fun b => ?_, fun b => ?_⟩
  · by_cases hb : b = m.heap.next
    · rw [hb, make_size_self]
      exact hnew
    · rw [make_size_of_ne hb]
      exact (hrest b hb).trans (hm.cap b)
  · by_cases hb : b = m.heap.next
    · rw [hb, make_size_self]
      exact hlt
    · rw [make_size_of_ne hb]
      exact hm.lt b

theorem Memory.Wf.capacity_eq (hm : m.Wf z) : capacity z m v = VectorImpl.capacity m.heap v := by
  unfold capacity VectorImpl.capacity
  cases v.storage with
  | none => rfl
  | some b => exact (hm.cap b).symm

theorem Memory.Wf.bytes_lt (hm : m.Wf z) (hi : i ≤ (m.heap.buf b).block.cap) :
    i * z.bytes < 2 ^ 64 := by
  have hlt := hm.lt b
  rw [hm.cap b, Nat.le_div_iff_mul_le z.pos] at hi
  omega

end Sized

end VectorImpl

end BinderForLinux
