import BinderForLinux.VectorImpl.Capacity

/-!
# Making place in bytes

A buffer is not allocated, or it is one of the size that was computed. Only that size says whether
the items fit.
-/

namespace BinderForLinux

namespace VectorImpl

namespace Sized

open Library Block

variable {α : Type} {t : Traits} {dflt : α} {g : ℕ → ℕ → α} {z : ItemSize} {a : Allocator}
  {m m' : Memory α} {h h' h'' : Heap α} {v v' : Vec} {b bytes i n pos amount : ℕ}
  {l l₁ l₂ xs : List α} {last : Prop}

/-! ### Allocation -/

/-- `malloc` fails for a buffer of that size. -/
def Refused (a : Allocator) (m : Memory α) (bytes : ℕ) : Prop :=
  a.malloc m.heap.next (wrap (headerSize + bytes)) = false

/-- So does `realloc`, if the vector has its buffer for itself and only needs a larger or smaller
one. -/
def RoomRefused (t : Traits) (a : Allocator) (m : Memory α) (v : Vec) (last : Prop) (bytes : ℕ) :
    Prop :=
  Refused a m bytes ∧ (last ∧ t.trivialCopy = true ∧ t.trivialDtor = true →
    ∀ b, v.storage = some b → (m.heap.buf b).refs = 1 →
      m.size b ≠ bytes ∧ wrap (headerSize + bytes) ≠ 0 ∧
        a.realloc m.heap.next (wrap (headerSize + bytes)) = false)

/-- The items have room in a buffer of that size, which can be asked for. -/
def Fits (z : ItemSize) (bytes n : ℕ) : Prop := headerSize + bytes < 2 ^ 64 ∧ n ≤ bytes / z.bytes

/-- The vector has its buffer for itself, or gets a copy of it. -/
def Writable (z : ItemSize) (a : Allocator) (m : Memory α) (v : Vec) : Prop :=
  ∀ b, v.storage = some b → (m.heap.buf b).refs ≠ 1 → ¬ Refused a m (capacity z m v * z.bytes)

theorem wrap_header (hlt : headerSize + bytes < 2 ^ 64) :
    ¬ wrap (headerSize + bytes) < headerSize := by
  rw [wrap_eq hlt]
  omega

theorem alloc_refused (hno : Refused a m bytes) : alloc g z a m bytes = .ok none := if_pos hno

theorem alloc_eq (hyes : ¬ Refused a m bytes) (hlt : headerSize + bytes < 2 ^ 64) :
    alloc g z a m bytes =
      .ok (some (m.make (VectorImpl.alloc g m.heap (bytes / z.bytes)) bytes)) := by
  unfold Refused at hyes
  unfold alloc
  dsimp only
  rw [if_neg hyes, if_neg (wrap_header hlt)]

theorem alloc_cases {o : Option (Memory α)} (hbytes : bytes < 2 ^ 64)
    (halloc : alloc g z a m bytes = .ok o) :
    Refused a m bytes ∧ o = none ∨
      headerSize + bytes < 2 ^ 64 ∧
        o = some (m.make (VectorImpl.alloc g m.heap (bytes / z.bytes)) bytes) := by
  by_cases hno : Refused a m bytes
  · rw [alloc_refused hno] at halloc
    cases halloc
    exact .inl ⟨hno, rfl⟩
  · by_cases hlt : headerSize + bytes < 2 ^ 64
    · rw [alloc_eq hno hlt] at halloc
      cases halloc
      exact .inr ⟨hlt, rfl⟩
    · have hsmall : wrap (headerSize + bytes) < headerSize := by
        unfold wrap
        unfold headerSize at hlt ⊢
        omega
      unfold Refused at hno
      unfold alloc at halloc
      dsimp only at halloc
      rw [if_neg hno, if_pos hsmall] at halloc
      cases halloc

theorem Memory.Wf.alloc (hm : m.Wf z) (hlt : headerSize + bytes < 2 ^ 64) :
    (m.make (VectorImpl.alloc g m.heap (bytes / z.bytes)) bytes).Wf z :=
  hm.make (by rw [alloc_self]) (fun _ hb => by rw [alloc_of_ne g hb]) hlt

/-! ### Resizing -/

/-- The items are in another buffer, and the old one is let go of. -/
def reallocated (g : ℕ → ℕ → α) (z : ItemSize) (m : Memory α) (b bytes : ℕ)
    (old : SharedBuffer α) : Memory α :=
  m.make ((newWithBytes g m.heap b (bytes / z.bytes)).setBuf b old) bytes

theorem reallocated_wf (hm : m.Wf z) (hne : b ≠ m.heap.next) {old : SharedBuffer α}
    (hold : old.block.cap = (m.heap.buf b).block.cap) (hlt : headerSize + bytes < 2 ^ 64) :
    (reallocated g z m b bytes old).Wf z := by
  obtain ⟨x, hbuilt, hcap, -⟩ := built_newWithBytes g m.heap b (bytes / z.bytes)
  refine hm.make ?_ (fun b' hb' => ?_) hlt
  · rw [setBuf_of_ne hne.symm, hbuilt.new, hcap]
  · by_cases hb : b' = b
    · rw [hb, setBuf_self, hold]
    · rw [setBuf_of_ne hb, hbuilt.others b' hb']

theorem release_newWithBytes_one (hv : VecHolds t h v l) (hb : v.storage = some b)
    (hone : (h.buf b).refs = 1) (hplain : t.trivialDtor = true) (cap : ℕ) :
    release t (newWithBytes g h b cap) b false =
      .ok ((newWithBytes g h b cap).setBuf b
        { h.buf b with refs := 0, allocated := false }, 1) := by
  obtain ⟨hitems, hlt⟩ := hv.hasItems hb
  obtain ⟨x, hbuilt, -⟩ := built_newWithBytes g h b cap
  have hold := hbuilt.others b (by omega)
  have hfree : free t ((newWithBytes g h b cap).setBuf b { h.buf b with refs := 0 }) b =
      .ok (((newWithBytes g h b cap).setBuf b { h.buf b with refs := 0 }).setBuf b
        { h.buf b with refs := 0, allocated := false }) := by
    rw [free, setBuf_self, if_pos hitems.allocated, if_pos fun k _ => .inl hplain]
  rw [release, hold, if_pos hitems.allocated]
  dsimp only
  rw [hone, if_pos ⟨rfl, rfl⟩, hfree]
  refine congrArg Except.ok (congrArg (·, 1) ?_)
  unfold Heap.setBuf
  rw [Function.update_idem]

/-- What a buffer can be after it was resized. -/
inductive Resized (g : ℕ → ℕ → α) (z : ItemSize) (m : Memory α) (b bytes : ℕ) :
    Memory α × ℕ → Prop
  | same (hone : (m.heap.buf b).refs = 1) (hsize : m.size b = bytes) :
      Resized g z m b bytes (m, b)
  | moved (old : SharedBuffer α) (hold : Released (m.heap.buf b) old)
      (hcap : old.block.cap = (m.heap.buf b).block.cap) :
      Resized g z m b bytes (reallocated g z m b bytes old, m.heap.next)

theorem copyBytes_cases (hv : VecHolds t m.heap v l) (hb : v.storage = some b)
    (hplain : t.trivialDtor = true) (hlt : headerSize + bytes < 2 ^ 64) :
    Refused a m bytes ∧
        editResize.copyBytes t g z a m b bytes (wrap (headerSize + bytes)) = .ok none ∨
      ∃ r, Resized g z m b bytes r ∧
        editResize.copyBytes t g z a m b bytes (wrap (headerSize + bytes)) = .ok (some r) := by
  by_cases hno : Refused a m bytes
  · exact .inl ⟨hno, if_pos hno⟩
  · refine .inr ?_
    unfold Refused at hno
    unfold editResize.copyBytes
    rw [if_neg hno, if_neg (wrap_header hlt)]
    by_cases hone : (m.heap.buf b).refs = 1
    · rw [release_newWithBytes_one hv hb hone hplain]
      exact ⟨_, .moved { m.heap.buf b with refs := 0, allocated := false }
        (by rw [Released, if_pos hone]) rfl, rfl⟩
    · rw [release_newWithBytes g hv hb hone]
      exact ⟨_, .moved { m.heap.buf b with refs := (m.heap.buf b).refs - 1 }
        (by rw [Released, if_neg hone]) rfl, rfl⟩

theorem editResize_cases (hv : VecHolds t m.heap v l) (hb : v.storage = some b)
    (hplain : t.trivialDtor = true) (hlt : headerSize + bytes < 2 ^ 64) :
    (Refused a m bytes ∧ ((m.heap.buf b).refs = 1 → m.size b ≠ bytes ∧
        wrap (headerSize + bytes) ≠ 0 ∧
          a.realloc m.heap.next (wrap (headerSize + bytes)) = false)) ∧
        editResize t g z a m b bytes = .ok none ∨
      ∃ r, Resized g z m b bytes r ∧ editResize t g z a m b bytes = .ok (some r) := by
  have hitems := (hv.hasItems hb).1
  have hpos : wrap (headerSize + bytes) ≠ 0 := by
    rw [wrap_eq hlt]
    unfold headerSize
    omega
  have hcopy := copyBytes_cases (g := g) (z := z) (a := a) hv hb hplain hlt
  unfold editResize
  dsimp only
  rw [if_pos hitems.allocated]
  split
  · rename_i hone
    split
    · rename_i hsame
      exact .inr ⟨_, .same hone hsame, rfl⟩
    · rename_i hother
      split
      · rw [if_neg (wrap_header hlt)]
        exact .inr ⟨_, .moved { m.heap.buf b with allocated := false }
          (by rw [Released, if_pos hone]) rfl, rfl⟩
      · rename_i hrealloc
        exact hcopy.imp_left fun hleft =>
          ⟨⟨hleft.1, fun _ => ⟨hother, hpos, eq_false_of_ne_true hrealloc⟩⟩, hleft.2⟩
  · rename_i hmore
    exact hcopy.imp_left fun hleft =>
      ⟨⟨hleft.1, fun hone => absurd hone hmore⟩, hleft.2⟩

theorem editResize_refused (hv : VecHolds t m.heap v l) (hb : v.storage = some b)
    (hno : Refused a m bytes) (hrealloc : (m.heap.buf b).refs = 1 → m.size b ≠ bytes ∧
      wrap (headerSize + bytes) ≠ 0 ∧
        a.realloc m.heap.next (wrap (headerSize + bytes)) = false) :
    editResize t g z a m b bytes = .ok none := by
  have hcopy : editResize.copyBytes t g z a m b bytes (wrap (headerSize + bytes)) =
      .ok none := if_pos hno
  unfold editResize
  dsimp only
  rw [if_pos (hv.hasItems hb).1.allocated]
  split
  · rename_i hone
    obtain ⟨hother, hpos, hfails⟩ := hrealloc hone
    rw [if_neg hother, if_neg hpos, if_neg (by rw [hfails]; exact Bool.false_ne_true)]
    exact hcopy
  · exact hcopy

/-- A size whose sum with the header wraps is refused, or something is undefined. -/
theorem editResize_wraps (hv : VecHolds t m.heap v l) (hb : v.storage = some b) (hm : m.Wf z)
    (hbytes : bytes < 2 ^ 64) (hge : 2 ^ 64 ≤ headerSize + bytes)
    {o : Option (Memory α × ℕ)} (hresize : editResize t g z a m b bytes = .ok o) :
    (Refused a m bytes ∧ ((m.heap.buf b).refs = 1 → m.size b ≠ bytes ∧
      wrap (headerSize + bytes) ≠ 0 ∧
        a.realloc m.heap.next (wrap (headerSize + bytes)) = false)) ∧ o = none := by
  have hsmall : wrap (headerSize + bytes) < headerSize := by
    unfold wrap
    unfold headerSize at hge ⊢
    omega
  have hcopy (hcopy : editResize.copyBytes t g z a m b bytes (wrap (headerSize + bytes)) =
      .ok o) : Refused a m bytes ∧ o = none := by
    unfold editResize.copyBytes at hcopy
    split at hcopy
    · rename_i hno
      cases hcopy
      exact ⟨hno, rfl⟩
    · cases hcopy
  unfold editResize at hresize
  dsimp only at hresize
  rw [if_pos (hv.hasItems hb).1.allocated] at hresize
  split at hresize
  · split at hresize
    · rename_i hsame
      have := hm.lt b
      omega
    · rename_i hother
      split at hresize
      · cases hresize
      · rename_i hpos
        split at hresize
        · cases hresize
        · rename_i hrealloc
          obtain ⟨hno, hnone⟩ := hcopy hresize
          exact ⟨⟨hno, fun _ => ⟨hother, hpos, eq_false_of_ne_true hrealloc⟩⟩, hnone⟩
  · rename_i hmore
    obtain ⟨hno, hnone⟩ := hcopy hresize
    exact ⟨⟨hno, fun hone => absurd hone hmore⟩, hnone⟩

theorem Resized.wf {r : Memory α × ℕ} (hr : Resized g z m b bytes r) (hm : m.Wf z)
    (hne : b ≠ m.heap.next) (hlt : headerSize + bytes < 2 ^ 64) :
    r.1.Wf z ∧ r.1.size r.2 = bytes := by
  cases hr with
  | same hone hsize => exact ⟨hm, hsize⟩
  | moved old hold hcap => exact ⟨reallocated_wf hm hne hcap hlt, make_size_self⟩

theorem Resized.spec {r : Memory α × ℕ} (hr : Resized g z m b bytes r) (hm : m.Wf z)
    (hv : VecHolds t m.heap v (l₁ ++ l₂)) (hb : v.storage = some b)
    (hplain : t.trivialDtor = true) (hle : l₁.length ≤ bytes / z.bytes) :
    Moved v m.heap r.1.heap r.2 ∧ Filled t (r.1.heap.buf r.2).block l₁ ∧
      (r.1.heap.buf r.2).block.cap = bytes / z.bytes := by
  have hitems := (hv.hasItems hb).1
  cases hr with
  | same hone hsize =>
      have hcap : (m.heap.buf b).block.cap = bytes / z.bytes := by rw [hm.cap b, hsize]
      have hle' : l₁.length ≤ (m.heap.buf b).block.cap := by rwa [hcap]
      exact ⟨⟨hitems.allocated, hone, .inl ⟨hb, hone, rfl, fun _ _ => rfl⟩⟩,
        filled_of_plain hplain hitems.filled.split.1 hle', hcap⟩
  | moved old hold hcap => exact newWithBytes_moved g hv hb hplain hle hold rfl

/-! ### Getting a buffer for itself -/

theorem capacity_of_storage (hb : v.storage = some b) : capacity z m v = m.size b / z.bytes := by
  unfold capacity
  rw [hb]

theorem Memory.Wf.capacity_bytes (hm : m.Wf z) (hb : v.storage = some b) :
    headerSize + capacity z m v * z.bytes < 2 ^ 64 ∧
      capacity z m v * z.bytes / z.bytes = (m.heap.buf b).block.cap := by
  have hlt := hm.lt b
  rw [capacity_of_storage hb, Nat.mul_div_cancel _ z.pos, hm.cap b]
  have hle := Nat.div_mul_le_self (m.size b) z.bytes
  exact ⟨by omega, rfl⟩

theorem editArrayImpl_none (hb : v.storage = none) :
    editArrayImpl t g z a m v = .ok (m, v) := by
  unfold editArrayImpl
  rw [hb]

theorem editArrayImpl_kept (hm : m.Wf z) (hb : v.storage = some b)
    (hrefs : (m.heap.buf b).refs ≠ 1) (hno : Refused a m (capacity z m v * z.bytes)) :
    editArrayImpl t g z a m v = .ok (m, v) := by
  have hlt := (hm.capacity_bytes hb).1
  have hnone : alloc g z a m (capacity z m v * z.bytes) = .ok none := alloc_refused hno
  unfold editArrayImpl
  rw [hb]
  dsimp only
  rw [if_neg hrefs, wrap_eq (Nat.lt_of_le_of_lt (Nat.le_add_left _ _) hlt), except_bind_ok hnone]

theorem editArrayImpl_spec (hm : m.Wf z) (hv : VecHolds t m.heap v l) (hb : v.storage = some b)
    (hw : Writable z a m v) :
    ∃ m' new, editArrayImpl t g z a m v = .ok (m', { v with storage := some new }) ∧
      Moved v m.heap m'.heap new ∧ Filled t (m'.heap.buf new).block l ∧
      (m'.heap.buf new).block.cap = (m.heap.buf b).block.cap ∧ m'.Wf z := by
  obtain ⟨hitems, hblt⟩ := hv.hasItems hb
  obtain ⟨hlt, hcap⟩ := hm.capacity_bytes hb
  by_cases hrefs : (m.heap.buf b).refs = 1
  · refine ⟨m, b, ?_, ⟨hitems.allocated, hrefs, .inl ⟨hb, hrefs, rfl, fun _ _ => rfl⟩⟩,
      hitems.filled, rfl, hm⟩
    unfold editArrayImpl
    rw [hb]
    dsimp only
    rw [if_pos hrefs, ← hb]
  · have hnew := alloc_eq (g := g) (z := z) (hw b hb hrefs) hlt
    obtain ⟨k, k', hcopy, hrelease, hmoved, hfilled, hcap'⟩ :=
      copyAll_spec g hv (Nat.le_trans hitems.filled.le (Nat.le_of_eq hcap.symm))
    have hspan : v.count * z.bytes < 2 ^ 64 := hm.bytes_lt (by rw [hv.1]; exact hitems.filled.le)
    have hzero : 0 * z.bytes < 2 ^ 64 := by omega
    have hcopy' : doCopy t z (m.make (VectorImpl.alloc g m.heap
        (capacity z m v * z.bytes / z.bytes)) (capacity z m v * z.bytes)).heap m.heap.next 0
          v.storage 0 v.count = .ok k := by
      unfold doCopy
      rw [place_eq hzero, span_eq hspan]
      exact hcopy
    refine ⟨(m.make (VectorImpl.alloc g m.heap (capacity z m v * z.bytes / z.bytes))
      (capacity z m v * z.bytes)).withHeap k', m.heap.next, ?_, hmoved, hfilled,
      hcap'.trans hcap, (hm.alloc hlt).withHeap
        ((doCopy_sameBuffers hcopy).caps.trans (releaseStorage_sameCaps hrelease))⟩
    unfold editArrayImpl
    rw [hb]
    dsimp only
    rw [if_neg hrefs, wrap_eq (Nat.lt_of_le_of_lt (Nat.le_add_left _ _) hlt), except_bind_ok hnew]
    dsimp only
    rw [← hb, except_bind_ok hcopy', except_bind_ok hrelease]

end Sized

end VectorImpl

end BinderForLinux
