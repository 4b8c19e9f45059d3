import BinderForLinux.VectorImpl.Growing

/-!
# Shrinking in bytes

A vector that should get a smaller buffer stays as it is if there is none.
-/

namespace BinderForLinux

namespace VectorImpl

namespace Sized

open Library Block

variable {α : Type} {t : Traits} {dflt : α} {g : ℕ → ℕ → α} {z : ItemSize} {a : Allocator}
  {m m' : Memory α} {h h' h'' : Heap α} {v v' : Vec} {b bytes i n pos amount newSize : ℕ}
  {l l₁ l₂ xs : List α} {r : Memory α × Vec}

/-! ### Items in bytes -/

theorem doMoveBackward_eq {d s : ℕ} (hd : d * z.bytes < 2 ^ 64) (hs : s * z.bytes < 2 ^ 64)
    (hn : n * z.bytes < 2 ^ 64) :
    doMoveBackward t z h v d s n = edit h v fun x => VectorImpl.doMoveBackward t x d s n := by
  unfold doMoveBackward
  rw [place_eq hd, except_bind_ok rfl, place_eq hs, except_bind_ok rfl, span_eq hn]

theorem doDestroy_eq (hi : i * z.bytes < 2 ^ 64) :
    doDestroy t z h v i n = edit h v fun x => VectorImpl.doDestroy t x i n := by
  unfold doDestroy
  rw [place_eq hi, except_bind_ok rfl]

theorem sized_doMoveBackward_sameBuffers {d s : ℕ}
    (hmove : doMoveBackward t z h v d s n = .ok h') : SameBuffers h h' := by
  obtain ⟨d', -, hmove⟩ := except_bind_eq_ok.mp hmove
  obtain ⟨s', -, hmove⟩ := except_bind_eq_ok.mp hmove
  exact edit_sameBuffers (fun _ _ => doMoveBackward_cap) hmove

theorem sized_doDestroy_sameBuffers (hdestroy : doDestroy t z h v i n = .ok h') :
    SameBuffers h h' := by
  obtain ⟨i', -, hdestroy⟩ := except_bind_eq_ok.mp hdestroy
  exact edit_sameBuffers (fun _ _ => doDestroy_cap) hdestroy

/-! ### Shrinking -/

def shrunkBytes (z : ItemSize) (newSize : ℕ) : ℕ := wrap (shrunkCapacity newSize * z.bytes)

theorem shrunkBytes_lt : shrunkBytes z newSize < 2 ^ 64 := wrap_lt

def Shrinks (z : ItemSize) (m : Memory α) (v : Vec) (newSize : ℕ) : Prop :=
  wrap (newSize * 3) < capacity z m v

theorem shrink_refused (hv : VecHolds t m.heap v l) (hb : v.storage = some b)
    (hshrinks : Shrinks z m v (sub v.count n))
    (hno : RoomRefused t a m v (pos = sub v.count n) (shrunkBytes z (sub v.count n))) :
    shrink t g z a m v pos n = .ok (m, v) := by
  unfold Shrinks at hshrinks
  unfold shrink
  rw [hb]
  dsimp only
  rw [if_pos hshrinks]
  split
  · rename_i hlast
    have hresize : editResize t g z a m b
        (wrap (shrunkCapacity (sub v.count n) * z.bytes)) = .ok none :=
      editResize_refused hv hb hno.1 (hno.2 hlast b hb)
    rw [except_bind_ok hresize]
  · have hnone : alloc g z a m (wrap (shrunkCapacity (sub v.count n) * z.bytes)) = .ok none :=
      alloc_refused hno.1
    rw [except_bind_ok hnone]

theorem shrink_reallocate (hm : m.Wf z) (hv : VecHolds t m.heap v (l₁ ++ xs ++ l₂))
    (hno : ¬ Refused a m bytes) (hlt : headerSize + bytes < 2 ^ 64)
    (hroom : l₁.length + l₂.length ≤ bytes / z.bytes) :
    ∃ m' h₁ h₂ h₃, alloc g z a m bytes = .ok (some m') ∧
      (if l₁.length ≠ 0 then doCopy t z m'.heap m.heap.next 0 v.storage 0 l₁.length
        else .ok m'.heap) = .ok h₁ ∧
      (if l₁.length ≠ l₁.length + l₂.length then doCopy t z h₁ m.heap.next l₁.length v.storage
          (wrap (l₁.length + xs.length)) (sub (l₁.length + l₂.length) l₁.length)
        else .ok h₁) = .ok h₂ ∧
      releaseStorage t h₂ v = .ok h₃ ∧ Moved v m.heap h₃ m.heap.next ∧
      Filled t (h₃.buf m.heap.next).block (l₁ ++ l₂) ∧ (m'.withHeap h₃).Wf z := by
  have hclt := hm.count_lt hv
  have hcount := hv.1
  rw [List.length_append, List.length_append] at hcount
  have hsrc₁ : Source m.heap v.storage 0 l₁ :=
    VecHolds.source_front (show VecHolds t m.heap v (l₁ ++ (xs ++ l₂)) by
      rwa [← List.append_assoc])
  have hsrc₂ : Source m.heap v.storage (l₁.length + xs.length) l₂ := by
    rw [← List.length_append]
    exact hv.source_back
  obtain ⟨h₁, h₂, h₃, hcopy₁, hcopy₂, hrelease, hmoved, hgapped, -⟩ :=
    reallocate_spec g (c := l₁.length ≠ 0) (d := l₁.length ≠ l₁.length + l₂.length)
      (n := 0) hv hsrc₁ hsrc₂ eq_nil_of_length (fun hsame => eq_nil_of_length (by omega)) hroom
  rw [Nat.add_zero] at hcopy₂
  have hbytes {k : ℕ} (hk : k ≤ l₁.length + l₂.length) : k * z.bytes < 2 ^ 64 := by
    have hle := (Nat.le_div_iff_mul_le z.pos).mp (Nat.le_trans hk hroom)
    omega
  have hsource {k : ℕ} (hk : k ≤ v.count) : k * z.bytes < 2 ^ 64 := by
    cases hb : v.storage with
    | none =>
        have hnil := hv.eq_nil hb
        simp only [List.append_eq_nil_iff] at hnil
        obtain ⟨⟨rfl, rfl⟩, rfl⟩ := hnil
        simp only [List.length_nil] at hcount
        obtain rfl : k = 0 := by omega
        omega
    | some b =>
        have hle := (hv.hasItems hb).1.filled.le
        rw [← hv.1] at hle
        exact hm.bytes_lt (Nat.le_trans hk hle)
  have hsub : sub (l₁.length + l₂.length) l₁.length = l₂.length := by
    rw [sub_eq (by omega) (by omega), Nat.add_sub_cancel_left]
  have hfront : (if l₁.length ≠ 0 then doCopy t z (m.make (VectorImpl.alloc g m.heap
      (bytes / z.bytes)) bytes).heap m.heap.next 0 v.storage 0 l₁.length
        else .ok (m.make (VectorImpl.alloc g m.heap (bytes / z.bytes)) bytes).heap) =
      .ok h₁ := by
    rw [doCopy_eq (hbytes (by omega)) (hbytes (by omega)) (hbytes (by omega))]
    exact hcopy₁
  have hback : (if l₁.length ≠ l₁.length + l₂.length then doCopy t z h₁ m.heap.next l₁.length
      v.storage (wrap (l₁.length + xs.length)) (sub (l₁.length + l₂.length) l₁.length)
        else .ok h₁) = .ok h₂ := by
    rw [hsub, wrap_eq (by omega), doCopy_eq (hbytes (by omega)) (hsource (by omega))
      (hbytes (by omega))]
    exact hcopy₂
  exact ⟨_, h₁, h₂, h₃, alloc_eq hno hlt, hfront, hback, hrelease, hmoved, hgapped.filled,
    (hm.alloc hlt).withHeap (((ite_sameBuffers hfront sized_doCopy_sameBuffers).caps.trans
      (ite_sameBuffers hback sized_doCopy_sameBuffers).caps).trans
        (releaseStorage_sameCaps hrelease))⟩

theorem shrink_inPlace {new : ℕ} (hwf : m.Wf z) (hmoved : Moved v h m.heap new)
    (hfilled : Filled t (m.heap.buf new).block (l₁ ++ xs ++ l₂))
    (hok : 0 < xs.length ∨ l₂ = [] ∨ Stays t) (k : ℕ) :
    ∃ h₁ h₂, doDestroy t z m.heap ⟨some new, k⟩ l₁.length xs.length = .ok h₁ ∧
      (if l₁.length ≠ l₁.length + l₂.length then
          doMoveBackward t z h₁ ⟨some new, k⟩ l₁.length (wrap (l₁.length + xs.length))
            (sub (l₁.length + l₂.length) l₁.length)
        else .ok h₁) = .ok h₂ ∧
      Moved v h h₂ new ∧ Filled t (h₂.buf new).block (l₁ ++ l₂) ∧ (m.withHeap h₂).Wf z := by
  have hle := hfilled.le
  rw [List.length_append, List.length_append] at hle
  have hbytes {i : ℕ} (hi : i ≤ l₁.length + xs.length + l₂.length) : i * z.bytes < 2 ^ 64 :=
    hwf.bytes_lt (Nat.le_trans hi hle)
  have hcells {i : ℕ} (hi : i ≤ l₁.length + xs.length + l₂.length) : i < 2 ^ 64 :=
    Nat.lt_of_le_of_lt (Nat.le_mul_of_pos_right i z.pos) (hbytes hi)
  obtain ⟨x, hdestroy, -, hgapped⟩ := hfilled.cut
  obtain ⟨h₁, hcut, hmoved₁, hblock₁⟩ := hmoved.edit
    (f := fun x => VectorImpl.doDestroy t x l₁.length xs.length) k hdestroy
  have hcut' : doDestroy t z m.heap ⟨some new, k⟩ l₁.length xs.length = .ok h₁ := by
    rw [doDestroy_eq (hbytes (by omega))]
    exact hcut
  have hwf₁ := hwf.withHeap (sized_doDestroy_sameBuffers hcut').caps
  by_cases hlast : l₂ = []
  · subst hlast
    refine ⟨h₁, h₁, hcut', if_neg (by simp), hmoved₁, ?_, hwf₁⟩
    rw [hblock₁, List.append_nil]
    exact hgapped.filledLast
  · have hpos : 0 < l₂.length := List.length_pos_iff.mpr hlast
    have hok' : 0 < xs.length ∨ Stays t := hok.imp_right fun h => h.resolve_left hlast
    obtain ⟨x', hmove, hfilled'⟩ := hgapped.close hpos hok'
    rw [← hblock₁] at hmove
    obtain ⟨h₂, hclose, hmoved₂, hblock₂⟩ := hmoved₁.edit
      (f := fun x => VectorImpl.doMoveBackward t x l₁.length (l₁.length + xs.length) l₂.length)
      k hmove
    have hclose' : doMoveBackward t z h₁ ⟨some new, k⟩ l₁.length
        (wrap (l₁.length + xs.length)) (sub (l₁.length + l₂.length) l₁.length) = .ok h₂ := by
      rw [sub_eq (hcells (by omega)) (by omega), wrap_eq (hcells (by omega)),
        Nat.add_sub_cancel_left, doMoveBackward_eq (hbytes (by omega)) (hbytes (by omega))
          (hbytes (by omega))]
      exact hclose
    exact ⟨h₁, h₂, hcut', (if_pos (by omega)).trans hclose', hmoved₂, by rwa [hblock₂],
      hwf₁.withHeap (sized_doMoveBackward_sameBuffers hclose').caps⟩

theorem shrink_kept (hm : m.Wf z) (hv : VecHolds t m.heap v (l₁ ++ l₂)) (hb : v.storage = some b)
    (hstays : l₂ = [] ∨ Stays t) (hfew : ¬ Shrinks z m v v.count)
    (hedit : editArrayImpl t g z a m v = .ok (m, v)) :
    shrink t g z a m v l₁.length 0 = .ok (m, v) := by
  have hlt := hm.count_lt hv
  have hcount := hv.count_eq
  obtain ⟨hitems, -⟩ := hv.hasItems hb
  obtain ⟨-, hholds, hle, -⟩ := hitems.filled.split
  have hbytes {i : ℕ} (hi : i ≤ l₁.length + l₂.length) : i * z.bytes < 2 ^ 64 :=
    hm.bytes_lt (Nat.le_trans hi hle)
  have hsub : sub v.count 0 = v.count := by rw [sub_eq hlt (Nat.zero_le _), Nat.sub_zero]
  have hnone : VectorImpl.doDestroy t (m.heap.buf b).block l₁.length 0 =
      .ok (m.heap.buf b).block := by
    unfold VectorImpl.doDestroy
    split <;> rfl
  have hdestroy : doDestroy t z m.heap v l₁.length 0 = .ok m.heap := by
    rw [doDestroy_eq (hbytes (by omega))]
    exact edit_stays hb hitems.allocated hnone
  unfold Shrinks at hfew
  unfold shrink
  rw [hb]
  dsimp only
  rw [hsub, if_neg hfew, except_bind_ok hedit]
  dsimp only
  rw [except_bind_ok hdestroy]
  by_cases hback : l₁.length = v.count
  · rw [if_neg (not_not.mpr hback)]
    rfl
  · have hpos : 0 < l₂.length := by omega
    have hmove : doMoveBackward t z m.heap v l₁.length (wrap (l₁.length + 0))
        (sub v.count l₁.length) = .ok m.heap := by
      have hlen : v.count - l₁.length = l₂.length := by omega
      rw [sub_eq hlt (by omega), hlen, Nat.add_zero, wrap_eq (by omega),
        doMoveBackward_eq (hbytes (by omega)) (hbytes (by omega)) (hbytes (by omega))]
      exact edit_stays hb hitems.allocated
        (doMoveBackward_stays hholds hpos (hstays.resolve_left (List.length_pos_iff.mp hpos)))
    rw [if_pos hback, except_bind_ok hmove]
    rfl

/-- The vector that is left has a buffer that is right, or nothing was to be taken. -/
theorem shrink_spec (hm : m.Wf z) (hv : VecHolds t m.heap v (l₁ ++ xs ++ l₂))
    (hb : v.storage = some b)
    (hroom : Shrinks z m v (l₁.length + l₂.length) →
      RoomRefused t a m v (l₁.length = l₁.length + l₂.length)
          (shrunkBytes z (l₁.length + l₂.length)) ∧ xs = [] ∨
        ¬ RoomRefused t a m v (l₁.length = l₁.length + l₂.length)
            (shrunkBytes z (l₁.length + l₂.length)) ∧
          Fits z (shrunkBytes z (l₁.length + l₂.length)) (l₁.length + l₂.length))
    (hplace : ¬ Shrinks z m v (l₁.length + l₂.length) →
      (xs = [] ∨ Writable z a m v) ∧ (0 < xs.length ∨ l₂ = [] ∨ Stays t)) :
    ∃ r, shrink t g z a m v l₁.length xs.length = .ok r ∧
      (xs = [] ∧ r = (m, v) ∨ Becomes t v m.heap r.1.heap r.2 (l₁ ++ l₂) ∧ r.1.Wf z) := by
  have hlt := hm.count_lt hv
  have hcount := hv.1
  rw [List.length_append, List.length_append] at hcount
  have hsub : sub v.count xs.length = l₁.length + l₂.length := by
    rw [sub_eq hlt (by omega)]
    omega
  have hlen : l₁.length + l₂.length = (l₁ ++ l₂).length := List.length_append.symm
  by_cases hmany : Shrinks z m v (l₁.length + l₂.length)
  · rcases hroom hmany with ⟨hno, hnil⟩ | ⟨hyes, hbytes, hle⟩
    · rw [← hsub] at hmany hno
      exact ⟨_, shrink_refused hv hb hmany hno, .inl ⟨hnil, rfl⟩⟩
    · unfold Shrinks at hmany
      unfold shrink
      rw [hb]
      dsimp only
      rw [hsub, if_pos hmany]
      split
      · rename_i hlast
        have hnil : l₂ = [] := eq_nil_of_length (by omega)
        subst hnil
        rw [List.append_nil] at hv ⊢
        have hfront : l₁.length ≤ shrunkBytes z (l₁.length + ([] : List α).length) / z.bytes :=
          Nat.le_trans (by omega) hle
        rcases editResize_cases (g := g) (a := a) hv hb hlast.2.2 hbytes with
          ⟨hno, -⟩ | ⟨r, hr, hresize⟩
        · refine absurd ⟨hno.1, fun _ b' hb' => ?_⟩ hyes
          obtain rfl : b' = b := Option.some.inj (hb'.symm.trans hb)
          exact hno.2
        · obtain ⟨hmoved, hfilled, hcap⟩ := hr.spec hm hv hb hlast.2.2 hfront
          have hblt := (hv.hasItems hb).2
          refine ⟨_, except_bind_ok hresize, .inr ⟨⟨rfl, .inr ⟨r.2, rfl, hmoved, hfilled⟩⟩,
            (hr.wf hm (by omega) hbytes).1⟩⟩
      · rename_i hmiddle
        have hno : ¬ Refused a m (shrunkBytes z (l₁.length + l₂.length)) := fun hno =>
          hyes ⟨hno, fun hlast => absurd hlast hmiddle⟩
        obtain ⟨m', h₁, h₂, h₃, hnew, hcopy₁, hcopy₂, hrelease, hmoved, hfilled, hwf⟩ :=
          shrink_reallocate (g := g) hm hv hno hbytes hle
        have hnew' : alloc g z a m (wrap (shrunkCapacity (l₁.length + l₂.length) * z.bytes)) =
            .ok (some m') := hnew
        rw [← hb, except_bind_ok hnew']
        dsimp only
        rw [except_bind_ok hcopy₁, except_bind_ok hcopy₂, except_bind_ok hrelease]
        exact ⟨_, rfl, .inr ⟨⟨hlen, .inr ⟨m.heap.next, rfl, hmoved, hfilled⟩⟩, hwf⟩⟩
  · obtain ⟨hown, hok⟩ := hplace hmany
    by_cases hw : Writable z a m v
    · obtain ⟨m', new, hedit, hmoved, hfilled, -, hwf⟩ :=
        editArrayImpl_spec (g := g) hm hv hb hw
      obtain ⟨h₁, h₂, hdestroy, hmove, hmoved', hfilled', hwf'⟩ :=
        shrink_inPlace hwf hmoved hfilled hok v.count
      unfold Shrinks at hmany
      unfold shrink
      rw [hb]
      dsimp only
      rw [hsub, if_neg hmany, except_bind_ok hedit]
      dsimp only
      rw [except_bind_ok hdestroy, except_bind_ok hmove]
      exact ⟨_, rfl, .inr ⟨⟨hlen, .inr ⟨new, rfl, hmoved', hfilled'⟩⟩, hwf'⟩⟩
    · obtain rfl := hown.resolve_right hw
      rw [List.append_nil] at hv
      unfold Writable at hw
      push Not at hw
      obtain ⟨b', hb', hrefs, hno⟩ := hw
      have hsame : v.count = l₁.length + l₂.length := hv.count_eq
      rw [← hsame] at hmany
      exact ⟨_, shrink_kept hm hv hb (hok.resolve_left (Nat.lt_irrefl 0)) hmany
        (editArrayImpl_kept hm hb' hrefs hno), .inl ⟨rfl, rfl⟩⟩

/-! ### Shrinking to any size -/

/-- What there is after a vector was made smaller, right or wrong. -/
inductive ShrunkTo (t : Traits) (z : ItemSize) (a : Allocator) (m : Memory α) (v : Vec) (pos : ℕ)
    (newSize : ℕ) : Memory α × Vec → Prop
  | kept (hb : v.storage = none) : ShrunkTo t z a m v pos newSize (m, v)
  | refused (hshrinks : Shrinks z m v newSize)
      (hno : RoomRefused t a m v (pos = newSize) (shrunkBytes z newSize)) :
      ShrunkTo t z a m v pos newSize (m, v)
  | resized {m' : Memory α} {new : ℕ} (hshrinks : Shrinks z m v newSize)
      (hlt : headerSize + shrunkBytes z newSize < 2 ^ 64)
      (hcap : (m'.heap.buf new).block.cap = shrunkBytes z newSize / z.bytes) :
      ShrunkTo t z a m v pos newSize (m', ⟨some new, newSize⟩)
  | inPlace {m' : Memory α} {v' : Vec} (hfew : ¬ Shrinks z m v newSize)
      (hcount : v'.count = newSize)
      (hshared : ∀ b, v.storage = some b → (m.heap.buf b).refs ≠ 1 →
        Refused a m (capacity z m v * z.bytes) →
          v'.storage = some b ∧ SameBuffers m.heap m'.heap) :
      ShrunkTo t z a m v pos newSize (m', v')

theorem shrink_shrunkTo (hm : m.Wf z) (hv : VecHolds t m.heap v l)
    (hshrink : shrink t g z a m v pos n = .ok r) :
    ShrunkTo t z a m v pos (sub v.count n) r := by
  unfold shrink at hshrink
  split at hshrink
  · rename_i hb
    cases hshrink
    exact .kept hb
  · rename_i b hb
    dsimp only at hshrink
    split at hshrink
    · rename_i hmany
      split at hshrink
      · rename_i hlast
        obtain ⟨o, hresize, hshrink⟩ := except_bind_eq_ok.mp hshrink
        have hnone (hno : Refused a m (shrunkBytes z (sub v.count n)))
            (hrealloc : (m.heap.buf b).refs = 1 → m.size b ≠ shrunkBytes z (sub v.count n) ∧
              wrap (headerSize + shrunkBytes z (sub v.count n)) ≠ 0 ∧
                a.realloc m.heap.next (wrap (headerSize + shrunkBytes z (sub v.count n))) =
                  false) :
            ShrunkTo t z a m v pos (sub v.count n) (m, v) := by
          refine .refused hmany ⟨hno, fun _ b' hb' => ?_⟩
          obtain rfl : b' = b := Option.some.inj (hb'.symm.trans hb)
          exact hrealloc
        by_cases hlt : headerSize + shrunkBytes z (sub v.count n) < 2 ^ 64
        · rcases editResize_cases hv hb hlast.2.2 hlt with ⟨hno, hok⟩ | ⟨r, hr, hok⟩
          · cases hok.symm.trans hresize
            cases hshrink
            exact hnone hno.1 hno.2
          · cases hok.symm.trans hresize
            cases hshrink
            have hblt := (hv.hasItems hb).2
            obtain ⟨hwf, hsize⟩ := hr.wf hm (by omega) hlt
            exact .resized hmany hlt (by rw [hwf.cap, hsize])
        · obtain ⟨hno, rfl⟩ :=
            editResize_wraps hv hb hm shrunkBytes_lt (Nat.not_lt.mp hlt) hresize
          cases hshrink
          exact hnone hno.1 hno.2
      · rename_i hlast
        obtain ⟨o, halloc, hshrink⟩ := except_bind_eq_ok.mp hshrink
        rcases alloc_cases shrunkBytes_lt halloc with ⟨hno, rfl⟩ | ⟨hlt, rfl⟩
        · cases hshrink
          exact .refused hmany ⟨hno, fun hlast' => absurd hlast' hlast⟩
        · obtain ⟨h₁, hfront, hshrink⟩ := except_bind_eq_ok.mp hshrink
          obtain ⟨h₂, hback, hshrink⟩ := except_bind_eq_ok.mp hshrink
          obtain ⟨h₃, hrelease, hshrink⟩ := except_bind_eq_ok.mp hshrink
          cases hshrink
          have hsame := ((ite_sameBuffers hfront sized_doCopy_sameBuffers).caps.trans
            (ite_sameBuffers hback sized_doCopy_sameBuffers).caps).trans
              (releaseStorage_sameCaps hrelease)
          have hwf := (hm.alloc (g := g) hlt).withHeap hsame
          refine .resized hmany hlt ?_
          rw [hwf.cap]
          exact congrArg (· / z.bytes) make_size_self
    · rename_i hfew
      obtain ⟨⟨m₁, v₁⟩, hedit, hshrink⟩ := except_bind_eq_ok.mp hshrink
      obtain ⟨h₁, hdestroy, hshrink⟩ := except_bind_eq_ok.mp hshrink
      obtain ⟨h₂, hmove, hshrink⟩ := except_bind_eq_ok.mp hshrink
      cases hshrink
      obtain ⟨-, -, hkept⟩ := editArrayImpl_inv hm hedit
      have hsame := (sized_doDestroy_sameBuffers hdestroy).trans
        (ite_sameBuffers hmove sized_doMoveBackward_sameBuffers)
      refine .inPlace hfew rfl fun b hb hrefs hno => ?_
      cases hkept b hb hrefs hno
      exact ⟨hb, hsame⟩

/-! ### Nothing to take -/

theorem sized_shrink_self (hm : m.Wf z) (hv : VecHolds t m.heap v (l₁ ++ l₂))
    (hpos : 0 < l₂.length) (hstays : ¬ Stays t) (hfew : ¬ Shrinks z m v v.count) :
    shrink t g z a m v l₁.length 0 = .error .overwritten := by
  have hcount := hv.count_eq
  have hlt := hm.count_lt hv
  have hsub : sub v.count 0 = v.count := by rw [sub_eq hlt (Nat.zero_le _), Nat.sub_zero]
  cases hb : v.storage with
  | none =>
      have hnil := hv.eq_nil hb
      simp only [List.append_eq_nil_iff] at hnil
      rw [hnil.2] at hpos
      cases hpos
  | some b =>
      obtain ⟨m', new, hedit, halloc, hfilled, hwf⟩ :=
        editArrayImpl_filled (g := g) (a := a) hm hv hb
      obtain ⟨-, hholds, hle, -⟩ := hfilled.split
      have hbytes {k : ℕ} (hk : k ≤ l₁.length + l₂.length) : k * z.bytes < 2 ^ 64 :=
        hwf.bytes_lt (Nat.le_trans hk hle)
      have hlen : v.count - l₁.length = l₂.length := by omega
      have hnone : VectorImpl.doDestroy t (m'.heap.buf new).block l₁.length 0 =
          .ok (m'.heap.buf new).block := by
        unfold VectorImpl.doDestroy
        split <;> rfl
      have hdestroy : doDestroy t z m'.heap ⟨some new, v.count⟩ l₁.length 0 = .ok m'.heap := by
        rw [doDestroy_eq (hbytes (by omega))]
        exact edit_stays rfl halloc hnone
      have hmove : doMoveBackward t z m'.heap ⟨some new, v.count⟩ l₁.length
          (wrap (l₁.length + 0)) (sub v.count l₁.length) = .error .overwritten := by
        rw [Nat.add_zero, wrap_eq (by omega), sub_eq hlt (by omega), hlen,
          doMoveBackward_eq (hbytes (by omega)) (hbytes (by omega)) (hbytes (by omega)), edit]
        dsimp only
        rw [except_bind_ok (block_eq halloc), doMoveBackward_self hholds hpos hstays]
        rfl
      unfold Shrinks at hfew
      unfold shrink
      rw [hb]
      dsimp only
      rw [hsub, if_neg hfew, except_bind_ok hedit]
      dsimp only
      rw [except_bind_ok hdestroy, if_pos (by omega), hmove]
      rfl

end Sized

end VectorImpl

end BinderForLinux
