import BinderForLinux.VectorImpl.Rooms

/-!
# Growing in bytes

Either the items have room in what is allocated, and there is place for more of them, or the count
says more than the buffer has.
-/

namespace BinderForLinux

namespace VectorImpl

namespace Sized

open Library Block

variable {α : Type} {t : Traits} {dflt : α} {g : ℕ → ℕ → α} {z : ItemSize} {a : Allocator}
  {m m' : Memory α} {h h' h'' : Heap α} {v v' : Vec} {b bytes i n pos amount newSize : ℕ}
  {l l₁ l₂ xs : List α} {r : Memory α × Vec × Bool}

/-! ### Items in bytes -/

theorem doCopy_eq {d j : ℕ} {src : Option ℕ} (hi : i * z.bytes < 2 ^ 64)
    (hj : j * z.bytes < 2 ^ 64) (hn : n * z.bytes < 2 ^ 64) :
    doCopy t z h d i src j n = VectorImpl.doCopy t h d i src j n := by
  unfold doCopy
  rw [place_eq hi, except_bind_ok rfl, place_eq hj, except_bind_ok rfl, span_eq hn]

theorem doMoveForward_eq {d s : ℕ} (hd : d * z.bytes < 2 ^ 64) (hs : s * z.bytes < 2 ^ 64)
    (hn : n * z.bytes < 2 ^ 64) :
    doMoveForward t z h v d s n = edit h v fun x => VectorImpl.doMoveForward t x d s n := by
  unfold doMoveForward
  rw [place_eq hd, except_bind_ok rfl, place_eq hs, except_bind_ok rfl, span_eq hn]

theorem sized_doCopy_sameBuffers {d j : ℕ} {src : Option ℕ}
    (hcopy : doCopy t z h d i src j n = .ok h') : SameBuffers h h' := by
  obtain ⟨i', -, hcopy⟩ := except_bind_eq_ok.mp hcopy
  obtain ⟨j', -, hcopy⟩ := except_bind_eq_ok.mp hcopy
  exact doCopy_sameBuffers hcopy

theorem sized_doMoveForward_sameBuffers {d s : ℕ}
    (hmove : doMoveForward t z h v d s n = .ok h') : SameBuffers h h' := by
  obtain ⟨d', -, hmove⟩ := except_bind_eq_ok.mp hmove
  obtain ⟨s', -, hmove⟩ := except_bind_eq_ok.mp hmove
  exact edit_sameBuffers (fun _ _ => doMoveForward_cap) hmove

/-! ### Growing -/

def grownBytes (z : ItemSize) (newSize : ℕ) : ℕ := wrap (grownCapacity newSize * z.bytes)

/-- What there is after a vector was made larger, if the size is right. -/
inductive Grown (t : Traits) (z : ItemSize) (m : Memory α) (v : Vec) (l₁ : List α) (n : ℕ)
    (l₂ : List α) : Memory α × Vec × Bool → Prop
  | refused : Grown t z m v l₁ n l₂ (m, v, false)
  | kept (hn : n = 0) : Grown t z m v l₁ n l₂ (m, v, hasLocation z m v l₁.length)
  | gapped {m' : Memory α} {new : ℕ} (hmoved : Moved v m.heap m'.heap new)
      (hgapped : Gapped t (m'.heap.buf new).block l₁ n l₂) (hwf : m'.Wf z) :
      Grown t z m v l₁ n l₂ (m', ⟨some new, l₁.length + n + l₂.length⟩,
        hasLocation z m' ⟨some new, l₁.length + n + l₂.length⟩ l₁.length)

theorem reallocate_spec' (hm : m.Wf z) (hv : VecHolds t m.heap v (l₁ ++ l₂))
    (hlt : headerSize + bytes < 2 ^ 64) (hroom : l₁.length + n + l₂.length ≤ bytes / z.bytes) :
    ∃ r, grow.reallocate t g z a m v l₁.length n bytes (l₁.length + n + l₂.length) = .ok r ∧
      Grown t z m v l₁ n l₂ r := by
  by_cases hno : Refused a m bytes
  · have hnone := alloc_refused (g := g) (z := z) hno
    refine ⟨_, ?_, .refused⟩
    unfold grow.reallocate
    rw [except_bind_ok hnone]
  · have hcount := hv.count_eq
    have hback : v.count - l₁.length = l₂.length := by omega
    have hnew := alloc_eq (g := g) (z := z) hno hlt
    obtain ⟨h₁, h₂, h₃, hcopy₁, hcopy₂, hrelease, hmoved, hgapped, -⟩ :=
      reallocate_spec g (c := l₁.length ≠ 0) (d := l₁.length ≠ v.count) hv
        hv.source_front hv.source_back eq_nil_of_length
        (fun hsame => eq_nil_of_length (by omega)) hroom
    have hbytes {k : ℕ} (hk : k ≤ l₁.length + n + l₂.length) : k * z.bytes < 2 ^ 64 := by
      have hle := (Nat.le_div_iff_mul_le z.pos).mp (Nat.le_trans hk hroom)
      omega
    have hplace : l₁.length + n < 2 ^ 64 := by
      have hone := Nat.mul_le_mul_left (l₁.length + n) z.pos
      have := hbytes (k := l₁.length + n) (by omega)
      omega
    have hsame₁ : SameCaps (VectorImpl.alloc g m.heap (bytes / z.bytes)) h₁ := by
      split at hcopy₁
      · exact (doCopy_sameBuffers hcopy₁).caps
      · cases hcopy₁
        exact fun _ => rfl
    have hsame₂ : SameCaps h₁ h₂ := by
      split at hcopy₂
      · exact (doCopy_sameBuffers hcopy₂).caps
      · cases hcopy₂
        exact fun _ => rfl
    refine ⟨_, ?_, .gapped hmoved hgapped ((hm.alloc hlt).withHeap
      ((hsame₁.trans hsame₂).trans (releaseStorage_sameCaps hrelease)))⟩
    unfold grow.reallocate
    rw [except_bind_ok hnew]
    dsimp only
    rw [doCopy_eq (hbytes (by omega)) (hbytes (by omega)) (hbytes (by omega)), hback]
    refine (except_bind_ok hcopy₁).trans ?_
    rw [wrap_eq hplace, doCopy_eq (hbytes (by omega)) (hbytes (by omega)) (hbytes (by omega))]
    refine (except_bind_ok hcopy₂).trans ?_
    rw [except_bind_ok hrelease]
    rfl

/-! ### Growing in place -/

theorem setBlock_eq_self : h.setBlock b (h.buf b).block = h := by
  unfold Heap.setBlock Heap.setBuf
  rw [Function.update_eq_self]

theorem edit_stays {f : Block α → Except Fault (Block α)} (hb : v.storage = some b)
    (halloc : (h.buf b).allocated = true) (hf : f (h.buf b).block = .ok (h.buf b).block) :
    edit h v f = .ok h := by
  rw [edit_eq hb halloc hf, setBlock_eq_self]

theorem Memory.Wf.count_lt (hm : m.Wf z) (hv : VecHolds t m.heap v l) : v.count < 2 ^ 64 := by
  cases hb : v.storage with
  | none =>
      rw [hv.1, hv.eq_nil hb]
      exact Nat.two_pow_pos 64
  | some b =>
      have hle := (hv.hasItems hb).1.filled.le
      have hbytes := hm.bytes_lt hle
      have hone := Nat.mul_le_mul_left l.length z.pos
      rw [hv.1]
      omega

theorem grow_kept (hm : m.Wf z) (hv : VecHolds t m.heap v (l₁ ++ l₂))
    (hstays : l₂ = [] ∨ Stays t) (hedit : editArrayImpl t g z a m v = .ok (m, v)) :
    grow t g z a m v l₁.length 0 = .ok (m, v, hasLocation z m v l₁.length) := by
  have hcount := hv.count_eq
  have hsum : wrap (v.count + 0) = v.count := wrap_eq (hm.count_lt hv)
  have hcap : ¬ capacity z m v < v.count := by
    rw [hm.capacity_eq]
    cases hb : v.storage with
    | none =>
        rw [hv.1, hv.eq_nil hb]
        exact Nat.not_lt_zero _
    | some b =>
        obtain ⟨hcapacity, hle⟩ := hv.capacity hb
        rw [hcapacity, hv.1]
        omega
  unfold grow
  dsimp only
  rw [hsum, if_neg hcap, except_bind_ok hedit]
  dsimp only
  by_cases hback : l₁.length = v.count
  · rw [if_neg (not_not.mpr hback)]
    rfl
  · have hpos : 0 < l₂.length := by omega
    have hstays := hstays.resolve_left (List.length_pos_iff.mp hpos)
    cases hb : v.storage with
    | none =>
        have hnil := hv.eq_nil hb
        simp only [List.append_eq_nil_iff] at hnil
        rw [hnil.2] at hpos
        cases hpos
    | some b =>
        obtain ⟨hitems, -⟩ := hv.hasItems hb
        obtain ⟨-, hholds, hle, -⟩ := hitems.filled.split
        have hplace {k : ℕ} (hk : k ≤ l₁.length + l₂.length) : k * z.bytes < 2 ^ 64 :=
          hm.bytes_lt (Nat.le_trans hk hle)
        have hmove : doMoveForward t z m.heap v (wrap (l₁.length + 0)) l₁.length
            (v.count - l₁.length) = .ok m.heap := by
          have hlt := hm.count_lt hv
          have hlen : v.count - l₁.length = l₂.length := by omega
          rw [Nat.add_zero, wrap_eq (by omega), hlen, doMoveForward_eq (hplace (by omega))
            (hplace (by omega)) (hplace (by omega))]
          exact edit_stays hb hitems.allocated (doMoveForward_stays hholds hpos hstays)
        rw [if_pos hback, except_bind_ok hmove, ← hb]
        rfl

/-- The sum does not wrap, and the items have room or the vector is left as it is. -/
theorem grow_spec (hm : m.Wf z) (hv : VecHolds t m.heap v (l₁ ++ l₂))
    (hsum : v.count + n < 2 ^ 64)
    (hroom : capacity z m v < v.count + n →
      Fits z (grownBytes z (v.count + n)) (v.count + n) ∨
        RoomRefused t a m v (v.count = l₁.length) (grownBytes z (v.count + n)))
    (hplace : ¬ capacity z m v < v.count + n →
      (n = 0 ∨ Writable z a m v) ∧ (0 < n ∨ l₂ = [] ∨ Stays t)) :
    ∃ r, grow t g z a m v l₁.length n = .ok r ∧ Grown t z m v l₁ n l₂ r := by
  have hcount := hv.count_eq
  have hsize : v.count + n = l₁.length + n + l₂.length := by omega
  by_cases hmore : capacity z m v < v.count + n
  · have hrealloc : ∃ r, grow.reallocate t g z a m v l₁.length n
        (grownBytes z (v.count + n)) (v.count + n) = .ok r ∧ Grown t z m v l₁ n l₂ r := by
      rcases hroom hmore with ⟨hlt, hle⟩ | hno
      · rw [hsize] at hle ⊢
        exact reallocate_spec' hm hv (by rwa [hsize] at hlt) hle
      · have hnone := alloc_refused (g := g) (z := z) hno.1
        refine ⟨_, ?_, .refused⟩
        unfold grow.reallocate
        rw [except_bind_ok hnone]
    unfold grow
    dsimp only
    rw [wrap_eq hsum, if_pos hmore]
    cases hb : v.storage with
    | none => exact hrealloc
    | some b =>
        dsimp only
        split
        · rename_i hlast
          have hnil : l₂ = [] := eq_nil_of_length (by omega)
          subst hnil
          have hroom' := hroom hmore
          rw [hsize] at hroom' ⊢
          have hresized : editResize t g z a m b
              (grownBytes z (l₁.length + n + ([] : List α).length)) = .ok none ∨
              Fits z (grownBytes z (l₁.length + n + ([] : List α).length))
                (l₁.length + n + ([] : List α).length) ∧
              ∃ r, Resized g z m b (grownBytes z (l₁.length + n + ([] : List α).length)) r ∧
                editResize t g z a m b
                  (grownBytes z (l₁.length + n + ([] : List α).length)) = .ok (some r) := by
            rcases hroom' with ⟨hlt, hle⟩ | hno
            · exact (editResize_cases hv hb hlast.2.2 hlt).imp And.right (And.intro ⟨hlt, hle⟩)
            · exact .inl (editResize_refused hv hb hno.1 (hno.2 hlast b hb))
          rcases hresized with hresize | ⟨⟨hlt, hle⟩, r, hr, hresize⟩
          · exact ⟨_, except_bind_ok hresize, .refused⟩
          · have hfront : l₁.length ≤ grownBytes z (l₁.length + n + ([] : List α).length) /
                z.bytes := Nat.le_trans (by omega) hle
            obtain ⟨hmoved, hfilled, hcap⟩ := hr.spec hm hv hb hlast.2.2 hfront
            have hblt := (hv.hasItems hb).2
            refine ⟨_, except_bind_ok hresize, ?_⟩
            exact .gapped hmoved (hfilled.gapLast (by rw [hcap]; exact hle))
              (hr.wf hm (by omega) hlt).1
        · exact hrealloc
  · obtain ⟨hown, hok⟩ := hplace hmore
    by_cases hw : Writable z a m v
    · cases hb : v.storage with
      | none =>
          have hnil := hv.eq_nil hb
          simp only [List.append_eq_nil_iff] at hnil
          have hcapacity : capacity z m v = 0 := by
            unfold capacity
            rw [hb]
          have hzero : n = 0 := by omega
          subst hzero
          exact ⟨_, grow_kept hm hv (.inl hnil.2) (editArrayImpl_none hb), .kept rfl⟩
      | some b =>
          obtain ⟨m', new, hedit, hmoved, hfilled, hcap, hwf⟩ :=
            editArrayImpl_spec (g := g) hm hv hb hw
          have hfits : l₁.length + n + l₂.length ≤ (m'.heap.buf new).block.cap := by
            rw [hcap, hm.cap b, ← capacity_of_storage hb]
            omega
          have hbytes {k : ℕ} (hk : k ≤ l₁.length + n + l₂.length) : k * z.bytes < 2 ^ 64 :=
            hwf.bytes_lt (Nat.le_trans hk hfits)
          unfold grow
          dsimp only
          rw [wrap_eq hsum, if_neg hmore, except_bind_ok hedit]
          dsimp only
          by_cases hback : l₁.length = v.count
          · have hnil : l₂ = [] := eq_nil_of_length (by omega)
            subst hnil
            rw [List.append_nil] at hfilled
            rw [if_neg (not_not.mpr hback), except_bind_ok rfl, hsize]
            exact ⟨_, rfl, .gapped hmoved (hfilled.gapLast (by simpa using hfits))
              (hwf.withHeap fun _ => rfl)⟩
          · have hpos : 0 < l₂.length := by omega
            have hok' : 0 < n ∨ Stays t := hok.imp_right fun h => h.resolve_left
              (List.length_pos_iff.mp hpos)
            have hlen : v.count - l₁.length = l₂.length := by omega
            obtain ⟨x, hmove, hgapped⟩ := hfilled.makeGap hfits hpos hok'
            obtain ⟨h'', hset, hmoved', hblock⟩ := hmoved.edit
              (f := fun x => VectorImpl.doMoveForward t x (l₁.length + n) l₁.length l₂.length)
              v.count hmove
            have hset' : doMoveForward t z m'.heap ⟨some new, v.count⟩ (wrap (l₁.length + n))
                l₁.length (v.count - l₁.length) = .ok h'' := by
              rw [wrap_eq (by omega), hlen, doMoveForward_eq (hbytes (by omega))
                (hbytes (by omega)) (hbytes (by omega))]
              exact hset
            rw [← hblock] at hgapped
            rw [if_pos hback, except_bind_ok hset', hsize]
            exact ⟨_, rfl, .gapped hmoved' hgapped
              (hwf.withHeap (sized_doMoveForward_sameBuffers hset').caps)⟩
    · obtain rfl := hown.resolve_right hw
      unfold Writable at hw
      push Not at hw
      obtain ⟨b, hb, hrefs, hno⟩ := hw
      exact ⟨_, grow_kept hm hv (hok.resolve_left (Nat.lt_irrefl 0))
        (editArrayImpl_kept hm hb hrefs hno), .kept rfl⟩

/-! ### Growing to any size -/

/-- What there is after a vector was made larger, right or wrong. -/
inductive GrownTo (t : Traits) (z : ItemSize) (a : Allocator) (m : Memory α) (v : Vec) (pos : ℕ)
    (newSize : ℕ) : Memory α × Vec × Bool → Prop
  | refused (hmore : capacity z m v < newSize)
      (hno : RoomRefused t a m v (v.count = pos) (grownBytes z newSize)) :
      GrownTo t z a m v pos newSize (m, v, false)
  | resized {m' : Memory α} {new : ℕ} {loc : Bool} (hmore : capacity z m v < newSize)
      (hlt : headerSize + grownBytes z newSize < 2 ^ 64)
      (hcap : (m'.heap.buf new).block.cap = grownBytes z newSize / z.bytes) :
      GrownTo t z a m v pos newSize (m', ⟨some new, newSize⟩, loc)
  | inPlace {m' : Memory α} {v' : Vec} {loc : Bool} (hroom : ¬ capacity z m v < newSize)
      (hcount : v'.count = newSize)
      (hshared : ∀ b, v.storage = some b → (m.heap.buf b).refs ≠ 1 →
        Refused a m (capacity z m v * z.bytes) →
          v'.storage = some b ∧ m'.size = m.size ∧ SameBuffers m.heap m'.heap) :
      GrownTo t z a m v pos newSize (m', v', loc)

theorem ite_sameBuffers {c : Prop} [Decidable c] {x : Except Fault (Heap α)}
    (hite : (if c then x else .ok h) = .ok h') (hx : x = .ok h' → SameBuffers h h') :
    SameBuffers h h' := by
  split at hite
  · exact hx hite
  · cases hite
    exact .refl

theorem grownBytes_lt : grownBytes z newSize < 2 ^ 64 := wrap_lt

theorem reallocate_grownTo (hm : m.Wf z) (hmore : capacity z m v < newSize)
    (hsplit : ∀ b, v.storage = some b →
      ¬ (v.count = pos ∧ t.trivialCopy = true ∧ t.trivialDtor = true))
    (hgrow : grow.reallocate t g z a m v pos n (grownBytes z newSize) newSize = .ok r) :
    r.1.Wf z ∧ GrownTo t z a m v pos newSize r := by
  obtain ⟨o, halloc, hgrow⟩ := except_bind_eq_ok.mp hgrow
  rcases alloc_cases grownBytes_lt halloc with ⟨hno, rfl⟩ | ⟨hlt, rfl⟩
  · cases hgrow
    exact ⟨hm, .refused hmore ⟨hno, fun hlast b hb => absurd hlast (hsplit b hb)⟩⟩
  · obtain ⟨h₁, hfront, hgrow⟩ := except_bind_eq_ok.mp hgrow
    obtain ⟨h₂, hback, hgrow⟩ := except_bind_eq_ok.mp hgrow
    obtain ⟨h₃, hrelease, hgrow⟩ := except_bind_eq_ok.mp hgrow
    cases hgrow
    have hsame := ((ite_sameBuffers hfront sized_doCopy_sameBuffers).caps.trans
      (ite_sameBuffers hback sized_doCopy_sameBuffers).caps).trans
        (releaseStorage_sameCaps hrelease)
    have hwf := (hm.alloc (g := g) hlt).withHeap hsame
    refine ⟨hwf, .resized hmore hlt ?_⟩
    rw [hwf.cap]
    exact congrArg (· / z.bytes) make_size_self

theorem editResize_grownTo (hm : m.Wf z) (hv : VecHolds t m.heap v l) (hb : v.storage = some b)
    (hlast : v.count = pos ∧ t.trivialCopy = true ∧ t.trivialDtor = true)
    (hmore : capacity z m v < newSize) {o : Option (Memory α × ℕ)}
    (hresize : editResize t g z a m b (grownBytes z newSize) = .ok o) :
    (∀ r, o = some r → r.1.Wf z ∧
        ∀ loc, GrownTo t z a m v pos newSize (r.1, ⟨some r.2, newSize⟩, loc)) ∧
      (o = none → GrownTo t z a m v pos newSize (m, v, false)) := by
  have hnone (hno : Refused a m (grownBytes z newSize))
      (hrealloc : (m.heap.buf b).refs = 1 → m.size b ≠ grownBytes z newSize ∧
        wrap (headerSize + grownBytes z newSize) ≠ 0 ∧
          a.realloc m.heap.next (wrap (headerSize + grownBytes z newSize)) = false) :
      GrownTo t z a m v pos newSize (m, v, false) := by
    refine .refused hmore ⟨hno, fun _ b' hb' => ?_⟩
    obtain rfl : b' = b := Option.some.inj (hb'.symm.trans hb)
    exact hrealloc
  by_cases hlt : headerSize + grownBytes z newSize < 2 ^ 64
  · rcases editResize_cases hv hb hlast.2.2 hlt with ⟨hno, hok⟩ | ⟨r, hr, hok⟩
    · cases hok.symm.trans hresize
      exact ⟨fun r hr => (by cases hr), fun _ => hnone hno.1 hno.2⟩
    · cases hok.symm.trans hresize
      refine ⟨fun r' hr' => ?_, fun hnone => by cases hnone⟩
      cases hr'
      have hblt := (hv.hasItems hb).2
      obtain ⟨hwf, hsize⟩ := hr.wf hm (by omega) hlt
      exact ⟨hwf, fun loc => .resized hmore hlt (by rw [hwf.cap, hsize])⟩
  · obtain ⟨hno, rfl⟩ := editResize_wraps hv hb hm grownBytes_lt (Nat.not_lt.mp hlt) hresize
    exact ⟨fun r hr => (by cases hr), fun _ => hnone hno.1 hno.2⟩

theorem editArrayImpl_inv (hm : m.Wf z) {r : Memory α × Vec}
    (hedit : editArrayImpl t g z a m v = .ok r) :
    r.1.Wf z ∧ r.2.count = v.count ∧ ∀ b, v.storage = some b → (m.heap.buf b).refs ≠ 1 →
      Refused a m (capacity z m v * z.bytes) → r = (m, v) := by
  cases hb : v.storage with
  | none =>
      rw [editArrayImpl_none hb] at hedit
      cases hedit
      exact ⟨hm, rfl, fun b hb' => by cases hb'⟩
  | some b =>
      by_cases hrefs : (m.heap.buf b).refs = 1
      · unfold editArrayImpl at hedit
        rw [hb] at hedit
        dsimp only at hedit
        rw [if_pos hrefs] at hedit
        cases hedit
        refine ⟨hm, rfl, fun b' hb' hne => ?_⟩
        cases hb'
        exact absurd hrefs hne
      · obtain ⟨hlt, -⟩ := hm.capacity_bytes hb
        by_cases hno : Refused a m (capacity z m v * z.bytes)
        · rw [editArrayImpl_kept hm hb hrefs hno] at hedit
          cases hedit
          exact ⟨hm, rfl, fun _ _ _ _ => rfl⟩
        · have hnew := alloc_eq (g := g) (z := z) hno hlt
          unfold editArrayImpl at hedit
          rw [hb] at hedit
          dsimp only at hedit
          rw [if_neg hrefs, wrap_eq (Nat.lt_of_le_of_lt (Nat.le_add_left _ _) hlt),
            except_bind_ok hnew] at hedit
          obtain ⟨h₁, hcopy, hedit⟩ := except_bind_eq_ok.mp hedit
          obtain ⟨h₂, hrelease, hedit⟩ := except_bind_eq_ok.mp hedit
          cases hedit
          refine ⟨(hm.alloc hlt).withHeap ((sized_doCopy_sameBuffers hcopy).caps.trans
            (releaseStorage_sameCaps hrelease)), rfl, fun _ _ _ hno' => absurd hno' hno⟩

theorem grow_grownTo (hm : m.Wf z) (hv : VecHolds t m.heap v l)
    (hgrow : grow t g z a m v pos n = .ok r) :
    r.1.Wf z ∧ GrownTo t z a m v pos (wrap (v.count + n)) r := by
  unfold grow at hgrow
  dsimp only at hgrow
  split at hgrow
  · rename_i hmore
    split at hgrow
    · rename_i b hb
      split at hgrow
      · rename_i hlast
        obtain ⟨o, hresize, hgrow⟩ := except_bind_eq_ok.mp hgrow
        obtain ⟨hsome, hnone⟩ := editResize_grownTo hm hv hb hlast hmore hresize
        split at hgrow
        · cases hgrow
          obtain ⟨hwf, hgrown⟩ := hsome _ rfl
          exact ⟨hwf, hgrown _⟩
        · cases hgrow
          exact ⟨hm, hnone rfl⟩
      · rename_i hlast
        exact reallocate_grownTo hm hmore (fun _ _ => hlast) hgrow
    · rename_i hb
      exact reallocate_grownTo hm hmore (fun b hb' => by rw [hb] at hb'; cases hb') hgrow
  · rename_i hroom
    obtain ⟨⟨m₁, v₁⟩, hedit, hgrow⟩ := except_bind_eq_ok.mp hgrow
    obtain ⟨h₁, hmove, hgrow⟩ := except_bind_eq_ok.mp hgrow
    cases hgrow
    obtain ⟨hwf, -, hkept⟩ := editArrayImpl_inv hm hedit
    have hsame := ite_sameBuffers hmove sized_doMoveForward_sameBuffers
    refine ⟨hwf.withHeap hsame.caps, .inPlace hroom rfl fun b hb hrefs hno => ?_⟩
    cases hkept b hb hrefs hno
    exact ⟨hb, rfl, hsame⟩

/-! ### Nothing to put -/

/-- The vector gets its buffer for itself or goes on with what it shares, with the same items. -/
theorem editArrayImpl_filled (hm : m.Wf z) (hv : VecHolds t m.heap v l) (hb : v.storage = some b) :
    ∃ m' new, editArrayImpl t g z a m v = .ok (m', { v with storage := some new }) ∧
      (m'.heap.buf new).allocated = true ∧ Filled t (m'.heap.buf new).block l ∧ m'.Wf z := by
  by_cases hw : Writable z a m v
  · obtain ⟨m', new, hedit, hmoved, hfilled, -, hwf⟩ :=
      editArrayImpl_spec (g := g) hm hv hb hw
    exact ⟨m', new, hedit, hmoved.allocated, hfilled, hwf⟩
  · unfold Writable at hw
    push Not at hw
    obtain ⟨b', hb', hrefs, hno⟩ := hw
    obtain rfl : b' = b := Option.some.inj (hb'.symm.trans hb)
    obtain ⟨hitems, -⟩ := hv.hasItems hb
    refine ⟨m, b', ?_, hitems.allocated, hitems.filled, hm⟩
    rw [editArrayImpl_kept hm hb hrefs hno, ← hb]

theorem sized_grow_self (hm : m.Wf z) (hv : VecHolds t m.heap v (l₁ ++ l₂))
    (hpos : 0 < l₂.length) (hstays : ¬ Stays t) (hroom : ¬ capacity z m v < v.count) :
    grow t g z a m v l₁.length 0 = .error .overwritten := by
  have hcount := hv.count_eq
  have hlt := hm.count_lt hv
  cases hb : v.storage with
  | none =>
      have hnil := hv.eq_nil hb
      simp only [List.append_eq_nil_iff] at hnil
      rw [hnil.2] at hpos
      cases hpos
  | some b =>
      obtain ⟨m', new, hedit, halloc, hfilled, hwf⟩ :=
        editArrayImpl_filled (g := g) (a := a) hm hv hb
      obtain ⟨-, hholds, hle, -⟩ := hfilled.split
      have hbytes {k : ℕ} (hk : k ≤ l₁.length + l₂.length) : k * z.bytes < 2 ^ 64 :=
        hwf.bytes_lt (Nat.le_trans hk hle)
      have hlen : v.count - l₁.length = l₂.length := by omega
      have hmove : doMoveForward t z m'.heap ⟨some new, v.count⟩ (wrap (l₁.length + 0)) l₁.length
          (v.count - l₁.length) = .error .overwritten := by
        rw [Nat.add_zero, wrap_eq (by omega), hlen, doMoveForward_eq (hbytes (by omega))
          (hbytes (by omega)) (hbytes (by omega)), edit]
        dsimp only
        rw [except_bind_ok (block_eq halloc), doMoveForward_self hholds hpos hstays]
        rfl
      unfold grow
      dsimp only
      rw [Nat.add_zero, wrap_eq hlt, if_neg hroom, except_bind_ok hedit]
      dsimp only
      rw [if_pos (by omega), hmove]
      rfl

end Sized

end VectorImpl

end BinderForLinux
