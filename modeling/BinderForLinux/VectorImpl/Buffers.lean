import BinderForLinux.VectorImpl.Blocks

/-!
# Letting go of a buffer

A vector that is changed either is the only one that has its buffer, or goes to a new buffer and
lets go of the old one. `Moved` says this, and nothing more of the other buffers; every operation
that changes items has it.
-/

namespace BinderForLinux

namespace VectorImpl

open Library Block

variable {α : Type} {t : Traits} {dflt : α} (junk : ℕ → ℕ → α) {h h' h'' : Heap α} {v : Vec}
  {m m' : Block α} {b b' new n cap : ℕ} {l l₁ l₂ xs : List α} {x : SharedBuffer α}

/-- What is left of a buffer that one vector let go of. -/
def Released (old new : SharedBuffer α) : Prop :=
  if old.refs = 1 then new.allocated = false else new = { old with refs := old.refs - 1 }

/-- The vector let go of its buffer; the other buffers but `new` stay. -/
def LetGo (v : Vec) (new : ℕ) (h h' : Heap α) : Prop :=
  ∀ b, b ≠ new → if v.storage = some b then Released (h.buf b) (h'.buf b) else h'.buf b = h.buf b

/-- The vector has the buffer `new` for itself, which is its old one or a new one. -/
structure Moved (v : Vec) (h h' : Heap α) (new : ℕ) : Prop where
  allocated : (h'.buf new).allocated = true
  refs : (h'.buf new).refs = 1
  others : (v.storage = some new ∧ (h.buf new).refs = 1 ∧ h'.next = h.next ∧
      ∀ b, b ≠ new → h'.buf b = h.buf b) ∨
    new = h.next ∧ h'.next = h.next + 1 ∧ LetGo v new h h'

/-- The buffer has the items of the list, and somebody has the buffer. -/
structure HasItems (t : Traits) (x : SharedBuffer α) (l : List α) : Prop where
  allocated : x.allocated = true
  refs : 0 < x.refs
  filled : Filled t x.block l

def VecHolds (t : Traits) (h : Heap α) (v : Vec) (l : List α) : Prop :=
  v.count = l.length ∧
    match v.storage with
    | none => l = []
    | some b => HasItems t (h.buf b) l ∧ b < h.next

theorem VecHolds.hasItems (hv : VecHolds t h v l) (hb : v.storage = some b) :
    HasItems t (h.buf b) l ∧ b < h.next := by
  obtain ⟨-, hstorage⟩ := hv
  rw [hb] at hstorage
  exact hstorage

theorem VecHolds.eq_nil (hv : VecHolds t h v l) (hb : v.storage = none) : l = [] := by
  obtain ⟨-, hstorage⟩ := hv
  rwa [hb] at hstorage

/-! ### Changing one buffer -/

@[simp] theorem setBuf_self : (h.setBuf b x).buf b = x := Function.update_self ..

theorem setBuf_of_ne (hne : b' ≠ b) : (h.setBuf b x).buf b' = h.buf b' :=
  Function.update_of_ne hne ..

@[simp] theorem setBlock_self : (h.setBlock b m).buf b = { h.buf b with block := m } :=
  Function.update_self ..

theorem setBlock_of_ne (hne : b' ≠ b) : (h.setBlock b m).buf b' = h.buf b' :=
  Function.update_of_ne hne ..

theorem block_eq (hb : (h.buf b).allocated = true) : h.block b = .ok (h.buf b).block := if_pos hb

theorem Moved.setBlock (hmoved : Moved v h h' new) : Moved v h (h'.setBlock new m) new := by
  refine ⟨by rw [setBlock_self]; exact hmoved.allocated, by rw [setBlock_self]; exact hmoved.refs,
    ?_⟩
  rcases hmoved.others with ⟨hold, hrefs, hnext, hrest⟩ | ⟨hnew, hnext, hrest⟩
  · exact .inl ⟨hold, hrefs, hnext, fun b hb => (setBlock_of_ne hb).trans (hrest b hb)⟩
  · refine .inr ⟨hnew, hnext, fun b hb => ?_⟩
    rw [setBlock_of_ne hb]
    exact hrest b hb

theorem Moved.edit {f : Block α → Except Fault (Block α)} (hmoved : Moved v h h' new) (k : ℕ)
    (hf : f (h'.buf new).block = .ok m) :
    ∃ h'', edit h' ⟨some new, k⟩ f = .ok h'' ∧ Moved v h h'' new ∧ (h''.buf new).block = m := by
  refine ⟨h'.setBlock new m, ?_, hmoved.setBlock, by rw [setBlock_self]⟩
  unfold VectorImpl.edit
  dsimp only
  rw [except_bind_ok (block_eq hmoved.allocated), except_bind_ok hf]

/-! ### Buffers that are let go of -/

theorem alloc_self : (alloc junk h cap).buf h.next =
    ⟨1, ⟨cap, fun k => ⟨junk h.next k, false⟩⟩, true⟩ := setBuf_self

theorem alloc_of_ne (hne : b ≠ h.next) : (alloc junk h cap).buf b = h.buf b := setBuf_of_ne hne

theorem alloc_raw : Raw t.trivialDtor ((alloc junk h cap).buf h.next).block 0 cap := by
  rw [alloc_self]
  exact raw_iff.mpr fun k hk => ⟨by dsimp only; omega, .inr rfl⟩

theorem canHold_of_raw (hraw : Raw t.trivialDtor m 0 m.cap) :
    ∀ k < m.cap, m.CanHold t.trivialDtor k := fun k hk => by
  have := (raw_iff.mp hraw k hk).2
  rwa [Nat.zero_add] at this

theorem LetGo.of_buf {old : SharedBuffer α} (hb : v.storage = some b)
    (hold : Released (h.buf b) old) (hbuf : h'.buf b = old)
    (hrest : ∀ b', b' ≠ b → b' ≠ new → h'.buf b' = h.buf b') : LetGo v new h h' := by
  intro b' hnew
  by_cases heq : b' = b
  · rw [heq, if_pos hb, hbuf]
    exact hold
  · rw [if_neg (fun hsome => heq (Option.some.inj (hsome.symm.trans hb)))]
    exact hrest b' heq hnew

theorem dealloc_eq (hrefs : (h.buf b).refs = 0) (hb : (h.buf b).allocated = true)
    (hraw : Raw t.trivialDtor (h.buf b).block 0 (h.buf b).block.cap) :
    dealloc t h b = .ok (h.setBuf b { h.buf b with allocated := false }) := by
  rw [dealloc, if_neg (not_not.mpr hrefs), free, if_pos hb, if_pos (canHold_of_raw hraw)]

/-- The items of a buffer that nobody else has are destroyed before it is freed. -/
theorem releaseStorage_spec (hv : VecHolds t h v l) (hnew : v.storage ≠ some new) :
    ∃ h', releaseStorage t h v = .ok h' ∧ h'.next = h.next ∧ LetGo v new h h' ∧
      h'.buf new = h.buf new := by
  unfold releaseStorage
  cases hb : v.storage with
  | none =>
      refine ⟨h, rfl, rfl, fun b _ => ?_, rfl⟩
      rw [if_neg (by rw [hb]; exact fun heq => by cases heq)]
  | some b =>
      obtain ⟨hitems, -⟩ := hv.hasItems hb
      have hne : new ≠ b := fun heq => hnew (heq ▸ hb)
      have hrelease : release t h b true =
          .ok (h.setBuf b { h.buf b with refs := (h.buf b).refs - 1 }, (h.buf b).refs) := by
        rw [release, if_pos hitems.allocated]
        dsimp only
        rw [if_neg (fun hfalse => by cases hfalse.2)]
      dsimp only
      rw [except_bind_ok hrelease]
      dsimp only
      split
      · rename_i hone
        obtain ⟨m', hdestroy, hraw, hsame⟩ := doDestroy_spec (t := t) hitems.filled.items
        rw [← hv.1] at hdestroy
        have hall : Raw t.trivialDtor m' 0 m'.cap := by
          have hrest := hitems.filled.rest.frame hsame (.inr (by omega))
          have hsum : m'.cap = l.length + ((h.buf b).block.cap - l.length) := by
            rw [hsame.cap]
            have := hitems.filled.le
            omega
          rw [hsum]
          exact raw_add.mpr ⟨hraw, by rwa [Nat.zero_add]⟩
        have hblock : (h.setBuf b { h.buf b with refs := (h.buf b).refs - 1 }).block b =
            .ok (h.buf b).block := by
          rw [Heap.block, setBuf_self, if_pos hitems.allocated]
        rw [except_bind_ok hblock, except_bind_ok hdestroy]
        generalize hk : (h.setBuf b { h.buf b with refs := (h.buf b).refs - 1 }).setBlock b m' = k
        have hkb : k.buf b = ⟨0, m', true⟩ := by
          rw [← hk, setBlock_self, setBuf_self, hone]
          change (⟨0, m', (h.buf b).allocated⟩ : SharedBuffer α) = _
          rw [hitems.allocated]
        have hrest (b' : ℕ) (hb' : b' ≠ b) : k.buf b' = h.buf b' := by
          rw [← hk, setBlock_of_ne hb', setBuf_of_ne hb']
        have hnext : k.next = h.next := by
          rw [← hk]
          rfl
        have hdealloc : dealloc t k b = .ok (k.setBuf b { k.buf b with allocated := false }) :=
          dealloc_eq (by rw [hkb]) (by rw [hkb]) (by rw [hkb]; exact hall)
        refine ⟨_, hdealloc, hnext, .of_buf hb ?_ setBuf_self fun b' hb' _ => ?_, ?_⟩
        · rw [Released, if_pos hone]
        · rw [setBuf_of_ne hb', hrest b' hb']
        · rw [setBuf_of_ne hne, hrest new hne]
      · rename_i hmore
        refine ⟨_, rfl, rfl, .of_buf hb ?_ setBuf_self fun b' hb' _ => setBuf_of_ne hb',
          setBuf_of_ne hne⟩
        unfold Released
        rw [if_neg hmore]

/-- Items can be read at the address, if there are any. -/
def Source (h : Heap α) (src : Option ℕ) (j : ℕ) (l : List α) : Prop :=
  match src with
  | none => l = []
  | some b => (h.buf b).allocated = true ∧ Holds (h.buf b).block j l

theorem doCopy_spec {i j : ℕ} {src : Option ℕ} (hnew : (h.buf new).allocated = true)
    (hraw : Raw t.trivialDtor (h.buf new).block i l.length) (hsrc : Source h src j l) :
    ∃ m, doCopy t h new i src j l.length = .ok (if src = none then h else h.setBlock new m) ∧
      Holds m i l ∧ SameBut (h.buf new).block m i l.length ∧
      (src = none → m = (h.buf new).block) := by
  unfold Source at hsrc
  unfold doCopy
  cases src with
  | none =>
      rw [hsrc]
      exact ⟨(h.buf new).block, rfl, trivial, .refl, fun _ => rfl⟩
  | some b =>
      obtain ⟨hb, hholds⟩ := hsrc
      obtain ⟨m, hloop, hm, hsame⟩ := copyLoop_spec hholds hraw
      refine ⟨m, ?_, hm, hsame, fun heq => by cases heq⟩
      dsimp only
      rw [except_bind_ok (block_eq hb), except_bind_ok (block_eq hnew), except_bind_ok hloop]
      rfl

/-! ### New buffers -/

/-- There is a new buffer with the block; the others stay so far. -/
structure Built (h h' : Heap α) (m : Block α) : Prop where
  next : h'.next = h.next + 1
  new : h'.buf h.next = ⟨1, m, true⟩
  others : ∀ b, b ≠ h.next → h'.buf b = h.buf b

theorem built_alloc (t : Traits) (h : Heap α) (cap : ℕ) :
    ∃ m, Built h (alloc junk h cap) m ∧ m.cap = cap ∧
    Raw t.trivialDtor m 0 cap := by
  refine ⟨((alloc junk h cap).buf h.next).block, ⟨rfl, ?_, fun b hb => alloc_of_ne junk hb⟩, ?_,
    alloc_raw junk⟩
  · rw [alloc_self]
  · rw [alloc_self]

theorem VecHolds.source (hv : VecHolds t h v (l₁ ++ xs ++ l₂)) :
    Source h v.storage l₁.length xs := by
  unfold Source
  cases hb : v.storage with
  | none =>
      have hnil := hv.eq_nil hb
      simp only [List.append_eq_nil_iff] at hnil
      exact hnil.1.2
  | some b =>
      obtain ⟨hitems, -⟩ := hv.hasItems hb
      have hxs := (holds_append.mp (holds_append.mp hitems.filled.items).1).2
      rw [Nat.zero_add] at hxs
      exact ⟨hitems.allocated, hxs⟩

theorem Built.copy {i j : ℕ} (hk : Built h h' m) (hv : VecHolds t h v l)
    (hsrc : Source h v.storage j xs) (hraw : Raw t.trivialDtor m i xs.length) :
    ∃ k m', doCopy t h' h.next i v.storage j xs.length = .ok k ∧ Built h k m' ∧ Holds m' i xs ∧
      SameBut m m' i xs.length := by
  have hsrc' : Source h' v.storage j xs := by
    unfold Source at hsrc ⊢
    cases hb : v.storage with
    | none =>
        rw [hb] at hsrc
        exact hsrc
    | some b =>
        have hlt := (hv.hasItems hb).2
        rw [hb] at hsrc
        dsimp only at hsrc ⊢
        rwa [hk.others b (by omega)]
  have hblock : (h'.buf h.next).block = m := by rw [hk.new]
  obtain ⟨m', hcopy, hholds, hsame, hnone⟩ :=
    doCopy_spec (h := h') (by rw [hk.new]) (by rwa [hblock]) hsrc'
  rw [hblock] at hsame hnone
  refine ⟨_, m', hcopy, ?_, hholds, hsame⟩
  split
  · rename_i heq
    rw [hnone heq]
    exact hk
  · refine ⟨hk.next, ?_, fun b hb => (setBlock_of_ne hb).trans (hk.others b hb)⟩
    rw [setBlock_self, hk.new]

theorem Built.release (hk : Built h h' m) (hv : VecHolds t h v l) :
    ∃ k, releaseStorage t h' v = .ok k ∧ Moved v h k h.next ∧ (k.buf h.next).block = m := by
  have hne (b : ℕ) (hb : v.storage = some b) : b ≠ h.next := by
    have := (hv.hasItems hb).2
    omega
  have hv' : VecHolds t h' v l := by
    refine ⟨hv.1, ?_⟩
    cases hb : v.storage with
    | none => exact hv.eq_nil hb
    | some b =>
        obtain ⟨hitems, hlt⟩ := hv.hasItems hb
        dsimp only
        rw [hk.others b (hne b hb), hk.next]
        exact ⟨hitems, by omega⟩
  obtain ⟨k, hrelease, hnext, hletgo, hnew⟩ :=
    releaseStorage_spec hv' (show v.storage ≠ some h.next from fun heq => hne _ heq rfl)
  refine ⟨k, hrelease, ⟨by rw [hnew, hk.new], by rw [hnew, hk.new], .inr ⟨rfl, ?_, ?_⟩⟩, ?_⟩
  · rw [hnext, hk.next]
  · intro b hb
    have hafter := hletgo b hb
    rwa [hk.others b hb] at hafter
  · rw [hnew, hk.new]

theorem copyAll_spec (hv : VecHolds t h v l) (hle : l.length ≤ cap) :
    ∃ h₁ h₂, doCopy t (alloc junk h cap) h.next 0 v.storage 0 v.count = .ok h₁ ∧
      releaseStorage t h₁ v = .ok h₂ ∧ Moved v h h₂ h.next ∧
      Filled t (h₂.buf h.next).block l ∧ (h₂.buf h.next).block.cap = cap := by
  obtain ⟨m, hbuilt, hmcap, hraw⟩ := built_alloc junk t h cap
  have hsum : cap = l.length + (cap - l.length) := by omega
  have hsplit := hraw
  rw [hsum] at hsplit
  obtain ⟨hfront, hrest⟩ := raw_add.mp hsplit
  have hsrc : Source h v.storage 0 l := by
    have hwhole : VecHolds t h v ([] ++ l ++ []) := by simpa using hv
    exact hwhole.source
  obtain ⟨k, m', hcopy, hbuilt', hholds, hsame⟩ := hbuilt.copy hv hsrc hfront
  obtain ⟨k', hrelease, hmoved, hblock⟩ := hbuilt'.release hv
  refine ⟨k, k', by rw [hv.1, hcopy], hrelease, hmoved, ?_, by rw [hblock, hsame.cap, hmcap]⟩
  rw [hblock]
  refine ⟨hholds, by rw [hsame.cap, hmcap]; exact hle, ?_⟩
  rw [hsame.cap, hmcap]
  rw [Nat.zero_add] at hrest
  exact hrest.frame hsame (.inr (by omega))

theorem VecHolds.capacity (hv : VecHolds t h v l) (hb : v.storage = some b) :
    capacity h v = (h.buf b).block.cap ∧ l.length ≤ (h.buf b).block.cap := by
  refine ⟨?_, (hv.hasItems hb).1.filled.le⟩
  unfold VectorImpl.capacity
  rw [hb]

theorem editArrayImpl_spec (hv : VecHolds t h v l) (hb : v.storage = some b) :
    ∃ h' new, editArrayImpl t junk h v = .ok (h', { v with storage := some new }) ∧
      Moved v h h' new ∧ Filled t (h'.buf new).block l ∧
      (h'.buf new).block.cap = (h.buf b).block.cap := by
  obtain ⟨hitems, hlt⟩ := hv.hasItems hb
  obtain ⟨hcap, hle⟩ := hv.capacity hb
  unfold editArrayImpl
  rw [hb]
  dsimp only
  split
  · rename_i hone
    refine ⟨h, b, ?_, ⟨hitems.allocated, hone, .inl ⟨hb, hone, rfl, fun _ _ => rfl⟩⟩,
      hitems.filled, rfl⟩
    rw [← hb]
  · obtain ⟨k, k', hcopy, hrelease, hmoved, hfilled, hcap'⟩ :=
      copyAll_spec junk hv hle
    refine ⟨k', h.next, ?_, hmoved, hfilled, hcap'⟩
    rw [hcap, ← hb, except_bind_ok hcopy, except_bind_ok hrelease]

theorem Built.copyIf {c : Prop} [Decidable c] {i j : ℕ} (hk : Built h h' m)
    (hv : VecHolds t h v l) (hsrc : Source h v.storage j xs)
    (hraw : Raw t.trivialDtor m i xs.length) (hc : ¬ c → xs = []) :
    ∃ k m', (if c then doCopy t h' h.next i v.storage j xs.length else .ok h') = .ok k ∧
      Built h k m' ∧ Holds m' i xs ∧ SameBut m m' i xs.length := by
  split
  · exact hk.copy hv hsrc hraw
  · rename_i hnot
    rw [hc hnot]
    exact ⟨h', m, rfl, hk, trivial, .refl⟩

/-- The items in front and behind are copied to a new buffer, with a gap between them. -/
theorem reallocate_spec {c d : Prop} [Decidable c] [Decidable d] {j : ℕ}
    (hv : VecHolds t h v l) (hsrc₁ : Source h v.storage 0 l₁) (hsrc₂ : Source h v.storage j l₂)
    (hc : ¬ c → l₁ = []) (hd : ¬ d → l₂ = []) (hroom : l₁.length + n + l₂.length ≤ cap) :
    ∃ h₁ h₂ h₃, (if c then doCopy t (alloc junk h cap) h.next 0 v.storage 0 l₁.length
        else .ok (alloc junk h cap)) = .ok h₁ ∧
      (if d then doCopy t h₁ h.next (l₁.length + n) v.storage j l₂.length else .ok h₁) =
        .ok h₂ ∧
      releaseStorage t h₂ v = .ok h₃ ∧ Moved v h h₃ h.next ∧
      Gapped t (h₃.buf h.next).block l₁ n l₂ ∧ (h₃.buf h.next).block.cap = cap := by
  obtain ⟨m, hbuilt, hmcap, hraw⟩ := built_alloc junk t h cap
  have hsum : cap = l₁.length + (n + (l₂.length + (cap - (l₁.length + n + l₂.length)))) := by omega
  rw [hsum] at hraw
  obtain ⟨hraw₁, hraw⟩ := raw_add.mp hraw
  obtain ⟨hgap, hraw⟩ := raw_add.mp hraw
  obtain ⟨hraw₂, hrest⟩ := raw_add.mp hraw
  rw [Nat.zero_add] at hgap hraw₂ hrest
  obtain ⟨h₁, m₁, hcopy₁, hbuilt₁, hholds₁, hsame₁⟩ := hbuilt.copyIf hv hsrc₁ hraw₁ hc
  obtain ⟨h₂, m₂, hcopy₂, hbuilt₂, hholds₂, hsame₂⟩ :=
    hbuilt₁.copyIf hv hsrc₂ (hraw₂.frame hsame₁ (.inr (by omega))) hd
  obtain ⟨h₃, hrelease, hmoved, hblock⟩ := hbuilt₂.release hv
  have hcap : m₂.cap = cap := by rw [hsame₂.cap, hsame₁.cap, hmcap]
  refine ⟨h₁, h₂, h₃, hcopy₁, hcopy₂, hrelease, hmoved, ?_, by rw [hblock, hcap]⟩
  rw [hblock]
  refine ⟨hholds₁.frame hsame₂ (.inl (by omega)), ?_, hholds₂, by omega, ?_⟩
  · exact (hgap.frame hsame₁ (.inr (by omega))).frame hsame₂ (.inl (by omega))
  · rw [hcap]
    exact (hrest.frame hsame₁ (.inr (by omega))).frame hsame₂ (.inr (by omega))

/-! ### Resizing -/

theorem built_newWithBytes (h : Heap α) (b cap : ℕ) :
    ∃ m, Built h (newWithBytes junk h b cap) m ∧ m.cap = cap ∧
    ∀ k, k < (h.buf b).block.cap → k < cap → m.cell k = (h.buf b).block.cell k := by
  refine ⟨⟨cap, fun k => if k < (h.buf b).block.cap ∧ k < cap then (h.buf b).block.cell k
    else ⟨junk h.next k, false⟩⟩, ⟨rfl, ?_, fun b' hb' => ?_⟩, rfl, fun k hk hk' => ?_⟩
  · unfold newWithBytes
    dsimp only
    rw [setBlock_self, alloc_self]
  · exact (setBlock_of_ne hb').trans (alloc_of_ne junk hb')
  · dsimp only
    rw [if_pos ⟨hk, hk'⟩]

theorem filled_of_plain (hplain : t.trivialDtor = true) (hitems : Holds m 0 l)
    (hle : l.length ≤ m.cap) : Filled t m l :=
  ⟨hitems, hle, raw_iff.mpr fun k hk => ⟨by omega, .inl hplain⟩⟩

/-- The front of the items is in a new buffer, and the old one is let go of. -/
theorem newWithBytes_moved {old : SharedBuffer α} (hv : VecHolds t h v (l₁ ++ l₂))
    (hb : v.storage = some b) (hplain : t.trivialDtor = true) (hle : l₁.length ≤ cap)
    (hold : Released (h.buf b) old)
    (hh' : h' = (newWithBytes junk h b cap).setBuf b old) :
    Moved v h h' h.next ∧ Filled t (h'.buf h.next).block l₁ ∧
      (h'.buf h.next).block.cap = cap := by
  obtain ⟨hitems, hlt⟩ := hv.hasItems hb
  obtain ⟨hl₁, -, hcap, -⟩ := hitems.filled.split
  obtain ⟨m, hbuilt, hmcap, hbytes⟩ :=
    built_newWithBytes junk h b cap
  have hfilled : Filled t m l₁ := by
    refine filled_of_plain hplain (holds_iff.mpr fun k hk => ?_) (by omega)
    have hitem := holds_iff.mp hl₁ k hk
    rw [Nat.zero_add] at hitem ⊢
    refine ⟨by omega, ?_⟩
    rw [hbytes k hitem.1 (by omega)]
    exact hitem.2
  have hne : h.next ≠ b := by omega
  subst hh'
  have hnew : ((newWithBytes junk h b cap).setBuf b old).buf h.next = ⟨1, m, true⟩ :=
    (setBuf_of_ne hne).trans hbuilt.new
  refine ⟨⟨by rw [hnew], by rw [hnew], .inr ⟨rfl, hbuilt.next,
    .of_buf hb hold setBuf_self fun b' hb' hb'' => ?_⟩⟩, by rwa [hnew], by rwa [hnew]⟩
  rw [setBuf_of_ne hb', hbuilt.others b' hb'']

theorem release_newWithBytes (hv : VecHolds t h v l) (hb : v.storage = some b)
    (hmore : (h.buf b).refs ≠ 1) :
    release t (newWithBytes junk h b cap) b false =
      .ok ((newWithBytes junk h b cap).setBuf b { h.buf b with refs := (h.buf b).refs - 1 },
        (h.buf b).refs) := by
  obtain ⟨hitems, hlt⟩ := hv.hasItems hb
  obtain ⟨m, hbuilt, -⟩ := built_newWithBytes junk h b cap
  have hold := hbuilt.others b (by omega)
  rw [release, hold, if_pos hitems.allocated]
  dsimp only
  rw [if_neg (fun hone => hmore hone.1)]

theorem editResize_spec (hv : VecHolds t h v (l₁ ++ l₂)) (hb : v.storage = some b)
    (hplain : t.trivialDtor = true) (hle : l₁.length ≤ cap) :
    ∃ h' new, editResize t junk h b cap = .ok (h', new) ∧ Moved v h h' new ∧
      Filled t (h'.buf new).block l₁ ∧ (h'.buf new).block.cap = cap := by
  obtain ⟨hitems, -⟩ := hv.hasItems hb
  unfold editResize
  rw [if_pos hitems.allocated]
  split
  · rename_i hone
    split
    · rename_i hsame
      exact ⟨h, b, rfl, ⟨hitems.allocated, hone, .inl ⟨hb, hone, rfl, fun _ _ => rfl⟩⟩,
        filled_of_plain hplain hitems.filled.split.1 (by omega), hsame⟩
    · refine ⟨_, h.next, rfl, newWithBytes_moved junk hv hb hplain hle ?_ rfl⟩
      rw [Released, if_pos hone]
  · rename_i hmore
    rw [release_newWithBytes junk hv hb hmore]
    refine ⟨_, h.next, rfl, newWithBytes_moved junk hv hb hplain hle ?_ rfl⟩
    rw [Released, if_neg hmore]

/-! ### Making place -/

theorem VecHolds.source_front (hv : VecHolds t h v (l₁ ++ l₂)) : Source h v.storage 0 l₁ :=
  VecHolds.source (show VecHolds t h v ([] ++ l₁ ++ l₂) from hv)

theorem VecHolds.source_back (hv : VecHolds t h v (l₁ ++ l₂)) :
    Source h v.storage l₁.length l₂ :=
  VecHolds.source (show VecHolds t h v (l₁ ++ l₂ ++ []) by rwa [List.append_nil])

theorem VecHolds.count_eq (hv : VecHolds t h v (l₁ ++ l₂)) : v.count = l₁.length + l₂.length :=
  hv.1.trans List.length_append

theorem eq_nil_of_length (hlen : ¬ l.length ≠ 0) : l = [] :=
  List.length_eq_zero_iff.mp (not_not.mp hlen)

theorem grow_reallocate (hv : VecHolds t h v (l₁ ++ l₂))
    (hroom : l₁.length + n + l₂.length ≤ cap) (newSize : ℕ) :
    ∃ h', grow.reallocate t junk h v l₁.length n cap newSize =
        .ok (h', ⟨some h.next, newSize⟩) ∧
      Moved v h h' h.next ∧ Gapped t (h'.buf h.next).block l₁ n l₂ := by
  have hcount := hv.count_eq
  have hback : v.count - l₁.length = l₂.length := by omega
  obtain ⟨h₁, h₂, h₃, hcopy₁, hcopy₂, hrelease, hmoved, hgapped, -⟩ :=
    reallocate_spec junk (c := l₁.length ≠ 0) (d := l₁.length ≠ v.count) hv
      hv.source_front hv.source_back eq_nil_of_length
      (fun hsame => eq_nil_of_length (by omega)) hroom
  refine ⟨h₃, ?_, hmoved, hgapped⟩
  unfold grow.reallocate
  dsimp only
  rw [hback, except_bind_ok hcopy₁, except_bind_ok hcopy₂, except_bind_ok hrelease]

theorem grow_spec (hv : VecHolds t h v (l₁ ++ l₂)) (hok : 0 < n ∨ l₂ = [] ∨ Stays t) :
    ∃ h' v', grow t junk h v l₁.length n = .ok (h', v') ∧
      v'.count = l₁.length + n + l₂.length ∧
      ((v.storage = none ∧ n = 0 ∧ h' = h ∧ v'.storage = none) ∨
        ∃ new, v'.storage = some new ∧ Moved v h h' new ∧
          Gapped t (h'.buf new).block l₁ n l₂) := by
  have hcount := hv.count_eq
  have hsize : v.count + n = l₁.length + n + l₂.length := by omega
  have hroom : l₁.length + n + l₂.length ≤ max minVectorCapacity (((v.count + n) * 3 + 1) / 2) := by
    rw [hsize]
    exact Nat.le_trans (by omega) (Nat.le_max_right _ _)
  obtain ⟨k, hrealloc, hmoved, hgapped⟩ :=
    grow_reallocate junk hv hroom (v.count + n)
  unfold grow
  dsimp only
  split
  · cases hb : v.storage with
    | none => exact ⟨k, _, hrealloc, hsize, .inr ⟨h.next, rfl, hmoved, hgapped⟩⟩
    | some b =>
        dsimp only
        split
        · rename_i hplain
          have hnil : l₂ = [] := eq_nil_of_length (by omega)
          subst hnil
          obtain ⟨h', new, hresize, hmoved', hfilled, hcap⟩ := editResize_spec junk hv hb
            hplain.2.2 (Nat.le_trans (by simp) hroom)
          refine ⟨h', ⟨some new, v.count + n⟩, ?_, hsize, .inr ⟨new, rfl, hmoved',
            hfilled.gapLast (by rw [hcap]; simpa using hroom)⟩⟩
          rw [hresize]
          rfl
        · exact ⟨k, _, hrealloc, hsize, .inr ⟨h.next, rfl, hmoved, hgapped⟩⟩
  · rename_i hfits
    cases hb : v.storage with
    | none =>
        have hnil := hv.eq_nil hb
        have hcapacity : capacity h v = 0 := by
          unfold VectorImpl.capacity
          rw [hb]
        have hedit : editArrayImpl t junk h v = .ok (h, v) := by
          unfold editArrayImpl
          rw [hb]
        rw [except_bind_ok hedit, if_neg (by omega)]
        exact ⟨h, _, rfl, hsize, .inl ⟨rfl, by omega, rfl, hb⟩⟩
    | some b =>
        obtain ⟨hcapacity, -⟩ := hv.capacity hb
        obtain ⟨h', new, hedit, hmoved', hfilled, hcap⟩ := editArrayImpl_spec junk hv hb
        rw [except_bind_ok hedit]
        dsimp only
        split
        · rename_i hmiddle
          have hpos : 0 < l₂.length := by omega
          have hok' : 0 < n ∨ Stays t := hok.imp_right fun h => h.resolve_left
            (List.length_pos_iff.mp hpos)
          have hback : v.count - l₁.length = l₂.length := by omega
          obtain ⟨m, hmove, hgapped'⟩ := hfilled.makeGap (by omega) hpos hok'
          obtain ⟨h'', hset, hmoved'', hblock⟩ :=
            hmoved'.edit (f := fun m => doMoveForward t m (l₁.length + n) l₁.length l₂.length)
              v.count hmove
          rw [hback, except_bind_ok hset]
          exact ⟨h'', _, rfl, hsize, .inr ⟨new, rfl, hmoved'', by rwa [hblock]⟩⟩
        · rename_i hend
          have hnil : l₂ = [] := eq_nil_of_length (by omega)
          subst hnil
          rw [List.append_nil] at hfilled
          exact ⟨h', _, rfl, hsize, .inr ⟨new, rfl, hmoved',
            hfilled.gapLast (by simp only [List.length_nil] at hsize; omega)⟩⟩

end VectorImpl

end BinderForLinux
