import BinderForLinux.Library.Run
import Mathlib.Logic.Function.Basic
import Mathlib.Data.List.Induction

/-!
# Storage for objects

A block of storage has a cell for each object it has room for. Objects are constructed in cells
without one and destroyed in cells with one, unless their type is `plain`: then it has a destructor
that does nothing, and they may be forgotten. A cell always has some value, which means something
while its object is alive.

`Holds m i l` says that the objects of `l` are in the block from `i` on, `Raw plain m i n` that
there are `n` cells in which objects can be constructed. The rules of the operations turn one into
the other, and say that the rest of the block stays.
-/

namespace BinderForLinux

namespace Library

variable {α : Type}

structure Cell (α : Type) where
  val : α
  live : Bool

structure Block (α : Type) where
  cap : ℕ
  cell : ℕ → Cell α

/-- What must not be done with storage. -/
inductive StorageFault
  | outOfBounds
  | notAlive
  | overwritten
  | freed
  | leaked
  deriving DecidableEq, Repr

namespace Block

variable (plain : Bool) (m : Block α)

def set (i : ℕ) (c : Cell α) : Block α := { m with cell := Function.update m.cell i c }

/-- There is no object in the cell that would have to be destroyed. -/
def CanHold (i : ℕ) : Prop := plain = true ∨ (m.cell i).live = false

instance (i : ℕ) : Decidable (CanHold plain m i) :=
  inferInstanceAs (Decidable (plain = true ∨ (m.cell i).live = false))

def read (i : ℕ) : Except StorageFault α :=
  if i < m.cap then
    if (m.cell i).live = true then .ok (m.cell i).val else .error .notAlive
  else .error .outOfBounds

def construct (i : ℕ) (v : α) : Except StorageFault (Block α) :=
  if i < m.cap then
    if CanHold plain m i then .ok (m.set i ⟨v, true⟩) else .error .overwritten
  else .error .outOfBounds

def destroy (i : ℕ) : Except StorageFault (Block α) :=
  if i < m.cap then
    if (m.cell i).live = true then .ok (m.set i { m.cell i with live := false })
    else .error .notAlive
  else .error .outOfBounds

def assign (i : ℕ) (v : α) : Except StorageFault (Block α) :=
  if i < m.cap then
    if (m.cell i).live = true then .ok (m.set i ⟨v, true⟩) else .error .notAlive
  else .error .outOfBounds

def beginLoop : Block α → ℕ → ℕ → Except StorageFault (Block α)
  | m, _, 0 => .ok m
  | m, i, n + 1 => do
      let m ← m.construct plain i (m.cell i).val
      beginLoop m (i + 1) n

def fillLoop (v : α) : Block α → ℕ → ℕ → Except StorageFault (Block α)
  | m, _, 0 => .ok m
  | m, i, n + 1 => do
      let m ← m.construct plain i v
      fillLoop v m (i + 1) n

/-- Objects are constructed from those of another block. -/
def copyLoop (src : Block α) : Block α → ℕ → ℕ → ℕ → Except StorageFault (Block α)
  | m, _, _, 0 => .ok m
  | m, i, j, n + 1 => do
      let v ← src.read j
      let m ← m.construct plain i v
      copyLoop src m (i + 1) (j + 1) n

def destroyLoop : Block α → ℕ → ℕ → Except StorageFault (Block α)
  | m, _, 0 => .ok m
  | m, i, n + 1 => do
      let m ← m.destroy i
      destroyLoop m (i + 1) n

def moveOne (d s : ℕ) : Except StorageFault (Block α) := do
  let v ← m.read s
  let m ← m.construct plain d v
  if plain = true then .ok m else m.destroy s

def forwardLoop (d s : ℕ) : Block α → ℕ → Except StorageFault (Block α)
  | m, 0 => .ok m
  | m, n + 1 => do
      let m ← m.moveOne plain (d + n) (s + n)
      forwardLoop d s m n

def backwardLoop : Block α → ℕ → ℕ → ℕ → Except StorageFault (Block α)
  | m, _, _, 0 => .ok m
  | m, d, s, n + 1 => do
      let m ← m.moveOne plain d s
      backwardLoop m (d + 1) (s + 1) n

/-- The block after all objects went to other cells at once. -/
def moved (d s n : ℕ) : Block α :=
  { m with
    cell := fun k =>
      if d ≤ k ∧ k < d + n then m.cell (k - d + s)
      else if s ≤ k ∧ k < s + n then { m.cell k with live := false }
      else m.cell k }

def memmove (d s n : ℕ) : Except StorageFault (Block α) :=
  if d + n ≤ m.cap ∧ s + n ≤ m.cap then
    if ∀ k < n, s ≤ d + k ∧ d + k < s + n ∨ CanHold plain m (d + k) then .ok (moved m d s n)
    else .error .overwritten
  else .error .outOfBounds

/-! ### What a block holds -/

def Holds (m : Block α) : ℕ → List α → Prop
  | _, [] => True
  | i, v :: l => i < m.cap ∧ m.cell i = ⟨v, true⟩ ∧ Holds m (i + 1) l

def Raw (m : Block α) : ℕ → ℕ → Prop
  | _, 0 => True
  | i, n + 1 => i < m.cap ∧ CanHold plain m i ∧ Raw m (i + 1) n

/-- The blocks differ at most in the cells `[i, i + n)`. -/
structure SameBut (m m' : Block α) (i n : ℕ) : Prop where
  cap : m'.cap = m.cap
  cell : ∀ k, k < i ∨ i + n ≤ k → m'.cell k = m.cell k

variable {plain m} {m' m'' : Block α} {i j d s n n' k : ℕ} {v : α} {l l' : List α}

theorem SameBut.refl : SameBut m m i n := ⟨rfl, fun _ _ => rfl⟩

theorem SameBut.trans (h : SameBut m m' i n) (h' : SameBut m' m'' i n) : SameBut m m'' i n :=
  ⟨h'.cap.trans h.cap, fun k hk => (h'.cell k hk).trans (h.cell k hk)⟩

theorem SameBut.mono (h : SameBut m m' i n) (hle : j ≤ i) (hle' : i + n ≤ j + n') :
    SameBut m m' j n' :=
  ⟨h.cap, fun k hk => h.cell k (by omega)⟩

theorem sameBut_set {c : Cell α} : SameBut m (m.set i c) i 1 :=
  ⟨rfl, fun k hk => Function.update_of_ne (by omega) ..⟩

@[simp] theorem set_self {c : Cell α} : (m.set i c).cell i = c := Function.update_self ..

theorem holds_append : Holds m i (l ++ l') ↔ Holds m i l ∧ Holds m (i + l.length) l' := by
  induction l generalizing i with
  | nil => simp [Holds]
  | cons v l ih =>
      have hadd : i + (l.length + 1) = i + 1 + l.length := by omega
      rw [List.cons_append, Holds, Holds, ih, List.length_cons, hadd, and_assoc, and_assoc]

theorem raw_add : Raw plain m i (n + n') ↔ Raw plain m i n ∧ Raw plain m (i + n) n' := by
  induction n generalizing i with
  | zero => simp [Raw]
  | succ n ih =>
      have hadd : n + 1 + n' = (n + n') + 1 := by omega
      have hadd' : i + (n + 1) = i + 1 + n := by omega
      rw [hadd, Raw, Raw, ih, hadd', and_assoc, and_assoc]

theorem Holds.frame (h : Holds m i l) (hsame : SameBut m m' j n)
    (hapart : i + l.length ≤ j ∨ j + n ≤ i) : Holds m' i l := by
  induction l generalizing i with
  | nil => trivial
  | cons v l ih =>
      rw [List.length_cons] at hapart
      obtain ⟨hlt, hcell, hrest⟩ := h
      exact ⟨by rwa [hsame.cap], (hsame.cell i (by omega)).trans hcell, ih hrest (by omega)⟩

theorem Raw.frame (h : Raw plain m i n') (hsame : SameBut m m' j n)
    (hapart : i + n' ≤ j ∨ j + n ≤ i) : Raw plain m' i n' := by
  induction n' generalizing i with
  | zero => trivial
  | succ n' ih =>
      obtain ⟨hlt, hcan, hrest⟩ := h
      refine ⟨by rwa [hsame.cap], ?_, ih hrest (by omega)⟩
      rwa [CanHold, hsame.cell i (by omega)]

theorem Holds.le (h : Holds m i l) (hpos : 0 < l.length) : i + l.length ≤ m.cap := by
  induction l generalizing i with
  | nil => cases hpos
  | cons v l ih =>
      obtain ⟨hlt, -, hrest⟩ := h
      rw [List.length_cons]
      rcases Nat.eq_zero_or_pos l.length with hzero | hpos'
      · omega
      · have := ih hrest hpos'
        omega

theorem Raw.le (h : Raw plain m i n) (hpos : 0 < n) : i + n ≤ m.cap := by
  induction n generalizing i with
  | zero => cases hpos
  | succ n ih =>
      obtain ⟨hlt, -, hrest⟩ := h
      rcases Nat.eq_zero_or_pos n with hzero | hpos'
      · omega
      · have := ih hrest hpos'
        omega

theorem raw_iff : Raw plain m i n ↔ ∀ k < n, i + k < m.cap ∧ CanHold plain m (i + k) := by
  induction n generalizing i with
  | zero => simp [Raw]
  | succ n ih =>
      rw [Raw, ih]
      constructor
      · rintro ⟨hlt, hcan, hrest⟩ k hk
        cases k with
        | zero => exact ⟨hlt, hcan⟩
        | succ k =>
            have hadd : i + (k + 1) = i + 1 + k := by omega
            rw [hadd]
            exact hrest k (by omega)
      · intro h
        refine ⟨(h 0 (by omega)).1, (h 0 (by omega)).2, fun k hk => ?_⟩
        have hadd : i + 1 + k = i + (k + 1) := by omega
        rw [hadd]
        exact h (k + 1) (by omega)

theorem holds_iff : Holds m i l ↔
    ∀ k (hk : k < l.length), i + k < m.cap ∧ m.cell (i + k) = ⟨l[k], true⟩ := by
  induction l generalizing i with
  | nil => simp [Holds]
  | cons v l ih =>
      rw [Holds, ih]
      constructor
      · rintro ⟨hlt, hcell, hrest⟩ k hk
        cases k with
        | zero => exact ⟨hlt, hcell⟩
        | succ k =>
            have hadd : i + (k + 1) = i + 1 + k := by omega
            rw [hadd, List.getElem_cons_succ]
            exact hrest k _
      · intro h
        refine ⟨(h 0 (by simp)).1, (h 0 (by simp)).2, fun k hk => ?_⟩
        have hadd : i + 1 + k = i + (k + 1) := by omega
        have hsucc := h (k + 1) (by rw [List.length_cons]; omega)
        rw [List.getElem_cons_succ] at hsucc
        rw [hadd]
        exact hsucc

/-! ### Rules -/

theorem Holds.read (h : Holds m i (v :: l)) : m.read i = .ok v := by
  obtain ⟨hlt, hcell, -⟩ := h
  rw [Block.read, if_pos hlt, hcell, if_pos rfl]

theorem construct_eq (hlt : i < m.cap) (hcan : CanHold plain m i) :
    m.construct plain i v = .ok (m.set i ⟨v, true⟩) := by
  rw [construct, if_pos hlt, if_pos hcan]

theorem Raw.cons (h : Raw plain m i (n + 1)) : i < m.cap ∧ CanHold plain m i ∧
    Raw plain (m.set i ⟨v, true⟩) (i + 1) n :=
  ⟨h.1, h.2.1, h.2.2.frame sameBut_set (.inr (by omega))⟩

theorem holds_cons_of_set (h : SameBut (m.set i ⟨v, true⟩) m' (i + 1) n) (hlt : i < m.cap)
    (hrest : Holds m' (i + 1) l) : Holds m' i (v :: l) ∧ SameBut m m' i (n + 1) := by
  refine ⟨⟨by rw [h.cap]; exact hlt, ?_, hrest⟩,
    (sameBut_set.mono (Nat.le_refl i) (by omega)).trans (h.mono (by omega) (by omega))⟩
  rw [h.cell i (by omega), set_self]

theorem beginLoop_spec (h : Raw plain m i n) : ∃ m' l, beginLoop plain m i n = .ok m' ∧
    l.length = n ∧ Holds m' i l ∧ SameBut m m' i n := by
  induction n generalizing m i with
  | zero => exact ⟨m, [], rfl, rfl, trivial, .refl⟩
  | succ n ih =>
      obtain ⟨hlt, hcan, hraw⟩ := h.cons (v := (m.cell i).val)
      obtain ⟨m', l, hloop, hlen, hholds, hsame⟩ := ih hraw
      obtain ⟨hholds', hsame'⟩ := holds_cons_of_set hsame hlt hholds
      refine ⟨m', (m.cell i).val :: l, ?_, by rw [List.length_cons, hlen], hholds', hsame'⟩
      rw [beginLoop, except_bind_ok (construct_eq hlt hcan), hloop]

theorem fillLoop_spec (h : Raw plain m i n) : ∃ m', fillLoop plain v m i n = .ok m' ∧
    Holds m' i (List.replicate n v) ∧ SameBut m m' i n := by
  induction n generalizing m i with
  | zero => exact ⟨m, rfl, trivial, .refl⟩
  | succ n ih =>
      obtain ⟨hlt, hcan, hraw⟩ := h.cons (v := v)
      obtain ⟨m', hloop, hholds, hsame⟩ := ih hraw
      obtain ⟨hholds', hsame'⟩ := holds_cons_of_set hsame hlt hholds
      refine ⟨m', ?_, hholds', hsame'⟩
      rw [fillLoop, except_bind_ok (construct_eq hlt hcan), hloop]

theorem copyLoop_spec {src : Block α} (hsrc : Holds src j l) (h : Raw plain m i l.length) :
    ∃ m', copyLoop plain src m i j l.length = .ok m' ∧ Holds m' i l ∧
      SameBut m m' i l.length := by
  induction l generalizing m i j with
  | nil => exact ⟨m, rfl, trivial, .refl⟩
  | cons v l ih =>
      obtain ⟨hlt, hcan, hraw⟩ := h.cons (v := v)
      obtain ⟨m', hloop, hholds, hsame⟩ := ih hsrc.2.2 hraw
      obtain ⟨hholds', hsame'⟩ := holds_cons_of_set hsame hlt hholds
      refine ⟨m', ?_, hholds', hsame'⟩
      rw [List.length_cons, copyLoop, except_bind_ok hsrc.read,
        except_bind_ok (construct_eq hlt hcan), hloop]

theorem destroy_eq (hlt : i < m.cap) (hlive : (m.cell i).live = true) :
    m.destroy i = .ok (m.set i { m.cell i with live := false }) := by
  rw [destroy, if_pos hlt, if_pos hlive]

theorem destroyLoop_spec (h : Holds m i l) : ∃ m', destroyLoop m i l.length = .ok m' ∧
    Raw plain m' i l.length ∧ SameBut m m' i l.length := by
  induction l generalizing m i with
  | nil => exact ⟨m, rfl, trivial, .refl⟩
  | cons v l ih =>
      obtain ⟨hlt, hcell, hrest⟩ := h
      have hframe : SameBut m (m.set i { m.cell i with live := false }) i 1 := sameBut_set
      obtain ⟨m', hloop, hraw, hsame⟩ := ih (hrest.frame hframe (.inr (by omega)))
      refine ⟨m', ?_, ⟨by rw [hsame.cap]; exact hlt, .inr ?_, hraw⟩,
        (hframe.mono (Nat.le_refl i) (by rw [List.length_cons]; omega)).trans
          (hsame.mono (by omega) (by rw [List.length_cons]; omega))⟩
      · rw [List.length_cons, destroyLoop,
          except_bind_ok (destroy_eq hlt (by rw [hcell])), hloop]
      · rw [hsame.cell i (by omega), set_self]

theorem assign_spec {w : α} (h : Holds m i (l ++ v :: l')) :
    ∃ m', m.assign (i + l.length) w = .ok m' ∧ Holds m' i (l ++ w :: l') ∧
      SameBut m m' (i + l.length) 1 := by
  obtain ⟨hl, hlt, hcell, hl'⟩ := holds_append.mp h
  refine ⟨m.set (i + l.length) ⟨w, true⟩, ?_, holds_append.mpr ⟨hl.frame sameBut_set (.inl ?_),
    hlt, set_self, hl'.frame sameBut_set (.inr ?_)⟩, sameBut_set⟩
  · rw [assign, if_pos hlt, hcell, if_pos rfl]
  · exact Nat.le_refl _
  · exact Nat.le_refl _

/-! ### Rules for moving objects -/

/-- An object goes to a cell that can hold it. That may be its own cell only if the type is
plain. -/
theorem moveOne_spec (hs : Holds m s [v]) (hlt : d < m.cap) (hcan : CanHold plain m d)
    (hne : d ≠ s ∨ plain = true) : ∃ m', moveOne plain m d s = .ok m' ∧ m'.cap = m.cap ∧
      m'.cell d = ⟨v, true⟩ ∧ CanHold plain m' s ∧ ∀ k, k ≠ d → k ≠ s → m'.cell k = m.cell k := by
  have hset : m.construct plain d v = .ok (m.set d ⟨v, true⟩) := construct_eq hlt hcan
  have hread := hs.read
  by_cases hplain : plain = true
  · refine ⟨m.set d ⟨v, true⟩, ?_, rfl, set_self, .inl hplain, fun k hd _ =>
      Function.update_of_ne hd ..⟩
    rw [moveOne, except_bind_ok hs.read, except_bind_ok hset, if_pos hplain]
  · have hne : d ≠ s := hne.resolve_right hplain
    obtain ⟨hslt, hcell, -⟩ := hs
    have hcell' : (m.set d ⟨v, true⟩).cell s = ⟨v, true⟩ :=
      (Function.update_of_ne hne.symm ..).trans hcell
    refine ⟨(m.set d ⟨v, true⟩).set s { (m.set d ⟨v, true⟩).cell s with live := false }, ?_, rfl,
      (Function.update_of_ne hne ..).trans set_self, .inr ?_, fun k hd hs =>
        (Function.update_of_ne hs ..).trans (Function.update_of_ne hd ..)⟩
    · rw [moveOne, except_bind_ok hread, except_bind_ok hset, if_neg hplain]
      exact destroy_eq hslt (by rw [hcell'])
    · rw [set_self]

theorem moveOne_self (hs : Holds m s [v]) (hplain : plain = false) :
    moveOne plain m s s = .error .overwritten := by
  have hread := hs.read
  obtain ⟨hlt, hcell, -⟩ := hs
  have hcan : ¬ CanHold plain m s := by
    rintro (htrue | hdead)
    · rw [hplain] at htrue
      cases htrue
    · rw [hcell] at hdead
      cases hdead
  rw [moveOne, except_bind_ok hread, construct, if_pos hlt, if_neg hcan]
  rfl

theorem forwardLoop_spec (h : Holds m s l) (hraw : Raw plain m (s + l.length) n)
    (hok : 0 < n ∨ plain = true) : ∃ m', forwardLoop plain (s + n) s m l.length = .ok m' ∧
      Holds m' (s + n) l ∧ Raw plain m' s n ∧ SameBut m m' s (n + l.length) := by
  induction l using List.reverseRecOn generalizing m with
  | nil => exact ⟨m, rfl, trivial, hraw, .refl⟩
  | append_singleton l v ih =>
      obtain ⟨hl, hv⟩ := holds_append.mp h
      have hlength : (l ++ [v]).length = l.length + 1 := by simp
      rw [hlength] at hraw ⊢
      have hraw' := raw_iff.mp hraw
      have hdest : s + n + l.length < m.cap ∧ CanHold plain m (s + n + l.length) := by
        rcases Nat.eq_zero_or_pos n with hzero | hpos
        · have hplain : plain = true := hok.resolve_left (by omega)
          rw [hzero]
          exact ⟨hv.1, .inl hplain⟩
        · have := hraw' (n - 1) (by omega)
          have hadd : s + (l.length + 1) + (n - 1) = s + n + l.length := by omega
          rwa [hadd] at this
      have hne : s + n + l.length ≠ s + l.length ∨ plain = true := by
        rcases hok with hpos | hplain
        · exact .inl (by omega)
        · exact .inr hplain
      obtain ⟨m₁, hmove, hcap, hcell, hcan, hrest⟩ := moveOne_spec hv hdest.1 hdest.2 hne
      have hsame : SameBut m m₁ (s + l.length) (n + 1) :=
        ⟨hcap, fun k hk => hrest k (by omega) (by omega)⟩
      have hraw₁ : Raw plain m₁ (s + l.length) n := by
        refine raw_iff.mpr fun k hk => ?_
        cases k with
        | zero => exact ⟨by rw [hcap]; exact hv.1, hcan⟩
        | succ k =>
            have hold := hraw' k (by omega)
            have hadd : s + (l.length + 1) + k = s + l.length + (k + 1) := by omega
            rw [hadd] at hold
            refine ⟨by rw [hcap]; exact hold.1, ?_⟩
            rw [CanHold, hrest _ (by omega) (by omega)]
            exact hold.2
      obtain ⟨m', hloop, hholds, hrawm, hsame'⟩ := ih (hl.frame hsame (.inl (Nat.le_refl _))) hraw₁
      refine ⟨m', ?_, holds_append.mpr ⟨hholds, ?_, ?_, trivial⟩, hrawm,
        (hsame.mono (by omega) (by omega)).trans (hsame'.mono (by omega) (by omega))⟩
      · rw [forwardLoop, except_bind_ok hmove, hloop]
      · rw [hsame'.cap, hcap]
        exact hdest.1
      · rw [hsame'.cell _ (by omega), hcell]

theorem backwardLoop_spec (hraw : Raw plain m d n) (h : Holds m (d + n) l)
    (hok : 0 < n ∨ plain = true) : ∃ m', backwardLoop plain m d (d + n) l.length = .ok m' ∧
      Holds m' d l ∧ Raw plain m' (d + l.length) n ∧ SameBut m m' d (n + l.length) := by
  induction l generalizing m d with
  | nil => exact ⟨m, rfl, trivial, hraw, .refl⟩
  | cons v l ih =>
      obtain ⟨hlt, hcell, hl⟩ := h
      have hraw' := raw_iff.mp hraw
      have hdest : d < m.cap ∧ CanHold plain m d := by
        rcases Nat.eq_zero_or_pos n with hzero | hpos
        · have hplain : plain = true := hok.resolve_left (by omega)
          exact ⟨by omega, .inl hplain⟩
        · exact hraw' 0 hpos
      have hne : d ≠ d + n ∨ plain = true := by
        rcases hok with hpos | hplain
        · exact .inl (by omega)
        · exact .inr hplain
      obtain ⟨m₁, hmove, hcap, hcell', hcan, hrest⟩ :=
        moveOne_spec ⟨hlt, hcell, trivial⟩ hdest.1 hdest.2 hne
      have hsame : SameBut m m₁ d (n + 1) := ⟨hcap, fun k hk => hrest k (by omega) (by omega)⟩
      have hraw₁ : Raw plain m₁ (d + 1) n := by
        refine raw_iff.mpr fun k hk => ?_
        by_cases hlast : k + 1 = n
        · have hadd : d + 1 + k = d + n := by omega
          rw [hadd, hcap]
          exact ⟨hlt, hcan⟩
        · have hold := hraw' (k + 1) (by omega)
          have hadd : d + (k + 1) = d + 1 + k := by omega
          rw [hadd] at hold
          refine ⟨by rw [hcap]; exact hold.1, ?_⟩
          rw [CanHold, hrest _ (by omega) (by omega)]
          exact hold.2
      have hadd : d + n + 1 = d + 1 + n := by omega
      rw [hadd] at hl
      have hl₁ : Holds m₁ (d + 1 + n) l := hl.frame hsame (.inr (by omega))
      obtain ⟨m', hloop, hholds, hrawm, hsame'⟩ := ih hraw₁ hl₁
      refine ⟨m', ?_, ⟨?_, ?_, hholds⟩, ?_,
        (hsame.mono (by omega) (by rw [List.length_cons]; omega)).trans
          (hsame'.mono (by omega) (by rw [List.length_cons]; omega))⟩
      · rw [List.length_cons, backwardLoop, except_bind_ok hmove, hadd, hloop]
      · rw [hsame'.cap, hcap]
        exact hdest.1
      · rw [hsame'.cell d (by omega), hcell']
      · have hadd' : d + (l.length + 1) = d + 1 + l.length := by omega
        rw [List.length_cons, hadd']
        exact hrawm

theorem memmove_spec (h : Holds m s l) (hd : d + l.length ≤ m.cap) (hs : s + l.length ≤ m.cap)
    (hcan : ∀ k < l.length, s ≤ d + k ∧ d + k < s + l.length ∨ CanHold plain m (d + k)) :
    ∃ m', memmove plain m d s l.length = .ok m' ∧ Holds m' d l ∧
      (∀ k, s ≤ k → k < s + l.length → (k < d ∨ d + l.length ≤ k) → CanHold plain m' k) ∧
      m'.cap = m.cap ∧ ∀ k, (k < s ∨ s + l.length ≤ k) → (k < d ∨ d + l.length ≤ k) →
        m'.cell k = m.cell k := by
  refine ⟨moved m d s l.length, by rw [memmove, if_pos ⟨hd, hs⟩, if_pos hcan],
    holds_iff.mpr fun k hk => ?_, fun k hsk hks hdk => .inr ?_, rfl, fun k hks hkd => ?_⟩
  · have hcell := (holds_iff.mp h k hk).2
    have hadd : d + k - d + s = s + k := by omega
    refine ⟨show d + k < m.cap by omega, ?_⟩
    unfold moved
    dsimp only
    rw [if_pos ⟨by omega, by omega⟩, hadd]
    exact hcell
  · unfold moved
    dsimp only
    rw [if_neg (by omega), if_pos ⟨hsk, hks⟩]
  · unfold moved
    dsimp only
    rw [if_neg (by omega), if_neg (by omega)]

theorem memmove_up (h : Holds m s l) (hraw : Raw plain m (s + l.length) n) (hpos : 0 < l.length) :
    ∃ m', memmove plain m (s + n) s l.length = .ok m' ∧ Holds m' (s + n) l ∧ Raw plain m' s n ∧
      SameBut m m' s (n + l.length) := by
  have hs := h.le hpos
  have hd : s + n + l.length ≤ m.cap := by
    rcases Nat.eq_zero_or_pos n with hzero | hn
    · omega
    · have := hraw.le hn
      omega
  have hraw' := raw_iff.mp hraw
  obtain ⟨m', hmove, hholds, hleft, hcap, hrest⟩ := memmove_spec (d := s + n) h hd hs fun k hk => by
    by_cases hin : s + n + k < s + l.length
    · exact .inl ⟨by omega, hin⟩
    · have hold := (hraw' (n + k - l.length) (by omega)).2
      have hadd : s + l.length + (n + k - l.length) = s + n + k := by omega
      rw [hadd] at hold
      exact .inr hold
  refine ⟨m', hmove, hholds, raw_iff.mpr fun k hk => ⟨by omega, ?_⟩,
    ⟨hcap, fun k hk => hrest k (by omega) (by omega)⟩⟩
  by_cases hin : k < l.length
  · exact hleft (s + k) (by omega) (by omega) (by omega)
  · have hold := (hraw' (k - l.length) (by omega)).2
    have hadd : s + l.length + (k - l.length) = s + k := by omega
    rw [hadd] at hold
    rwa [CanHold, hrest (s + k) (by omega) (by omega)]

theorem memmove_down (hraw : Raw plain m d n) (h : Holds m (d + n) l) (hpos : 0 < l.length) :
    ∃ m', memmove plain m d (d + n) l.length = .ok m' ∧ Holds m' d l ∧
      Raw plain m' (d + l.length) n ∧ SameBut m m' d (n + l.length) := by
  have hs := h.le hpos
  have hraw' := raw_iff.mp hraw
  obtain ⟨m', hmove, hholds, hleft, hcap, hrest⟩ :=
    memmove_spec (d := d) h (by omega) hs fun k hk => by
      by_cases hin : k < n
      · exact .inr (hraw' k hin).2
      · exact .inl ⟨by omega, by omega⟩
  refine ⟨m', hmove, hholds, raw_iff.mpr fun k hk => ⟨by omega, ?_⟩,
    ⟨hcap, fun k hk => hrest k (by omega) (by omega)⟩⟩
  by_cases hin : n ≤ l.length + k
  · exact hleft (d + l.length + k) (by omega) (by omega) (by omega)
  · have hold := (hraw' (l.length + k) (by omega)).2
    have hadd : d + (l.length + k) = d + l.length + k := by omega
    rw [hadd] at hold
    rwa [CanHold, hrest (d + l.length + k) (by omega) (by omega)]

theorem forwardLoop_self (h : Holds m s (l ++ [v])) (hplain : plain = false) :
    forwardLoop plain s s m (l.length + 1) = .error .overwritten := by
  rw [forwardLoop, moveOne_self (holds_append.mp h).2 hplain]
  rfl

theorem backwardLoop_self (h : Holds m s (v :: l)) (hplain : plain = false) :
    backwardLoop plain m s s (l.length + 1) = .error .overwritten := by
  have hself : moveOne plain m s s = .error .overwritten :=
    moveOne_self ⟨h.1, h.2.1, trivial⟩ hplain
  rw [backwardLoop, hself]
  rfl

/-! ### Plain objects that stay where they are -/

theorem moveOne_stays (hlt : s < m.cap) (hlive : (m.cell s).live = true) (hplain : plain = true) :
    moveOne plain m s s = .ok m := by
  have hread : m.read s = .ok (m.cell s).val := by rw [Block.read, if_pos hlt, if_pos hlive]
  have hcell : (⟨(m.cell s).val, true⟩ : Cell α) = m.cell s := by rw [← hlive]
  rw [moveOne, except_bind_ok hread, except_bind_ok (construct_eq hlt (.inl hplain)),
    if_pos hplain, hcell, Block.set, Function.update_eq_self]

theorem forwardLoop_stays (h : Holds m s l) (hplain : plain = true) (hn : n ≤ l.length) :
    forwardLoop plain s s m n = .ok m := by
  induction n with
  | zero => rfl
  | succ n ih =>
      obtain ⟨hlt, hcell⟩ := holds_iff.mp h n (by omega)
      rw [forwardLoop, except_bind_ok (moveOne_stays hlt (by rw [hcell]) hplain), ih (by omega)]

theorem backwardLoop_stays (h : Holds m s l) (hplain : plain = true) :
    backwardLoop plain m s s l.length = .ok m := by
  induction l generalizing s with
  | nil => rfl
  | cons v l ih =>
      obtain ⟨hlt, hcell, hrest⟩ := h
      rw [List.length_cons, backwardLoop,
        except_bind_ok (moveOne_stays hlt (by rw [hcell]) hplain), ih hrest]

theorem memmove_stays (hle : s + n ≤ m.cap) : memmove plain m s s n = .ok m := by
  have hsame : moved m s s n = m := by
    unfold moved
    refine congrArg (Block.mk m.cap) (funext fun k => ?_)
    split
    · rename_i hin
      rw [Nat.sub_add_cancel hin.1]
    · rfl
  rw [memmove, if_pos ⟨hle, hle⟩, if_pos fun k hk => .inl ⟨by omega, by omega⟩, hsame]

/-! ### The size of a block -/

theorem construct_cap (h : m.construct plain i v = .ok m') : m'.cap = m.cap := by
  unfold construct at h
  split at h
  · split at h
    · cases h
      rfl
    · cases h
  · cases h

theorem destroy_cap (h : m.destroy i = .ok m') : m'.cap = m.cap := by
  unfold destroy at h
  split at h
  · split at h
    · cases h
      rfl
    · cases h
  · cases h

theorem beginLoop_cap (h : beginLoop plain m i n = .ok m') : m'.cap = m.cap := by
  induction n generalizing m i with
  | zero =>
      cases h
      rfl
  | succ n ih =>
      obtain ⟨m₁, hone, hrest⟩ := except_bind_eq_ok.mp h
      exact (ih hrest).trans (construct_cap hone)

theorem fillLoop_cap (h : fillLoop plain v m i n = .ok m') : m'.cap = m.cap := by
  induction n generalizing m i with
  | zero =>
      cases h
      rfl
  | succ n ih =>
      obtain ⟨m₁, hone, hrest⟩ := except_bind_eq_ok.mp h
      exact (ih hrest).trans (construct_cap hone)

theorem copyLoop_cap {src : Block α} (h : copyLoop plain src m i j n = .ok m') :
    m'.cap = m.cap := by
  induction n generalizing m i j with
  | zero =>
      cases h
      rfl
  | succ n ih =>
      obtain ⟨v, -, h⟩ := except_bind_eq_ok.mp h
      obtain ⟨m₁, hone, hrest⟩ := except_bind_eq_ok.mp h
      exact (ih hrest).trans (construct_cap hone)

theorem destroyLoop_cap (h : destroyLoop m i n = .ok m') : m'.cap = m.cap := by
  induction n generalizing m i with
  | zero =>
      cases h
      rfl
  | succ n ih =>
      obtain ⟨m₁, hone, hrest⟩ := except_bind_eq_ok.mp h
      exact (ih hrest).trans (destroy_cap hone)

theorem moveOne_cap (h : moveOne plain m d s = .ok m') : m'.cap = m.cap := by
  obtain ⟨v, -, h⟩ := except_bind_eq_ok.mp h
  obtain ⟨m₁, hone, h⟩ := except_bind_eq_ok.mp h
  split at h
  · cases h
    exact construct_cap hone
  · exact (destroy_cap h).trans (construct_cap hone)

theorem forwardLoop_cap (h : forwardLoop plain d s m n = .ok m') : m'.cap = m.cap := by
  induction n generalizing m with
  | zero =>
      cases h
      rfl
  | succ n ih =>
      obtain ⟨m₁, hone, hrest⟩ := except_bind_eq_ok.mp h
      exact (ih hrest).trans (moveOne_cap hone)

theorem backwardLoop_cap (h : backwardLoop plain m d s n = .ok m') : m'.cap = m.cap := by
  induction n generalizing m d s with
  | zero =>
      cases h
      rfl
  | succ n ih =>
      obtain ⟨m₁, hone, hrest⟩ := except_bind_eq_ok.mp h
      exact (ih hrest).trans (moveOne_cap hone)

theorem memmove_cap (h : memmove plain m d s n = .ok m') : m'.cap = m.cap := by
  unfold memmove at h
  split at h
  · split at h
    · cases h
      rfl
    · cases h
  · cases h

end Block

end Library

end BinderForLinux
