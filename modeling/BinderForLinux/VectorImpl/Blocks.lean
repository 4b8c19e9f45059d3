import BinderForLinux.VectorImpl.Impl
import Mathlib.Data.List.Basic

/-!
# The items of one buffer

A buffer is `Filled` with the items of a vector, and the rest of it is raw. Making place for items
turns it into a `Gapped` one, and putting items into the gap fills it again.
-/

namespace BinderForLinux

namespace VectorImpl

open Library Block

variable {α : Type} {t : Traits} {dflt : α} {m m' : Block α} {i n k : ℕ} {l l₁ l₂ xs : List α}

/-! ### Operations on items -/

theorem Holds.raw (h : Holds m i l) (hplain : t.trivialDtor = true) :
    Raw t.trivialDtor m i l.length :=
  raw_iff.mpr fun k hk => ⟨(holds_iff.mp h k hk).1, .inl hplain⟩

theorem doDestroy_spec (h : Holds m i l) : ∃ m', doDestroy t m i l.length = .ok m' ∧
    Raw t.trivialDtor m' i l.length ∧ SameBut m m' i l.length := by
  unfold doDestroy
  split
  · rename_i hplain
    exact ⟨m, rfl, Holds.raw h hplain, .refl⟩
  · exact destroyLoop_spec h

theorem doConstruct_spec (dflt : α) (h : Raw t.trivialDtor m i n) : ∃ m' xs,
    doConstruct t dflt m i n = .ok m' ∧ xs.length = n ∧ Holds m' i xs ∧ SameBut m m' i n ∧
      (t.trivialCtor = false → xs = List.replicate n dflt) := by
  unfold doConstruct
  split
  · rename_i htrivial
    obtain ⟨m', xs, hloop, hlen, hholds, hsame⟩ := beginLoop_spec h
    refine ⟨m', xs, hloop, hlen, hholds, hsame, fun hfalse => ?_⟩
    rw [hfalse] at htrivial
    cases htrivial
  · obtain ⟨m', hloop, hholds, hsame⟩ := fillLoop_spec (v := dflt) h
    exact ⟨m', _, hloop, List.length_replicate, hholds, hsame, fun _ => rfl⟩

/-- Items that are moved to where they are stay what they are. -/
def Stays (t : Traits) : Prop := MovesBytes t ∨ t.trivialDtor = true

instance (t : Traits) : Decidable (Stays t) :=
  inferInstanceAs (Decidable (MovesBytes t ∨ t.trivialDtor = true))

theorem doMoveForward_spec (h : Holds m i l) (hraw : Raw t.trivialDtor m (i + l.length) n)
    (hpos : 0 < l.length) (hok : 0 < n ∨ Stays t) : ∃ m',
      doMoveForward t m (i + n) i l.length = .ok m' ∧ Holds m' (i + n) l ∧
      Raw t.trivialDtor m' i n ∧ SameBut m m' i (n + l.length) := by
  unfold doMoveForward
  split
  · exact memmove_up h hraw hpos
  · rename_i hbytes
    exact forwardLoop_spec h hraw (hok.imp_right fun hstays => hstays.resolve_left hbytes)

theorem doMoveBackward_spec (hraw : Raw t.trivialDtor m i n) (h : Holds m (i + n) l)
    (hpos : 0 < l.length) (hok : 0 < n ∨ Stays t) : ∃ m',
      doMoveBackward t m i (i + n) l.length = .ok m' ∧ Holds m' i l ∧
      Raw t.trivialDtor m' (i + l.length) n ∧ SameBut m m' i (n + l.length) := by
  unfold doMoveBackward
  split
  · exact memmove_down hraw h hpos
  · rename_i hbytes
    exact backwardLoop_spec hraw h (hok.imp_right fun hstays => hstays.resolve_left hbytes)

theorem doMoveForward_self (h : Holds m i l) (hpos : 0 < l.length) (hstays : ¬ Stays t) :
    doMoveForward t m i i l.length = .error .overwritten := by
  unfold Stays at hstays
  rw [not_or, Bool.not_eq_true] at hstays
  obtain ⟨l, x, rfl⟩ := (List.eq_nil_or_concat' l).resolve_left (List.length_pos_iff.mp hpos)
  rw [doMoveForward, if_neg hstays.1, List.length_append, List.length_singleton]
  exact forwardLoop_self h hstays.2

theorem doMoveBackward_self (h : Holds m i l) (hpos : 0 < l.length) (hstays : ¬ Stays t) :
    doMoveBackward t m i i l.length = .error .overwritten := by
  unfold Stays at hstays
  rw [not_or, Bool.not_eq_true] at hstays
  cases l with
  | nil => cases hpos
  | cons x l =>
      rw [doMoveBackward, if_neg hstays.1, List.length_cons]
      exact backwardLoop_self h hstays.2

theorem doMoveForward_stays (h : Holds m i l) (hpos : 0 < l.length) (hstays : Stays t) :
    doMoveForward t m i i l.length = .ok m := by
  unfold doMoveForward
  split
  · exact memmove_stays (h.le hpos)
  · rename_i hbytes
    exact forwardLoop_stays h (hstays.resolve_left hbytes) (Nat.le_refl _)

theorem doMoveBackward_stays (h : Holds m i l) (hpos : 0 < l.length) (hstays : Stays t) :
    doMoveBackward t m i i l.length = .ok m := by
  unfold doMoveBackward
  split
  · exact memmove_stays (h.le hpos)
  · rename_i hbytes
    exact backwardLoop_stays h (hstays.resolve_left hbytes)

/-! ### Gaps -/

/-- The block has the items of `l₁`, a gap of `n` cells, and the items of `l₂`. -/
structure Gapped (t : Traits) (m : Block α) (l₁ : List α) (n : ℕ) (l₂ : List α) : Prop where
  front : Holds m 0 l₁
  gap : Raw t.trivialDtor m l₁.length n
  back : Holds m (l₁.length + n) l₂
  le : l₁.length + n + l₂.length ≤ m.cap
  rest : Raw t.trivialDtor m (l₁.length + n + l₂.length) (m.cap - (l₁.length + n + l₂.length))

/-- The block has the items of the list. -/
structure Filled (t : Traits) (m : Block α) (l : List α) : Prop where
  items : Holds m 0 l
  le : l.length ≤ m.cap
  rest : Raw t.trivialDtor m l.length (m.cap - l.length)

theorem Gapped.fill (h : Gapped t m l₁ n l₂) (hxs : Holds m' l₁.length xs) (hlen : xs.length = n)
    (hsame : SameBut m m' l₁.length n) : Filled t m' (l₁ ++ xs ++ l₂) := by
  have hlength : (l₁ ++ xs ++ l₂).length = l₁.length + n + l₂.length := by
    rw [List.length_append, List.length_append, hlen]
  refine ⟨holds_append.mpr ⟨holds_append.mpr ⟨h.front.frame hsame (.inl (by omega)), ?_⟩, ?_⟩,
    by rw [hlength, hsame.cap]; exact h.le, ?_⟩
  · rwa [Nat.zero_add]
  · rw [List.length_append, hlen, Nat.zero_add]
    exact h.back.frame hsame (.inr (Nat.le_refl _))
  · rw [hlength, hsame.cap]
    exact h.rest.frame hsame (.inr (by omega))

theorem Gapped.filled (h : Gapped t m l₁ 0 l₂) : Filled t m (l₁ ++ l₂) := by
  have hfill : Filled t m (l₁ ++ [] ++ l₂) := h.fill trivial rfl .refl
  rwa [List.append_nil] at hfill

theorem Filled.split (h : Filled t m (l₁ ++ l₂)) :
    Holds m 0 l₁ ∧ Holds m l₁.length l₂ ∧ l₁.length + l₂.length ≤ m.cap ∧
      Raw t.trivialDtor m (l₁.length + l₂.length) (m.cap - (l₁.length + l₂.length)) := by
  obtain ⟨hitems, hle, hrest⟩ := h
  obtain ⟨h₁, h₂⟩ := holds_append.mp hitems
  rw [Nat.zero_add] at h₂
  rw [List.length_append] at hle hrest
  exact ⟨h₁, h₂, hle, hrest⟩

theorem Filled.gapLast (h : Filled t m l) (hroom : l.length + n ≤ m.cap) : Gapped t m l n [] := by
  have hsum : m.cap - l.length = n + (m.cap - (l.length + n)) := by omega
  have hrest := h.rest
  rw [hsum] at hrest
  obtain ⟨hgap, hrest⟩ := raw_add.mp hrest
  exact ⟨h.items, hgap, trivial, hroom, hrest⟩

theorem Filled.makeGap (h : Filled t m (l₁ ++ l₂)) (hroom : l₁.length + n + l₂.length ≤ m.cap)
    (hpos : 0 < l₂.length) (hok : 0 < n ∨ Stays t) : ∃ m',
      doMoveForward t m (l₁.length + n) l₁.length l₂.length = .ok m' ∧ Gapped t m' l₁ n l₂ := by
  obtain ⟨h₁, h₂, -, hrest⟩ := h.split
  have hsum : m.cap - (l₁.length + l₂.length) = n + (m.cap - (l₁.length + n + l₂.length)) := by
    omega
  rw [hsum] at hrest
  obtain ⟨hgap, hrest⟩ := raw_add.mp hrest
  have hadd : l₁.length + l₂.length + n = l₁.length + n + l₂.length := by omega
  rw [hadd] at hrest
  obtain ⟨m', hmove, hholds, hraw, hsame⟩ := doMoveForward_spec h₂ hgap hpos hok
  refine ⟨m', hmove, h₁.frame hsame (.inl (by omega)), hraw, hholds, by rwa [hsame.cap], ?_⟩
  rw [hsame.cap]
  exact hrest.frame hsame (.inr (by omega))

theorem Filled.cut (h : Filled t m (l₁ ++ xs ++ l₂)) : ∃ m',
    doDestroy t m l₁.length xs.length = .ok m' ∧ m'.cap = m.cap ∧
      Gapped t m' l₁ xs.length l₂ := by
  obtain ⟨h₁, h₂, hle, hrest⟩ := h.split
  obtain ⟨h₁, hxs⟩ := holds_append.mp h₁
  rw [Nat.zero_add] at hxs
  rw [List.length_append] at h₂ hle hrest
  obtain ⟨m', hdestroy, hraw, hsame⟩ := doDestroy_spec (t := t) hxs
  refine ⟨m', hdestroy, hsame.cap, h₁.frame hsame (.inl (by omega)), hraw,
    h₂.frame hsame (.inr (Nat.le_refl _)), by rwa [hsame.cap], ?_⟩
  rw [hsame.cap]
  exact hrest.frame hsame (.inr (by omega))

theorem Gapped.close (h : Gapped t m l₁ n l₂) (hpos : 0 < l₂.length) (hok : 0 < n ∨ Stays t) :
    ∃ m', doMoveBackward t m l₁.length (l₁.length + n) l₂.length = .ok m' ∧
      Filled t m' (l₁ ++ l₂) := by
  obtain ⟨m', hmove, hholds, hraw, hsame⟩ := doMoveBackward_spec h.gap h.back hpos hok
  refine ⟨m', hmove, holds_append.mpr ⟨h.front.frame hsame (.inl (by omega)), ?_⟩, ?_, ?_⟩
  · rwa [Nat.zero_add]
  · have := h.le
    rw [List.length_append, hsame.cap]
    omega
  · have hle := h.le
    have hsum : m'.cap - (l₁ ++ l₂).length = n + (m.cap - (l₁.length + n + l₂.length)) := by
      rw [List.length_append, hsame.cap]
      omega
    have hadd : l₁.length + l₂.length + n = l₁.length + n + l₂.length := by omega
    rw [hsum, List.length_append]
    refine raw_add.mpr ⟨hraw, ?_⟩
    rw [hadd]
    exact h.rest.frame hsame (.inr (by omega))

theorem Gapped.filledLast (h : Gapped t m l₁ n []) : Filled t m l₁ := by
  have hle := h.le
  have hrest := h.rest
  simp only [List.length_nil, Nat.add_zero] at hle hrest
  have hsum : m.cap - l₁.length = n + (m.cap - (l₁.length + n)) := by omega
  refine ⟨h.front, by omega, ?_⟩
  rw [hsum]
  exact raw_add.mpr ⟨h.gap, hrest⟩

end VectorImpl

end BinderForLinux
