import BinderForLinux.Ashmem.Runs

/-!
# The interval of a request

The bytes that a request asks for and the pages that `ashmem_pin_unpin` makes of them. A length
of zero stands for the bytes up to the end of the area, which is computed in 32 bits.
-/

namespace BinderForLinux

namespace Ashmem

variable {x : Area} {offset len : UInt32} {i : ℕ × ℕ}

def requestEnd (x : Area) (offset len : UInt32) : ℕ :=
  if len = 0 then pageAlign x.size else offset.toNat + len.toNat

/-- The pages are those of the area that have the bytes of the request. -/
structure Converted (x : Area) (offset len : UInt32) (i : ℕ × ℕ) : Prop where
  le : i.1 ≤ i.2
  inside : i.2 < pageAlign x.size / pageSize
  covers : ∀ byte, i.1 * pageSize ≤ byte ∧ byte < (i.2 + 1) * pageSize ↔
    offset.toNat ≤ byte ∧ byte < requestEnd x offset len

/-- The length is given, or what is left of the area has one in 32 bits that is not zero. -/
def HasLength (x : Area) (offset len : UInt32) : Prop :=
  len ≠ 0 ∨ offset.toNat < pageAlign x.size ∧ pageAlign x.size - offset.toNat < 2 ^ 32

theorem pageAlign_dvd (n : ℕ) : pageAlign n % pageSize = 0 := Nat.mul_mod_left _ _

theorem pageAlign_lt (n : ℕ) : pageAlign n < wordSize :=
  (Nat.div_mul_le_self _ _).trans_lt (Nat.mod_lt _ (by decide))

def givenLen (x : Area) (offset len : UInt32) : ℕ :=
  if len.toNat = 0 then wsub (pageAlign x.size) offset.toNat % 2 ^ 32 else len.toNat

theorem pinInterval_eq (h : pinInterval x offset len = some i) :
    offset.toNat % pageSize = 0 ∧ givenLen x offset len % pageSize = 0 ∧
      offset.toNat + givenLen x offset len < 2 ^ 32 ∧
      offset.toNat + givenLen x offset len ≤ pageAlign x.size ∧
      i = (offset.toNat / pageSize,
        wsub (wadd (offset.toNat / pageSize) (givenLen x offset len / pageSize)) 1) := by
  have hoffset : offset.toNat < 2 ^ 32 := offset.toNat_lt
  unfold pinInterval at h
  dsimp only at h
  rw [← givenLen] at h
  generalize givenLen x offset len = n at h ⊢
  split at h
  · cases h
  split at h
  · cases h
  split at h
  · cases h
  split at h
  · cases h
  rename_i hmask hsum hend
  have hmod : offset.toNat % 2 ^ 12 ||| n % 2 ^ 12 = 0 := by
    rw [← Nat.or_mod_two_pow]
    exact not_not.mp hmask
  obtain ⟨ho, hn⟩ := Nat.or_eq_zero_iff.mp hmod
  exact ⟨ho, hn, by omega, by omega, (Option.some.inj h).symm⟩

theorem lastPage {o n : ℕ} (ho : o % pageSize = 0) (hn : n % pageSize = 0) (hsum : o + n < 2 ^ 32)
    (hpos : 0 < n) : wsub (wadd (o / pageSize) (n / pageSize)) 1 =
      o / pageSize + n / pageSize - 1 := by
  unfold wsub wadd wordSize pageSize at *
  omega

theorem converted_of_pos (h : pinInterval x offset len = some i)
    (hpos : 0 < givenLen x offset len)
    (hend : offset.toNat + givenLen x offset len = requestEnd x offset len) :
    Converted x offset len i := by
  obtain ⟨ho, hn, hsum, hle, rfl⟩ := pinInterval_eq h
  have halign := pageAlign_dvd x.size
  rw [lastPage ho hn hsum hpos]
  generalize givenLen x offset len = n at *
  unfold pageSize at ho hn halign
  refine ⟨?_, ?_, fun byte => ?_⟩ <;> simp only [pageSize] <;> omega

theorem givenLen_eq (hlen : len = 0) (hle : offset.toNat ≤ pageAlign x.size) :
    givenLen x offset len = (pageAlign x.size - offset.toNat) % 2 ^ 32 := by
  rw [givenLen, if_pos (by rw [hlen]; rfl), wsub_of_le hle (pageAlign_lt x.size)]

/-- A request that passes the checks is converted to the pages of its bytes if and only if its
length is given, or is not zero in 32 bits. -/
theorem pinInterval_converted (h : pinInterval x offset len = some i) :
    Converted x offset len i ↔ HasLength x offset len := by
  obtain ⟨ho, hn, hsum, hle, hi⟩ := pinInterval_eq h
  have halign := pageAlign_dvd x.size
  have hlt := pageAlign_lt x.size
  by_cases hlen : len = 0
  · have hend : requestEnd x offset len = pageAlign x.size := if_pos hlen
    have hgiven := givenLen_eq hlen ((Nat.le_add_right _ _).trans hle)
    constructor
    · rintro ⟨hfirst, hinside, hcovers⟩
      refine .inr ⟨?_, ?_⟩
      · -- otherwise the last page is before the first, or the last of all
        by_contra hnone
        have hzero : givenLen x offset len = 0 := by omega
        rw [hzero] at hi
        subst hi
        unfold pageSize wordSize at *
        simp only [wsub, wadd_def, wordSize] at hfirst hinside
        omega
      · by_contra hlong
        by_cases hzero : givenLen x offset len = 0
        · rw [hzero] at hi
          subst hi
          unfold pageSize wordSize at *
          simp only [wsub, wadd_def, wordSize] at hfirst hinside
          omega
        · -- the byte after the last page is asked for
          have hbyte := hcovers (offset.toNat + givenLen x offset len)
          rw [hi, lastPage ho hn hsum (Nat.pos_of_ne_zero hzero), hend] at hbyte
          unfold pageSize at *
          simp only at hbyte
          omega
    · rintro (hne | ⟨hbefore, hshort⟩)
      · exact absurd hlen hne
      · exact converted_of_pos h (by omega) (by omega)
  · have hzero : len.toNat ≠ 0 := fun h => hlen (UInt32.toNat_inj.mp h)
    have hgiven : givenLen x offset len = len.toNat := if_neg hzero
    exact iff_of_true (converted_of_pos h (by omega) (by rw [hgiven, requestEnd, if_neg hlen]))
      (.inl hlen)

/-- Two pages behind the first of sixteen. -/
theorem pinInterval_converted_sixteen :
    pinInterval ⟨[], true, 65536, 0⟩ 4096 8192 = some (1, 2) ∧
      Converted ⟨[], true, 65536, 0⟩ 4096 8192 (1, 2) := by
  have h : pinInterval ⟨[], true, 65536, 0⟩ 4096 8192 = some (1, 2) := by decide +kernel
  exact ⟨h, (pinInterval_converted h).mpr (.inl (by decide))⟩

/-- All of an area of 4 GiB, and of one that has a page more. -/
theorem wholeArea_notConverted :
    (∃ i, pinInterval ⟨[], true, 2 ^ 32, 0⟩ 0 0 = some i ∧
      ¬ Converted ⟨[], true, 2 ^ 32, 0⟩ 0 0 i) ∧
    ∃ i, pinInterval ⟨[], true, 2 ^ 32 + 4096, 0⟩ 0 0 = some i ∧
      ¬ Converted ⟨[], true, 2 ^ 32 + 4096, 0⟩ 0 0 i := by
  refine ⟨⟨(0, 2 ^ 64 - 1), by decide +kernel, fun h => ?_⟩,
    ⟨(0, 0), by decide +kernel, fun h => ?_⟩⟩
  · exact absurd h.inside (by decide +kernel)
  · have hbyte := (h.covers 4096).mpr (by decide +kernel)
    exact absurd hbyte.2 (by decide)

end Ashmem

end BinderForLinux
