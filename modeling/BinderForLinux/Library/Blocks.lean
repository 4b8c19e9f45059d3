import BinderForLinux.Library.Bytes

/-!
# Strings of bytes in a byte array

`getBytes m off n` are the `n` bytes at `off`, `putBytes m off bs` stores `bs` there. A string
that was stored is read back until something is stored over it.
-/

namespace BinderForLinux

namespace Library

def getBytes (m : ℕ → UInt8) (off n : ℕ) : List UInt8 := (List.range n).map fun i => m (off + i)

def putBytes (m : ℕ → UInt8) (off : ℕ) (bs : List UInt8) : ℕ → UInt8 := fun i =>
  if off ≤ i then (bs[i - off]?).getD (m i) else m i

/-- The number whose low bytes are `bs`, the lowest first. -/
def ofBytesLE : List UInt8 → ℕ
  | [] => 0
  | b :: bs => b.toNat + 256 * ofBytesLE bs

@[simp] theorem length_getBytes (m : ℕ → UInt8) (off n : ℕ) : (getBytes m off n).length = n := by
  simp [getBytes]

theorem getBytes_congr {m m' : ℕ → UInt8} {off n : ℕ}
    (h : ∀ i, off ≤ i → i < off + n → m i = m' i) : getBytes m off n = getBytes m' off n := by
  refine List.map_congr_left fun i hi => ?_
  have hlt := List.mem_range.mp hi
  exact h (off + i) (by omega) (by omega)

theorem getBytes_add (m : ℕ → UInt8) (off a b : ℕ) :
    getBytes m off (a + b) = getBytes m off a ++ getBytes m (off + a) b := by
  simp only [getBytes, List.range_add, List.map_append, List.map_map]
  congr 1
  exact List.map_congr_left fun i _ => by simp [Nat.add_assoc]

theorem getBytes_succ (m : ℕ → UInt8) (off n : ℕ) :
    getBytes m off (n + 1) = m off :: getBytes m (off + 1) n := by
  rw [Nat.add_comm, getBytes_add]
  simp [getBytes]

theorem putBytes_outside {m : ℕ → UInt8} {off : ℕ} {bs : List UInt8} {i : ℕ}
    (h : i < off ∨ off + bs.length ≤ i) : putBytes m off bs i = m i := by
  unfold putBytes
  split
  · rw [List.getElem?_eq_none (by omega)]
    rfl
  · rfl

theorem putBytes_inside {m : ℕ → UInt8} {off : ℕ} {bs : List UInt8} {i : ℕ}
    (h : i < bs.length) : putBytes m off bs (off + i) = bs[i] := by
  unfold putBytes
  rw [if_pos (by omega), Nat.add_sub_cancel_left, List.getElem?_eq_getElem h]
  rfl

@[simp] theorem putBytes_nil (m : ℕ → UInt8) (off : ℕ) : putBytes m off [] = m := by
  funext i
  exact putBytes_outside (by simp; omega)

theorem getBytes_putBytes_self (m : ℕ → UInt8) (off : ℕ) (bs : List UInt8) :
    getBytes (putBytes m off bs) off bs.length = bs := by
  refine List.ext_getElem (by simp) fun i h₁ h₂ => ?_
  simp only [getBytes, List.getElem_map, List.getElem_range]
  exact putBytes_inside h₂

theorem putBytes_append (m : ℕ → UInt8) (off : ℕ) (bs cs : List UInt8) :
    putBytes m off (bs ++ cs) = putBytes (putBytes m off bs) (off + bs.length) cs := by
  funext i
  by_cases h1 : i < off
  · rw [putBytes_outside (.inl h1), putBytes_outside (.inl (by omega)),
      putBytes_outside (.inl h1)]
  · obtain ⟨j, rfl⟩ := Nat.exists_eq_add_of_le (not_lt.mp h1)
    by_cases h2 : j < bs.length
    · rw [putBytes_inside (by simp; omega), putBytes_outside (.inl (by omega)),
        putBytes_inside h2, List.getElem_append_left h2]
    · by_cases h3 : j < bs.length + cs.length
      · have hj : off + j = off + bs.length + (j - bs.length) := by omega
        rw [putBytes_inside (by simp; omega), hj, putBytes_inside (by omega),
          List.getElem_append_right (by omega)]
      · rw [putBytes_outside (.inr (by simp; omega)), putBytes_outside (.inr (by omega)),
          putBytes_outside (.inr (by omega))]

/-! ### Numbers -/

theorem getLE_eq_ofBytesLE (m : ℕ → UInt8) (off n : ℕ) :
    getLE m off n = ofBytesLE (getBytes m off n) := by
  induction n generalizing off with
  | zero => rfl
  | succ n ih => rw [getBytes_succ, getLE, ofBytesLE, ih]

theorem getLE_shift {m m' : ℕ → UInt8} {a b n : ℕ} (h : ∀ i, i < n → m' (a + i) = m (b + i)) :
    getLE m' a n = getLE m b n := by
  rw [getLE_eq_ofBytesLE, getLE_eq_ofBytesLE]
  congr 1
  exact List.map_congr_left fun i hi => h i (List.mem_range.mp hi)

theorem ofBytesLE_bytesLE_mod (n v : ℕ) : ofBytesLE (bytesLE n v) = v % 256 ^ n := by
  induction n generalizing v with
  | zero => simp [bytesLE, ofBytesLE, Nat.mod_one]
  | succ n ih =>
      have hlow : (UInt8.ofNat (v % 256)).toNat = v % 256 := by simp [UInt8.toNat_ofNat']
      rw [bytesLE, ofBytesLE, ih, hlow, pow_succ', Nat.mod_mul]

theorem ofBytesLE_bytesLE {n v : ℕ} (hv : v < 256 ^ n) : ofBytesLE (bytesLE n v) = v := by
  rw [ofBytesLE_bytesLE_mod, Nat.mod_eq_of_lt hv]

/-! ### A string at a place -/

def Carries (m : ℕ → UInt8) (off : ℕ) (bs : List UInt8) : Prop := getBytes m off bs.length = bs

theorem carries_append {m : ℕ → UInt8} {off : ℕ} {bs cs : List UInt8} :
    Carries m off (bs ++ cs) ↔ Carries m off bs ∧ Carries m (off + bs.length) cs := by
  unfold Carries
  rw [List.length_append, getBytes_add]
  constructor
  · intro h
    exact List.append_inj h (by simp)
  · rintro ⟨h1, h2⟩
    rw [h1, h2]

theorem carries_putBytes (m : ℕ → UInt8) (off : ℕ) (bs : List UInt8) :
    Carries (putBytes m off bs) off bs := getBytes_putBytes_self m off bs

theorem Carries.congr {m m' : ℕ → UInt8} {off : ℕ} {bs : List UInt8} (h : Carries m off bs)
    (hm : ∀ i, off ≤ i → i < off + bs.length → m' i = m i) : Carries m' off bs := by
  unfold Carries
  rw [getBytes_congr hm]
  exact h

theorem Carries.getLE_mod {m : ℕ → UInt8} {off n v : ℕ} (h : Carries m off (bytesLE n v)) :
    getLE m off n = v % 256 ^ n := by
  unfold Carries at h
  rw [length_bytesLE] at h
  rw [getLE_eq_ofBytesLE, h, ofBytesLE_bytesLE_mod]

theorem Carries.getLE {m : ℕ → UInt8} {off n v : ℕ} (h : Carries m off (bytesLE n v))
    (hv : v < 256 ^ n) : getLE m off n = v := by
  rw [h.getLE_mod, Nat.mod_eq_of_lt hv]

end Library

end BinderForLinux
