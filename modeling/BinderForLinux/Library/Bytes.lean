import Mathlib.Logic.Function.Basic
import Mathlib.Tactic.Common
import Mathlib.Tactic.Ring

/-!
# Little-endian fields in a byte array

A byte array is a function from indices to bytes; its length is kept by whoever
owns it. `getLE m off n` reads the `n`-byte little-endian number at `off` and
`putLE m off n v` writes it. A write is seen by a read of the same field, not by
a read of a field it does not meet, and by no byte outside the field.
-/

namespace BinderForLinux

namespace Library

/-- The `n`-byte little-endian number stored at `off`. -/
def getLE (m : ℕ → UInt8) : ℕ → ℕ → ℕ
  | _, 0 => 0
  | off, n + 1 => (m off).toNat + 256 * getLE m (off + 1) n

/-- Store the low `n` bytes of `v` at `off`. -/
def putLE (m : ℕ → UInt8) : ℕ → ℕ → ℕ → (ℕ → UInt8)
  | _, 0, _ => m
  | off, n + 1, v =>
      Function.update (putLE m (off + 1) n (v / 256)) off (UInt8.ofNat (v % 256))

theorem getLE_lt (m : ℕ → UInt8) (off n : ℕ) : getLE m off n < 256 ^ n := by
  induction n generalizing off with
  | zero => simp [getLE]
  | succ n ih =>
      have hb : (m off).toNat < 256 := (m off).toNat_lt
      have := ih (off + 1)
      simp only [getLE, pow_succ]
      omega

theorem getLE_congr {m m' : ℕ → UInt8} {off n : ℕ}
    (h : ∀ i, off ≤ i → i < off + n → m i = m' i) : getLE m off n = getLE m' off n := by
  induction n generalizing off with
  | zero => rfl
  | succ n ih =>
      simp only [getLE]
      rw [h off le_rfl (by omega), ih (fun i h₁ h₂ => h i (by omega) (by omega))]

theorem getLE_add (m : ℕ → UInt8) (off a b : ℕ) :
    getLE m off (a + b) = getLE m off a + 256 ^ a * getLE m (off + a) b := by
  induction a generalizing off with
  | zero => simp [getLE]
  | succ a ih =>
      rw [Nat.add_right_comm, getLE, getLE, ih, pow_succ', Nat.add_right_comm off 1 a,
        Nat.mul_add, Nat.mul_assoc, Nat.add_assoc, Nat.add_assoc]

theorem putLE_outside {m : ℕ → UInt8} {off n v i : ℕ} (h : i < off ∨ off + n ≤ i) :
    putLE m off n v i = m i := by
  induction n generalizing off v with
  | zero => rfl
  | succ n ih =>
      have hne : i ≠ off := by omega
      simp only [putLE, Function.update_of_ne hne]
      exact ih (by omega)

@[simp] theorem getLE_putLE_self {m : ℕ → UInt8} {off n v : ℕ} (hv : v < 256 ^ n) :
    getLE (putLE m off n v) off n = v := by
  induction n generalizing off v with
  | zero => simp only [pow_zero, Nat.lt_one_iff] at hv; simp [getLE, hv]
  | succ n ih =>
      have hv' : v / 256 < 256 ^ n := by
        rw [Nat.div_lt_iff_lt_mul (by norm_num)]
        simpa [pow_succ] using hv
      have hrest : getLE (Function.update (putLE m (off + 1) n (v / 256)) off
          (UInt8.ofNat (v % 256))) (off + 1) n = v / 256 := by
        rw [getLE_congr fun i h₁ _ =>
          Function.update_of_ne (by omega) _ _]
        exact ih hv'
      have hlow : (UInt8.ofNat (v % 256)).toNat = v % 256 := by
        simp [UInt8.toNat_ofNat']
      simp only [putLE, getLE, Function.update_self, hrest, hlow]
      omega

theorem getLE_putLE_of_disjoint {m : ℕ → UInt8} {off n off' n' v : ℕ}
    (h : off' + n' ≤ off ∨ off + n ≤ off') :
    getLE (putLE m off n v) off' n' = getLE m off' n' :=
  getLE_congr fun _ _ _ => putLE_outside (by omega)

/-! ### Memory that may not be readable

`none` at an address stands for a byte that cannot be read.
-/

/-- The `n` low bytes of `v`, the lowest first. -/
def bytesLE : ℕ → ℕ → List UInt8
  | 0, _ => []
  | n + 1, v => UInt8.ofNat (v % 256) :: bytesLE n (v / 256)

/-- The `n`-byte little-endian number at `off`, when all its bytes can be read. -/
def fetchLE (m : ℕ → Option UInt8) : ℕ → ℕ → Option ℕ
  | _, 0 => some 0
  | off, n + 1 => (m off).bind fun b => (fetchLE m (off + 1) n).map fun v => b.toNat + 256 * v

def Holds (m : ℕ → Option UInt8) : ℕ → List UInt8 → Prop
  | _, [] => True
  | off, b :: bs => m off = some b ∧ Holds m (off + 1) bs

@[simp] theorem length_bytesLE (n v : ℕ) : (bytesLE n v).length = n := by
  induction n generalizing v with
  | zero => rfl
  | succ n ih => simp [bytesLE, ih]

theorem holds_append {m : ℕ → Option UInt8} {off : ℕ} {bs cs : List UInt8} :
    Holds m off (bs ++ cs) ↔ Holds m off bs ∧ Holds m (off + bs.length) cs := by
  induction bs generalizing off with
  | nil => simp [Holds]
  | cons b bs ih =>
      have hoff : off + 1 + bs.length = off + (bs.length + 1) := by omega
      simp only [List.cons_append, Holds, ih, List.length_cons, hoff, and_assoc]

theorem Holds.fetchLE {m : ℕ → Option UInt8} {off n v : ℕ} (h : Holds m off (bytesLE n v))
    (hv : v < 256 ^ n) : fetchLE m off n = some v := by
  induction n generalizing off v with
  | zero =>
      obtain rfl : v = 0 := by simpa using hv
      rfl
  | succ n ih =>
      obtain ⟨hb, hrest⟩ := h
      have hv' : v / 256 < 256 ^ n := by
        rw [Nat.div_lt_iff_lt_mul (by norm_num)]
        simpa [pow_succ] using hv
      have hlow : (UInt8.ofNat (v % 256)).toNat = v % 256 := by simp [UInt8.toNat_ofNat']
      simp only [Library.fetchLE, hb, Option.bind_some, ih hrest hv', Option.map_some, hlow]
      congr 1
      omega

/-- The bytes `bs` are at `off`, as far as they can be read. -/
def MayHold (m : ℕ → Option UInt8) : ℕ → List UInt8 → Prop
  | _, [] => True
  | off, b :: bs => (m off = none ∨ m off = some b) ∧ MayHold m (off + 1) bs

theorem mayHold_append {m : ℕ → Option UInt8} {off : ℕ} {bs cs : List UInt8} :
    MayHold m off (bs ++ cs) ↔ MayHold m off bs ∧ MayHold m (off + bs.length) cs := by
  induction bs generalizing off with
  | nil => simp [MayHold]
  | cons b bs ih =>
      have hoff : off + 1 + bs.length = off + (bs.length + 1) := by omega
      simp only [List.cons_append, MayHold, ih, List.length_cons, hoff, and_assoc]

theorem MayHold.fetchLE {m : ℕ → Option UInt8} {off n v : ℕ} (h : MayHold m off (bytesLE n v))
    (hv : v < 256 ^ n) : fetchLE m off n = none ∨ fetchLE m off n = some v := by
  induction n generalizing off v with
  | zero =>
      obtain rfl : v = 0 := by simpa using hv
      exact .inr rfl
  | succ n ih =>
      obtain ⟨hb, hrest⟩ := h
      have hv' : v / 256 < 256 ^ n := by
        rw [Nat.div_lt_iff_lt_mul (by norm_num)]
        simpa [pow_succ] using hv
      have hlow : (UInt8.ofNat (v % 256)).toNat = v % 256 := by simp [UInt8.toNat_ofNat']
      have hvalue : v % 256 + 256 * (v / 256) = v := by omega
      rcases hb with hb | hb
      · simp [Library.fetchLE, hb]
      · rcases ih hrest hv' with hnone | hsome
        · simp [Library.fetchLE, hb, hnone]
        · simp [Library.fetchLE, hb, hsome, hvalue]

theorem holds_getElem? (bs : List UInt8) : Holds (fun i => bs[i]?) 0 bs := by
  have haux : ∀ pre post : List UInt8, Holds (fun i => (pre ++ post)[i]?) pre.length post := by
    intro pre post
    induction post generalizing pre with
    | nil => trivial
    | cons b post ih =>
        refine ⟨by simp, ?_⟩
        have := ih (pre ++ [b])
        simpa using this
  exact haux [] bs

theorem mayHold_getElem? (readable : ℕ → Bool) (pre bs : List UInt8) :
    MayHold (fun i => if readable i then (pre ++ bs)[i]? else none) pre.length bs := by
  induction bs generalizing pre with
  | nil => trivial
  | cons b bs ih =>
      refine ⟨?_, by simpa using ih (pre ++ [b])⟩
      cases hr : readable pre.length <;> simp

end Library

end BinderForLinux
