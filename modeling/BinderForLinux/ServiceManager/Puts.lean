import BinderForLinux.Library.Blocks
import BinderForLinux.ServiceManager.Handler
import Mathlib.Data.List.TakeWhile

/-!
# What is written is read back

The values that are put into a message and got out of it again in the same order. A put
extends the data and the offsets and leaves what was written before as it is, so a reader
of the whole message finds each value where the put left it.
-/

namespace BinderForLinux

namespace ServiceManager

open Library

/-- A value that is put into a message. The strings are what precedes the first zero. -/
inductive Put
  | uint32 (n : UInt32)
  | string16 (str : List UInt16)
  | string16X (str : List UInt8)
  | ref (handle : UInt32)

/-- A call of one of the readers. -/
inductive Get
  | uint32
  | string16
  | ref

/-- What a reader returns; of a string the units with the terminator, and the length. -/
inductive Got
  | uint32 (n : ℕ)
  | string16 (units : Option (List UInt16)) (len : ℕ)
  | ref (handle : ℕ)
  deriving DecidableEq

def Reply.put (r : Reply) : Put → Reply
  | .uint32 n => bioPutUint32 r n.toNat
  | .string16 str => bioPutString16 r str
  | .string16X str => bioPutString16X r str
  | .ref handle => bioPutRef r handle.toNat

def Reply.putAll (r : Reply) (puts : List Put) : Reply := puts.foldl Reply.put r

def Msg.get (txn : Txn) (m : Msg) : Get → Got × Msg
  | .uint32 => let r := bioGetUint32 txn m; (.uint32 r.1, r.2)
  | .string16 =>
      let r := bioGetString16 txn m
      (.string16 (r.1.map fun s => unitsAt txn s (r.2.1 + 1)) r.2.1, r.2.2)
  | .ref => let r := bioGetRef txn m; (.ref r.1, r.2)

def Msg.getAll (txn : Txn) : Msg → List Get → List Got × Msg
  | m, [] => ([], m)
  | m, g :: gs =>
      let r := m.get txn g
      let rs := r.2.getAll txn gs
      (r.1 :: rs.1, rs.2)

def Put.reader : Put → Get
  | .uint32 _ => .uint32
  | .string16 _ => .string16
  | .string16X _ => .string16
  | .ref _ => .ref

def Put.value : Put → Got
  | .uint32 n => .uint32 n.toNat
  | .string16 str => .string16 (some (str ++ [0])) str.length
  | .string16X str => .string16 (some ((str ++ [0]).map UInt8.toUInt16)) str.length
  | .ref handle => .ref handle.toNat

/-- The strings are without a zero and the handles are not zero. -/
def Put.Ok : Put → Prop
  | .uint32 _ => True
  | .string16 str => 0 ∉ str
  | .string16X str => 0 ∉ str
  | .ref handle => handle ≠ 0

/-- No string is so long that it is written as none. -/
def Put.Short : Put → Prop
  | .string16 str => str.length < maxBioSize / 2
  | .string16X str => str.length < maxBioSize / 2
  | _ => True

def Put.size : Put → ℕ
  | .uint32 _ => 4
  | .string16 str => 4 + roundUp4 ((str.length + 1) * 2)
  | .string16X str => 4 + roundUp4 ((str.length + 1) * 2)
  | .ref _ => objectSize

def Put.Fits (io : BinderIo) (p : Put) : Prop :=
  p.size ≤ io.dataAvail ∧ (p.reader = .ref → 0 < io.offsAvail)

/-- A message that is begun in a block of `maxdata` bytes. -/
def Reply.begin (io : BinderIo) (block : ℕ → UInt8) (maxdata maxoffs : ℕ) : Reply :=
  { io := bioInit io maxdata maxoffs, block := block, stores := [] }

/-- The data and offsets of a message, as `binder_send_reply` sends them. -/
def Reply.txn (r : Reply) : Txn where
  target := 0
  code := 0
  senderPid := 0
  senderEuid := 0
  dataSize := r.io.data - r.io.data0
  offsetsSize := r.io.offs - r.io.offs0
  buffer := fun i => r.block (r.io.data0 + i)
  offsets := fun n => getLE r.block (r.io.offs0 + 8 * n) 8

def Txn.msg (txn : Txn) : Msg := { io := bioInitFromTxn txn, log := [] }

/-! ### What a put changes -/

/-- Only bytes from `lo` on and before `hi` were stored. -/
structure Reply.FilledIn (lo hi : ℕ) (r r' : Reply) : Prop where
  io : r'.io = r.io
  block : ∀ i, i < lo ∨ hi ≤ i → r'.block i = r.block i
  stores : ∀ x ∈ r'.stores, x ∈ r.stores ∨ lo ≤ x.1 ∧ x.1 + x.2 ≤ hi

/-- The data and the offsets have grown and only the new part of them was stored, with at
least 24 bytes of data for each offset. -/
structure Reply.Extends (r r' : Reply) : Prop where
  data0 : r'.io.data0 = r.io.data0
  offs0 : r'.io.offs0 = r.io.offs0
  data : r.io.data ≤ r'.io.data
  dataAvail : r'.io.data + r'.io.dataAvail = r.io.data + r.io.dataAvail
  offs : r.io.offs ≤ r'.io.offs
  offsAvail : r'.io.offs + 8 * r'.io.offsAvail = r.io.offs + 8 * r.io.offsAvail
  objects : 3 * r'.io.offs + r.io.data ≤ 3 * r.io.offs + r'.io.data
  overflow : r.io.overflow = true → r'.io.overflow = true
  block : ∀ i, i < r.io.data ∨ r'.io.data ≤ i → i < r.io.offs ∨ r'.io.offs ≤ i →
    r'.block i = r.block i
  stores : ∀ x ∈ r'.stores, x ∈ r.stores ∨ (r.io.data ≤ x.1 ∧ x.1 + x.2 ≤ r'.io.data) ∨
    r.io.offs ≤ x.1 ∧ x.1 + x.2 ≤ r'.io.offs

def Reply.advance (r : Reply) (n : ℕ) : Reply :=
  { r with io := { r.io with data := r.io.data + n, dataAvail := r.io.dataAvail - n } }

section Growing

variable {r r' r'' : Reply} {lo hi lo' hi' : ℕ}

theorem Reply.FilledIn.refl (lo hi : ℕ) (r : Reply) : r.FilledIn lo hi r :=
  ⟨rfl, fun _ _ => rfl, fun _ hx => .inl hx⟩

theorem Reply.FilledIn.trans (h : r.FilledIn lo hi r') (h' : r'.FilledIn lo hi r'') :
    r.FilledIn lo hi r'' where
  io := h'.io.trans h.io
  block := fun i hi => (h'.block i hi).trans (h.block i hi)
  stores := fun x hx => (h'.stores x hx).elim (h.stores x) .inr

theorem Reply.FilledIn.mono (h : r.FilledIn lo hi r') (hlo : lo' ≤ lo) (hhi : hi ≤ hi') :
    r.FilledIn lo' hi' r' where
  io := h.io
  block := fun i hi => h.block i (by omega)
  stores := fun x hx => (h.stores x hx).imp id fun hx => by omega

theorem Reply.store_filledIn (r : Reply) {off n : ℕ} (v : ℕ) (hlo : lo ≤ off) (hhi : off + n ≤ hi) :
    r.FilledIn lo hi (r.store off n v) where
  io := rfl
  block := fun i hi => putLE_outside (by omega)
  stores := by
    intro x hx
    rcases List.mem_append.mp hx with hx | hx
    · exact .inl hx
    · rw [List.mem_singleton.mp hx]
      exact .inr ⟨hlo, hhi⟩

theorem Reply.Extends.refl (r : Reply) : r.Extends r where
  data0 := rfl
  offs0 := rfl
  data := le_rfl
  dataAvail := rfl
  offs := le_rfl
  offsAvail := rfl
  objects := le_rfl
  overflow := id
  block := fun _ _ _ => rfl
  stores := fun _ hx => .inl hx

theorem Reply.Extends.trans (h : r.Extends r') (h' : r'.Extends r'') : r.Extends r'' where
  data0 := h'.data0.trans h.data0
  offs0 := h'.offs0.trans h.offs0
  data := h.data.trans h'.data
  dataAvail := h'.dataAvail.trans h.dataAvail
  offs := h.offs.trans h'.offs
  offsAvail := h'.offsAvail.trans h.offsAvail
  objects := by
    have := h.objects
    have := h'.objects
    omega
  overflow := fun ho => h'.overflow (h.overflow ho)
  block := by
    intro i hdata hoffs
    have := h.data
    have := h'.data
    have := h.offs
    have := h'.offs
    exact (h'.block i (by omega) (by omega)).trans (h.block i (by omega) (by omega))
  stores := by
    intro x hx
    have := h.data
    have := h'.data
    have := h.offs
    have := h'.offs
    rcases h'.stores x hx with hx | hx
    · rcases h.stores x hx with hx | hx
      · exact .inl hx
      · exact .inr (by omega)
    · exact .inr (by omega)

theorem Reply.overflows_extends (r : Reply) : r.Extends r.overflows :=
  { Reply.Extends.refl r with overflow := fun _ => rfl }

theorem Reply.advance_extends (r : Reply) {n : ℕ} (hn : n ≤ r.io.dataAvail) :
    r.Extends (r.advance n) :=
  { Reply.Extends.refl r with
    data := Nat.le_add_right _ _
    dataAvail := by
      simp only [Reply.advance]
      omega
    objects := by
      simp only [Reply.advance]
      omega
    block := fun _ _ _ => rfl
    stores := fun _ hx => .inl hx }

theorem Reply.Extends.fill (h : r.Extends r') (hf : r'.FilledIn r.io.data r'.io.data r'') :
    r.Extends r'' where
  data0 := hf.io ▸ h.data0
  offs0 := hf.io ▸ h.offs0
  data := hf.io ▸ h.data
  dataAvail := hf.io ▸ h.dataAvail
  offs := hf.io ▸ h.offs
  offsAvail := hf.io ▸ h.offsAvail
  objects := hf.io ▸ h.objects
  overflow := hf.io ▸ h.overflow
  block := by
    intro i hdata hoffs
    rw [hf.io] at hdata hoffs
    exact (hf.block i hdata).trans (h.block i hdata hoffs)
  stores := by
    intro x hx
    rw [hf.io]
    exact (hf.stores x hx).elim (h.stores x) fun hx => .inr (.inl hx)

theorem bioAlloc_cases (r : Reply) (size : ℕ) :
    (roundUp4 size ≤ r.io.dataAvail ∧
      bioAlloc r size = (some r.io.data, r.advance (roundUp4 size))) ∨
    (r.io.dataAvail < roundUp4 size ∧ bioAlloc r size = (none, r.overflows)) := by
  rw [bioAlloc]
  split
  · rename_i h
    exact .inr ⟨h, rfl⟩
  · rename_i h
    exact .inl ⟨not_lt.mp h, rfl⟩

theorem bioPutUint32_extends (r : Reply) (n : ℕ) : r.Extends (bioPutUint32 r n) := by
  rw [bioPutUint32]
  rcases bioAlloc_cases r 4 with ⟨hfit, heq⟩ | ⟨-, heq⟩ <;> rw [heq]
  · exact (r.advance_extends hfit).fill (Reply.store_filledIn _ n le_rfl le_rfl)
  · exact r.overflows_extends

theorem putRefAt_filledIn (r : Reply) (obj handle : ℕ) :
    r.FilledIn obj (obj + objectSize) (putRefAt r obj handle) := by
  have hsize : obj + 24 = obj + objectSize := rfl
  refine (((r.store_filledIn _ ?_ ?_).trans (Reply.store_filledIn _ _ ?_ ?_)).trans
    (Reply.store_filledIn _ _ ?_ ?_)).trans (Reply.store_filledIn _ _ ?_ ?_) <;> omega

def Reply.advanceObject (r : Reply) : Reply :=
  let s := (r.advance objectSize).store r.io.offs 8 (r.io.data - r.io.data0)
  { s with io := { s.io with offs := r.io.offs + 8, offsAvail := r.io.offsAvail - 1 } }

theorem Reply.advanceObject_extends (r : Reply) (hfit : objectSize ≤ r.io.dataAvail)
    (hslot : 0 < r.io.offsAvail) : r.Extends r.advanceObject where
  data0 := rfl
  offs0 := rfl
  data := Nat.le_add_right _ _
  dataAvail := (r.advance_extends hfit).dataAvail
  offs := Nat.le_add_right _ _
  offsAvail := by
    simp only [Reply.advanceObject]
    omega
  objects := by
    simp only [Reply.advanceObject, Reply.store, Reply.advance, objectSize]
    omega
  overflow := id
  block := fun i _ hoffs => putLE_outside hoffs
  stores := by
    intro x hx
    rcases List.mem_append.mp hx with hx | hx
    · exact .inl hx
    · rw [List.mem_singleton.mp hx]
      exact .inr (.inr ⟨le_rfl, le_rfl⟩)

theorem bioAllocObj_cases (r : Reply) :
    (objectSize ≤ r.io.dataAvail ∧ 0 < r.io.offsAvail ∧
      bioAllocObj r = (some r.io.data, r.advanceObject)) ∨
    (¬ (objectSize ≤ r.io.dataAvail ∧ 0 < r.io.offsAvail) ∧
      ∃ r', bioAllocObj r = (none, r') ∧ r.Extends r' ∧ r'.io.overflow = true) := by
  have hround : roundUp4 objectSize = objectSize := by decide
  rw [bioAllocObj]
  rcases bioAlloc_cases r objectSize with ⟨hfit, heq⟩ | ⟨hno, heq⟩ <;> rw [heq] <;>
    rw [hround] at *
  · dsimp only
    split
    · rename_i hslot
      refine .inr ⟨fun h => ?_, _, rfl, ?_, rfl⟩
      · exact absurd h.2 (by simpa [Reply.advance] using hslot)
      · exact (r.advance_extends hfit).trans (Reply.overflows_extends _)
    · rename_i hslot
      exact .inl ⟨hfit, Nat.pos_of_ne_zero hslot, rfl⟩
  · exact .inr ⟨fun h => absurd h.1 (by omega), _, rfl, r.overflows_extends, rfl⟩

theorem bioPutRef_extends (r : Reply) (handle : ℕ) : r.Extends (bioPutRef r handle) := by
  by_cases hh : handle = 0
  · simp only [bioPutRef, hh, ne_eq, not_true_eq_false, ↓reduceIte]
    rcases bioAlloc_cases r objectSize with ⟨hfit, heq⟩ | ⟨-, heq⟩ <;> rw [heq]
    · exact (r.advance_extends hfit).fill (putRefAt_filledIn _ _ _)
    · exact r.overflows_extends
  · simp only [bioPutRef, hh, ne_eq, not_false_eq_true, ↓reduceIte]
    rcases bioAllocObj_cases r with ⟨hfit, hslot, heq⟩ | ⟨-, r', heq, hext, -⟩ <;> rw [heq]
    · exact (r.advanceObject_extends hfit hslot).fill (putRefAt_filledIn _ _ _)
    · exact hext

theorem copyUnits_filledIn (r : Reply) (off : ℕ) (us : List UInt16) :
    r.FilledIn off (off + us.length * 2) (copyUnits r off us) := by
  induction us generalizing r off with
  | nil => exact .refl _ _ r
  | cons u us ih =>
      rw [List.length_cons]
      exact (r.store_filledIn _ le_rfl (by omega)).trans ((ih _ _).mono (by omega) (by omega))

def Reply.putUnits (r : Reply) (us : List UInt16) : Reply :=
  let a := bioAlloc (bioPutUint32 r us.length) ((us.length + 1) * 2)
  match a.1 with
  | some ptr => copyUnits a.2 ptr (us ++ [0])
  | none => a.2

theorem bioPutString16_eq (r : Reply) (str : List UInt16) :
    bioPutString16 r str = if (str.takeWhile (· ≠ 0)).length ≥ maxBioSize / 2 then
      bioPutUint32 r 0xffffffff else r.putUnits (str.takeWhile (· ≠ 0)) := rfl

theorem bioPutString16X_eq (r : Reply) (str : List UInt8) :
    bioPutString16X r str = if (str.takeWhile (· ≠ 0)).length ≥ maxBioSize / 2 then
      bioPutUint32 r 0xffffffff
    else r.putUnits ((str.takeWhile (· ≠ 0)).map UInt8.toUInt16) := by
  rw [bioPutString16X, Reply.putUnits, List.length_map, List.map_append]
  rfl

theorem le_roundUp4 {size : ℕ} (h : size + 3 < sizeT) : size ≤ roundUp4 size := by
  unfold roundUp4
  rw [Nat.mod_eq_of_lt h]
  omega

theorem Reply.putUnits_extends (r : Reply) {us : List UInt16} (hus : us.length < maxBioSize / 2) :
    r.Extends (r.putUnits us) := by
  have hlt : (us.length + 1) * 2 + 3 < sizeT := by
    unfold maxBioSize at hus
    unfold sizeT
    omega
  have hlen := bioPutUint32_extends r us.length
  rw [Reply.putUnits]
  rcases bioAlloc_cases (bioPutUint32 r us.length) ((us.length + 1) * 2) with
    ⟨hfit, heq⟩ | ⟨-, heq⟩ <;> rw [heq]
  · refine hlen.trans ((Reply.advance_extends _ hfit).fill
      ((copyUnits_filledIn _ _ _).mono le_rfl ?_))
    have := le_roundUp4 hlt
    simp only [Reply.advance, List.length_append, List.length_singleton]
    omega
  · exact hlen.trans (Reply.overflows_extends _)

theorem Reply.put_extends (r : Reply) (p : Put) : r.Extends (r.put p) := by
  cases p with
  | uint32 n => exact bioPutUint32_extends r _
  | string16 str =>
      simp only [Reply.put, bioPutString16_eq]
      split
      · exact bioPutUint32_extends r _
      · exact r.putUnits_extends (by omega)
  | string16X str =>
      simp only [Reply.put, bioPutString16X_eq]
      split
      · exact bioPutUint32_extends r _
      · exact r.putUnits_extends (by rw [List.length_map]; omega)
  | ref handle => exact bioPutRef_extends r _

theorem Reply.putAll_extends (r : Reply) (puts : List Put) : r.Extends (r.putAll puts) := by
  induction puts generalizing r with
  | nil => exact .refl r
  | cons p puts ih => exact (r.put_extends p).trans (ih (r.put p))

/-! ### Puts that do not fit -/

/-- Nothing outside the block was stored, and what is left of it lies inside. -/
structure Reply.Within (maxdata : ℕ) (r : Reply) : Prop where
  room : r.io.dataAvail = 0 ∨ r.io.data + r.io.dataAvail ≤ maxdata ∧ 3 * r.io.offs ≤ r.io.data
  stores : ∀ x ∈ r.stores, ∀ i, x.1 ≤ i → i < x.1 + x.2 → i < maxdata

theorem Reply.begin_within (io : BinderIo) (block : ℕ → UInt8) (maxdata maxoffs : ℕ) :
    (Reply.begin io block maxdata maxoffs).Within maxdata where
  room := by
    simp only [Reply.begin, bioInit]
    split
    · exact .inl rfl
    · exact .inr (by dsimp only; omega)
  stores := by simp [Reply.begin]

theorem Reply.Within.extends {maxdata : ℕ} (h : r.Within maxdata) (hext : r.Extends r') :
    r'.Within maxdata := by
  have hdata := hext.data
  have havail := hext.dataAvail
  have hoffs := hext.offs
  have hobjects := hext.objects
  refine ⟨by have := h.room; omega, fun x hx i hlo hhi => ?_⟩
  have hroom := h.room
  rcases hext.stores x hx with hx | hx | hx
  · exact h.stores x hx i hlo hhi
  · omega
  · omega

theorem bioPutUint32_eq {n : ℕ} (hno : (bioPutUint32 r n).io.overflow = false) :
    4 ≤ r.io.dataAvail ∧ bioPutUint32 r n = (r.advance 4).store r.io.data 4 n := by
  rw [bioPutUint32] at hno ⊢
  rcases bioAlloc_cases r 4 with ⟨hfit, heq⟩ | ⟨-, heq⟩ <;> rw [heq] at hno ⊢
  · exact ⟨hfit, rfl⟩
  · cases hno

theorem Reply.putUnits_eq {us : List UInt16} (hno : (r.putUnits us).io.overflow = false) :
    4 + roundUp4 ((us.length + 1) * 2) ≤ r.io.dataAvail ∧
      r.putUnits us = copyUnits (((r.advance 4).store r.io.data 4 us.length).advance
        (roundUp4 ((us.length + 1) * 2))) (r.io.data + 4) (us ++ [0]) := by
  have hlen : (bioPutUint32 r us.length).io.overflow = false := by
    rw [Reply.putUnits] at hno
    rcases bioAlloc_cases (bioPutUint32 r us.length) ((us.length + 1) * 2) with
      ⟨-, heq⟩ | ⟨-, heq⟩ <;> rw [heq] at hno
    · rw [(copyUnits_filledIn _ _ _).io] at hno
      exact hno
    · cases hno
  obtain ⟨hfit, hput⟩ := bioPutUint32_eq hlen
  rw [Reply.putUnits, hput] at hno ⊢
  rcases bioAlloc_cases ((r.advance 4).store r.io.data 4 us.length) ((us.length + 1) * 2) with
    ⟨hfit', heq⟩ | ⟨-, heq⟩ <;> rw [heq] at hno ⊢
  · refine ⟨?_, rfl⟩
    simp only [Reply.store, Reply.advance] at hfit'
    omega
  · cases hno

theorem bioPutRef_eq {handle : ℕ} (hh : handle ≠ 0)
    (hno : (bioPutRef r handle).io.overflow = false) :
    objectSize ≤ r.io.dataAvail ∧ 0 < r.io.offsAvail ∧
      bioPutRef r handle = putRefAt r.advanceObject r.io.data handle := by
  simp only [bioPutRef, hh, ne_eq, not_false_eq_true, ↓reduceIte] at hno ⊢
  rcases bioAllocObj_cases r with ⟨hfit, hslot, heq⟩ | ⟨-, r', heq, -, ho⟩ <;> rw [heq] at hno ⊢
  · exact ⟨hfit, hslot, rfl⟩
  · exact absurd (ho.symm.trans hno) (by decide)

theorem takeWhile_of_notMem {α : Type} [DecidableEq α] {a : α} {l : List α} (h : a ∉ l) :
    l.takeWhile (· ≠ a) = l :=
  List.takeWhile_eq_self_iff.mpr fun b hb => decide_eq_true (by rintro rfl; exact h hb)

theorem put_string16 {str : List UInt16} (hok : (Put.string16 str).Ok)
    (hshort : (Put.string16 str).Short) : r.put (.string16 str) = r.putUnits str := by
  simp only [Reply.put, bioPutString16_eq, takeWhile_of_notMem hok]
  exact if_neg (not_le.mpr hshort)

theorem put_string16_long {str : List UInt16} (hok : (Put.string16 str).Ok)
    (hlen : maxBioSize / 2 ≤ str.length) :
    r.put (.string16 str) = bioPutUint32 r 0xffffffff := by
  simp only [Reply.put, bioPutString16_eq, takeWhile_of_notMem hok]
  exact if_pos hlen

theorem put_string16X {str : List UInt8} (hok : (Put.string16X str).Ok)
    (hshort : (Put.string16X str).Short) :
    r.put (.string16X str) = r.putUnits (str.map UInt8.toUInt16) := by
  simp only [Reply.put, bioPutString16X_eq, takeWhile_of_notMem hok]
  exact if_neg (not_le.mpr hshort)

theorem Put.fits_of_put {p : Put} (hok : p.Ok) (hshort : p.Short)
    (hno : (r.put p).io.overflow = false) : p.Fits r.io := by
  cases p with
  | uint32 n => exact ⟨(bioPutUint32_eq hno).1, by rintro ⟨⟩⟩
  | string16 str =>
      rw [put_string16 hok hshort] at hno
      exact ⟨(Reply.putUnits_eq hno).1, by rintro ⟨⟩⟩
  | string16X str =>
      rw [put_string16X hok hshort] at hno
      refine ⟨?_, by rintro ⟨⟩⟩
      have := (Reply.putUnits_eq hno).1
      rwa [List.length_map] at this
  | ref handle =>
      have hh : handle.toNat ≠ 0 := fun h => hok (UInt32.toNat_inj.mp h)
      obtain ⟨hfit, hslot, -⟩ := bioPutRef_eq hh hno
      exact ⟨hfit, fun _ => hslot⟩

end Growing

/-! ### Reading what was put -/

/-- The offsets lie before the data and are whole. -/
structure Reply.Sound (r : Reply) : Prop where
  offs0 : r.io.offs0 = 0
  whole : r.io.data0 % 8 = 0
  offs : r.io.offs + 8 * r.io.offsAvail = r.io.data0
  data : r.io.data0 ≤ r.io.data
  small : r.io.data + r.io.dataAvail < sizeT

/-- A reader of the whole message `w` stands where the writer was. -/
structure Msg.At (w r : Reply) (m : Msg) : Prop where
  data0 : m.io.data0 = 0
  data : w.io.data0 + m.io.data = r.io.data
  dataAvail : m.io.dataAvail + r.io.data = w.io.data
  offsAvail : m.io.offsAvail = w.io.offs / 8
  overflow : m.io.overflow = false

section Reading

variable {w r r' : Reply} {m m' : Msg}

theorem Reply.Sound.extends (h : r.Sound) (hext : r.Extends r') : r'.Sound where
  offs0 := hext.offs0.trans h.offs0
  whole := hext.data0 ▸ h.whole
  offs := hext.offsAvail.trans (hext.data0 ▸ h.offs)
  data := by
    rw [hext.data0]
    exact h.data.trans hext.data
  small := by
    rw [hext.dataAvail]
    exact h.small

theorem Reply.Sound.block (h : r.Sound) (hext : r.Extends w) {i : ℕ} (hlo : r.io.data0 ≤ i)
    (hhi : i < r.io.data) : w.block i = r.block i := by
  have := hext.offsAvail
  have := h.offs
  exact hext.block i (.inl hhi) (.inr (by omega))

theorem Reply.Sound.field (h : r.Sound) (hext : r.Extends w) {off n : ℕ}
    (hhi : r.io.data0 + off + n ≤ r.io.data) :
    getLE w.txn.buffer off n = getLE r.block (r.io.data0 + off) n := by
  refine getLE_shift fun i hi => ?_
  have hbase : w.io.data0 + (off + i) = r.io.data0 + off + i := by
    rw [hext.data0, Nat.add_assoc]
  exact (congrArg w.block hbase).trans (h.block hext (by omega) (by omega))

theorem Msg.At.note (h : m.At w r) (a : Access) : (m.note a).At w r :=
  ⟨h.data0, h.data, h.dataAvail, h.offsAvail, h.overflow⟩

theorem Msg.At.of_io (h : m.At w r) (hio : m'.io = m.io) : m'.At w r :=
  ⟨hio ▸ h.data0, hio ▸ h.data, hio ▸ h.dataAvail, hio ▸ h.offsAvail, hio ▸ h.overflow⟩

theorem Msg.At.got (h : m.At w r) {size : ℕ} (hdata : r'.io.data = r.io.data + roundUp4 size)
    (hext : r'.Extends w) : (bioGet m size).1 = some m.io.data ∧ (bioGet m size).2.At w r' := by
  have hle := hext.data
  have havail := h.dataAvail
  have hcursor := h.data
  rw [bioGet]
  split
  · rename_i hno
    simp only [Msg.note] at hno
    omega
  · refine ⟨rfl, h.data0, ?_, ?_, h.offsAvail, h.overflow⟩
    all_goals
      simp only [Msg.move, Msg.note]
      omega

theorem Msg.At.uint32 (h : m.At w r) (hs : r.Sound) {n : ℕ} (hn : n < 2 ^ 32)
    (hext : ((r.advance 4).store r.io.data 4 n).Extends w) (hr : r.Extends
      ((r.advance 4).store r.io.data 4 n)) :
    (bioGetUint32 w.txn m).1 = n ∧
      (bioGetUint32 w.txn m).2.At w ((r.advance 4).store r.io.data 4 n) := by
  have hcursor := h.data
  have hbase : w.io.data0 = r.io.data0 := (hr.trans hext).data0
  obtain ⟨hptr, hat⟩ : _ ∧ (bioGet m 4).2.At w _ := h.got rfl hext
  have hfield : r.io.data0 + m.io.data + 4 ≤ ((r.advance 4).store r.io.data 4 n).io.data := by
    simp only [Reply.store, Reply.advance]
    omega
  rw [bioGetUint32, hptr]
  refine ⟨?_, hat.note _⟩
  refine ((hs.extends hr).field hext hfield).trans ?_
  · have hoff : r.io.data0 + m.io.data = r.io.data := by omega
    simp only [Reply.store, Reply.advance, hoff]
    exact getLE_putLE_self hn

theorem unitsAt_copyUnits {txn : Txn} (base : ℕ) (block : ℕ → UInt8)
    (htxn : txn.buffer = fun i => block (base + i)) (r : Reply) (off : ℕ) (us : List UInt16)
    (hb : ∀ i, base + off ≤ i → i < base + off + us.length * 2 →
      block i = (copyUnits r (base + off) us).block i) : unitsAt txn off us.length = us := by
  induction us generalizing r off with
  | nil => rfl
  | cons u us ih =>
      rw [List.length_cons] at hb
      have hhead : getLE txn.buffer off 2 = u.toNat := by
        have hstored : getLE txn.buffer off 2 =
            getLE (r.store (base + off) 2 u.toNat).block (base + off) 2 := by
          refine getLE_shift fun i hi => ?_
          have hstay := (copyUnits_filledIn (r.store (base + off) 2 u.toNat) (base + off + 2)
            us).block (base + off + i) (.inl (by omega))
          rw [htxn]
          exact (congrArg block (Nat.add_assoc base off i).symm).trans
            ((hb _ (by omega) (by omega)).trans hstay)
        exact hstored.trans (getLE_putLE_self (by have := u.toNat_lt; omega))
      have htail := ih (r.store (base + off) 2 u.toNat) (off + 2) fun i h₁ h₂ =>
        hb i (by omega) (by omega)
      rw [List.length_cons, unitsAt, unitAt, hhead, htail, UInt16.ofNat_toNat]

theorem Msg.At.units (h : m.At w r) (hs : r.Sound) {us : List UInt16}
    (hlen : us.length < maxBioSize / 2) (hno : (r.putUnits us).io.overflow = false)
    (hext : (r.putUnits us).Extends w) :
    ∃ s m', bioGetString16 w.txn m = (some s, us.length, m') ∧
      unitsAt w.txn s (us.length + 1) = us ++ [0] ∧ m'.At w (r.putUnits us) := by
  obtain ⟨hfit, heq⟩ := Reply.putUnits_eq hno
  have hword := r.advance_extends (show 4 ≤ r.io.dataAvail by omega)
  have hround : us.length * 2 + 2 ≤ roundUp4 ((us.length + 1) * 2) := by
    rw [← Nat.succ_mul]
    refine le_roundUp4 ?_
    unfold maxBioSize at hlen
    unfold sizeT
    omega
  have hbytes : (us.length + 1) * 2 % sizeT = (us.length + 1) * 2 := by
    refine Nat.mod_eq_of_lt ?_
    unfold maxBioSize at hlen
    unfold sizeT
    omega
  -- the word with the length
  have hr₁ : r.Extends ((r.advance 4).store r.io.data 4 us.length) :=
    hword.fill (Reply.store_filledIn _ _ le_rfl le_rfl)
  have hrest : ((r.advance 4).store r.io.data 4 us.length).Extends (r.putUnits us) := by
    rw [heq]
    refine (Reply.advance_extends _ ?_).fill ((copyUnits_filledIn _ _ _).mono le_rfl ?_)
    · simp only [Reply.store, Reply.advance]
      omega
    · simp only [Reply.store, Reply.advance, List.length_append, List.length_singleton]
      omega
  have hn : us.length < 2 ^ 32 := by
    unfold maxBioSize at hlen
    omega
  obtain ⟨hgot, hat⟩ := h.uint32 hs hn (hrest.trans hext) hr₁
  -- the units after it
  have hdata : (r.putUnits us).io.data =
      ((r.advance 4).store r.io.data 4 us.length).io.data + roundUp4 ((us.length + 1) * 2) := by
    rw [heq, (copyUnits_filledIn _ _ _).io]
    rfl
  obtain ⟨hptr, hat'⟩ := (hat.note (.length ((us.length + 1) * 2))).got hdata hext
  have hcursor := hat.data
  have hbase : w.io.data0 = r.io.data0 := (hr₁.trans (hrest.trans hext)).data0
  refine ⟨(bioGetUint32 w.txn m).2.io.data, _, ?_, ?_, hat'⟩
  · simp only [bioGetString16, hgot, hbytes, hptr]
    rfl
  · have hstart : w.io.data0 + (bioGetUint32 w.txn m).2.io.data = r.io.data + 4 := hcursor
    have hunits : unitsAt w.txn _ _ = _ := unitsAt_copyUnits w.io.data0 w.block rfl
      (((r.advance 4).store r.io.data 4 us.length).advance (roundUp4 ((us.length + 1) * 2)))
      (bioGetUint32 w.txn m).2.io.data (us ++ [0]) fun i h₁ h₂ => by
        rw [hstart] at h₁ h₂ ⊢
        rw [← heq]
        have hlo := hs.data
        refine ((hs.extends hr₁).extends hrest).block hext ?_ ?_
        · rw [hrest.data0]
          exact hlo.trans (by omega)
        · rw [hdata]
          simp only [Reply.store, Reply.advance, List.length_append, List.length_singleton] at h₂ ⊢
          omega
    rwa [List.length_append] at hunits

/-! ### Objects -/

theorem findOffset_io (txn : Txn) (off k n : ℕ) (m : Msg) :
    (findOffset txn off k n m).2.io = m.io := by
  induction k generalizing n m with
  | zero => rfl
  | succ k ih =>
      rw [findOffset]
      split
      · rfl
      · exact ih _ _

theorem findOffset_eq_true {txn : Txn} {off k n j : ℕ} {m : Msg} (hlo : n ≤ j) (hhi : j < n + k)
    (hj : txn.offsets j = off) : (findOffset txn off k n m).1 = true := by
  induction k generalizing n m with
  | zero => omega
  | succ k ih =>
      rw [findOffset]
      split
      · rfl
      · rename_i hne
        refine ih (Nat.lt_of_le_of_ne hlo ?_) (by omega)
        rintro rfl
        exact hne hj

/-- The type and the handle that were stored are read, whatever else is in the object. -/
theorem getLE_putRefAt (r : Reply) (obj : ℕ) {handle : ℕ} (hh : handle < 2 ^ 32) :
    getLE (putRefAt r obj handle).block obj 4 = binderTypeHandle ∧
      getLE (putRefAt r obj handle).block (obj + 8) 4 = handle := by
  constructor
  · simp only [putRefAt, Reply.store]
    rw [getLE_putLE_of_disjoint (by omega), getLE_putLE_of_disjoint (by omega)]
    exact getLE_putLE_self (by decide)
  · simp only [putRefAt, Reply.store]
    rw [getLE_putLE_of_disjoint (by omega)]
    exact getLE_putLE_self hh

theorem Msg.At.ref (h : m.At w r) (hs : r.Sound) {handle : ℕ} (hh : handle ≠ 0)
    (hlt : handle < 2 ^ 32) (hno : (bioPutRef r handle).io.overflow = false)
    (hext : (bioPutRef r handle).Extends w) :
    (bioGetRef w.txn m).1 = handle ∧ (bioGetRef w.txn m).2.At w (bioPutRef r handle) := by
  obtain ⟨hfit, hslot, heq⟩ := bioPutRef_eq hh hno
  have hr := bioPutRef_extends r handle
  have hfill := putRefAt_filledIn r.advanceObject r.io.data handle
  have hdata0 := hs.data
  have hoffs := hs.offs
  have hwhole := hs.whole
  have hcursor := h.data
  have hbase : w.io.data0 = r.io.data0 := (hr.trans hext).data0
  have hdata : (bioPutRef r handle).io.data = r.io.data + objectSize := by
    rw [heq, hfill.io]
    rfl
  have hoff : (bioPutRef r handle).io.offs = r.io.offs + 8 := by
    rw [heq, hfill.io]
    rfl
  -- the offset is found
  have hround : objectSize = roundUp4 objectSize := by decide
  have hentry : w.txn.offsets (r.io.offs / 8) = m.io.data - m.io.data0 := by
    have hzero : w.io.offs0 + 8 * (r.io.offs / 8) = r.io.offs := by
      rw [(hr.trans hext).offs0, hs.offs0]
      omega
    have hstored : getLE r.advanceObject.block r.io.offs 8 = r.io.data - r.io.data0 := by
      refine getLE_putLE_self ?_
      have := hs.small
      unfold sizeT at this
      omega
    show getLE w.block (w.io.offs0 + 8 * (r.io.offs / 8)) 8 = _
    rw [hzero, h.data0, show m.io.data - 0 = r.io.data - r.io.data0 by omega, ← hstored]
    refine getLE_congr fun i h₁ h₂ => ?_
    rw [hext.block i (.inl (by omega)) (.inl (by omega)), heq]
    exact hfill.block i (.inl (by omega))
  have hindex : r.io.offs / 8 < 0 + m.io.offsAvail := by
    have := hext.offs
    rw [h.offsAvail]
    omega
  have hfound : (findOffset w.txn (m.io.data - m.io.data0) m.io.offsAvail 0 m).1 = true :=
    findOffset_eq_true (Nat.zero_le _) hindex hentry
  -- and the object is read
  obtain ⟨hptr, hat⟩ := (h.of_io (findOffset_io w.txn (m.io.data - m.io.data0) m.io.offsAvail 0
    m)).got (hdata.trans (congrArg _ hround)) hext
  rw [findOffset_io] at hptr
  have hobj : bioGetObj w.txn m = (some m.io.data, (bioGet (findOffset w.txn
      (m.io.data - m.io.data0) m.io.offsAvail 0 m).2 objectSize).2) := by
    rw [bioGetObj, if_pos hfound, ← hptr]
  have hfield : ∀ off n, off + n ≤ objectSize → getLE w.txn.buffer (m.io.data + off) n =
      getLE (putRefAt r.advanceObject r.io.data handle).block (r.io.data + off) n := by
    intro off n hle
    rw [(hs.extends hr).field hext (by rw [hr.data0, hdata]; omega), heq, hfill.io]
    congr 1
    show r.io.data0 + _ = _
    omega
  obtain ⟨htype, hhandle⟩ := getLE_putRefAt r.advanceObject r.io.data hlt
  have ht : getLE w.txn.buffer m.io.data 4 = binderTypeHandle :=
    (hfield 0 4 (by decide)).trans htype
  have hv : getLE w.txn.buffer (m.io.data + 8) 4 = handle := (hfield 8 4 (by decide)).trans hhandle
  rw [bioGetRef, hobj]
  dsimp only
  rw [if_pos ht, hv]
  exact ⟨rfl, (hat.note _).note _⟩

theorem Msg.At.get (h : m.At w r) (hs : r.Sound) {p : Put} (hok : p.Ok) (hshort : p.Short)
    (hno : (r.put p).io.overflow = false) (hext : (r.put p).Extends w) :
    (m.get w.txn p.reader).1 = p.value ∧ (m.get w.txn p.reader).2.At w (r.put p) := by
  cases p with
  | uint32 n =>
      have heq := (bioPutUint32_eq hno).2
      have hr := bioPutUint32_extends r n.toNat
      simp only [Reply.put] at hext ⊢
      rw [heq] at hext hr ⊢
      obtain ⟨hgot, hat⟩ := h.uint32 hs n.toNat_lt hext hr
      exact ⟨congrArg Got.uint32 hgot, hat⟩
  | string16 str =>
      rw [put_string16 hok hshort] at hno hext ⊢
      obtain ⟨s, m', hgot, hunits, hat⟩ := h.units hs hshort hno hext
      simp only [Msg.get, Put.reader, Put.value, hgot, Option.map_some, hunits]
      exact ⟨trivial, hat⟩
  | string16X str =>
      rw [put_string16X hok hshort] at hno hext ⊢
      obtain ⟨s, m', hgot, hunits, hat⟩ :=
        h.units hs ((List.length_map _).trans_lt hshort) hno hext
      rw [List.length_map] at hgot hunits
      simp only [Msg.get, Put.reader, Put.value, hgot, Option.map_some, hunits, List.map_append]
      exact ⟨rfl, hat⟩
  | ref handle =>
      have hh : handle.toNat ≠ 0 := fun h => hok (UInt32.toNat_inj.mp h)
      obtain ⟨hgot, hat⟩ := h.ref hs hh handle.toNat_lt hno hext
      exact ⟨congrArg Got.ref hgot, hat⟩

theorem Msg.At.getAll {puts : List Put} (h : m.At w r) (hs : r.Sound) (hok : ∀ p ∈ puts, p.Ok)
    (hshort : ∀ p ∈ puts, p.Short) (hno : w.io.overflow = false) (hw : r.putAll puts = w) :
    (m.getAll w.txn (puts.map Put.reader)).1 = puts.map Put.value ∧
      (m.getAll w.txn (puts.map Put.reader)).2.At w w := by
  induction puts generalizing r m with
  | nil => exact ⟨rfl, hw ▸ h⟩
  | cons p puts ih =>
      obtain ⟨hok, hoks⟩ := List.forall_mem_cons.mp hok
      obtain ⟨hshort, hshorts⟩ := List.forall_mem_cons.mp hshort
      have hext : (r.put p).Extends w := hw ▸ (r.put p).putAll_extends puts
      have hnone : (r.put p).io.overflow = false :=
        Bool.eq_false_iff.mpr fun ho => Bool.eq_false_iff.mp hno (hext.overflow ho)
      obtain ⟨hgot, hat⟩ := h.get hs hok hshort hnone hext
      obtain ⟨hgots, hats⟩ := ih hat (hs.extends (r.put_extends p)) hoks hshorts hw
      exact ⟨List.cons_eq_cons.mpr ⟨hgot, hgots⟩, hats⟩

end Reading

section Trip

variable {io : BinderIo} {block : ℕ → UInt8} {maxdata maxoffs : ℕ}

theorem Reply.begin_sound (hdata : maxdata < sizeT) (hoffs : maxoffs * 8 < sizeT)
    (hno : (Reply.begin io block maxdata maxoffs).io.overflow = false) :
    (Reply.begin io block maxdata maxoffs).Sound := by
  simp only [Reply.begin, bioInit, Nat.mod_eq_of_lt hoffs] at hno ⊢
  split at hno
  · cases hno
  · rename_i hfit
    refine ⟨?_, ?_, ?_, ?_, ?_⟩ <;> simp only [hfit, ↓reduceIte] <;> omega

/-- The whole message gives the values back and nothing more. -/
structure ReadBack (w : Reply) (puts : List Put) : Prop where
  values : (w.txn.msg.getAll w.txn (puts.map Put.reader)).1 = puts.map Put.value
  consumed : (w.txn.msg.getAll w.txn (puts.map Put.reader)).2.io.data = w.txn.dataSize
  rest : (w.txn.msg.getAll w.txn (puts.map Put.reader)).2.io.dataAvail = 0
  overflow : (w.txn.msg.getAll w.txn (puts.map Put.reader)).2.io.overflow = false

/-- What is put is read back, what does not fit sets the flag, and only bytes of the block
are stored. -/
structure RoundTrip (r : Reply) (maxdata maxoffs : ℕ) (puts : List Put) : Prop where
  readBack : maxoffs * 8 < sizeT → (∀ p ∈ puts, p.Short) →
    (r.putAll puts).io.overflow = false → ReadBack (r.putAll puts) puts
  flagged : ∀ pre p post, puts = pre ++ p :: post → p.Short → ¬ p.Fits (r.putAll pre).io →
    (r.putAll puts).io.overflow = true
  inside : ∀ x ∈ (r.putAll puts).stores, ∀ i, x.1 ≤ i → i < x.1 + x.2 → i < maxdata

theorem putAll_roundTrip (io : BinderIo) (block : ℕ → UInt8) (hdata : maxdata < sizeT)
    (maxoffs : ℕ) {puts : List Put} (hok : ∀ p ∈ puts, p.Ok) :
    RoundTrip (.begin io block maxdata maxoffs) maxdata maxoffs puts where
  readBack := by
    intro hoffs hshort hno
    have hext := (Reply.begin io block maxdata maxoffs).putAll_extends puts
    have hinit : (Reply.begin io block maxdata maxoffs).io.overflow = false :=
      Bool.eq_false_iff.mpr fun ho => Bool.eq_false_iff.mp hno (hext.overflow ho)
    have hs := Reply.begin_sound hdata hoffs hinit
    have hzero : (Reply.begin io block maxdata maxoffs).io.data =
        (Reply.begin io block maxdata maxoffs).io.data0 := by
      simp only [Reply.begin, bioInit] at hinit ⊢
      split at hinit
      · cases hinit
      · rename_i hfit
        rw [if_neg hfit]
    have hstart : ((Reply.begin io block maxdata maxoffs).putAll puts).txn.msg.At
        ((Reply.begin io block maxdata maxoffs).putAll puts)
        (Reply.begin io block maxdata maxoffs) := by
      have := hext.data
      refine ⟨rfl, hext.data0.trans hzero.symm, ?_, ?_, rfl⟩
      · simp only [Txn.msg, bioInitFromTxn, Reply.txn, hext.data0]
        omega
      · simp only [Txn.msg, bioInitFromTxn, Reply.txn, hext.offs0, hs.offs0, Nat.sub_zero]
    obtain ⟨hvalues, hat⟩ := hstart.getAll hs hok hshort hno rfl
    have hcursor := hat.data
    have hrest := hat.dataAvail
    exact ⟨hvalues, by simp only [Reply.txn] at hcursor ⊢; omega, by omega, hat.overflow⟩
  flagged := by
    rintro pre p post rfl hshort hfits
    rw [Reply.putAll, List.foldl_append, List.foldl_cons]
    refine (Reply.putAll_extends _ post).overflow ?_
    by_contra hno
    exact hfits (Put.fits_of_put (hok p (by simp)) hshort (Bool.eq_false_iff.mpr hno))
  inside := ((Reply.begin_within io block maxdata maxoffs).extends
    (Reply.putAll_extends _ puts)).stores

end Trip

def BinderIo.zero : BinderIo :=
  { data := 0, offs := 0, dataAvail := 0, offsAvail := 0, data0 := 0, offs0 := 0,
    shared := false, overflow := false }

/-- A word, a string, a reference and a string of bytes in a block with room for two
offsets. -/
theorem roundTrip_sample : ∃ puts : List Put, puts.length = 4 ∧
    ((Reply.begin .zero (fun _ => 0) 256 2).putAll puts).io.overflow = false ∧
    RoundTrip (.begin .zero (fun _ => 0) 256 2) 256 2 puts :=
  ⟨[.uint32 7, .string16 [0x61, 0xe9], .ref 5, .string16X [0x62]], rfl, by decide +kernel,
    putAll_roundTrip _ _ (by decide) 2 (by simp [Put.Ok])⟩

/-- A string of 2 ^ 29 units is written as the word of no string, which its reader takes for
a length. Offsets whose size wraps lie in the data. -/
theorem longString_notReadBack :
    (∃ str, (Put.string16 str).Ok ∧
      ((Reply.begin .zero (fun _ => 0) 64 0).putAll [.string16 str]).io.overflow = false ∧
      ¬ ReadBack ((Reply.begin .zero (fun _ => 0) 64 0).putAll [.string16 str])
        [.string16 str]) ∧
    ((Reply.begin .zero (fun _ => 0) 24 (2 ^ 61)).putAll [.ref 5]).io.overflow = false ∧
      ¬ ReadBack ((Reply.begin .zero (fun _ => 0) 24 (2 ^ 61)).putAll [.ref 5]) [.ref 5] := by
  obtain ⟨str, hok, hlen⟩ : ∃ str, (Put.string16 str).Ok ∧ maxBioSize / 2 ≤ str.length :=
    ⟨List.replicate (maxBioSize / 2) 0x61,
      fun h => absurd (List.eq_of_mem_replicate h) (by decide), List.length_replicate.ge⟩
  have hput := put_string16_long (r := .begin .zero (fun _ => 0) 64 0) hok hlen
  refine ⟨⟨str, hok, ?_, fun h => ?_⟩, by decide +kernel, fun h => ?_⟩
  · rw [Reply.putAll, List.foldl_cons, List.foldl_nil, hput]
    decide +kernel
  · have hvalues := h.values
    rw [Reply.putAll, List.foldl_cons, List.foldl_nil, hput] at hvalues
    have hgot : ((bioPutUint32 (.begin .zero (fun _ => 0) 64 0) 0xffffffff).txn.msg.getAll
        (bioPutUint32 (.begin .zero (fun _ => 0) 64 0) 0xffffffff).txn [.string16]).1 =
          [.string16 none 0xffffffff] := by decide +kernel
    have hsame : [Got.string16 none 0xffffffff] = [(Put.string16 str).value] :=
      hgot.symm.trans hvalues
    simp [Put.value] at hsame
  · exact absurd h.values (by decide +kernel)

end ServiceManager

end BinderForLinux
