import BinderForLinux.Parcel.Bounds
import Mathlib.Data.List.GetD
import Mathlib.Order.Basic

/-!
# Looking objects up

`readObject` looks for an entry of the table from its hint forwards, and from where it stops
backwards. In a table in order this finds an entry wherever the search begins.
-/

namespace BinderForLinux

namespace Parcel

variable {objs : List ℕ} {hint dpos pos n opos i j : ℕ}

/-! ### The two scans -/

/-- The scan forwards passes the entries below `dpos` and stops at one that is not, or at the
end. -/
theorem searchForward_spec (objs : List ℕ) (dpos n opos : ℕ) :
    opos ≤ searchForward objs dpos n opos ∧ searchForward objs dpos n opos ≤ opos + n ∧
      (∀ i, opos ≤ i → i < searchForward objs dpos n opos → objs.getD i 0 < dpos) ∧
      (searchForward objs dpos n opos < opos + n →
        dpos ≤ objs.getD (searchForward objs dpos n opos) 0) := by
  induction n generalizing opos with
  | zero =>
      rw [searchForward]
      exact ⟨le_rfl, le_rfl, fun i hi hlt => absurd hlt (by omega), fun hlt => by omega⟩
  | succ n ih =>
      rw [searchForward]
      split
      · rename_i hbelow
        obtain ⟨hlow, hhigh, hpassed, hstop⟩ := ih (opos + 1)
        refine ⟨by omega, by omega, fun i hi hlt => ?_, fun hlt => hstop (by omega)⟩
        rcases Nat.eq_or_lt_of_le hi with rfl | hmore
        · exact hbelow
        · exact hpassed i hmore hlt
      · rename_i hnot
        exact ⟨le_rfl, by omega, fun i hi hlt => absurd hlt (by omega), fun _ => not_lt.mp hnot⟩

/-- The scan backwards passes the entries above `dpos` and stops at one that is not, or at the
front. -/
theorem searchBackward_spec (objs : List ℕ) (dpos opos : ℕ) :
    searchBackward objs dpos opos ≤ opos ∧
      (∀ i, searchBackward objs dpos opos < i → i ≤ opos → dpos < objs.getD i 0) ∧
      (0 < searchBackward objs dpos opos →
        objs.getD (searchBackward objs dpos opos) 0 ≤ dpos) := by
  induction opos with
  | zero =>
      rw [searchBackward]
      exact ⟨le_rfl, fun i hi hle => absurd hle (by omega), fun hlt => by omega⟩
  | succ opos ih =>
      rw [searchBackward]
      split
      · rename_i habove
        obtain ⟨hle, hpassed, hstop⟩ := ih
        refine ⟨by omega, fun i hi hle' => ?_, hstop⟩
        rcases Nat.eq_or_lt_of_le hle' with rfl | hless
        · exact habove
        · exact hpassed i hi (by omega)
      · rename_i hnot
        exact ⟨le_rfl, fun i hi hle => absurd hle (by omega), fun _ => not_lt.mp hnot⟩

/-! ### Tables in order -/

theorem getD_lt (hs : objs.Pairwise (· < ·)) (hij : i < j) (hj : j < objs.length) :
    objs.getD i 0 < objs.getD j 0 := by
  rw [List.getD_eq_getElem _ _ hj, List.getD_eq_getElem _ _ (by omega)]
  exact List.pairwise_iff_getElem.mp hs i j (by omega) hj hij

theorem findObject_of_getD (hs : objs.Pairwise (· < ·)) (hi : i < objs.length)
    (hint : ℕ) : findObject objs hint (objs.getD i 0) = some i := by
  obtain ⟨start, hstart⟩ : ∃ start, start = if hint < objs.length then
      searchForward objs (objs.getD i 0) (objs.length - 1 - hint) hint else objs.length - 1 :=
    ⟨_, rfl⟩
  have hforward : start < objs.length ∧ (start < i → start + 1 = objs.length) := by
    rw [hstart]
    split
    · rename_i hhint
      obtain ⟨hlow, hhigh, -, hstop⟩ :=
        searchForward_spec objs (objs.getD i 0) (objs.length - 1 - hint) hint
      refine ⟨by omega, fun hbefore => ?_⟩
      by_contra hmore
      have hle := hstop (by omega)
      have hlt := getD_lt hs hbefore hi
      omega
    · exact ⟨by omega, fun _ => by omega⟩
  have hle : i ≤ start := by
    by_contra hbefore
    have := hforward.2 (by omega)
    omega
  have hbackward : searchBackward objs (objs.getD i 0) start = i := by
    obtain ⟨hback, hpassed, hstop⟩ := searchBackward_spec objs (objs.getD i 0) start
    rcases Nat.lt_trichotomy (searchBackward objs (objs.getD i 0) start) i with hlt | heq | hgt
    · exact absurd (hpassed i hlt hle) (lt_irrefl _)
    · exact heq
    · have hstopped := hstop (by omega)
      have habove := getD_lt hs hgt (by omega)
      omega
  unfold findObject
  rw [if_pos (by omega)]
  dsimp only
  rw [← hstart]
  split
  · rename_i hfound
    rcases Nat.eq_or_lt_of_le hle with rfl | hlt
    · rfl
    · have := getD_lt hs hlt hforward.1
      omega
  · rw [hbackward, if_pos rfl]

theorem mem_of_findObject (h : findObject objs hint dpos = some i) : dpos ∈ objs := by
  have hmem (k : ℕ) (hk : k < objs.length) (hget : objs.getD k 0 = dpos) : dpos ∈ objs := by
    rw [← hget, List.getD_eq_getElem _ _ hk]
    exact List.getElem_mem hk
  unfold findObject at h
  split at h
  · rename_i hpos
    obtain ⟨start, hstart⟩ : ∃ start, start = if hint < objs.length then
        searchForward objs dpos (objs.length - 1 - hint) hint else objs.length - 1 := ⟨_, rfl⟩
    have hlt : start < objs.length := by
      rw [hstart]
      split
      · have := (searchForward_spec objs dpos (objs.length - 1 - hint) hint).2.1
        omega
      · omega
    dsimp only at h
    rw [← hstart] at h
    split at h
    · rename_i hget
      exact hmem start hlt hget
    · split at h
      · rename_i hget
        have := (searchBackward_spec objs dpos start).1
        exact hmem _ (by omega) hget
      · cases h
  · cases h

theorem isSome_findObject (hs : objs.Pairwise (· < ·)) (hint dpos : ℕ) :
    (findObject objs hint dpos).isSome = true ↔ dpos ∈ objs := by
  constructor
  · intro h
    obtain ⟨i, hi⟩ := Option.isSome_iff_exists.mp h
    exact mem_of_findObject hi
  · intro h
    obtain ⟨i, hi, rfl⟩ := List.getElem_of_mem h
    have hfind := findObject_of_getD hs hi hint
    rw [List.getD_eq_getElem _ _ hi] at hfind
    rw [hfind]
    rfl

/-! ### Reading objects -/

set_option linter.dupNamespace false in
def Parcel.seek (p : Parcel) (hint pos : ℕ) : Parcel :=
  { p with mNextObjectHint := hint, mDataPos := pos }

def HasObject (p : Parcel) (pos : ℕ) (nullMetaData : Bool) : Prop :=
  pos ∈ p.objects ∨
    nullMetaData = false ∧ (objectAt p.bytes pos).cookie = 0 ∧ (objectAt p.bytes pos).binder = 0

/-- The offsets of a table that is in order go up, unless the end of an object wraps. -/
theorem pairwise_of_offsetsOk {objects : List ℕ} {m : ℕ} (hok : offsetsOk m objects = true)
    (hwrap : ∀ off ∈ objects, off + objectSize < sizeT) :
    objects.Pairwise (· < ·) ∧ ∀ off ∈ objects, m ≤ off := by
  induction objects generalizing m with
  | nil => exact ⟨.nil, fun _ hmem => absurd hmem List.not_mem_nil⟩
  | cons a l ih =>
      rw [offsetsOk, Bool.and_eq_true, decide_eq_true_eq,
        Nat.mod_eq_of_lt (hwrap a List.mem_cons_self)] at hok
      obtain ⟨hpairwise, hlow⟩ := ih hok.2 fun off hmem => hwrap off (List.mem_cons_of_mem a hmem)
      have hpos : 0 < objectSize := by decide
      refine ⟨List.pairwise_cons.mpr ⟨fun b hb => ?_, hpairwise⟩, fun off hmem => ?_⟩
      · have := hlow b hb
        omega
      · rcases List.mem_cons.mp hmem with rfl | hmem
        · exact hok.1
        · have := hlow off hmem
          omega

theorem readObject_fst (p : Parcel) (hint pos : ℕ) (nullMetaData : Bool) :
    (readObject (p.seek hint pos) nullMetaData).1 =
      if (pos + objectSize) % sizeT ≤ p.mDataSize ∧
          ((nullMetaData = false ∧ (objectAt p.bytes pos).cookie = 0 ∧
              (objectAt p.bytes pos).binder = 0) ∨
            (findObject p.objects hint pos).isSome = true) then
        some (objectAt p.bytes pos)
      else none := by
  unfold readObject
  simp only [Parcel.seek, Parcel.record, Bool.not_eq_true]
  by_cases hpos : (pos + objectSize) % sizeT ≤ p.mDataSize
  · by_cases hnull : nullMetaData = false ∧ (objectAt p.bytes pos).cookie = 0 ∧
        (objectAt p.bytes pos).binder = 0
    · simp [hpos, hnull]
    · cases hfind : findObject p.objects hint pos <;> simp [hpos, hnull]
  · simp [hpos]

theorem readObject_spec {p : Parcel} (hs : p.objects.Pairwise (· < ·)) (hint pos : ℕ)
    (nullMetaData : Bool) (hpos : (pos + objectSize) % sizeT ≤ p.mDataSize) :
    (HasObject p pos nullMetaData →
      (readObject (p.seek hint pos) nullMetaData).1 = some (objectAt p.bytes pos)) ∧
    (¬ HasObject p pos nullMetaData → (readObject (p.seek hint pos) nullMetaData).1 = none) := by
  rw [readObject_fst]
  simp only [isSome_findObject hs]
  unfold HasObject
  exact ⟨fun hhas => if_pos ⟨hpos, hhas.symm⟩, fun hno => if_neg fun h => hno h.2.symm⟩

theorem readObject_hint {p : Parcel} (hs : p.objects.Pairwise (· < ·)) (hint hint' pos : ℕ)
    (nullMetaData : Bool) : (readObject (p.seek hint pos) nullMetaData).1 =
      (readObject (p.seek hint' pos) nullMetaData).1 := by
  rw [readObject_fst, readObject_fst]
  simp only [isSome_findObject hs]

/-- Reading an object changes the position, the hint and what was looked at. -/
theorem readObject_rest (p : Parcel) (nullMetaData : Bool) :
    (readObject p nullMetaData).2.objects = p.objects ∧
      (readObject p nullMetaData).2.bytes = p.bytes ∧
      (readObject p nullMetaData).2.mDataSize = p.mDataSize := by
  unfold readObject
  dsimp only [Parcel.record]
  split
  · split
    · exact ⟨rfl, rfl, rfl⟩
    · cases findObject p.objects p.mNextObjectHint p.mDataPos <;> exact ⟨rfl, rfl, rfl⟩
  · exact ⟨rfl, rfl, rfl⟩

theorem readObject_congr {p p' : Parcel} (hobjects : p'.objects = p.objects)
    (hbytes : p'.bytes = p.bytes) (hsize : p'.mDataSize = p.mDataSize) (hint pos : ℕ)
    (nullMetaData : Bool) : (readObject (p'.seek hint pos) nullMetaData).1 =
      (readObject (p.seek hint pos) nullMetaData).1 := by
  rw [readObject_fst, readObject_fst, hobjects, hbytes, hsize]

theorem pairwise_ipcSetDataReference (o : Oracle) (p : Parcel) (w : World) (data : Data)
    (dataSize : ℕ) {objects : List ℕ} (hwrap : ∀ off ∈ objects, off + objectSize < sizeT) :
    (ipcSetDataReference o p w data dataSize objects).1.objects.Pairwise (· < ·) := by
  have htable : (ipcSetDataReference o p w data dataSize objects).1.objects =
      if offsetsOk 0 objects = true then objects else [] := rfl
  rw [htable]
  split
  · rename_i hok
    exact (pairwise_of_offsetsOk hok hwrap).1
  · exact .nil

/-- In a received parcel an object is read where there is one, whatever the hint, and the hint
that is left has no part in what is read later. -/
theorem readObject_exact (o : Oracle) (p : Parcel) (w : World) (data : Data) {dataSize : ℕ}
    {objects : List ℕ} (hwrap : ∀ off ∈ objects, off + objectSize < sizeT)
    (hsize : dataSize < sizeT) {q : Parcel}
    (hq : q = (ipcSetDataReference o p w data dataSize objects).1) (hint : ℕ) {pos : ℕ}
    (nullMetaData : Bool) (hpos : pos + objectSize ≤ dataSize) :
    (HasObject q pos nullMetaData →
        (readObject (q.seek hint pos) nullMetaData).1 = some (objectAt data pos)) ∧
      (¬ HasObject q pos nullMetaData → (readObject (q.seek hint pos) nullMetaData).1 = none) ∧
      ∀ hint' pos' nullMetaData',
        (readObject ((readObject (q.seek hint pos) nullMetaData).2.seek
            (readObject (q.seek hint pos) nullMetaData).2.mNextObjectHint pos')
          nullMetaData').1 =
        (readObject (q.seek hint' pos') nullMetaData').1 := by
  have hs : q.objects.Pairwise (· < ·) := by
    rw [hq]
    exact pairwise_ipcSetDataReference o p w data dataSize hwrap
  have hmod : (pos + objectSize) % sizeT ≤ q.mDataSize := by
    rw [Nat.mod_eq_of_lt (by omega), hq]
    exact hpos
  have hbytes : q.bytes = data := by
    rw [hq]
    rfl
  obtain ⟨hhas, hno⟩ := readObject_spec hs hint pos nullMetaData hmod
  rw [hbytes] at hhas
  refine ⟨hhas, hno, fun hint' pos' nullMetaData' => ?_⟩
  obtain ⟨hobjects, hbytes', hsize'⟩ := readObject_rest (q.seek hint pos) nullMetaData
  have hrest := readObject_hint (p := (readObject (q.seek hint pos) nullMetaData).2)
    (hobjects ▸ hs) (readObject (q.seek hint pos) nullMetaData).2.mNextObjectHint hint' pos'
    nullMetaData'
  rw [hrest]
  exact readObject_congr hobjects hbytes' hsize' hint' pos' nullMetaData'

/-- A table with two objects, and a read between them with a hint past the end. -/
theorem readObject_exact_sample :
    ∃ q, q = (ipcSetDataReference plainOracle new World.init (fun _ => 1) 100 [0, 40]).1 ∧
      (readObject (q.seek 7 40) true).1 = some (objectAt (fun _ => 1) 40) ∧
      (readObject (q.seek 0 20) true).1 = none := by
  have hwrap : ∀ off ∈ [0, 40], off + objectSize < sizeT := by decide +kernel
  refine ⟨_, rfl, ?_, ?_⟩
  · exact (readObject_exact _ new World.init (fun _ => 1) hwrap (by decide +kernel) rfl 7 true
      (by decide)).1 (.inl (by decide))
  · exact (readObject_exact _ new World.init (fun _ => 1) hwrap (by decide +kernel) rfl 0 true
      (by decide)).2.1 (by unfold HasObject; decide)

/-- The end of the first object wraps, so the table is accepted, and the second object is not
found. -/
theorem wrapped_table_not_searched :
    ∃ q, q = (ipcSetDataReference plainOracle new World.init (fun _ => 1) 100
        [2 ^ 64 - 8, 16]).1 ∧
      16 ∈ q.objects ∧ (readObject (q.seek 0 16) true).1 = none :=
  ⟨_, rfl, by decide +kernel, by decide +kernel⟩

end Parcel

end BinderForLinux
