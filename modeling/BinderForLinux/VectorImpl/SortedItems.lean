import BinderForLinux.VectorImpl.Runs
import BinderForLinux.VectorImpl.Sorted

/-!
# Items of a sorted vector

Where the search ends, and what adding an item or taking one out makes of the list of a vector that
is ascending.
-/

namespace BinderForLinux

namespace VectorImpl

namespace Sorted

open Library Block

variable {α κ : Type} [LinearOrder κ] {t : Traits} {dflt : α} (junk : ℕ → ℕ → α) {key : α → κ}
  {h : Heap α} {v : Vec} {array : Option ℕ} {b i n : ℕ} {l l₁ l₂ xs : List α} {x y item : α}

theorem doCompare_eq : doCompare key x y = .eq ↔ key x = key y := compare_eq_iff_eq

theorem doCompare_lt : doCompare key x y = .lt ↔ key x < key y := compare_lt_iff_lt

theorem doCompare_gt : doCompare key x y = .gt ↔ key y < key x := compare_gt_iff_gt

theorem readItem_of_source (hsrc : Source h array 0 l) (hi : i < l.length) :
    readItem h array i = .ok l[i] := by
  unfold Source at hsrc
  unfold readItem
  cases array with
  | none =>
      rw [hsrc] at hi
      exact absurd hi (Nat.not_lt_zero i)
  | some b =>
      obtain ⟨hb, hholds⟩ := hsrc
      obtain ⟨hlt, hcell⟩ := holds_iff.mp hholds i hi
      rw [Nat.zero_add] at hlt hcell
      dsimp only
      rw [except_bind_ok (block_eq hb), Block.read, if_pos hlt, hcell, if_pos rfl]

theorem readItem_head (hv : VecHolds t h v l) (hx : x ∈ l.head?) :
    readItem h v.storage 0 = .ok x := by
  obtain ⟨rest, rfl⟩ := List.head?_eq_some_iff.mp hx
  exact readItem_of_source (i := 0) hv.readable (Nat.succ_pos _)

theorem readLast_getLast (hv : VecHolds t h v l) (hx : x ∈ l.getLast?) :
    readLast h v = .ok x := by
  obtain ⟨rest, rfl⟩ := List.getLast?_eq_some_iff.mp hx
  have hcount := hv.1
  rw [List.length_append, List.length_singleton] at hcount
  have hread := readItem_of_source (i := rest.length) hv.readable (by simp)
  unfold readLast
  rw [if_neg (by omega), hcount, Nat.add_sub_cancel, hread]
  simp

/-! ### Searching -/

def Searched (key : α → κ) (l : List α) (item : α) (r : Option ℕ × ℕ) : Prop :=
  (∃ l₁ l₂, l = l₁ ++ l₂ ∧ r = (none, l₁.length) ∧ (∀ y ∈ l₁, key y < key item) ∧
      ∀ y ∈ l₂, key item < key y) ∨
    ∃ l₁ y l₂, l = l₁ ++ y :: l₂ ∧ r = (some l₁.length, l₁.length) ∧ key y = key item

/-- The items before `low` are smaller, and the ones behind `high` larger than the item. -/
structure Between (key : α → κ) (l : List α) (item : α) (low high : ℤ) : Prop where
  nonneg : 0 ≤ low
  le : low ≤ high + 1
  inside : high < l.length
  before : ∀ i (hi : i < l.length), (i : ℤ) < low → key l[i] < key item
  behind : ∀ i (hi : i < l.length), high < i → key item < key l[i]

theorem Between.searched {low high : ℤ} (hb : Between key l item low high) (hdone : high < low) :
    Searched key l item (none, low.toNat) := by
  have hlow := hb.nonneg
  have hle := hb.le
  have hhigh := hb.inside
  have hlen : low.toNat ≤ l.length := by omega
  refine .inl ⟨l.take low.toNat, l.drop low.toNat, (List.take_append_drop _ _).symm, ?_,
    fun y hy => ?_, fun y hy => ?_⟩
  · rw [List.length_take_of_le hlen]
  · obtain ⟨i, hi, rfl⟩ := List.getElem_of_mem hy
    rw [List.length_take_of_le hlen] at hi
    rw [List.getElem_take]
    exact hb.before i (by omega) (by omega)
  · obtain ⟨i, hi, rfl⟩ := List.getElem_of_mem hy
    rw [List.length_drop] at hi
    rw [List.getElem_drop]
    exact hb.behind _ (by omega) (by omega)

theorem searchLoop_spec (hsrc : Source h v.storage 0 l) (hl : Ascending key l) {low high : ℤ}
    (hb : Between key l item low high) (hn : high + 1 - low ≤ n) :
    ∃ r, searchLoop key h v item n low high = .ok r ∧ Searched key l item r := by
  induction n generalizing low high with
  | zero => exact ⟨_, rfl, hb.searched (by omega)⟩
  | succ n ih =>
      unfold searchLoop
      split
      · rename_i hle
        have hlow := hb.nonneg
        have hhigh := hb.inside
        obtain ⟨mid, hmid⟩ : ∃ mid : ℕ, low + (high - low) / 2 = mid :=
          ⟨(low + (high - low) / 2).toNat, by omega⟩
        have hlt : mid < l.length := by omega
        dsimp only
        rw [hmid, Int.toNat_natCast, except_bind_ok (readItem_of_source hsrc hlt)]
        split
        · rename_i heq
          refine ⟨_, rfl, .inr ⟨l.take mid, l[mid], l.drop (mid + 1), ?_, ?_, doCompare_eq.mp heq⟩⟩
          · rw [← List.drop_eq_getElem_cons hlt, List.take_append_drop]
          · rw [List.length_take_of_le hlt.le]
        · rename_i hless
          have hitem := doCompare_lt.mp hless
          refine ih ⟨by omega, by omega, hhigh, fun i hi him => ?_, hb.behind⟩ (by omega)
          rcases Nat.lt_or_ge i mid with him' | him'
          · exact (hl.getElem_lt hi hlt him').trans hitem
          · obtain rfl : i = mid := by omega
            exact hitem
        · rename_i hmore
          have hitem := doCompare_gt.mp hmore
          refine ih ⟨hlow, by omega, by omega, hb.before, fun i hi him => ?_⟩ (by omega)
          rcases Nat.lt_or_ge mid i with him' | him'
          · exact hitem.trans (hl.getElem_lt hlt hi him')
          · obtain rfl : i = mid := by omega
            exact hitem
      · rename_i hdone
        exact ⟨_, rfl, hb.searched (by omega)⟩

theorem indexOrderOf_spec (hv : VecHolds t h v l) (hl : Ascending key l) (item : α) :
    ∃ r, indexOrderOf key h v item = .ok r ∧ Searched key l item r := by
  have hcount := hv.1
  unfold indexOrderOf
  split
  · rename_i hzero
    obtain rfl := List.length_eq_zero_iff.mp (hcount.symm.trans hzero)
    exact ⟨_, rfl, .inl ⟨[], [], rfl, rfl, fun _ hy => (by cases hy), fun _ hy => (by cases hy)⟩⟩
  · refine searchLoop_spec hv.readable hl ⟨le_rfl, by omega, by omega, fun i _ hi => ?_,
      fun i hi hhigh => ?_⟩ (by omega)
    · omega
    · omega

/-- The index is that of an item with the key, and the order the number of smaller ones. -/
theorem Searched.eq {r : Option ℕ × ℕ} (hs : Searched key l item r) (hl : Ascending key l) :
    r = (l.findIdx? fun y => key y = key item, l.countP fun y => key y < key item) := by
  rcases hs with ⟨l₁, l₂, rfl, rfl, h₁, h₂⟩ | ⟨l₁, y, l₂, rfl, rfl, hkey⟩
  · rw [findIdx?_between h₁ h₂, countP_between h₁ fun y hy => (h₂ y hy).le]
  · have h₁ (z : α) (hz : z ∈ l₁) : key z < key item :=
      hkey ▸ (ascending_append.mp hl).2.2 z hz y List.mem_cons_self
    have h₂ (z : α) (hz : z ∈ y :: l₂) : key item ≤ key z :=
      hkey ▸ (ascending_append.mp hl).2.1.head_le rfl hz
    rw [findIdx?_of_key h₁ hkey, countP_between h₁ h₂]

theorem indexOrderOf_eq (hv : VecHolds t h v l) (hl : Ascending key l) (item : α) :
    indexOrderOf key h v item =
      .ok (l.findIdx? fun y => key y = key item, l.countP fun y => key y < key item) := by
  obtain ⟨r, hsearch, hs⟩ := indexOrderOf_spec hv hl item
  rw [hsearch, hs.eq hl]

/-! ### Adding and removing -/

theorem add_spec (dflt : α) (hv : VecHolds t h v l) (hl : Ascending key l) (item : α) :
    ∃ r k, add t dflt junk key h v item = .ok r ∧
      Becomes t v h r.1 r.2.1 (putItem key l item) ∧ r.2.2 = .ok k := by
  obtain ⟨r, hsearch, hs⟩ := indexOrderOf_spec hv hl item
  unfold add
  rw [except_bind_ok hsearch]
  rcases hs with ⟨l₁, l₂, rfl, rfl, h₁, h₂⟩ | ⟨l₁, y, l₂, rfl, rfl, hkey⟩
  · obtain ⟨r, xs, hinsert, hbecomes, -, hsome, -, hstatus⟩ :=
      insertAt_spec junk dflt (some item) hv (.inl Nat.one_pos)
    rw [hsome item rfl, List.replicate_one, List.append_assoc, List.singleton_append,
      ← putItem_between h₁ h₂] at hbecomes
    exact ⟨r, _, hinsert, hbecomes, hstatus Nat.one_pos⟩
  · obtain ⟨r, z, hreplace, hbecomes, hsome, -, hstatus⟩ :=
      replaceAt_spec junk dflt (some item) hv
    rw [hsome item rfl, ← putItem_replace hl hkey] at hbecomes
    exact ⟨r, _, hreplace, hbecomes, hstatus⟩

theorem remove_spec (hv : VecHolds t h v l) (hl : Ascending key l) (item : α) :
    ∃ r, remove t junk key h v item = .ok r ∧
      (r.1 = h ∧ r.2.1 = v ∧ l.filter (fun y => key y ≠ key item) = l ∨
        Becomes t v h r.1 r.2.1 (l.filter fun y => key y ≠ key item)) := by
  obtain ⟨r, hsearch, hs⟩ := indexOrderOf_spec hv hl item
  have hindex : indexOf key h v item = .ok r.1 := by
    unfold indexOf
    rw [hsearch]
    rfl
  unfold remove
  rw [except_bind_ok hindex]
  rcases hs with ⟨l₁, l₂, rfl, rfl, h₁, h₂⟩ | ⟨l₁, y, l₂, rfl, rfl, hkey⟩
  · refine ⟨_, rfl, .inl ⟨rfl, rfl, List.filter_eq_self.mpr fun y hy => decide_eq_true ?_⟩⟩
    rcases List.mem_append.mp hy with hy | hy
    · exact (h₁ y hy).ne
    · exact (h₂ y hy).ne'
  · obtain ⟨-, hback, hfront⟩ := ascending_append.mp hl
    obtain ⟨hbehind, -⟩ := ascending_cons.mp hback
    have hrest : (l₁ ++ y :: l₂).filter (fun z => key z ≠ key item) = l₁ ++ l₂ := by
      rw [List.filter_append, List.filter_cons_of_neg (by simp [hkey]),
        List.filter_eq_self.mpr fun z hz =>
          decide_eq_true (hkey ▸ (hfront z hz y List.mem_cons_self).ne),
        List.filter_eq_self.mpr fun z hz => decide_eq_true (hkey ▸ (hbehind z hz).ne')]
    have hone : VecHolds t h v (l₁ ++ [y] ++ l₂) := by
      rwa [List.append_assoc, List.singleton_append]
    obtain ⟨h', v', hshrink, hbecomes⟩ := shrink_spec junk hone (.inl Nat.one_pos)
    have hcount := hone.count_eq
    rw [List.length_append, List.length_singleton] at hcount
    dsimp only [removeItemsAt]
    rw [List.length_singleton] at hshrink
    rw [if_neg (by omega), except_bind_ok hshrink, hrest]
    exact ⟨_, rfl, .inr hbecomes⟩

end Sorted

end VectorImpl

end BinderForLinux
