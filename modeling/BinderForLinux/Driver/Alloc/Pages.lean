import BinderForLinux.Driver.Alloc.Invariant

/-!
# Which pages the buffers need

Page `i` of the area is needed when a byte of a header, or of the data of an
allocated buffer, lies on it. With the start `a` of the page fixed, the page
ranges of the allocator become linear conditions on `a`, so each of them is
compared with the need for the page by arithmetic alone.
-/

namespace BinderForLinux

namespace Driver

open Library

/-- Byte `x` of the area belongs to a header or to the data of an allocated
buffer. -/
def Area.byteInUse (L : Layout) (ar : Area) (x : ℕ) : Prop :=
  ∃ b ∈ ar.buffers, (b.addr ≤ x ∧ x < b.addr + L.headerSize) ∨
    (b.free = false ∧ b.addr + L.headerSize ≤ x ∧ x < ar.bufferEnd b.addr)

def Area.onPage (L : Layout) (ar : Area) (i x : ℕ) : Prop :=
  ar.buffer + i * L.pageSize ≤ x ∧ x < ar.buffer + (i + 1) * L.pageSize

/-- Page `i` is mapped if and only if some byte on it is in use. -/
def Area.PagesExact (L : Layout) (ar : Area) : Prop :=
  ∀ i, ar.pages i = true ↔ ∃ x, ar.onPage L i x ∧ ar.byteInUse L x

/-- The area starts and ends at a page boundary. -/
structure Area.PageAligned (L : Layout) (ar : Area) : Prop where
  buffer : L.pageSize ∣ ar.buffer
  bufferSize : L.pageSize ∣ ar.bufferSize

/-! ### Page arithmetic -/

section Arithmetic

variable (L : Layout) {a x y : ℕ}

theorem Layout.pageSize_pos : 0 < L.pageSize :=
  lt_of_le_of_lt (Nat.zero_le _) L.two_mul_headerSize_lt

theorem Layout.dvd_pageAlign (x : ℕ) : L.pageSize ∣ L.pageAlign x := ⟨_, Nat.mul_comm _ _⟩

theorem Layout.dvd_pageMask (x : ℕ) : L.pageSize ∣ L.pageMask x := ⟨_, Nat.mul_comm _ _⟩

theorem Layout.pageAlign_le_iff (ha : L.pageSize ∣ a) : L.pageAlign x ≤ a ↔ x ≤ a := by
  obtain ⟨k, rfl⟩ := ha
  have hP := L.pageSize_pos
  rw [Layout.pageAlign, Nat.mul_comm L.pageSize k, Nat.mul_le_mul_right_iff hP,
    ← Nat.lt_succ_iff, Nat.div_lt_iff_lt_mul hP, Nat.succ_mul]
  omega

theorem Layout.le_pageAlign (x : ℕ) : x ≤ L.pageAlign x :=
  (L.pageAlign_le_iff (L.dvd_pageAlign x)).mp le_rfl

theorem Layout.lt_pageMask_iff (ha : L.pageSize ∣ a) :
    a < L.pageMask y ↔ a + L.pageSize ≤ y := by
  obtain ⟨k, rfl⟩ := ha
  have hP := L.pageSize_pos
  rw [Layout.pageMask, Nat.mul_comm L.pageSize k, Nat.mul_lt_mul_right hP, ← Nat.succ_le_iff,
    Nat.le_div_iff_mul_le hP, Nat.succ_mul]

theorem Layout.lt_pageAlign_iff (ha : L.pageSize ∣ a) : a < L.pageAlign y ↔ a < y := by
  rw [← not_le, L.pageAlign_le_iff ha, not_le]

theorem Layout.pageMask_mono (h : x ≤ y) : L.pageMask x ≤ L.pageMask y :=
  Nat.mul_le_mul_right _ (Nat.div_le_div_right h)

theorem Layout.pageMask_eq_iff (ha : L.pageSize ∣ a) :
    L.pageMask x = a ↔ a ≤ x ∧ x < a + L.pageSize := by
  obtain ⟨k, rfl⟩ := ha
  have hP := L.pageSize_pos
  rw [Layout.pageMask, Nat.mul_comm L.pageSize k, Nat.mul_left_inj hP.ne', Nat.div_eq_iff hP]
  rw [← Nat.succ_mul]
  have : k.succ * L.pageSize = k * L.pageSize + L.pageSize := Nat.succ_mul _ _
  omega

end Arithmetic

/-! ### The two page loops -/

theorem freePages_ok {first k : ℕ} {pages : ℕ → Bool}
    (h : ∀ i, first ≤ i → i < first + k → pages i = true) :
    ∃ ps, freePages first k pages = .ok ps ∧
      ∀ i, ps i = true ↔ pages i = true ∧ ¬ (first ≤ i ∧ i < first + k) := by
  induction k generalizing pages with
  | zero =>
      exact ⟨pages, rfl, fun i => by simp⟩
  | succ k ih =>
      have hk : pages (first + k) = true := h _ (by omega) (by omega)
      obtain ⟨ps, hps, hiff⟩ := @ih (Function.update pages (first + k) false)
        fun i h₁ h₂ => by
          rw [Function.update_of_ne (by omega)]
          exact h i h₁ (by omega)
      refine ⟨ps, by simp [freePages, hk, hps], fun i => ?_⟩
      rw [hiff]
      by_cases hi : i = first + k
      · subst hi
        simp
      · rw [Function.update_of_ne hi]
        have : (first ≤ i ∧ i < first + k) ↔ (first ≤ i ∧ i < first + (k + 1)) := by omega
        rw [this]

/-- The allocating loop either maps the whole range or, when a page is missing,
gives everything back. -/
theorem allocPages_ok {env : PageEnv} {first k n : ℕ} {pages : ℕ → Bool}
    (hdone : ∀ i, first ≤ i → i < first + k → pages i = true)
    (hfresh : ∀ i, first + k ≤ i → i < first + k + n → pages i = false) :
    ∃ ok ps, allocPages env first k n pages = .ok (ok, ps) ∧
      (ok = true ↔ ∀ i, first + k ≤ i → i < first + k + n → env.page i = true) ∧
      (ok = true → ∀ i, ps i = true ↔
        pages i = true ∨ (first + k ≤ i ∧ i < first + k + n)) ∧
      (ok = false → ∀ i, ps i = true ↔
        pages i = true ∧ ¬ (first ≤ i ∧ i < first + k)) := by
  induction n generalizing k pages with
  | zero =>
      refine ⟨true, pages, rfl, ?_, ?_, by simp⟩
      · simp only [true_iff]
        intro i h₁ h₂
        omega
      · intro _ i
        simp
  | succ n ih =>
      have hk : pages (first + k) = false := hfresh _ le_rfl (by omega)
      by_cases henv : env.page (first + k) = true
      · obtain ⟨ok, ps, hps, hok, htrue, hfalse⟩ := @ih (k + 1)
          (Function.update pages (first + k) true)
          (fun i h₁ h₂ => by
            by_cases hi : i = first + k
            · simp [hi]
            · rw [Function.update_of_ne hi]
              exact hdone i h₁ (by omega))
          (fun i h₁ h₂ => by
            rw [Function.update_of_ne (by omega)]
            exact hfresh i (by omega) (by omega))
        refine ⟨ok, ps, by simp [allocPages, hk, henv, hps], ?_, ?_, ?_⟩
        · rw [hok]
          constructor
          · intro h i h₁ h₂
            by_cases hi : i = first + k
            · rw [hi, henv]
            · exact h i (by omega) (by omega)
          · intro h i h₁ h₂
            exact h i (by omega) (by omega)
        · intro hokt i
          rw [htrue hokt i]
          by_cases hi : i = first + k
          · subst hi
            simp
          · rw [Function.update_of_ne hi]
            have : (first + (k + 1) ≤ i ∧ i < first + (k + 1) + n) ↔
                (first + k ≤ i ∧ i < first + k + (n + 1)) := by omega
            rw [this]
        · intro hokf i
          rw [hfalse hokf i]
          by_cases hi : i = first + k
          · subst hi
            simp [hk]
          · rw [Function.update_of_ne hi]
            have : (first ≤ i ∧ i < first + (k + 1)) ↔ (first ≤ i ∧ i < first + k) := by omega
            rw [this]
      · obtain ⟨ps, hps, hiff⟩ := freePages_ok hdone
        refine ⟨false, ps, ?_, ?_, by simp, fun _ => hiff⟩
        · simp [allocPages, hk, henv, hps, Except.map]
        · simp only [Bool.false_eq_true, false_iff]
          exact fun h => henv (h _ le_rfl (by omega))

section Range

variable {L : Layout} {ar : Area} {start stop : ℕ} {env : PageEnv}

theorem pageRange_iff (hbase : L.pageSize ∣ ar.buffer) (hstart : L.pageSize ∣ start)
    (hstop : L.pageSize ∣ stop) (hle : ar.buffer ≤ start) (hlt : start < stop) (i : ℕ) :
    ((start - ar.buffer) / L.pageSize ≤ i ∧
        i < (start - ar.buffer) / L.pageSize + (stop - start) / L.pageSize) ↔
      start ≤ ar.buffer + i * L.pageSize ∧ ar.buffer + i * L.pageSize < stop := by
  have hP := L.pageSize_pos
  obtain ⟨u, hu⟩ := Nat.dvd_sub hstart hbase
  obtain ⟨v, hv⟩ := Nat.dvd_sub hstop hstart
  have hs : start = ar.buffer + u * L.pageSize := by
    rw [Nat.mul_comm]
    omega
  have ht : stop = ar.buffer + (u + v) * L.pageSize := by
    rw [Nat.add_mul, Nat.mul_comm v]
    omega
  rw [hu, hv, Nat.mul_div_cancel_left _ hP, Nat.mul_div_cancel_left _ hP, hs, ht,
    Nat.add_le_add_iff_left, Nat.add_lt_add_iff_left, Nat.mul_le_mul_right_iff hP,
    Nat.mul_lt_mul_right hP]

def pageIn (L : Layout) (ar : Area) (start stop i : ℕ) : Prop :=
  start ≤ ar.buffer + i * L.pageSize ∧ ar.buffer + i * L.pageSize < stop

theorem binderUpdatePageRange_alloc (hbase : L.pageSize ∣ ar.buffer)
    (hstart : L.pageSize ∣ start) (hstop : L.pageSize ∣ stop) (hle : ar.buffer ≤ start)
    (hfresh : ∀ i, pageIn L ar start stop i → ar.pages i = false) :
    (∃ ps, binderUpdatePageRange L ar true start stop env = .ok (true, { ar with pages := ps }) ∧
        ∀ i, ps i = true ↔ ar.pages i = true ∨ pageIn L ar start stop i) ∨
      binderUpdatePageRange L ar true start stop env = .ok (false, ar) ∧ start < stop ∧
        (env.mm = true → ∃ i, pageIn L ar start stop i ∧ env.page i = false) := by
  by_cases hlt : start < stop
  · have hiff := pageRange_iff (L := L) hbase hstart hstop hle hlt
    by_cases hmm : env.mm = true
    · obtain ⟨ok, ps, hps, hok, htrue, hfalse⟩ := @allocPages_ok env
        ((start - ar.buffer) / L.pageSize) 0 ((stop - start) / L.pageSize) _
        (fun i h₁ h₂ => by omega)
        (fun i h₁ h₂ => hfresh i ((hiff i).mp ⟨h₁, h₂⟩))
      have hrun : binderUpdatePageRange L ar true start stop env =
          .ok (ok, { ar with pages := ps }) := by
        simp [binderUpdatePageRange, not_le.mpr hlt, hmm, hps, Except.map]
      cases ok with
      | true =>
          refine .inl ⟨ps, hrun, fun i => ?_⟩
          rw [htrue rfl i]
          exact or_congr_right (hiff i)
      | false =>
          right
          have hsame : ps = ar.pages := by
            funext i
            have := hfalse rfl i
            have hno : ¬ ((start - ar.buffer) / L.pageSize ≤ i ∧
                i < (start - ar.buffer) / L.pageSize + 0) := by omega
            simp only [hno, not_false_eq_true, and_true] at this
            exact Bool.eq_iff_iff.mpr this
          refine ⟨by rw [hrun, hsame], hlt, fun _ => ?_⟩
          have := hok.not.mp (by simp)
          push Not at this
          obtain ⟨i, h₁, h₂, hpage⟩ := this
          exact ⟨i, (hiff i).mp ⟨h₁, h₂⟩, by simpa using hpage⟩
    · right
      refine ⟨by simp [binderUpdatePageRange, not_le.mpr hlt, hmm], hlt, fun h => absurd h hmm⟩
  · left
    refine ⟨ar.pages, by simp [binderUpdatePageRange, not_lt.mp hlt], fun i => ?_⟩
    have : ¬ pageIn L ar start stop i := by
      unfold pageIn
      omega
    simp [this]

theorem binderUpdatePageRange_free (hbase : L.pageSize ∣ ar.buffer)
    (hstart : L.pageSize ∣ start) (hstop : L.pageSize ∣ stop) (hle : ar.buffer ≤ start)
    (hmapped : ∀ i, pageIn L ar start stop i → ar.pages i = true) :
    ∃ ok ps, binderUpdatePageRange L ar false start stop env =
        .ok (ok, { ar with pages := ps }) ∧
      ∀ i, ps i = true ↔ ar.pages i = true ∧ ¬ pageIn L ar start stop i := by
  by_cases hlt : start < stop
  · have hiff := pageRange_iff (L := L) hbase hstart hstop hle hlt
    obtain ⟨ps, hps, hpages⟩ := freePages_ok (k := (stop - start) / L.pageSize)
      (fun i h₁ h₂ => hmapped i ((hiff i).mp ⟨h₁, h₂⟩))
    refine ⟨false, ps, ?_, fun i => ?_⟩
    · simp [binderUpdatePageRange, not_le.mpr hlt, hps, Except.map]
    · rw [hpages, hiff i]
      rfl
  · refine ⟨true, ar.pages, by simp [binderUpdatePageRange, not_lt.mp hlt], fun i => ?_⟩
    have : ¬ pageIn L ar start stop i := by
      unfold pageIn
      omega
    simp [this]

end Range

/-! ### The need for a page, along the list -/

/-- The page at `a` needs to be there for the buffers of the list, which ends at
`hi`. -/
def Needs (L : Layout) (hi a : ℕ) : List Buffer → Prop
  | [] => False
  | b :: bs =>
      (b.addr < a + L.pageSize ∧ a < b.addr + L.headerSize) ∨
        (b.free = false ∧ b.addr + L.headerSize < startOr hi bs ∧
          b.addr + L.headerSize < a + L.pageSize ∧ a < startOr hi bs) ∨
        Needs L hi a bs

theorem needs_append_cons {L : Layout} {hi a : ℕ} {bs cs : List Buffer} {c : Buffer} :
    Needs L hi a (bs ++ c :: cs) ↔ Needs L c.addr a bs ∨ Needs L hi a (c :: cs) := by
  induction bs with
  | nil => simp [Needs]
  | cons b bs ih =>
      simp only [List.cons_append, Needs, startOr_append_cons] at ih ⊢
      rw [ih]
      simp only [or_assoc]

theorem needs_map {L : Layout} {hi a : ℕ} {bs : List Buffer} {g : Buffer → Buffer}
    (haddr : ∀ b, (g b).addr = b.addr) (hfree : ∀ b, (g b).free = b.free) :
    Needs L hi a (bs.map g) ↔ Needs L hi a bs := by
  induction bs with
  | nil => rfl
  | cons b bs ih =>
      simp only [List.map_cons, Needs, haddr, hfree, startOr_map haddr]
      rw [ih]

theorem Needs.bounds {L : Layout} {hi lo a : ℕ} {bs : List Buffer}
    (h : Needs L hi a bs) (ht : Tiles L.headerSize hi lo bs) : lo < a + L.pageSize ∧ a < hi := by
  have hP := L.pageSize_pos
  induction bs generalizing lo with
  | nil => cases h
  | cons b bs ih =>
      obtain ⟨rfl, hb, hrest⟩ := ht
      have hle := hrest.le
      rcases h with h | h | h
      · omega
      · omega
      · have := ih h hrest
        omega

theorem needs_iff_exists {L : Layout} {hi a : ℕ} {bs : List Buffer} :
    Needs L hi a bs ↔ ∃ pre b post, bs = pre ++ b :: post ∧
      ((b.addr < a + L.pageSize ∧ a < b.addr + L.headerSize) ∨
        (b.free = false ∧ b.addr + L.headerSize < startOr hi post ∧
          b.addr + L.headerSize < a + L.pageSize ∧ a < startOr hi post)) := by
  constructor
  · intro h
    induction bs with
    | nil => cases h
    | cons b bs ih =>
        rcases h with h | h | h
        · exact ⟨[], b, bs, rfl, .inl h⟩
        · exact ⟨[], b, bs, rfl, .inr h⟩
        · obtain ⟨pre, c, post, rfl, hc⟩ := ih h
          exact ⟨b :: pre, c, post, rfl, hc⟩
  · rintro ⟨pre, b, post, rfl, h⟩
    refine needs_append_cons.mpr (.inr ?_)
    rcases h with h | h
    · exact .inl h
    · exact .inr (.inl h)

theorem needs_iff_byteInUse {L : Layout} {ar : Area}
    (hpw : ar.buffers.Pairwise fun b c => b.addr < c.addr) (i : ℕ) :
    Needs L (ar.buffer + ar.bufferSize) (ar.buffer + i * L.pageSize) ar.buffers ↔
      ∃ x, ar.onPage L i x ∧ ar.byteInUse L x := by
  have hP := L.pageSize_pos
  have hH := L.headerSize_pos
  have hnext : (i + 1) * L.pageSize = i * L.pageSize + L.pageSize := Nat.succ_mul _ _
  rw [needs_iff_exists]
  simp only [Area.onPage, Area.byteInUse, hnext]
  constructor
  · rintro ⟨pre, b, post, hbs, h⟩
    have hmem : b ∈ ar.buffers := by simp [hbs]
    have hend := bufferEnd_of_cut (cut_of_pairwise (hbs ▸ hpw)) hbs
    rcases h with h | ⟨hfree, h⟩
    · exact ⟨max b.addr (ar.buffer + i * L.pageSize), by omega, b, hmem, .inl (by omega)⟩
    · exact ⟨max (b.addr + L.headerSize) (ar.buffer + i * L.pageSize), by omega, b, hmem,
        .inr ⟨hfree, by omega⟩⟩
  · rintro ⟨x, hx, b, hmem, h⟩
    obtain ⟨pre, post, hbs⟩ := List.append_of_mem hmem
    have hend := bufferEnd_of_cut (cut_of_pairwise (hbs ▸ hpw)) hbs
    refine ⟨pre, b, post, hbs, ?_⟩
    rcases h with h | ⟨hfree, h⟩
    · left
      omega
    · exact .inr ⟨hfree, by omega⟩

/-! ### What each change of the list does to the need -/

theorem Layout.add_le_of_dvd_of_lt (L : Layout) {a x : ℕ} (ha : L.pageSize ∣ a)
    (hx : L.pageSize ∣ x) (h : a < x) : a + L.pageSize ≤ x := by
  obtain ⟨k, hk⟩ := Nat.dvd_sub hx ha
  have hpos : 0 < k := by
    rcases Nat.eq_zero_or_pos k with rfl | hpos
    · omega
    · exact hpos
  have : L.pageSize * 1 ≤ L.pageSize * k := Nat.mul_le_mul_left _ hpos
  omega

section Change

variable {L : Layout} {hi a lo : ℕ} {pre post : List Buffer} {b b' : Buffer}

/-- A page that ends inside a stretch which the list continues is needed for the
next header; at the end of the area there is no such page. -/
theorem needs_next_header (ha : L.pageSize ∣ a) (hhi : L.pageSize ∣ hi)
    (h₁ : a < startOr hi post) (h₂ : startOr hi post < a + L.pageSize) : Needs L hi a post := by
  cases post with
  | nil =>
      have := L.add_le_of_dvd_of_lt ha hhi h₁
      simp only [startOr_nil] at h₂
      omega
  | cons c post =>
      simp only [startOr_cons] at h₁ h₂
      exact .inl ⟨h₂, by omega⟩

theorem needs_take_whole (hb : b.free = true) (hb' : b'.free = false)
    (haddr : b'.addr = b.addr) {size : ℕ}
    (hsize : b.addr + L.headerSize + size ≤ startOr hi post)
    (hslack : startOr hi post ≤ b.addr + L.headerSize + size + (L.headerSize + 4))
    (ha : L.pageSize ∣ a) (hhi : L.pageSize ∣ hi) :
    Needs L hi a (pre ++ b' :: post) ↔ Needs L hi a (pre ++ b :: post) ∨
      (b.addr + L.headerSize ≤ a ∧ a < b.addr + L.headerSize + size ∧
        a + L.pageSize ≤ startOr hi post) := by
  have hH := L.eight_le_headerSize
  have hP := L.two_mul_headerSize_lt
  rw [needs_append_cons, needs_append_cons, haddr]
  simp only [Needs, haddr, hb, hb', Bool.true_eq_false, false_and, false_or, true_and]
  constructor
  · rintro (h | h | h | h)
    · exact .inl (.inl h)
    · exact .inl (.inr (.inl h))
    · by_cases hlow : a < b.addr + L.headerSize
      · exact .inl (.inr (.inl ⟨by omega, hlow⟩))
      · by_cases hup : a + L.pageSize ≤ startOr hi post
        · exact .inr ⟨by omega, by omega, hup⟩
        · exact .inl (.inr (.inr (needs_next_header ha hhi (by omega) (by omega))))
    · exact .inl (.inr (.inr h))
  · rintro ((h | h | h) | h)
    · exact .inl h
    · exact .inr (.inl h)
    · exact .inr (.inr (.inr h))
    · exact .inr (.inr (.inl (by omega)))

theorem needs_take_split {new : Buffer} (hb : b.free = true) (hb' : b'.free = false)
    (haddr : b'.addr = b.addr) {size : ℕ}
    (hnew : new.free = true) (hnewaddr : new.addr = b.addr + L.headerSize + size)
    (hsize : new.addr + L.headerSize ≤ startOr hi post)
    (ha : L.pageSize ∣ a) (hhi : L.pageSize ∣ hi) :
    Needs L hi a (pre ++ b' :: new :: post) ↔ Needs L hi a (pre ++ b :: post) ∨
      (b.addr + L.headerSize ≤ a ∧ a < b.addr + L.headerSize + (size + L.headerSize) ∧
        a + L.pageSize ≤ startOr hi post) := by
  have hH := L.eight_le_headerSize
  have hP := L.two_mul_headerSize_lt
  rw [needs_append_cons, needs_append_cons, haddr]
  simp only [Needs, haddr, hb, hb', hnew, startOr_cons, Bool.true_eq_false, false_and, false_or,
    true_and]
  constructor
  · rintro (h | h | h | h | h)
    · exact .inl (.inl h)
    · exact .inl (.inr (.inl h))
    · by_cases hlow : a < b.addr + L.headerSize
      · exact .inl (.inr (.inl ⟨by omega, hlow⟩))
      · by_cases hup : a + L.pageSize ≤ startOr hi post
        · exact .inr ⟨by omega, by omega, hup⟩
        · exact .inl (.inr (.inr (needs_next_header ha hhi (by omega) (by omega))))
    · by_cases hlow : a < b.addr + L.headerSize
      · exact .inl (.inr (.inl ⟨by omega, hlow⟩))
      · by_cases hup : a + L.pageSize ≤ startOr hi post
        · exact .inr ⟨by omega, by omega, hup⟩
        · exact .inl (.inr (.inr (needs_next_header ha hhi (by omega) (by omega))))
    · exact .inl (.inr (.inr h))
  · rintro ((h | h | h) | h)
    · exact .inl h
    · exact .inr (.inl h)
    · exact .inr (.inr (.inr (.inr h)))
    · by_cases hdata : a < new.addr
      · exact .inr (.inr (.inl (by omega)))
      · exact .inr (.inr (.inr (.inl (by omega))))

theorem not_needs_inside (ht : Tiles L.headerSize hi lo (pre ++ b :: post))
    (hb : b.free = true) (h₁ : b.addr + L.headerSize ≤ a)
    (h₂ : a + L.pageSize ≤ startOr hi post) : ¬ Needs L hi a (pre ++ b :: post) := by
  obtain ⟨hpre, hb', _, hpost⟩ := tiles_append_cons.mp ht
  rw [needs_append_cons]
  simp only [Needs, hb, Bool.true_eq_false, false_and, false_or, not_or]
  refine ⟨fun h => ?_, by omega, fun h => ?_⟩
  · have := h.bounds hpre
    omega
  · have := h.bounds hpost
    omega

theorem needs_free_data (ht : Tiles L.headerSize hi lo (pre ++ b :: post))
    (hb : b.free = false) (hb' : b'.free = true) (haddr : b'.addr = b.addr)
    (ha : L.pageSize ∣ a) (hhi : L.pageSize ∣ hi) :
    Needs L hi a (pre ++ b' :: post) ↔ Needs L hi a (pre ++ b :: post) ∧
      ¬ (b.addr + L.headerSize ≤ a ∧ a + L.pageSize ≤ startOr hi post) := by
  have hH := L.eight_le_headerSize
  obtain ⟨hpre, hbt, _, hpost⟩ := tiles_append_cons.mp ht
  rw [needs_append_cons, needs_append_cons, haddr]
  simp only [Needs, haddr, hb, hb', Bool.true_eq_false, false_and, false_or, true_and]
  constructor
  · rintro (h | h | h)
    · have := h.bounds hpre
      exact ⟨.inl h, by omega⟩
    · exact ⟨.inr (.inl h), by omega⟩
    · have := h.bounds hpost
      exact ⟨.inr (.inr (.inr h)), by omega⟩
  · rintro ⟨h | h | h | h, hout⟩
    · exact .inl h
    · exact .inr (.inl h)
    · by_cases hlow : a < b.addr + L.headerSize
      · exact .inr (.inl ⟨by omega, hlow⟩)
      · exact .inr (.inr (needs_next_header ha hhi (by omega) (by omega)))
    · exact .inr (.inr h)

theorem needs_inside (hb : b.free = false) (h₁ : b.addr + L.headerSize ≤ a)
    (h₂ : a + L.pageSize ≤ startOr hi post) : Needs L hi a (pre ++ b :: post) := by
  have hP := L.pageSize_pos
  exact needs_append_cons.mpr (.inr (.inr (.inl ⟨hb, by omega, by omega, by omega⟩)))

/-- The page at `a` has bytes of the header at `c` and neither of the header at
`prev` before it nor of the one at `next` after it. -/
def headerAlone (L : Layout) (prev c : ℕ) (next : Option ℕ) (a : ℕ) : Prop :=
  c < a + L.pageSize ∧ a < c + L.headerSize ∧ prev + L.headerSize ≤ a ∧
    ∀ n ∈ next, a + L.pageSize ≤ n

/-- The pages given back when the header of a free buffer after a free buffer
goes away. -/
theorem needs_delete_header {prev c : Buffer}
    (ht : Tiles L.headerSize hi lo (pre ++ prev :: c :: post))
    (hprev : prev.free = true) (hc : c.free = true) :
    Needs L hi a (pre ++ prev :: post) ↔ Needs L hi a (pre ++ prev :: c :: post) ∧
      ¬ headerAlone L prev.addr c.addr (post.head?.map Buffer.addr) a := by
  obtain ⟨hpre, _, hbp, _, hbc, hpost⟩ := tiles_append_cons.mp ht
  simp only [startOr_cons] at hbp
  rw [needs_append_cons, needs_append_cons]
  simp only [Needs, hprev, hc, Bool.true_eq_false, false_and, false_or, headerAlone]
  constructor
  · rintro (h | h | h)
    · have := h.bounds hpre
      exact ⟨.inl h, by omega⟩
    · exact ⟨.inr (.inl h), by omega⟩
    · refine ⟨.inr (.inr (.inr h)), ?_⟩
      rintro ⟨_, h₂, _, h₄⟩
      have hb := h.bounds hpost
      cases post with
      | nil => cases h
      | cons d post =>
          have := h₄ d.addr (by simp)
          simp only [startOr_cons] at hb
          omega
  · rintro ⟨h | h | h | h, hout⟩
    · exact .inl h
    · exact .inr (.inl h)
    · by_cases hshare : a < prev.addr + L.headerSize
      · exact .inr (.inl ⟨by omega, hshare⟩)
      · right
        right
        cases post with
        | nil => exact absurd ⟨h.1, h.2, by omega, by simp⟩ hout
        | cons d post =>
            by_cases hd : a + L.pageSize ≤ d.addr
            · exact absurd ⟨h.1, h.2, by omega, by simpa using hd⟩ hout
            · simp only [startOr_cons] at hbc
              exact .inl ⟨by omega, by omega⟩
    · exact .inr (.inr h)

end Change

/-- The pages of a header of at most one page: one page, or two that follow each
other. -/
theorem Layout.endPage_cases (L : Layout) (c : ℕ) :
    bufferEndPage L c = bufferStartPage L c ∨
      bufferEndPage L c = bufferStartPage L c + L.pageSize := by
  have hH := L.eight_le_headerSize
  have hP := L.two_mul_headerSize_lt
  have hsp : L.pageSize ∣ bufferStartPage L c := L.dvd_pageMask _
  have hep : L.pageSize ∣ bufferEndPage L c := L.dvd_pageMask _
  have hs := (L.pageMask_eq_iff hsp (x := c)).mp rfl
  have he := (L.pageMask_eq_iff hep (x := c + L.headerSize - 1)).mp rfl
  rcases Nat.lt_trichotomy (bufferEndPage L c) (bufferStartPage L c) with h | h | h
  · have := L.add_le_of_dvd_of_lt hep hsp h
    omega
  · exact .inl h
  · have h₁ := L.add_le_of_dvd_of_lt hsp hep h
    by_contra hne
    have h₂ := L.add_le_of_dvd_of_lt (Nat.dvd_add hsp (Nat.dvd_refl _)) hep (by omega)
    omega

/-- The range that `releaseHeaderPages` frees, as a condition on page
addresses: the pages on which the header is alone. -/
theorem headerAlone_iff {L : Layout} {prev c a : ℕ} {next : Option ℕ} (ha : L.pageSize ∣ a)
    (hprev : prev + L.headerSize ≤ c) (hnext : ∀ n ∈ next, c + L.headerSize ≤ n) :
    headerAlone L prev c next a ↔
      (a = bufferStartPage L c ∨ a = bufferEndPage L c) ∧ bufferEndPage L prev ≠ a ∧
        next.map (bufferStartPage L) ≠ some a := by
  have hH := L.eight_le_headerSize
  have hP := L.two_mul_headerSize_lt
  have hstart : bufferStartPage L c = a ↔ _ := L.pageMask_eq_iff ha
  have hend : bufferEndPage L c = a ↔ _ := L.pageMask_eq_iff ha
  have hpend : bufferEndPage L prev = a ↔ _ := L.pageMask_eq_iff ha
  have hnstart : next.map (bufferStartPage L) = some a ↔
      ∃ n ∈ next, a ≤ n ∧ n < a + L.pageSize := by
    simp only [Option.map_eq_some_iff, Option.mem_def]
    exact exists_congr fun n => and_congr_right fun _ => L.pageMask_eq_iff ha
  rw [Ne, Ne, hpend, hnstart, eq_comm (a := a), eq_comm (a := a), hstart, hend, headerAlone]
  constructor
  · rintro ⟨h₁, h₂, h₃, h₄⟩
    refine ⟨by omega, by omega, ?_⟩
    rintro ⟨n, hn, hlow, hup⟩
    have := h₄ n hn
    omega
  · rintro ⟨h₁, h₂, h₃⟩
    refine ⟨by omega, by omega, by omega, fun n hn => ?_⟩
    have := hnext n hn
    by_contra hlt
    exact h₃ ⟨n, hn, by omega, by omega⟩

/-- `releaseHeaderPages` gives back exactly the pages on which the header was
alone. -/
theorem releaseHeaderPages_ok {L : Layout} {ar : Area} {prev c : ℕ} {next : Option ℕ}
    (hbase : L.pageSize ∣ ar.buffer) (hlow : ar.buffer ≤ c)
    (hprev : prev + L.headerSize ≤ c) (hnext : ∀ n ∈ next, c + L.headerSize ≤ n)
    (hmapped : ∀ i, headerAlone L prev c next (ar.buffer + i * L.pageSize) → ar.pages i = true) :
    ∃ ps, releaseHeaderPages L ar prev c next = .ok { ar with pages := ps } ∧
      ∀ i, ps i = true ↔ ar.pages i = true ∧
        ¬ headerAlone L prev c next (ar.buffer + i * L.pageSize) := by
  have hP := L.pageSize_pos
  have hpage : ∀ i, L.pageSize ∣ ar.buffer + i * L.pageSize :=
    fun i => Nat.dvd_add hbase ⟨i, Nat.mul_comm _ _⟩
  have hiff := fun i => headerAlone_iff (hpage i) hprev hnext
  simp only [hiff] at hmapped ⊢
  have hsp : L.pageSize ∣ bufferStartPage L c := L.dvd_pageMask _
  have hep : L.pageSize ∣ bufferEndPage L c := L.dvd_pageMask _
  have hpp : L.pageSize ∣ bufferEndPage L prev := L.dvd_pageMask _
  have hs := (L.pageMask_eq_iff hsp (x := c)).mp rfl
  have hbase' : ar.buffer ≤ bufferStartPage L c := by
    by_contra hlt
    have := L.add_le_of_dvd_of_lt hsp hbase (by omega)
    omega
  have hcase := L.endPage_cases c
  have hpps : bufferEndPage L prev ≤ bufferStartPage L c := L.pageMask_mono (by omega)
  have hnp : ∀ n ∈ next.map (bufferStartPage L), bufferEndPage L c ≤ n := by
    intro n hn
    obtain ⟨m, hm, rfl⟩ := Option.map_eq_some_iff.mp hn
    have := hnext m hm
    exact L.pageMask_mono (by omega)
  unfold releaseHeaderPages
  generalize bufferStartPage L c = sp at *
  generalize bufferEndPage L c = ep at *
  generalize bufferEndPage L prev = pp at *
  generalize next.map (bufferStartPage L) = np at *
  have hnp' : ∀ n, np = some n → ep ≤ n := fun n hn => hnp n hn
  -- The four settings of the two flags, for a header on one page and on two.
  have hrange : ∀ a, L.pageSize ∣ a → ∀ fs fe : Prop, [Decidable fs] → [Decidable fe] →
      (fs ↔ pp ≠ sp ∧ ¬ (np = some ep ∧ np = some sp)) →
      (fe ↔ ¬ (pp = sp ∧ pp = ep) ∧ np ≠ some ep) → (fs ∨ fe) →
      (((if fs then sp else ep) ≤ a ∧ a < (if fe then ep else sp) + L.pageSize) ↔
        (a = sp ∨ a = ep) ∧ pp ≠ a ∧ np ≠ some a) := by
    intro a ha fs fe _ _ hfs hfe hor
    have h₁ : a < sp → a + L.pageSize ≤ sp := L.add_le_of_dvd_of_lt ha hsp
    have h₂ : sp < a → sp + L.pageSize ≤ a := L.add_le_of_dvd_of_lt hsp ha
    have h₃ : ep < a → ep + L.pageSize ≤ a := L.add_le_of_dvd_of_lt hep ha
    have hnsp := hnp' sp
    rcases hcase with rfl | rfl
    · have : fs ↔ fe := by rw [hfs, hfe]; grind
      grind
    · grind
  dsimp only
  split
  · rename_i hfree
    have hin := fun i => hrange _ (hpage i) _ _ Iff.rfl Iff.rfl hfree
    obtain ⟨ok, ps, hps, hpages⟩ := binderUpdatePageRange_free (L := L)
      hbase (by split_ifs <;> assumption)
      (Nat.dvd_add (by split_ifs <;> assumption) (Nat.dvd_refl _))
      (by split_ifs <;> omega) (fun i hi => hmapped i ((hin i).mp hi))
    refine ⟨ps, by rw [hps]; rfl, fun i => ?_⟩
    rw [hpages i, pageIn, hin i]
  · rename_i hfree
    refine ⟨ar.pages, rfl, fun i => ?_⟩
    have : ¬ ((ar.buffer + i * L.pageSize = sp ∨ ar.buffer + i * L.pageSize = ep) ∧
        pp ≠ ar.buffer + i * L.pageSize ∧ np ≠ some (ar.buffer + i * L.pageSize)) := by
      have hnsp := hnp' sp
      rcases hcase with rfl | rfl <;> grind
    simp [this]

end Driver

end BinderForLinux
