import BinderForLinux.Driver.Alloc.Budget

/-!
# Best fit

`binder_alloc_buf` returns `NULL`, and leaves everything as it was, in five cases. Otherwise it
takes a smallest one of the free buffers that are large enough.
-/

namespace BinderForLinux

namespace Driver

open Library

section BestFit

variable {L : Layout} {ar ar' : Area} {env : PageEnv} {d o size start stop : ℕ}
variable {isAsync : Bool}

/-! ### Mapping pages -/

def CannotMap (L : Layout) (ar : Area) (env : PageEnv) (start stop : ℕ) : Prop :=
  start < stop ∧ (env.mm = false ∨ ∃ i, pageIn L ar start stop i ∧ env.page i = false)

theorem allocPages_had {first k n : ℕ} {pages ps : ℕ → Bool} {ok : Bool}
    (hrun : allocPages env first k n pages = .ok (ok, ps)) :
    ok = true ↔ ∀ i, first + k ≤ i → i < first + k + n → env.page i = true := by
  induction n generalizing k pages with
  | zero =>
      cases hrun
      exact iff_of_true rfl fun i h₁ h₂ => by omega
  | succ n ih =>
      rw [allocPages] at hrun
      split at hrun
      · cases hrun
      split at hrun
      · rename_i hpage
        refine (ih hrun).trans ⟨fun hall i h₁ h₂ => ?_, fun hall i h₁ h₂ => ?_⟩
        · rcases Nat.eq_or_lt_of_le h₁ with rfl | hlt
          · exact hpage
          · exact hall i (by omega) (by omega)
        · exact hall i (by omega) (by omega)
      · rename_i hpage
        cases hfree : freePages first k pages with
        | error e =>
            rw [hfree] at hrun
            cases hrun
        | ok ps' =>
            rw [hfree] at hrun
            cases hrun
            exact iff_of_false Bool.false_ne_true fun hall =>
              hpage (hall (first + k) le_rfl (by omega))

theorem binderUpdatePageRange_had {r : Bool × Area} (hbase : L.pageSize ∣ ar.buffer)
    (hstart : L.pageSize ∣ start) (hstop : L.pageSize ∣ stop) (hle : ar.buffer ≤ start)
    (hrun : binderUpdatePageRange L ar true start stop env = .ok r) :
    r.1 = false ↔ CannotMap L ar env start stop := by
  unfold binderUpdatePageRange at hrun
  dsimp only at hrun
  by_cases hlt : start < stop
  · have hiff := pageRange_iff (L := L) hbase hstart hstop hle hlt
    rw [if_neg (not_le.mpr hlt), if_pos rfl] at hrun
    by_cases hmm : env.mm = true
    · rw [if_pos hmm] at hrun
      cases halloc : allocPages env ((start - ar.buffer) / L.pageSize) 0
          ((stop - start) / L.pageSize) ar.pages with
      | error e =>
          rw [halloc] at hrun
          cases hrun
      | ok r' =>
          obtain ⟨ok, ps⟩ := r'
          have hhad := allocPages_had halloc
          rw [halloc] at hrun
          cases hrun
          change ok = false ↔ _
          rw [← Bool.not_eq_true, hhad]
          refine ⟨fun hnot => ⟨hlt, .inr ?_⟩, fun hcannot hall => ?_⟩
          · push Not at hnot
            obtain ⟨i, h₁, h₂, hpage⟩ := hnot
            exact ⟨i, (hiff i).mp ⟨h₁, h₂⟩, by simpa using hpage⟩
          · rcases hcannot.2 with hno | ⟨i, hin, hpage⟩
            · rw [hmm] at hno
              cases hno
            · obtain ⟨h₁, h₂⟩ := (hiff i).mpr hin
              rw [hall i h₁ h₂] at hpage
              cases hpage
    · rw [if_neg hmm] at hrun
      cases hrun
      exact iff_of_true rfl ⟨hlt, .inl (by simpa using hmm)⟩
  · rw [if_pos (not_lt.mp hlt)] at hrun
    cases hrun
    exact iff_of_false Bool.true_eq_false.mp fun hcannot => hlt hcannot.1

/-! ### The free buffers -/

def alignedSize (d o : ℕ) : ℕ := exactAlign d + exactAlign o

theorem requestSize_eq_alignedSize (hsize : alignedSize d o < 2 ^ 64) :
    requestSize d o = alignedSize d o := by
  have hle (x : ℕ) (hx : exactAlign x < 2 ^ 64) : x ≤ 2 ^ 64 - 8 := by
    unfold exactAlign at hx
    omega
  unfold alignedSize at hsize ⊢
  rw [requestSize, ptrAlign_of_le (hle d (by omega)), ptrAlign_of_le (hle o (by omega)),
    Nat.mod_eq_of_lt hsize]

/-- The free buffer at `a` is a smallest one of at least this size. -/
def IsBestFit (L : Layout) (ar : Area) (size a : ℕ) : Prop :=
  (∃ b ∈ ar.buffers, b.free = true ∧ b.addr = a) ∧ size ≤ binderBufferSize L ar a ∧
    ∀ c ∈ ar.buffers, c.free = true → size ≤ binderBufferSize L ar c.addr →
      binderBufferSize L ar a ≤ binderBufferSize L ar c.addr

theorem binderBestFit_minimal (h : ar.Shaped L) (size : ℕ) :
    (binderBestFit L ar size = .ok (none, false) ∧
      ∀ b ∈ ar.buffers, b.free = true → binderBufferSize L ar b.addr < size) ∨
    ∃ a exact, binderBestFit L ar size = .ok (some a, exact) ∧ IsBestFit L ar size a := by
  have hfree (a : ℕ) : a ∈ ar.freeBuffers.toList ↔ ∃ b ∈ ar.buffers, b.free = true ∧ b.addr = a :=
    h.freePerm.mem_iff.trans mem_freeAddrs
  have hcmp : ∀ a ∈ ar.freeBuffers.toList,
      (if ar.isFree a then (.ok (compare size (binderBufferSize L ar a)) : Except Fault Ordering)
        else .error (.bug .allocBuf)) = .ok (compare size (binderBufferSize L ar a)) := by
    intro a ha
    obtain ⟨b, hb, hbf, rfl⟩ := (hfree a).mp ha
    simp [h.isFree_eq hb, hbf]
  rcases SearchTree.bestFit_ordered hcmp h.freeOrdered none with
    ⟨hnone, hsmall⟩ | ⟨a, exact, hsome, ha, hle, -, hmin⟩
  · exact .inl ⟨hnone, fun b hb hbf => hsmall b.addr ((hfree _).mpr ⟨b, hb, hbf, rfl⟩)⟩
  · exact .inr ⟨a, exact, hsome, (hfree a).mp ha, hle, fun c hc hcf =>
      hmin c.addr ((hfree _).mpr ⟨c, hc, hcf, rfl⟩)⟩

/-- What is used of the free buffer at `a` for `size` bytes, with the header of the rest. -/
def usedSize (L : Layout) (ar : Area) (size a : ℕ) (exact : Bool) : ℕ :=
  if exact then binderBufferSize L ar a
  else if size + L.headerSize + 4 ≥ binderBufferSize L ar a then size
  else size + L.headerSize

/-- Where the pages end that are mapped for it. -/
def endPage (L : Layout) (ar : Area) (size a : ℕ) (exact : Bool) : ℕ :=
  min (L.pageAlign (a + L.headerSize + usedSize L ar size a exact))
    (L.pageMask (a + L.headerSize + binderBufferSize L ar a))

/-- The buffer where the walk ends cannot be mapped. -/
def MappingFails (L : Layout) (ar : Area) (env : PageEnv) (size : ℕ) : Prop :=
  ∃ a exact, binderBestFit L ar size = .ok (some a, exact) ∧
    CannotMap L ar env (L.pageAlign (a + L.headerSize)) (endPage L ar size a exact)

/-! ### `binder_alloc_buf` -/

/-- The cases in which there is no buffer. -/
inductive Refuses (L : Layout) (ar : Area) (d o : ℕ) (isAsync : Bool) (env : PageEnv) : Prop
  | noVma (h : ar.vma = false)
  | overflow (h : 2 ^ 64 ≤ alignedSize d o)
  | noAsyncSpace (hasync : isAsync = true)
      (h : ar.freeAsyncSpace < alignedSize d o + L.headerSize)
  | noAddressSpace
      (h : ∀ b ∈ ar.buffers, b.free = true → binderBufferSize L ar b.addr < alignedSize d o)
  | noPages (h : MappingFails L ar env (alignedSize d o))

/-- The checks of `binder_alloc_buf` before the walk. -/
structure PassesChecks (L : Layout) (ar : Area) (d o : ℕ) (isAsync : Bool) : Prop where
  vma : ar.vma = true
  size : ¬ (requestSize d o < d ∨ requestSize d o < o)
  space : ¬ (isAsync = true ∧ ar.freeAsyncSpace < (requestSize d o + L.headerSize) % 2 ^ 64)

theorem binderAllocBuf_fails (h : ¬ PassesChecks L ar d o isAsync) (env : PageEnv) :
    binderAllocBuf L ar d o isAsync env = .ok (none, ar) := by
  cases hvma : ar.vma with
  | false => simp [binderAllocBuf, hvma, pure, Except.pure]
  | true =>
      by_cases hsize : requestSize d o < d ∨ requestSize d o < o
      · exact binderAllocBuf_rejects isAsync env hsize
      · have hspace : (isAsync && decide
            (ar.freeAsyncSpace < (requestSize d o + L.headerSize) % 2 ^ 64)) = true := by
          by_contra hspace
          exact h ⟨hvma, hsize, fun hfull => hspace (by simpa using hfull)⟩
        simp only [binderAllocBuf, hvma, hspace]
        simp [hsize, pure, Except.pure]

theorem PassesChecks.small (h : PassesChecks L ar d o isAsync)
    (hfit : binderBestFit L ar (requestSize d o) = .ok (none, false)) (env : PageEnv) :
    binderAllocBuf L ar d o isAsync env = .ok (none, ar) := by
  have hspace : (isAsync && decide
      (ar.freeAsyncSpace < (requestSize d o + L.headerSize) % 2 ^ 64)) = false := by
    simpa only [← Bool.not_eq_true, Bool.and_eq_true, decide_eq_true_eq] using h.space
  simp only [binderAllocBuf, h.vma, hfit, hspace]
  simp [h.size, pure, Except.pure, bind, Except.bind]

theorem PassesChecks.run (h : PassesChecks L ar d o isAsync) {a : ℕ} {exact : Bool}
    (hfit : binderBestFit L ar (requestSize d o) = .ok (some a, exact)) (env : PageEnv) :
    binderAllocBuf L ar d o isAsync env =
      (binderUpdatePageRange L ar true (L.pageAlign (a + L.headerSize))
        (endPage L ar (requestSize d o) a exact) env).bind fun r =>
          if r.1 then
            (takeBuffer L r.2 a (requestSize d o)
              (usedSize L ar (requestSize d o) a exact ≠ requestSize d o) d o isAsync).map
                fun ar' => (some a, ar')
          else .ok (none, r.2) := by
  have hspace : (isAsync && decide
      (ar.freeAsyncSpace < (requestSize d o + L.headerSize) % 2 ^ 64)) = false := by
    simpa only [← Bool.not_eq_true, Bool.and_eq_true, decide_eq_true_eq] using h.space
  have hsize := not_or.mp h.size
  simp only [binderAllocBuf, h.vma, hfit, Bool.not_true, Bool.false_eq_true, ↓reduceIte,
    Bool.or_eq_true, decide_eq_true_eq, hsize.1, hsize.2, or_self, hspace]
  change (binderUpdatePageRange L ar true (L.pageAlign (a + L.headerSize))
    (endPage L ar (requestSize d o) a exact) env).bind _ = _
  cases binderUpdatePageRange L ar true (L.pageAlign (a + L.headerSize))
      (endPage L ar (requestSize d o) a exact) env with
  | error e => rfl
  | ok r =>
      obtain ⟨mapped, ar₁⟩ := r
      cases mapped with
      | false => rfl
      | true =>
          change (takeBuffer L ar₁ a (requestSize d o)
            (usedSize L ar (requestSize d o) a exact ≠ requestSize d o) d o isAsync).bind _ =
              (takeBuffer L ar₁ a (requestSize d o)
                (usedSize L ar (requestSize d o) a exact ≠ requestSize d o) d o isAsync).map _
          cases takeBuffer L ar₁ a (requestSize d o)
              (usedSize L ar (requestSize d o) a exact ≠ requestSize d o) d o isAsync with
          | error e => rfl
          | ok ar' => rfl

theorem Area.Shaped.bufferSize_le (h : ar.Shaped L) {b : Buffer} (hb : b ∈ ar.buffers) :
    binderBufferSize L ar b.addr + L.headerSize ≤ ar.bufferSize := by
  obtain ⟨pre, post, hbs, hcut⟩ := h.exists_cut hb
  obtain ⟨hpre, -, hlow, hpost⟩ := tiles_append_cons.mp (hbs ▸ h.tiles)
  rw [binderBufferSize, bufferEnd_of_cut hcut hbs]
  have := hpre.le
  have := hpost.le
  omega

/-- `binder_alloc_buf` returns `NULL` without a trace in the five cases, and in no other; else it
returns a best fit. -/
theorem binderAllocBuf_bestFit (h : ar.Sound L) (hbounded : ar.bufferSize ≤ 0x400000)
    (hd : d < 2 ^ 64) (ho : o < 2 ^ 64) (isAsync : Bool) (env : PageEnv) :
    (Refuses L ar d o isAsync env ∧ binderAllocBuf L ar d o isAsync env = .ok (none, ar)) ∨
      ¬ Refuses L ar d o isAsync env ∧ ∃ a ar',
        binderAllocBuf L ar d o isAsync env = .ok (some a, ar') ∧
          IsBestFit L ar (alignedSize d o) a := by
  have hiff := requestSize_lt_iff hd ho
  by_cases hsize : 2 ^ 64 ≤ alignedSize d o
  · exact .inl ⟨.overflow hsize, binderAllocBuf_rejects isAsync env (hiff.mpr hsize)⟩
  have hreq := requestSize_eq_alignedSize (not_le.mp hsize)
  by_cases hpass : PassesChecks L ar d o isAsync
  swap
  · refine .inl ⟨?_, binderAllocBuf_fails hpass env⟩
    by_contra hno
    refine hpass ⟨?_, fun hlt => hsize (hiff.mp hlt), fun hspace => ?_⟩
    · by_contra hvma
      exact hno (.noVma (by simpa using hvma))
    · have hmod := Nat.mod_le (requestSize d o + L.headerSize) (2 ^ 64)
      exact hno (.noAsyncSpace hspace.1 (by omega))
  rcases binderBestFit_minimal h.toShaped (alignedSize d o) with
    ⟨hfit, hsmall⟩ | ⟨a, exact, hfit, hbest⟩
  · rw [← hreq] at hfit
    exact .inl ⟨.noAddressSpace hsmall, hpass.small hfit env⟩
  have hrun := hpass.run (hreq ▸ hfit) env
  rw [hreq] at hrun
  obtain ⟨b, hb, hbf, rfl⟩ := hbest.1
  have hle := hbest.2.1
  have hin := h.toShaped.bufferSize_le hb
  -- There is a buffer as large as the request, so that its charge does not wrap.
  have hcharge : alignedSize d o + L.headerSize < 2 ^ 64 := by omega
  have hstart : ar.buffer ≤ L.pageAlign (b.addr + L.headerSize) := by
    obtain ⟨pre, post, hbs, hcut⟩ := h.exists_cut hb
    obtain ⟨hpre, -, hlow, -⟩ := tiles_append_cons.mp (hbs ▸ h.tiles)
    have := hpre.le
    exact le_trans (by omega) (L.le_pageAlign _)
  have hstop : L.pageSize ∣ endPage L ar (alignedSize d o) b.addr exact := by
    unfold endPage
    rw [min_def]
    split
    · exact L.dvd_pageAlign _
    · exact L.dvd_pageMask _
  cases hup : binderUpdatePageRange L ar true (L.pageAlign (b.addr + L.headerSize))
      (endPage L ar (alignedSize d o) b.addr exact) env with
  | error e =>
      rw [hup] at hrun
      rcases binderAllocBuf_ok h d o isAsync env with hok | ⟨ar', pre, b', post, rest, hok, -⟩
      · rw [hok] at hrun
        cases hrun
      · rw [hok] at hrun
        cases hrun
  | ok r =>
      have hhad := binderUpdatePageRange_had h.aligned.buffer (L.dvd_pageAlign _) hstop hstart hup
      rw [hup] at hrun
      cases hr : r.1 with
      | false =>
          left
          refine ⟨.noPages ⟨b.addr, exact, hfit, hhad.mp hr⟩, ?_⟩
          rcases binderAllocBuf_ok h d o isAsync env with hok | ⟨ar', pre, b', post, rest, hok, -⟩
          · exact hok
          · rw [hok] at hrun
            change _ = ite _ _ _ at hrun
            rw [hr] at hrun
            cases hrun
      | true =>
          right
          have hmapped : ¬ CannotMap L ar env (L.pageAlign (b.addr + L.headerSize))
              (endPage L ar (alignedSize d o) b.addr exact) := fun hcannot => by
            rw [hhad.mpr hcannot] at hr
            cases hr
          refine ⟨fun href => ?_, ?_⟩
          · cases href with
            | noVma hno =>
                rw [hpass.vma] at hno
                cases hno
            | overflow hno => exact hsize hno
            | noAsyncSpace hasync hno =>
                refine hpass.space ⟨hasync, ?_⟩
                rwa [hreq, Nat.mod_eq_of_lt hcharge]
            | noAddressSpace hno =>
                exact absurd (hno b hb hbf) (not_lt.mpr hle)
            | noPages hno =>
                obtain ⟨a', exact', hfit', hcannot⟩ := hno
                rw [hfit] at hfit'
                cases hfit'
                exact hmapped hcannot
          · change _ = ite _ _ _ at hrun
            rw [hr] at hrun
            rw [if_pos rfl] at hrun
            cases htake : takeBuffer L r.2 b.addr (alignedSize d o)
                (usedSize L ar (alignedSize d o) b.addr exact ≠ alignedSize d o) d o isAsync with
            | error e =>
                rw [htake] at hrun
                rcases binderAllocBuf_ok h d o isAsync env with
                  hok | ⟨ar', pre, b', post, rest, hok, -⟩
                · rw [hok] at hrun
                  cases hrun
                · rw [hok] at hrun
                  cases hrun
            | ok ar' =>
                rw [htake] at hrun
                exact ⟨b.addr, ar', hrun, hbest⟩

/-- A request in an area after some calls. -/
theorem binderAllocBuf_bestFit_sample : ∃ ar a ar',
    runChecked (areaStep Layout.x86) (fun ar act => act.admitted ar) sampleArea sampleActs =
      some ar ∧
    binderAllocBuf Layout.x86 ar 100 8 false PageEnv.unused = .ok (some a, ar') ∧
      IsBestFit Layout.x86 ar (alignedSize 100 8) a := by
  obtain ⟨ar, har, hsome⟩ := Option.map_eq_some_iff.mp
    (show (runChecked (areaStep Layout.x86) (fun ar act => act.admitted ar) sampleArea
        sampleActs).map (fun ar => ((binderAllocBuf Layout.x86 ar 100 8 false
          PageEnv.unused).toOption.bind Prod.fst).isSome) = some true by decide)
  have hbudgeted := (@budgeted_of_reach Layout.x86 ar 4096 16384 0 PageEnv.unused _ (by decide)
    (by decide) (by decide) (by decide) rfl (reach_of_runChecked har)).1
  rcases binderAllocBuf_bestFit hbudgeted.toSound hbudgeted.bounded (d := 100) (o := 8) (by decide)
    (by decide) false PageEnv.unused with ⟨-, hnone⟩ | ⟨-, a, ar', hrun, hbest⟩
  · rw [hnone] at hsome
    cases hsome
  · exact ⟨ar, a, ar', har, hrun, hbest⟩

end BestFit

end Driver

end BinderForLinux
