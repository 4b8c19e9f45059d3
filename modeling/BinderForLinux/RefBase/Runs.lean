import BinderForLinux.RefBase.Counts

/-!
# Interleavings of the reference counts

`incStrong` takes the first reference in two steps: it counts the reference, and if the count
was `INITIAL_STRONG_VALUE` it takes that value away. The last loop of `attemptIncStrong` takes
the same value away from any count that still contains it. Both may do so for one object, and
the count is then negative. Where no thread takes the value away in that loop while an
`incStrong` still has to, and the references stay below `INITIAL_STRONG_VALUE`, the counts are
exact in every interleaving.
-/

namespace BinderForLinux

namespace RefBase

open Library

variable {n : ℕ}

/-- What the callers keep to: a thread drops only references it holds, promotes only with a
reference of its own, and takes a reference only while there is one or for the first time. -/
def Allowed (s : State n) : Act n → Prop
  | .call _ .incStrong =>
      (0 < weakRefs s.threads ∨ s.everWeak = false) ∧
        (0 < strongRefs s.threads ∨ s.everStrong = false)
  | .call t .decStrong => 0 < (s.threads t).strong
  | .call t .attemptIncStrong => 0 < (s.threads t).strong + (s.threads t).weak
  | .call _ .incWeak => 0 < weakRefs s.threads ∨ s.everWeak = false
  | .call t .decWeak => 0 < (s.threads t).weak
  | .next t =>
      (s.threads t).pc = .incStrong → 0 < strongRefs s.threads ∨ s.everStrong = false

instance (s : State n) : (a : Act n) → Decidable (Allowed s a)
  | .call _ .incStrong => inferInstanceAs (Decidable (_ ∧ _))
  | .call _ .decStrong => inferInstanceAs (Decidable (_ < _))
  | .call _ .attemptIncStrong => inferInstanceAs (Decidable (_ < _))
  | .call _ .incWeak => inferInstanceAs (Decidable (_ ∨ _))
  | .call _ .decWeak => inferInstanceAs (Decidable (_ < _))
  | .next _ => inferInstanceAs (Decidable (_ → _))

def Op.raisesWeak : Op → Bool
  | .incStrong => true
  | .attemptIncStrong => true
  | .incWeak => true
  | .decStrong => false
  | .decWeak => false

def Pc.raisesStrong (mStrong : ℤ) : Pc → Bool
  | .incStrong => true
  | .attemptCas curCount => mStrong = curCount
  | .promoteCas curCount => mStrong = curCount
  | _ => false

/-- The next step is a compare-and-swap that takes `INITIAL_STRONG_VALUE` away: one that finds
another count leaves it alone. -/
def Pc.takesAway (mStrong : ℤ) : Pc → Bool
  | .fixUpCas curCount => mStrong = curCount
  | _ => false

/-- No thread takes `INITIAL_STRONG_VALUE` away in `attemptIncStrong` while an `incStrong`
has yet to do it, and the references stay within what the two counters can tell. -/
def Unraced (s : State n) : Act n → Prop
  | .call _ op => op.raisesWeak → weakRefs s.threads + 1 < 2 ^ 31
  | .next t =>
      ((s.threads t).pc.raisesStrong s.mStrong → strongRefs s.threads + 1 < 2 ^ 28) ∧
        ((s.threads t).pc.takesAway s.mStrong → owing s.threads = 0)

instance (s : State n) : (a : Act n) → Decidable (Unraced s a)
  | .call _ _ => inferInstanceAs (Decidable (_ → _))
  | .next _ => inferInstanceAs (Decidable (_ ∧ _))

/-! ### The invariant -/

/-- What the local `curCount` of a thread is known to be. -/
def Pc.Ok : Pc → Prop
  | .attemptCas c => 0 < c ∧ c ≠ initialStrongValue
  | .promoteCas c => 0 < c
  | .fixUpCas c => initialStrongValue ≤ c
  | _ => True

/-- There never was a strong reference. -/
structure Fresh (s : State n) : Prop where
  ever : s.everStrong = false
  count : s.mStrong = initialStrongValue
  none : strongRefs s.threads = 0
  ending : endingStrong s.threads = 0
  gone : s.everWeak = true → weakRefs s.threads = 0 → s.destroyed + endingWeak s.threads = 1
  alive : (s.everWeak = true → 0 < weakRefs s.threads) →
    s.destroyed = 0 ∧ endingWeak s.threads = 0

/-- The first strong references are counted on top of `INITIAL_STRONG_VALUE`. -/
structure Biased (s : State n) : Prop where
  ever : s.everStrong = true
  count : s.mStrong = initialStrongValue + strongRefs s.threads
  ending : endingStrong s.threads = 0
  alive : s.destroyed = 0
  owing_le : owing s.threads ≤ 1
  pos : 0 < owing s.threads + fixing s.threads

/-- The strong count is the number of strong references. -/
structure Settled (s : State n) : Prop where
  ever : s.everStrong = true
  count : s.mStrong = strongRefs s.threads
  owing : owing s.threads = 0
  gone : strongRefs s.threads = 0 → s.destroyed + endingStrong s.threads = 1
  alive : 0 < strongRefs s.threads → s.destroyed = 0 ∧ endingStrong s.threads = 0

structure Inv (s : State n) : Prop where
  weak : s.mWeak = weakRefs s.threads
  weak_lt : weakRefs s.threads < 2 ^ 31
  strong_lt : strongRefs s.threads < 2 ^ 28
  ever : 0 < weakRefs s.threads → s.everWeak = true
  locals : ∀ t, (s.threads t).pc.Ok
  phase : Fresh s ∨ Biased s ∨ Settled s

/-! ### One thread moves -/

theorem androidAtomicAdd_eq {d v : ℤ} (hle : -2 ^ 31 ≤ v + d) (hlt : v + d < 2 ^ 31) :
    androidAtomicAdd d v = v + d := by
  unfold androidAtomicAdd
  exact Int.bmod_eq_of_le_mul_two (by omega) (by omega)

/-- How the sums change when one thread turns from `a` into `b`. -/
structure Moved (ths ths' : Fin n → Thread) (a b : Thread) : Prop where
  held : held ths' + a.strong = held ths + b.strong
  owing : owing ths' + a.pc.owes = owing ths + b.pc.owes
  fixing : fixing ths' + a.pc.fixes = fixing ths + b.pc.fixes
  endingStrong : endingStrong ths' + a.pc.endsStrong = endingStrong ths + b.pc.endsStrong
  endingWeak : endingWeak ths' + a.pc.endsWeak = endingWeak ths + b.pc.endsWeak
  weakRefs : weakRefs ths' + (a.strong + a.weak + a.pc.weak) =
    weakRefs ths + (b.strong + b.weak + b.pc.weak)
  held_le : a.strong ≤ RefBase.held ths
  owing_le : a.pc.owes ≤ RefBase.owing ths
  fixing_le : a.pc.fixes ≤ RefBase.fixing ths
  endingStrong_le : a.pc.endsStrong ≤ RefBase.endingStrong ths
  endingWeak_le : a.pc.endsWeak ≤ RefBase.endingWeak ths
  weakRefs_le : a.strong + a.weak + a.pc.weak ≤ RefBase.weakRefs ths

theorem moved_update (ths : Fin n → Thread) (t : Fin n) (th : Thread) :
    Moved ths (Function.update ths t th) (ths t) th where
  held := total_update ths t th _
  owing := total_update ths t th _
  fixing := total_update ths t th _
  endingStrong := total_update ths t th _
  endingWeak := total_update ths t th _
  weakRefs := total_update ths t th fun th => th.strong + th.weak + th.pc.weak
  held_le := le_total ths t Thread.strong
  owing_le := le_total ths t fun th => th.pc.owes
  fixing_le := le_total ths t fun th => th.pc.fixes
  endingStrong_le := le_total ths t fun th => th.pc.endsStrong
  endingWeak_le := le_total ths t fun th => th.pc.endsWeak
  weakRefs_le := le_total ths t fun th => th.strong + th.weak + th.pc.weak

theorem locals_update {ths : Fin n → Thread} {t : Fin n} {th : Thread}
    (h : ∀ u, (ths u).pc.Ok) (hth : th.pc.Ok) (u : Fin n) :
    (Function.update ths t th u).pc.Ok := by
  by_cases hu : u = t
  · subst hu
    simpa using hth
  · rw [Function.update_of_ne hu]
    exact h u

/-- A point at which the strong count and the end of the object do not depend on the thread. -/
def Pc.Plain (p : Pc) : Prop :=
  p.owes = 0 ∧ p.fixes = 0 ∧ p.endsStrong = 0 ∧ p.endsWeak = 0

section Step

variable {s s' : State n} {t : Fin n}

theorem phase_of_same (h : Fresh s ∨ Biased s ∨ Settled s) (hstrong : s'.mStrong = s.mStrong)
    (hever : s'.everStrong = s.everStrong) (hdestroyed : s'.destroyed = s.destroyed)
    (hheld : held s'.threads = held s.threads) (howing : owing s'.threads = owing s.threads)
    (hfixing : fixing s'.threads = fixing s.threads)
    (hending : endingStrong s'.threads = endingStrong s.threads)
    (hfresh : Fresh s →
      (s'.everWeak = true → weakRefs s'.threads = 0 →
        s'.destroyed + endingWeak s'.threads = 1) ∧
      ((s'.everWeak = true → 0 < weakRefs s'.threads) →
        s'.destroyed = 0 ∧ endingWeak s'.threads = 0)) :
    Fresh s' ∨ Biased s' ∨ Settled s' := by
  have hrefs : strongRefs s'.threads = strongRefs s.threads := by
    simp only [strongRefs, hheld, howing, hfixing]
  rcases h with hp | hp | hp
  · exact .inl ⟨hever.trans hp.ever, hstrong.trans hp.count, hrefs.trans hp.none,
      hending.trans hp.ending, (hfresh hp).1, (hfresh hp).2⟩
  · refine .inr (.inl ⟨hever.trans hp.ever, ?_, hending.trans hp.ending,
      hdestroyed.trans hp.alive, howing.trans_le hp.owing_le, ?_⟩)
    · rw [hstrong, hrefs]
      exact hp.count
    · rw [howing, hfixing]
      exact hp.pos
  · refine .inr (.inr ⟨hever.trans hp.ever, ?_, howing.trans hp.owing, ?_, ?_⟩)
    · rw [hstrong, hrefs]
      exact hp.count
    · rw [hrefs, hdestroyed, hending]
      exact hp.gone
    · rw [hrefs, hdestroyed, hending]
      exact hp.alive

/-- A thread takes a weak reference, on its own or as the first step of a strong one. -/
theorem Inv.takesWeak (h : Inv s) {th : Thread} (hidle : (s.threads t).pc = .idle)
    (hth : th.pc.Ok) (hplain : th.pc.Plain) (hstrong : th.strong = (s.threads t).strong)
    (hweak : th.weak + th.pc.weak = (s.threads t).weak + 1)
    (hallowed : 0 < weakRefs s.threads ∨ s.everWeak = false)
    (hlt : weakRefs s.threads + 1 < 2 ^ 31) : Inv (s.incWeak.setThread t th) := by
  obtain ⟨h1, h2, h3, h4, h5, h6, -, -, -, -, -, -⟩ := moved_update s.threads t th
  obtain ⟨p1, p2, p3, p4⟩ := hplain
  rw [hidle] at h2 h3 h4 h5 h6
  have hpc : Pc.idle.owes = 0 ∧ Pc.idle.fixes = 0 ∧ Pc.idle.endsStrong = 0 ∧
      Pc.idle.endsWeak = 0 ∧ Pc.idle.weak = 0 := ⟨rfl, rfl, rfl, rfl, rfl⟩
  have hw := h.weak
  have hsl := h.strong_lt
  have hweak' : weakRefs (Function.update s.threads t th) = weakRefs s.threads + 1 := by omega
  refine ⟨?_, ?_, ?_, fun _ => rfl, locals_update h.locals hth, ?_⟩
  · simp only [State.incWeak, State.setThread]
    rw [androidAtomicAdd_eq (by omega) (by omega)]
    omega
  · simp only [State.incWeak, State.setThread]
    omega
  · simp only [State.incWeak, State.setThread, strongRefs] at hsl ⊢
    omega
  · refine phase_of_same h.phase rfl rfl rfl ?_ ?_ ?_ ?_ fun hp => ⟨?_, ?_⟩
    all_goals simp only [State.incWeak, State.setThread]
    · omega
    · omega
    · omega
    · omega
    · intro _ h0
      omega
    · intro _
      have halive := hp.alive fun he => by
        rcases hallowed with hpos | hno
        · exact hpos
        · rw [he] at hno
          cases hno
      omega

/-- A thread gives a weak reference up, its own or the one under a strong reference. -/
theorem Inv.dropsWeak (h : Inv s) {th : Thread} (hfrom : (s.threads t).pc.Plain)
    (hstrong : th.strong = (s.threads t).strong)
    (hweak : th.weak + 1 = (s.threads t).weak + (s.threads t).pc.weak) :
    Inv (s.decWeak t th) := by
  obtain ⟨pc, hpc⟩ : ∃ pc : Pc, pc = if s.mWeak = 1 then .lastWeak else .idle := ⟨_, rfl⟩
  have hzero : pc.owes = 0 ∧ pc.fixes = 0 ∧ pc.endsStrong = 0 ∧ pc.weak = 0 ∧ pc.Ok := by
    by_cases h1 : s.mWeak = 1 <;>
      simp [hpc, h1, Pc.owes, Pc.fixes, Pc.endsStrong, Pc.weak, Pc.Ok]
  have hlast : pc.endsWeak = if s.mWeak = 1 then 1 else 0 := by
    by_cases h1 : s.mWeak = 1 <;> simp [hpc, h1, Pc.endsWeak]
  have hlocals : ∀ u, (Function.update s.threads t { th with pc := pc } u).pc.Ok :=
    locals_update h.locals hzero.2.2.2.2
  obtain ⟨h1, h2, h3, h4, h5, h6, -, -, -, -, -, hle⟩ :=
    moved_update s.threads t { th with pc := pc }
  simp only at h1 h2 h3 h4 h5 h6
  obtain ⟨p1, p2, p3, p4⟩ := hfrom
  have hs : s.decWeak t th =
      { s with
        mWeak := androidAtomicAdd (-1) s.mWeak
        threads := Function.update s.threads t { th with pc := pc } } := by
    rw [hpc]
    rfl
  rw [hs]
  generalize Function.update s.threads t { th with pc := pc } = ths at *
  have hw := h.weak
  have hwl := h.weak_lt
  have hsl := h.strong_lt
  have hever : s.everWeak = true := h.ever (by omega)
  refine ⟨?_, ?_, ?_, fun _ => hever, hlocals, ?_⟩
  · rw [androidAtomicAdd_eq (by omega) (by omega)]
    simp only
    omega
  · simp only
    omega
  · simp only [strongRefs] at hsl ⊢
    omega
  · refine phase_of_same h.phase rfl rfl rfl ?_ ?_ ?_ ?_ fun hp => ⟨?_, ?_⟩ <;> simp only
    · omega
    · omega
    · omega
    · omega
    · intro _ h0
      have halive := hp.alive fun _ => by omega
      rw [if_pos (by omega)] at hlast
      omega
    · intro hpos
      have halive := hp.alive fun _ => by omega
      have hpos' := hpos hever
      rw [if_neg (by omega)] at hlast
      omega

theorem Inv.goTo (h : Inv s) {pc : Pc} (hok : pc.Ok) (howes : pc.owes = (s.threads t).pc.owes)
    (hfixes : pc.fixes = (s.threads t).pc.fixes)
    (hends : pc.endsStrong = (s.threads t).pc.endsStrong)
    (hendw : Fresh s → pc.endsWeak = (s.threads t).pc.endsWeak)
    (hweak : pc.weak = (s.threads t).pc.weak) : Inv (s.goTo t pc) := by
  have hlocals : ∀ u, (Function.update s.threads t { s.threads t with pc := pc } u).pc.Ok :=
    locals_update h.locals hok
  obtain ⟨h1, h2, h3, h4, h5, h6, -, -, -, -, -, -⟩ :=
    moved_update s.threads t { s.threads t with pc := pc }
  simp only at h1 h2 h3 h4 h5 h6
  have hs : s.goTo t pc =
      { s with threads := Function.update s.threads t { s.threads t with pc := pc } } := rfl
  rw [hs]
  generalize Function.update s.threads t { s.threads t with pc := pc } = ths at *
  have hweak' : weakRefs ths = weakRefs s.threads := by omega
  have hsl := h.strong_lt
  refine ⟨?_, ?_, ?_, ?_, hlocals, ?_⟩
  · rw [h.weak, hweak']
  · rw [hweak']
    exact h.weak_lt
  · simp only [strongRefs] at hsl ⊢
    omega
  · rw [hweak']
    exact h.ever
  · refine phase_of_same h.phase rfl rfl rfl ?_ ?_ ?_ ?_ fun hp => ?_ <;> simp only
    · omega
    · omega
    · omega
    · omega
    · have hend : endingWeak ths = endingWeak s.threads := by
        have := hendw hp
        omega
      rw [hweak', hend]
      exact ⟨hp.gone, hp.alive⟩

theorem Inv.frees (h : Inv s) (k : ℕ) : Inv { s with freed := k } :=
  ⟨h.weak, h.weak_lt, h.strong_lt, h.ever, h.locals,
    phase_of_same h.phase rfl rfl rfl rfl rfl rfl rfl fun hp => ⟨hp.gone, hp.alive⟩⟩

theorem Inv.decStrong (h : Inv s) (hidle : (s.threads t).pc = .idle)
    (hpos : 0 < (s.threads t).strong) : Inv (s.call t .decStrong) := by
  obtain ⟨pc, hpc⟩ : ∃ pc : Pc, pc = if s.mStrong = 1 then .lastStrong else .decWeak := ⟨_, rfl⟩
  have hzero : pc.owes = 0 ∧ pc.fixes = 0 ∧ pc.endsWeak = 0 ∧ pc.weak = 1 ∧ pc.Ok := by
    by_cases h1 : s.mStrong = 1 <;>
      simp [hpc, h1, Pc.owes, Pc.fixes, Pc.endsWeak, Pc.weak, Pc.Ok]
  have hlast : pc.endsStrong = if s.mStrong = 1 then 1 else 0 := by
    by_cases h1 : s.mStrong = 1 <;> simp [hpc, h1, Pc.endsStrong]
  obtain ⟨th, hth⟩ : ∃ th : Thread,
      th = { s.threads t with strong := (s.threads t).strong - 1, pc := pc } := ⟨_, rfl⟩
  have hlocals : ∀ u, (Function.update s.threads t th u).pc.Ok :=
    locals_update h.locals (by rw [hth]; exact hzero.2.2.2.2)
  obtain ⟨h1, h2, h3, h4, h5, h6, hle, -, -, -, -, -⟩ := moved_update s.threads t th
  have hidle' : Pc.idle.owes = 0 ∧ Pc.idle.fixes = 0 ∧ Pc.idle.endsStrong = 0 ∧
      Pc.idle.endsWeak = 0 ∧ Pc.idle.weak = 0 := ⟨rfl, rfl, rfl, rfl, rfl⟩
  have hs : s.call t .decStrong =
      { s with
        mStrong := androidAtomicAdd (-1) s.mStrong
        threads := Function.update s.threads t th } := by
    rw [hth, hpc]
    rfl
  rw [hs]
  generalize Function.update s.threads t th = ths at *
  simp only [hidle, hth] at h1 h2 h3 h4 h5 h6
  have hw := h.weak
  have hwl := h.weak_lt
  have hsl := h.strong_lt
  simp only [strongRefs] at hsl
  have hweak : weakRefs ths = weakRefs s.threads := by omega
  refine ⟨?_, ?_, ?_, ?_, hlocals, ?_⟩
  · rw [hw, hweak]
  · rw [hweak]
    exact hwl
  · simp only [strongRefs]
    omega
  · rw [hweak]
    exact h.ever
  · rcases h.phase with hp | hp | hp
    · have := hp.none
      simp only [strongRefs] at this
      omega
    · -- `INITIAL_STRONG_VALUE` is still in the count, and so is the thread that will take it away.
      obtain ⟨he, hc, hen, ha, ho, hpo⟩ := hp
      simp only [strongRefs, initialStrongValue] at hc
      rw [if_neg (by omega)] at hlast
      refine .inr (.inl ⟨he, ?_, ?_, ha, ?_, ?_⟩) <;> simp only [strongRefs, initialStrongValue]
      · rw [androidAtomicAdd_eq (by omega) (by omega)]
        omega
      · omega
      · omega
      · omega
    · obtain ⟨he, hc, ho, hg, ha⟩ := hp
      have halive := ha (by simp only [strongRefs]; omega)
      simp only [strongRefs] at hc
      refine .inr (.inr ⟨he, ?_, ?_, ?_, ?_⟩) <;> simp only [strongRefs]
      · rw [androidAtomicAdd_eq (by omega) (by omega)]
        omega
      · omega
      · intro h0
        rw [if_pos (by omega)] at hlast
        omega
      · intro h0
        rw [if_neg (by omega)] at hlast
        omega

/-- One more strong reference is counted, by `incStrong` or by `attemptIncStrong`. The first
one of the object is counted by a thread that is going to take `INITIAL_STRONG_VALUE` away. -/
theorem Inv.countsStrong (h : Inv s) {th : Thread} (hfrom : (s.threads t).pc.Plain)
    (hfromWeak : (s.threads t).pc.weak = 1) (hok : th.pc.Ok)
    (hone : th.strong + th.pc.owes + th.pc.fixes = (s.threads t).strong + 1)
    (hweak : th.strong + th.weak + th.pc.weak =
      (s.threads t).strong + (s.threads t).weak + 1)
    (hends : th.pc.endsStrong = 0 ∧ th.pc.endsWeak = 0)
    (hfirst : s.mStrong = initialStrongValue → th.pc.owes + th.pc.fixes = 1)
    (howes : s.mStrong ≠ initialStrongValue → th.pc.owes = 0)
    (hallowed : 0 < strongRefs s.threads ∨ s.everStrong = false)
    (hlt : strongRefs s.threads + 1 < 2 ^ 28) :
    Inv ({ s with mStrong := s.mStrong + 1, everStrong := true }.setThread t th) := by
  have hlocals : ∀ u, (Function.update s.threads t th u).pc.Ok := locals_update h.locals hok
  obtain ⟨h1, h2, h3, h4, h5, h6, -, -, -, -, -, -⟩ := moved_update s.threads t th
  obtain ⟨p1, p2, p3, p4⟩ := hfrom
  unfold State.setThread
  generalize Function.update s.threads t th = ths at *
  have hweak' : weakRefs ths = weakRefs s.threads := by omega
  have hrefs : strongRefs ths = strongRefs s.threads + 1 := by
    simp only [strongRefs]
    omega
  refine ⟨?_, ?_, ?_, ?_, hlocals, ?_⟩
  · rw [h.weak, hweak']
  · rw [hweak']
    exact h.weak_lt
  · rw [hrefs]
    exact hlt
  · rw [hweak']
    exact h.ever
  · rcases h.phase with hp | hp | hp
    · have hth := hfirst hp.count
      have hnone := hp.none
      have hending := hp.ending
      have halive := hp.alive fun _ => by
        have := le_total s.threads t fun th => th.strong + th.weak + th.pc.weak
        simp only [weakRefs]
        omega
      simp only [strongRefs] at hnone
      refine .inr (.inl ⟨rfl, ?_, ?_, halive.1, ?_, ?_⟩) <;> simp only
      · rw [hp.count, hrefs, hp.none]
        rfl
      · omega
      · omega
      · omega
    · have hc := hp.count
      have hpos := hp.pos
      have hth : th.pc.owes = 0 := howes (by
        rw [hc]
        simp only [strongRefs]
        omega)
      have hle := hp.owing_le
      have hending := hp.ending
      refine .inr (.inl ⟨rfl, ?_, ?_, hp.alive, ?_, ?_⟩) <;> simp only
      · rw [hc, hrefs]
        push_cast
        omega
      · omega
      · omega
      · omega
    · have hc := hp.count
      have hth : th.pc.owes = 0 := howes (by
        rw [hc]
        simp only [initialStrongValue]
        omega)
      have hpos : 0 < strongRefs s.threads := by
        rcases hallowed with hpos | hno
        · exact hpos
        · rw [hp.ever] at hno
          cases hno
      have halive := hp.alive hpos
      have howing := hp.owing
      refine .inr (.inr ⟨rfl, ?_, ?_, ?_, ?_⟩) <;> simp only [hrefs]
      · rw [hc]
        push_cast
        rfl
      · omega
      · intro h0
        omega
      · intro _
        omega

theorem Inv.settles (h : Inv s) (hbiased : Biased s)
    (hone : (s.threads t).pc.owes + (s.threads t).pc.fixes = 1)
    (howing : owing s.threads = (s.threads t).pc.owes)
    (hfrom : (s.threads t).pc.endsStrong = 0 ∧ (s.threads t).pc.weak = 1) :
    Inv ({ s with mStrong := s.mStrong - initialStrongValue }.gainStrong t) := by
  obtain ⟨th, hth⟩ : ∃ th : Thread,
      th = { s.threads t with pc := .idle, strong := (s.threads t).strong + 1 } := ⟨_, rfl⟩
  have hlocals : ∀ u, (Function.update s.threads t th u).pc.Ok :=
    locals_update h.locals (by rw [hth]; trivial)
  obtain ⟨h1, h2, h3, h4, h5, h6, -, -, -, -, -, -⟩ := moved_update s.threads t th
  have hidle : Pc.idle.owes = 0 ∧ Pc.idle.fixes = 0 ∧ Pc.idle.endsStrong = 0 ∧
      Pc.idle.weak = 0 := ⟨rfl, rfl, rfl, rfl⟩
  simp only [hth] at h1 h2 h3 h4 h6
  simp only [State.gainStrong, State.setThread, ← hth] at h1 h2 h3 h4 h6 ⊢
  generalize Function.update s.threads t th = ths at *
  have hweak' : weakRefs ths = weakRefs s.threads := by omega
  have hrefs : strongRefs ths = strongRefs s.threads := by
    simp only [strongRefs]
    omega
  refine ⟨?_, ?_, ?_, ?_, hlocals, .inr (.inr ⟨hbiased.ever, ?_, ?_, ?_, ?_⟩)⟩
  · rw [h.weak, hweak']
  · rw [hweak']
    exact h.weak_lt
  · rw [hrefs]
    exact h.strong_lt
  · rw [hweak']
    exact h.ever
  · change s.mStrong - initialStrongValue = strongRefs ths
    rw [hbiased.count, hrefs]
    omega
  · change owing ths = 0
    omega
  · have hpos := hbiased.pos
    simp only [strongRefs]
    omega
  · intro _
    have hending := hbiased.ending
    refine ⟨hbiased.alive, ?_⟩
    change endingStrong ths = 0
    omega

/-- `attemptIncStrong` returns when `INITIAL_STRONG_VALUE` is not in the count. -/
theorem Inv.returns (h : Inv s) (hpc : (s.threads t).pc = .fixUpLoad)
    (hlt : s.mStrong < initialStrongValue) : Inv (s.gainStrong t) := by
  obtain ⟨th, hth⟩ : ∃ th : Thread,
      th = { s.threads t with pc := .idle, strong := (s.threads t).strong + 1 } := ⟨_, rfl⟩
  have hlocals : ∀ u, (Function.update s.threads t th u).pc.Ok :=
    locals_update h.locals (by rw [hth]; trivial)
  obtain ⟨h1, h2, h3, h4, h5, h6, -, -, -, -, -, -⟩ := moved_update s.threads t th
  simp only [hth, hpc, Pc.owes, Pc.fixes, Pc.endsStrong, Pc.endsWeak, Pc.weak]
    at h1 h2 h3 h4 h5 h6
  simp only [State.gainStrong, State.setThread, ← hth] at h1 h2 h3 h4 h5 h6 ⊢
  generalize Function.update s.threads t th = ths at *
  have hweak' : weakRefs ths = weakRefs s.threads := by omega
  have hrefs : strongRefs ths = strongRefs s.threads := by
    simp only [strongRefs]
    omega
  refine ⟨?_, ?_, ?_, ?_, hlocals, ?_⟩
  · rw [h.weak, hweak']
  · rw [hweak']
    exact h.weak_lt
  · rw [hrefs]
    exact h.strong_lt
  · rw [hweak']
    exact h.ever
  · rcases h.phase with hp | hp | hp
    · have := hp.count
      omega
    · have := hp.count
      omega
    · have howing := hp.owing
      have hend : endingStrong ths = endingStrong s.threads := by omega
      refine .inr (.inr ⟨hp.ever, ?_, ?_, ?_, ?_⟩) <;> simp only [hrefs, hend]
      · exact hp.count
      · omega
      · exact hp.gone
      · exact hp.alive

theorem Inv.lastStrong (h : Inv s) (hpc : (s.threads t).pc = .lastStrong) :
    Inv ({ s with destroyed := s.destroyed + 1 }.goTo t (.destructor true)) := by
  obtain ⟨th, hth⟩ : ∃ th : Thread, th = { s.threads t with pc := .destructor true } := ⟨_, rfl⟩
  have hlocals : ∀ u, (Function.update s.threads t th u).pc.Ok :=
    locals_update h.locals (by rw [hth]; trivial)
  obtain ⟨h1, h2, h3, h4, h5, h6, -, -, -, hle, -, -⟩ := moved_update s.threads t th
  simp only [hth, hpc, Pc.owes, Pc.fixes, Pc.endsStrong, Pc.endsWeak, Pc.weak]
    at h1 h2 h3 h4 h5 h6 hle
  simp only [State.goTo, State.setThread, ← hth] at h1 h2 h3 h4 h5 h6 ⊢
  generalize Function.update s.threads t th = ths at *
  have hweak' : weakRefs ths = weakRefs s.threads := by omega
  have hrefs : strongRefs ths = strongRefs s.threads := by
    simp only [strongRefs]
    omega
  refine ⟨?_, ?_, ?_, ?_, hlocals, ?_⟩
  · rw [h.weak, hweak']
  · rw [hweak']
    exact h.weak_lt
  · rw [hrefs]
    exact h.strong_lt
  · rw [hweak']
    exact h.ever
  · rcases h.phase with hp | hp | hp
    · have := hp.ending
      omega
    · have := hp.ending
      omega
    · have howing := hp.owing
      have halive := hp.alive
      have hgone := hp.gone
      refine .inr (.inr ⟨hp.ever, ?_, ?_, ?_, ?_⟩) <;> simp only [hrefs]
      · exact hp.count
      · omega
      · omega
      · omega

/-- `delete impl->mBase` in `decWeak`, for an object that never had a strong reference. -/
theorem Inv.lastWeak (h : Inv s) (hpc : (s.threads t).pc = .lastWeak)
    (hcount : s.mStrong = initialStrongValue) :
    Inv ({ s with destroyed := s.destroyed + 1 }.goTo t (.destructor false)) := by
  obtain ⟨th, hth⟩ : ∃ th : Thread, th = { s.threads t with pc := .destructor false } :=
    ⟨_, rfl⟩
  have hlocals : ∀ u, (Function.update s.threads t th u).pc.Ok :=
    locals_update h.locals (by rw [hth]; trivial)
  obtain ⟨h1, h2, h3, h4, h5, h6, -, -, -, -, hle, -⟩ := moved_update s.threads t th
  simp only [hth, hpc, Pc.owes, Pc.fixes, Pc.endsStrong, Pc.endsWeak, Pc.weak]
    at h1 h2 h3 h4 h5 h6 hle
  simp only [State.goTo, State.setThread, ← hth] at h1 h2 h3 h4 h5 h6 ⊢
  generalize Function.update s.threads t th = ths at *
  have hsl := h.strong_lt
  have hweak' : weakRefs ths = weakRefs s.threads := by omega
  have hrefs : strongRefs ths = strongRefs s.threads := by
    simp only [strongRefs]
    omega
  refine ⟨?_, ?_, ?_, ?_, hlocals, ?_⟩
  · rw [h.weak, hweak']
  · rw [hweak']
    exact h.weak_lt
  · rw [hrefs]
    exact h.strong_lt
  · rw [hweak']
    exact h.ever
  · rcases h.phase with hp | hp | hp
    · have hending := hp.ending
      have halive := hp.alive
      have hgone := hp.gone
      refine .inl ⟨hp.ever, hp.count, hrefs.trans hp.none, ?_, ?_, ?_⟩ <;> simp only [hweak']
      · omega
      · intro he h0
        have := hgone he h0
        omega
      · intro hpos
        have := halive hpos
        omega
    · have hc := hp.count
      have hpos := hp.pos
      simp only [strongRefs] at hc
      omega
    · have hc := hp.count
      simp only [initialStrongValue] at hcount
      omega

end Step

/-! ### Every step, every run -/

theorem inv_init (n : ℕ) : Inv (init n) := by
  have hzero (f : Thread → ℕ) (hf : f ⟨.idle, 0, 0⟩ = 0) : total (init n).threads f = 0 :=
    total_eq_zero fun _ => hf
  have hweak : weakRefs (init n).threads = 0 := hzero _ rfl
  have hstrong : strongRefs (init n).threads = 0 := by
    simp only [strongRefs, held, owing, fixing]
    rw [hzero _ rfl, hzero _ rfl, hzero _ rfl]
  refine ⟨?_, ?_, ?_, ?_, fun _ => trivial, .inl ⟨rfl, rfl, hstrong, hzero _ rfl, ?_, ?_⟩⟩
  · rw [hweak]
    rfl
  · rw [hweak]
    omega
  · rw [hstrong]
    omega
  · rw [hweak]
    omega
  · intro he
    cases he
  · intro _
    exact ⟨rfl, hzero _ rfl⟩

theorem Inv.call {s : State n} {t : Fin n} {op : Op} (h : Inv s)
    (hidle : (s.threads t).pc = .idle) (hallowed : Allowed s (.call t op))
    (hunraced : Unraced s (.call t op)) : Inv (s.call t op) := by
  have hplain : (s.threads t).pc.Plain := by
    rw [hidle]
    exact ⟨rfl, rfl, rfl, rfl⟩
  cases op with
  | incStrong =>
      exact h.takesWeak hidle trivial ⟨rfl, rfl, rfl, rfl⟩ rfl rfl hallowed.1 (hunraced rfl)
  | decStrong => exact h.decStrong hidle hallowed
  | attemptIncStrong =>
      refine h.takesWeak hidle trivial ⟨rfl, rfl, rfl, rfl⟩ rfl rfl (.inl ?_) (hunraced rfl)
      have hle := le_total s.threads t fun th => th.strong + th.weak + th.pc.weak
      have hpos : 0 < (s.threads t).strong + (s.threads t).weak := hallowed
      simp only [weakRefs]
      omega
  | incWeak =>
      refine h.takesWeak hidle ?_ hplain rfl ?_ hallowed (hunraced rfl)
      · exact h.locals t
      · simp only [hidle, Pc.weak]
  | decWeak =>
      refine h.dropsWeak hplain rfl ?_
      have hpos : 0 < (s.threads t).weak := hallowed
      simp only [hidle, Pc.weak]
      omega

theorem Inv.incCas {s : State n} {t : Fin n} {curCount : ℤ} {retry : Pc} (h : Inv s)
    (hfrom : (s.threads t).pc.Plain) (hweak : (s.threads t).pc.weak = 1)
    (hretry : retry.Ok ∧ retry.Plain ∧ retry.weak = 1) (hpos : 0 < curCount)
    (hlt : s.mStrong = curCount → strongRefs s.threads + 1 < 2 ^ 28) :
    Inv (s.incCas t curCount retry) := by
  unfold State.incCas
  split
  · rename_i heq
    rw [← heq]
    refine h.countsStrong hfrom hweak trivial rfl rfl ⟨rfl, rfl⟩ (fun _ => rfl) (fun _ => rfl)
      ?_ (hlt heq)
    -- A count that is positive and not `INITIAL_STRONG_VALUE` is a count of references.
    rcases h.phase with hp | hp | hp
    · exact .inr hp.ever
    · have := hp.pos
      refine .inl ?_
      simp only [strongRefs]
      omega
    · have := hp.count
      exact .inl (by omega)
  · obtain ⟨p1, p2, p3, p4⟩ := hfrom
    obtain ⟨hok, ⟨r1, r2, r3, r4⟩, hw⟩ := hretry
    exact h.goTo hok (r1.trans p1.symm) (r2.trans p2.symm) (r3.trans p3.symm)
      (fun _ => r4.trans p4.symm) (hw.trans hweak.symm)

/-- The points of an operation from which a thread goes on without changing a counter. -/
theorem Inv.goTo_from {s : State n} {t : Fin n} {p pc : Pc} (h : Inv s)
    (hpc : (s.threads t).pc = p) (hok : pc.Ok) (howes : pc.owes = p.owes)
    (hfixes : pc.fixes = p.fixes) (hends : pc.endsStrong = p.endsStrong)
    (hendw : pc.endsWeak = p.endsWeak) (hweak : pc.weak = p.weak) : Inv (s.goTo t pc) := by
  subst hpc
  exact h.goTo hok howes hfixes hends (fun _ => hendw) hweak

theorem attemptBranch_plain (curCount : ℤ) :
    (attemptBranch curCount).Ok ∧ (attemptBranch curCount).Plain ∧
      (attemptBranch curCount).weak = 1 := by
  unfold attemptBranch
  split
  · rename_i hpos
    exact ⟨hpos, ⟨rfl, rfl, rfl, rfl⟩, rfl⟩
  · split
    · exact ⟨trivial, ⟨rfl, rfl, rfl, rfl⟩, rfl⟩
    · rename_i hpos
      exact ⟨not_le.mp hpos, ⟨rfl, rfl, rfl, rfl⟩, rfl⟩

theorem Inv.strong_bounds {s : State n} (h : Inv s) : 0 ≤ s.mStrong ∧ s.mStrong < 2 ^ 29 := by
  have hlt := h.strong_lt
  have hinit : initialStrongValue = 2 ^ 28 := rfl
  rcases h.phase with hp | hp | hp
  all_goals
    have hc := hp.count
    omega

/-- `incStrong` counts its reference. -/
theorem Inv.incStrong {s : State n} {t : Fin n} (h : Inv s) (hpc : (s.threads t).pc = .incStrong)
    (hallowed : 0 < strongRefs s.threads ∨ s.everStrong = false)
    (hlt : strongRefs s.threads + 1 < 2 ^ 28) :
    Inv (if s.mStrong = initialStrongValue then
      { s with mStrong := androidAtomicAdd 1 s.mStrong, everStrong := true }.goTo t .incStrongFirst
    else { s with mStrong := androidAtomicAdd 1 s.mStrong, everStrong := true }.gainStrong t) := by
  have hbounds := h.strong_bounds
  have hplain : (s.threads t).pc.Plain ∧ (s.threads t).pc.weak = 1 := by
    rw [hpc]
    exact ⟨⟨rfl, rfl, rfl, rfl⟩, rfl⟩
  rw [androidAtomicAdd_eq (by omega) (by omega)]
  split
  · rename_i heq
    exact h.countsStrong hplain.1 hplain.2 trivial rfl rfl ⟨rfl, rfl⟩ (fun _ => rfl)
      (fun hne => absurd heq hne) hallowed hlt
  · rename_i hne
    refine h.countsStrong hplain.1 hplain.2 trivial rfl ?_ ⟨rfl, rfl⟩
      (fun heq => absurd heq hne) (fun _ => rfl) hallowed hlt
    simp only [Pc.weak]
    omega

/-- `incStrong` takes `INITIAL_STRONG_VALUE` away. -/
theorem Inv.incStrongFirst {s : State n} {t : Fin n} (h : Inv s)
    (hpc : (s.threads t).pc = .incStrongFirst) :
    Inv ({ s with
      mStrong := androidAtomicAdd (-initialStrongValue) s.mStrong }.gainStrong t) := by
  have hbounds := h.strong_bounds
  have hinit : initialStrongValue = 2 ^ 28 := rfl
  have hle := le_total s.threads t fun th => th.pc.owes
  simp only [hpc, Pc.owes] at hle
  rw [androidAtomicAdd_eq (by omega) (by omega)]
  rcases h.phase with hp | hp | hp
  · have := hp.none
    simp only [strongRefs, owing, Pc.owes] at this
    omega
  · have := hp.owing_le
    simp only [owing, Pc.owes] at this
    refine h.settles hp ?_ ?_ ?_
    · rw [hpc]
      rfl
    · rw [hpc]
      simp only [owing, Pc.owes]
      omega
    · rw [hpc]
      exact ⟨rfl, rfl⟩
  · have := hp.owing
    simp only [owing, Pc.owes] at this
    omega

/-- `attemptIncStrong` takes `INITIAL_STRONG_VALUE` away, from the count that it has read. -/
theorem Inv.fixUp {s : State n} {t : Fin n} (h : Inv s)
    (hpc : (s.threads t).pc = .fixUpCas s.mStrong) (howing : owing s.threads = 0) :
    Inv ({ s with mStrong := s.mStrong - initialStrongValue }.gainStrong t) := by
  have hok := h.locals t
  have hle := le_total s.threads t fun th => th.pc.fixes
  simp only [hpc, Pc.fixes, Pc.Ok] at hle hok
  have hbiased : Biased s := by
    rcases h.phase with hp | hp | hp
    · have := hp.none
      simp only [strongRefs, fixing, Pc.fixes] at this
      omega
    · exact hp
    · have := hp.count
      have := h.strong_lt
      have hinit : initialStrongValue = 2 ^ 28 := rfl
      omega
  refine h.settles hbiased ?_ ?_ ?_
  · rw [hpc]
    rfl
  · rw [hpc, howing]
    rfl
  · rw [hpc]
    exact ⟨rfl, rfl⟩

theorem Inv.next {s s' : State n} {t : Fin n} (h : Inv s) (hallowed : Allowed s (.next t))
    (hunraced : Unraced s (.next t)) (hstep : s.next t = .ok s') : Inv s' := by
  obtain ⟨hraise, htake⟩ := hunraced
  have hok := h.locals t
  unfold State.next at hstep
  cases hpc : (s.threads t).pc with
  | idle =>
      rw [hpc] at hstep
      cases hstep
  | incStrong =>
      rw [hpc] at hstep hraise
      obtain rfl := Except.ok.inj hstep
      exact h.incStrong hpc (hallowed hpc) (hraise rfl)
  | incStrongFirst =>
      rw [hpc] at hstep
      obtain rfl := Except.ok.inj hstep
      exact h.incStrongFirst hpc
  | lastStrong =>
      rw [hpc] at hstep
      obtain rfl := Except.ok.inj hstep
      exact h.lastStrong hpc
  | destructor decWeaks =>
      rw [hpc] at hstep
      obtain rfl := Except.ok.inj hstep
      cases decWeaks with
      | false =>
          exact (h.frees _).goTo_from hpc trivial rfl rfl rfl rfl rfl
      | true =>
          exact (h.frees _).goTo_from hpc trivial rfl rfl rfl rfl rfl
  | decWeak =>
      rw [hpc] at hstep
      obtain rfl := Except.ok.inj hstep
      refine h.dropsWeak ?_ rfl ?_
      · rw [hpc]
        exact ⟨rfl, rfl, rfl, rfl⟩
      · rw [hpc]
        rfl
  | lastWeak =>
      rw [hpc] at hstep
      obtain rfl := Except.ok.inj hstep
      split
      · rename_i heq
        exact h.lastWeak hpc heq
      · rename_i hne
        refine (h.frees _).goTo trivial ?_ ?_ ?_ (fun hp => absurd hp.count hne) ?_
        all_goals
          simp only [hpc]
          rfl
  | attemptLoad =>
      rw [hpc] at hstep
      obtain rfl := Except.ok.inj hstep
      obtain ⟨hok, ⟨h1, h2, h3, h4⟩, hweak⟩ := attemptBranch_plain s.mStrong
      exact h.goTo_from hpc hok h1 h2 h3 h4 hweak
  | attemptCas curCount =>
      rw [hpc] at hstep hraise hok
      obtain rfl := Except.ok.inj hstep
      refine h.incCas ?_ ?_ ⟨trivial, ⟨rfl, rfl, rfl, rfl⟩, rfl⟩ hok.1
        fun heq => hraise (decide_eq_true heq)
      · rw [hpc]
        exact ⟨rfl, rfl, rfl, rfl⟩
      · rw [hpc]
        rfl
  | promoteCas curCount =>
      rw [hpc] at hstep hraise hok
      obtain rfl := Except.ok.inj hstep
      refine h.incCas ?_ ?_ ⟨trivial, ⟨rfl, rfl, rfl, rfl⟩, rfl⟩ hok
        fun heq => hraise (decide_eq_true heq)
      · rw [hpc]
        exact ⟨rfl, rfl, rfl, rfl⟩
      · rw [hpc]
        rfl
  | promoteLoad =>
      rw [hpc] at hstep
      obtain rfl := Except.ok.inj hstep
      split
      · rename_i hpos
        exact h.goTo_from hpc hpos rfl rfl rfl rfl rfl
      · exact h.goTo_from hpc trivial rfl rfl rfl rfl rfl
  | fixUpLoad =>
      rw [hpc] at hstep
      obtain rfl := Except.ok.inj hstep
      split
      · rename_i hle
        exact h.goTo_from hpc hle rfl rfl rfl rfl rfl
      · rename_i hlt
        exact h.returns hpc (by omega)
  | fixUpCas curCount =>
      rw [hpc] at hstep htake
      obtain rfl := Except.ok.inj hstep
      split
      · rename_i heq
        subst heq
        exact h.fixUp hpc (htake (decide_eq_true rfl))
      · exact h.goTo_from hpc trivial rfl rfl rfl rfl rfl

theorem Inv.step {s s' : State n} {a : Act n} (h : Inv s) (hok : Allowed s a ∧ Unraced s a)
    (hstep : step s a = .ok s') : Inv s' := by
  cases a with
  | call t op =>
      simp only [RefBase.step] at hstep
      split at hstep
      · rename_i hidle
        obtain rfl := Except.ok.inj hstep
        exact h.call hidle hok.1 hok.2
      · cases hstep
  | next t => exact h.next hok.1 hok.2 hstep

theorem inv_of_reach {s : State n}
    (h : Reach step (fun s a => Allowed s a ∧ Unraced s a) (init n) s) : Inv s :=
  h.invariant (inv_init n) fun _ _ _ hi hok hstep => hi.step hok hstep

def State.Quiet (s : State n) : Prop := ∀ t, (s.threads t).pc = .idle

instance (s : State n) : Decidable s.Quiet := inferInstanceAs (Decidable (∀ _, _))

theorem State.Quiet.total_eq_zero {s : State n} (h : s.Quiet) {f : Pc → ℕ}
    (hf : f .idle = 0) : total s.threads (fun th => f th.pc) = 0 :=
  RefBase.total_eq_zero fun t => by rw [h t, hf]

/-- In every interleaving in which no `attemptIncStrong` takes `INITIAL_STRONG_VALUE` away
while an `incStrong` still has to: the counts are never negative, the strong count is the
number of strong references when no operation is in progress, and the object is destroyed
once, when the last strong reference goes or, if there never was one, the last reference. -/
theorem counts_exact {s : State n}
    (h : Reach step (fun s a => Allowed s a ∧ Unraced s a) (init n) s) :
    0 ≤ s.mStrong ∧ 0 ≤ s.mWeak ∧
    (s.Quiet → s.mStrong = if s.everStrong then (held s.threads : ℤ) else initialStrongValue) ∧
    s.destroyed ≤ 1 ∧
    (0 < held s.threads → s.destroyed = 0) ∧
    (s.Quiet → s.everStrong = true → held s.threads = 0 → s.destroyed = 1) ∧
    (s.Quiet → s.everWeak = true → weakRefs s.threads = 0 → s.destroyed = 1) := by
  have hi := inv_of_reach h
  have hw := hi.weak
  refine ⟨hi.strong_bounds.1, by omega, ?_, ?_, ?_, ?_, ?_⟩
  · intro hq
    have hF : fixing s.threads = 0 := hq.total_eq_zero rfl
    have hO : owing s.threads = 0 := hq.total_eq_zero rfl
    rcases hi.phase with hp | hp | hp
    · rw [hp.count, hp.ever]
      rfl
    · have := hp.pos
      omega
    · rw [hp.count, hp.ever]
      simp only [strongRefs, if_true]
      omega
  · rcases hi.phase with hp | hp | hp
    · by_cases hgone : s.everWeak = true ∧ weakRefs s.threads = 0
      · have := hp.gone hgone.1 hgone.2
        omega
      · have := hp.alive fun he => Nat.pos_of_ne_zero fun h0 => hgone ⟨he, h0⟩
        omega
    · have := hp.alive
      omega
    · have h0 := hp.gone
      have h1 := hp.alive
      omega
  · intro hpos
    have hrefs : 0 < strongRefs s.threads := by
      simp only [strongRefs]
      omega
    rcases hi.phase with hp | hp | hp
    · have := hp.none
      omega
    · exact hp.alive
    · exact (hp.alive hrefs).1
  · intro hq hever h0
    have hF : fixing s.threads = 0 := hq.total_eq_zero rfl
    have hO : owing s.threads = 0 := hq.total_eq_zero rfl
    have hE : endingStrong s.threads = 0 := hq.total_eq_zero rfl
    rcases hi.phase with hp | hp | hp
    · rw [hp.ever] at hever
      cases hever
    · have := hp.pos
      omega
    · have := hp.gone (by simp only [strongRefs]; omega)
      omega
  · intro hq hever h0
    have hF : fixing s.threads = 0 := hq.total_eq_zero rfl
    have hO : owing s.threads = 0 := hq.total_eq_zero rfl
    have hE : endingStrong s.threads = 0 := hq.total_eq_zero rfl
    have hD : endingWeak s.threads = 0 := hq.total_eq_zero rfl
    have hle := held_le_weakRefs s.threads
    rcases hi.phase with hp | hp | hp
    · have := hp.gone hever h0
      omega
    · have := hp.pos
      omega
    · have := hp.gone (by simp only [strongRefs]; omega)
      omega

/-- One thread takes a weak reference, promotes it and drops both; the other takes a strong
reference meanwhile and keeps it. -/
def promoted : List (Act 2) :=
  [.call 0 .incWeak, .call 0 .attemptIncStrong, .next 0, .next 0, .call 1 .incStrong, .next 1,
    .next 0, .next 0, .call 0 .decStrong, .next 0, .call 0 .decWeak]

theorem counts_exact_promoted :
    ∃ s : State 2, Reach step (fun s a => Allowed s a ∧ Unraced s a) (init 2) s ∧
      s.Quiet ∧ held s.threads = 1 ∧ s.mStrong = 1 ∧ s.destroyed = 0 := by
  obtain ⟨s, hrun, hs⟩ := Option.map_eq_some_iff.mp
    (show (runChecked step (fun s a => Allowed s a ∧ Unraced s a) (init 2) promoted).map
      (fun s => (decide s.Quiet, held s.threads, s.everStrong)) = some (true, 1, true) by
        decide +kernel)
  simp only [Prod.mk.injEq, decide_eq_true_eq] at hs
  obtain ⟨hq, hh, he⟩ := hs
  have hreach := reach_of_runChecked hrun
  obtain ⟨-, -, hcount, -, halive, -, -⟩ := counts_exact hreach
  refine ⟨s, hreach, hq, hh, ?_, halive (by omega)⟩
  rw [hcount hq, he, hh]
  rfl

/-- Thread `0` takes the first strong reference and is stopped before it takes
`INITIAL_STRONG_VALUE` away; thread `1`, which holds a weak reference, promotes it. -/
def raced : List (Act 2) :=
  [.call 1 .incWeak, .call 0 .incStrong, .next 0, .call 1 .attemptIncStrong, .next 1, .next 1,
    .next 1, .next 1, .next 0]

theorem raced_strong_negative :
    ∃ s : State 2, Reach step Allowed (init 2) s ∧ s.Quiet ∧ held s.threads = 2 ∧
      s.mStrong = 2 - 2 ^ 28 := by
  obtain ⟨s, hrun, hs⟩ := Option.map_eq_some_iff.mp
    (show (runChecked step Allowed (init 2) raced).map
      (fun s => (decide s.Quiet, held s.threads, s.mStrong)) = some (true, 2, 2 - 2 ^ 28) by
        decide +kernel)
  simp only [Prod.mk.injEq, decide_eq_true_eq] at hs
  exact ⟨s, reach_of_runChecked hrun, hs⟩

end RefBase

end BinderForLinux
