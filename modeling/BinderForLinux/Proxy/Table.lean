import BinderForLinux.RefBase.Counts

/-!
# The table of proxies of a process

`ProcessState` keeps one entry for each handle. A proxy is destroyed in three stages, outside
the lock of the table: its weak count reaches zero, its destructor takes the entry out of the
table, its memory is freed. A look-up may come between any two of them. Each section under
`mLock` is one step here. The entries of a process hold addresses, and an address may be used
again once it was freed.
-/

namespace BinderForLinux

namespace ProxyTable

open Library RefBase

/-- How far the destruction of a proxy has come. -/
inductive Stage
  | alive
  | destroying
  | expunged
  deriving DecidableEq, Repr

/-- A `BpBinder` with its counters. -/
structure Proxy where
  mHandle : ℕ
  mStrong : ℤ
  mWeak : ℤ
  stage : Stage
  deriving DecidableEq, Repr

namespace Proxy

def new (handle : ℕ) : Proxy where
  mHandle := handle
  mStrong := initialStrongValue
  mWeak := 0
  stage := .alive

def incWeak (p : Proxy) : Proxy := { p with mWeak := p.mWeak + 1 }

/-- `decWeak` of an object with `OBJECT_LIFETIME_WEAK`: with the last weak reference the
object is going to be deleted. -/
def decWeak (p : Proxy) : Proxy :=
  { p with
    mWeak := p.mWeak - 1
    stage := if p.mWeak = 1 then .destroying else p.stage }

def strongCount (p : Proxy) : ℤ := if p.mStrong = initialStrongValue then 0 else p.mStrong

/-- `incStrong` and `forceIncStrong`, which differ in when they call `onFirstRef`. -/
def incStrong (p : Proxy) : Proxy :=
  { p.incWeak with mStrong := p.strongCount + 1 }

def decStrong (p : Proxy) : Proxy := { p with mStrong := p.mStrong - 1 }.decWeak

end Proxy

/-- `handle_entry`. -/
structure HandleEntry where
  binder : Option ℕ
  refs : Option ℕ
  deriving DecidableEq, Repr

/-- The table of a process and the proxies in its memory, by address. -/
structure ProcessState where
  mHandleToObject : List HandleEntry
  memory : ℕ → Option Proxy

def init : ProcessState where
  mHandleToObject := []
  memory := fun _ => none

inductive Fault
  /-- A count is read or written in memory that was freed. -/
  | freed
  deriving DecidableEq, Repr

/-- What a look-up meets: whether the vector can grow, the address that `new BpBinder` gets
and whether the context manager is gone. -/
structure LookupEnv where
  grows : Bool
  address : Option ℕ
  contextManagerDead : Bool
  deriving DecidableEq, Repr

/-- `lookupHandleLocked`: the table in which the entry of the handle exists. -/
def lookupHandleLocked (table : List HandleEntry) (handle : ℕ) (grows : Bool) :
    Option (List HandleEntry) :=
  if table.length ≤ handle then
    if grows then
      some (table ++ List.replicate (handle + 1 - table.length) ⟨none, none⟩)
    else none
  else some table

namespace ProcessState

def setProxy (s : ProcessState) (a : ℕ) (p : Proxy) : ProcessState :=
  { s with memory := Function.update s.memory a (some p) }

def setEntry (s : ProcessState) (handle : ℕ) (e : HandleEntry) : ProcessState :=
  { s with mHandleToObject := s.mHandleToObject.set handle e }

def entry (s : ProcessState) (handle : ℕ) : HandleEntry :=
  s.mHandleToObject.getD handle ⟨none, none⟩

def deref (s : ProcessState) (refs : Option ℕ) : Except Fault (ℕ × Proxy) :=
  match refs with
  | none => .error .freed
  | some a =>
      match s.memory a with
      | none => .error .freed
      | some p => .ok (a, p)

/-- `new BpBinder(handle)`, its entry and the reference of the result. -/
def create (s : ProcessState) (handle : ℕ) (address : Option ℕ) (first : Proxy → Proxy) :
    Option ℕ × ProcessState :=
  match address with
  | none => (none, s.setEntry handle ⟨none, (s.entry handle).refs⟩)
  | some a =>
      (some a, (s.setProxy a (first (Proxy.new handle))).setEntry handle ⟨some a, some a⟩)

/-- The part the two look-ups share: the entry's proxy if a weak reference on it can be had,
otherwise what `make` does. The weak reference is held until the result has its own. -/
def lookup (s : ProcessState) (handle : ℕ) (e : LookupEnv) (take : Proxy → Proxy)
    (make : ProcessState → Option ℕ × ProcessState) : Except Fault (Option ℕ × ProcessState) :=
  match lookupHandleLocked s.mHandleToObject handle e.grows with
  | none => .ok (none, s)
  | some table =>
      let s := { s with mHandleToObject := table }
      match (s.entry handle).binder with
      | none => .ok (make s)
      | some b => do
          let (a, p) ← s.deref (s.entry handle).refs
          if 0 < p.mWeak then
            -- `attemptIncWeak`, the reference of the result, `decWeak`.
            pure (some b, s.setProxy a (take p.incWeak).decWeak)
          else pure (make s)

def getStrongProxyForHandle (s : ProcessState) (handle : ℕ) (e : LookupEnv) :
    Except Fault (Option ℕ × ProcessState) :=
  s.lookup handle e Proxy.incStrong fun s =>
    if handle = 0 ∧ e.contextManagerDead then (none, s)
    else s.create handle e.address Proxy.incStrong

def getWeakProxyForHandle (s : ProcessState) (handle : ℕ) (e : LookupEnv) :
    Except Fault (Option ℕ × ProcessState) :=
  s.lookup handle e Proxy.incWeak fun s => s.create handle e.address Proxy.incWeak

def expungeHandle (s : ProcessState) (handle : ℕ) (binder : ℕ) (grows : Bool) : ProcessState :=
  match lookupHandleLocked s.mHandleToObject handle grows with
  | none => s
  | some table =>
      let s := { s with mHandleToObject := table }
      if (s.entry handle).binder = some binder then
        s.setEntry handle { s.entry handle with binder := none }
      else s

end ProcessState

/-- What the threads of a process do: look-ups, copies and drops of references, and the later
stages of a destruction. -/
inductive Act
  | getStrong (handle : ℕ) (e : LookupEnv)
  | getWeak (handle : ℕ) (e : LookupEnv)
  | copyStrong (b : ℕ)
  | copyWeak (b : ℕ)
  | dropStrong (b : ℕ)
  | dropWeak (b : ℕ)
  | destructor (b : ℕ) (grows : Bool)
  | free (b : ℕ)
  deriving DecidableEq, Repr

def ProcessState.count (s : ProcessState) (b : ℕ) (f : Proxy → Proxy) :
    Except Fault ProcessState :=
  match s.memory b with
  | none => .error .freed
  | some p => .ok (s.setProxy b (f p))

def step (s : ProcessState) : Act → Except Fault ProcessState
  | .getStrong handle e => (s.getStrongProxyForHandle handle e).map Prod.snd
  | .getWeak handle e => (s.getWeakProxyForHandle handle e).map Prod.snd
  | .copyStrong b => s.count b Proxy.incStrong
  | .copyWeak b => s.count b Proxy.incWeak
  | .dropStrong b => s.count b Proxy.decStrong
  | .dropWeak b => s.count b Proxy.decWeak
  | .destructor b grows =>
      match s.memory b with
      | none => .error .freed
      | some p =>
          .ok ((s.expungeHandle p.mHandle b grows).setProxy b { p with stage := .expunged })
  | .free b => .ok { s with memory := Function.update s.memory b none }

/-- References are copied and dropped by who has them, `new` returns memory that is not in use,
and the stages of a destruction follow each other. -/
def Allowed (s : ProcessState) : Act → Prop
  | .getStrong _ e => ∀ a ∈ e.address, s.memory a = none
  | .getWeak _ e => ∀ a ∈ e.address, s.memory a = none
  | .copyStrong b => ∃ p ∈ s.memory b, 0 < p.mWeak
  | .copyWeak b => ∃ p ∈ s.memory b, 0 < p.mWeak
  | .dropStrong b => ∃ p ∈ s.memory b, 0 < p.strongCount
  | .dropWeak b => ∃ p ∈ s.memory b, p.strongCount < p.mWeak
  | .destructor b _ => ∃ p ∈ s.memory b, p.stage = .destroying
  | .free b => ∃ p ∈ s.memory b, p.stage = .expunged

instance (s : ProcessState) : (a : Act) → Decidable (Allowed s a)
  | .getStrong _ _ => inferInstanceAs (Decidable (∀ _ ∈ _, _ = _))
  | .getWeak _ _ => inferInstanceAs (Decidable (∀ _ ∈ _, _ = _))
  | .copyStrong _ => inferInstanceAs (Decidable (∃ _ ∈ _, _ < _))
  | .copyWeak _ => inferInstanceAs (Decidable (∃ _ ∈ _, _ < _))
  | .dropStrong _ => inferInstanceAs (Decidable (∃ _ ∈ _, _ < _))
  | .dropWeak _ => inferInstanceAs (Decidable (∃ _ ∈ _, _ < _))
  | .destructor _ _ => inferInstanceAs (Decidable (∃ _ ∈ _, _ = _))
  | .free _ => inferInstanceAs (Decidable (∃ _ ∈ _, _ = _))

/-! ### Entries -/

theorem lookupHandleLocked_spec {table table' : List HandleEntry} {handle : ℕ} {grows : Bool}
    (h : lookupHandleLocked table handle grows = some table') :
    handle < table'.length ∧
      ∀ k, table'.getD k ⟨none, none⟩ = table.getD k ⟨none, none⟩ := by
  unfold lookupHandleLocked at h
  split at h
  · split at h
    · obtain rfl := Option.some.inj h
      refine ⟨by simp; omega, fun k => ?_⟩
      simp only [List.getD_eq_getElem?_getD, List.getElem?_append, List.getElem?_replicate]
      split
      · rfl
      · rw [List.getElem?_eq_none (by omega)]
        split <;> rfl
    · cases h
  · obtain rfl := Option.some.inj h
    exact ⟨by omega, fun _ => rfl⟩

theorem lookupHandleLocked_of_lt {table : List HandleEntry} {handle : ℕ} (grows : Bool)
    (h : handle < table.length) : lookupHandleLocked table handle grows = some table := by
  unfold lookupHandleLocked
  rw [if_neg (by omega)]

namespace ProcessState

variable {s : ProcessState} {handle : ℕ}

theorem entry_setEntry (h : handle < s.mHandleToObject.length) (e : HandleEntry) (k : ℕ) :
    (s.setEntry handle e).entry k = if k = handle then e else s.entry k := by
  simp only [entry, setEntry, List.getD_eq_getElem?_getD, List.getElem?_set]
  by_cases hk : k = handle
  · subst hk
    simp [h]
  · rw [if_neg (fun hne => hk hne.symm), if_neg hk]

@[simp] theorem entry_setProxy (a : ℕ) (p : Proxy) (k : ℕ) :
    (s.setProxy a p).entry k = s.entry k := rfl

@[simp] theorem memory_setEntry (e : HandleEntry) :
    (s.setEntry handle e).memory = s.memory := rfl

theorem memory_setProxy (a : ℕ) (p : Proxy) (b : ℕ) :
    (s.setProxy a p).memory b = if b = a then some p else s.memory b := by
  simp only [setProxy, Function.update_apply]

end ProcessState

/-! ### The invariant -/

/-- What is said of a proxy alone. -/
structure Proxy.Sound (p : Proxy) : Prop where
  stage : p.stage = .alive ↔ 0 < p.mWeak
  strong : 0 ≤ p.strongCount
  weak : p.strongCount ≤ p.mWeak

/-- An entry leads to a proxy of its handle that has not passed its destructor, and the entry
of a proxy with a reference leads to it. -/
structure Coherent (s : ProcessState) : Prop where
  entries : ∀ h b, (s.entry h).binder = some b →
    ∃ p, s.memory b = some p ∧ p.mHandle = h ∧ p.stage ≠ .expunged ∧ (s.entry h).refs = some b
  live : ∀ b p, s.memory b = some p → 0 < p.mWeak → (s.entry p.mHandle).binder = some b
  sound : ∀ b p, s.memory b = some p → p.Sound

theorem coherent_init : Coherent init where
  entries := by
    intro h b hb
    simp [ProcessState.entry, init] at hb
  live := by
    intro b p hp
    cases hp
  sound := by
    intro b p hp
    cases hp

namespace Proxy

variable {p : Proxy}

theorem Sound.incWeak (h : p.Sound) (hpos : 0 < p.mWeak) : p.incWeak.Sound where
  stage := by
    have hs := h.stage.mpr hpos
    simp only [Proxy.incWeak, hs, true_iff]
    omega
  strong := h.strong
  weak := by
    have := h.weak
    simp only [Proxy.incWeak, strongCount] at this ⊢
    omega

theorem strongCount_incStrong (p : Proxy) : p.incStrong.strongCount =
    if p.strongCount + 1 = initialStrongValue then 0 else p.strongCount + 1 := rfl

theorem Sound.incStrong (h : p.Sound) (hpos : 0 < p.mWeak) : p.incStrong.Sound where
  stage := (h.incWeak hpos).stage
  strong := by
    have := h.strong
    rw [strongCount_incStrong]
    split <;> omega
  weak := by
    have h1 := h.strong
    have h2 := h.weak
    have hmWeak : p.incStrong.mWeak = p.mWeak + 1 := rfl
    rw [strongCount_incStrong, hmWeak]
    split <;> omega

theorem Sound.decWeak (h : p.Sound) (hlt : p.strongCount < p.mWeak) : p.decWeak.Sound where
  stage := by
    have h1 := h.strong
    simp only [Proxy.decWeak]
    split
    · simp only [reduceCtorEq, false_iff]
      omega
    · have := h.stage.mpr (by omega)
      simp only [this, true_iff]
      omega
  strong := h.strong
  weak := by
    simp only [Proxy.decWeak, strongCount] at hlt ⊢
    omega

theorem Sound.decStrong (h : p.Sound) (hpos : 0 < p.strongCount) : p.decStrong.Sound := by
  have hweak := h.weak
  have hs := h.stage.mpr (by omega)
  have hne : p.mStrong ≠ initialStrongValue := by
    intro heq
    simp [strongCount, heq] at hpos
  have hcount : p.strongCount = p.mStrong := by simp [strongCount, hne]
  have hmid : ({ p with mStrong := p.mStrong - 1 } : Proxy).Sound := by
    refine ⟨h.stage, ?_, ?_⟩
    all_goals
      simp only [strongCount]
      split <;> omega
  refine hmid.decWeak ?_
  simp only [strongCount]
  split <;> omega

theorem sound_new (handle : ℕ) :
    (Proxy.new handle).incWeak.Sound ∧ (Proxy.new handle).incStrong.Sound := by
  refine ⟨⟨?_, ?_, ?_⟩, ⟨?_, ?_, ?_⟩⟩ <;>
    simp [Proxy.new, incWeak, incStrong, strongCount, initialStrongValue]

theorem stage_decWeak (h : p.Sound) (hpos : 0 < p.mWeak) : p.decWeak.stage ≠ .expunged := by
  simp only [Proxy.decWeak]
  split
  · decide
  · rw [h.stage.mpr hpos]
    decide

/-- A look-up takes a reference for its result under the weak reference it holds. -/
structure Takes (take : Proxy → Proxy) : Prop where
  sound : ∀ p : Proxy, p.Sound → 0 < p.mWeak → (take p.incWeak).decWeak.Sound
  handle : ∀ p : Proxy, (take p.incWeak).decWeak.mHandle = p.mHandle
  stage : ∀ p : Proxy, p.Sound → 0 < p.mWeak → (take p.incWeak).decWeak.stage ≠ .expunged

theorem takes_incWeak : Takes Proxy.incWeak where
  sound := by
    intro p hp hpos
    have hw := hp.incWeak hpos
    have hpos' : 0 < p.incWeak.mWeak := by
      simp only [Proxy.incWeak]
      omega
    refine (hw.incWeak hpos').decWeak ?_
    have := hw.weak
    simp only [Proxy.incWeak, strongCount] at this ⊢
    omega
  handle := fun _ => rfl
  stage := by
    intro p hp hpos
    have hpos' : 0 < p.incWeak.mWeak := by
      simp only [Proxy.incWeak]
      omega
    refine stage_decWeak ((hp.incWeak hpos).incWeak hpos') ?_
    simp only [Proxy.incWeak]
    omega

theorem takes_incStrong : Takes Proxy.incStrong where
  sound := by
    intro p hp hpos
    have hw := hp.incWeak hpos
    have hpos' : 0 < p.incWeak.mWeak := by
      simp only [Proxy.incWeak]
      omega
    refine (hw.incStrong hpos').decWeak ?_
    have h1 : p.incWeak.strongCount ≤ p.mWeak := hp.weak
    have hmWeak : p.incWeak.incStrong.mWeak = p.mWeak + 1 + 1 := rfl
    rw [strongCount_incStrong, hmWeak]
    split <;> omega
  handle := fun _ => rfl
  stage := by
    intro p hp hpos
    have hpos' : 0 < p.incWeak.mWeak := by
      simp only [Proxy.incWeak]
      omega
    refine stage_decWeak ((hp.incWeak hpos).incStrong hpos') ?_
    simp only [Proxy.incStrong, Proxy.incWeak]
    omega

end Proxy

section Steps

variable {s s' : ProcessState}

theorem Coherent.setProxy (h : Coherent s) {b : ℕ} {p p' : Proxy} (hb : s.memory b = some p)
    (hpos : 0 < p.mWeak) (hhandle : p'.mHandle = p.mHandle) (hsound : p'.Sound)
    (hstage : p'.stage ≠ .expunged) : Coherent (s.setProxy b p') where
  entries := by
    intro k c hc
    obtain ⟨q, hq, hqk, hqs, hrefs⟩ := h.entries k c hc
    rw [ProcessState.memory_setProxy]
    split
    · rename_i heq
      subst heq
      rw [hb] at hq
      obtain rfl := Option.some.inj hq
      exact ⟨p', rfl, hhandle.trans hqk, hstage, hrefs⟩
    · exact ⟨q, hq, hqk, hqs, hrefs⟩
  live := by
    intro c q hq hqpos
    rw [ProcessState.memory_setProxy] at hq
    split at hq
    · rename_i heq
      subst heq
      obtain rfl := Option.some.inj hq
      rw [hhandle]
      exact h.live c p hb hpos
    · exact h.live c q hq hqpos
  sound := by
    intro c q hq
    rw [ProcessState.memory_setProxy] at hq
    split at hq
    · obtain rfl := Option.some.inj hq
      exact hsound
    · exact h.sound c q hq

theorem Coherent.grow (h : Coherent s) {table : List HandleEntry}
    (htable : ∀ k, table.getD k ⟨none, none⟩ = s.mHandleToObject.getD k ⟨none, none⟩) :
    Coherent { s with mHandleToObject := table } := by
  have hentry (k : ℕ) : ({ s with mHandleToObject := table } : ProcessState).entry k = s.entry k :=
    htable k
  refine ⟨fun k b => ?_, fun b p => ?_, h.sound⟩
  · rw [hentry]
    exact h.entries k b
  · rw [hentry]
    exact h.live b p

theorem Coherent.clearEntry (h : Coherent s) {handle : ℕ} {refs : Option ℕ}
    (hlt : handle < s.mHandleToObject.length)
    (hnone : ∀ b p, (s.entry handle).binder = some b → s.memory b = some p → ¬ 0 < p.mWeak) :
    Coherent (s.setEntry handle ⟨none, refs⟩) where
  entries := by
    intro k b hb
    rw [ProcessState.entry_setEntry hlt] at hb ⊢
    split at hb
    · cases hb
    · rename_i hne
      rw [if_neg hne]
      exact h.entries k b hb
  live := by
    intro b p hp hpos
    have hold := h.live b p hp hpos
    rw [ProcessState.entry_setEntry hlt]
    split
    · rename_i heq
      rw [heq] at hold
      exact absurd hpos (hnone b p hold hp)
    · exact hold
  sound := h.sound

theorem Coherent.replace (h : Coherent s) {handle a : ℕ} {p : Proxy}
    (hlt : handle < s.mHandleToObject.length) (hfresh : s.memory a = none)
    (hnone : ∀ b q, (s.entry handle).binder = some b → s.memory b = some q → ¬ 0 < q.mWeak)
    (hhandle : p.mHandle = handle) (hsound : p.Sound) (hstage : p.stage ≠ .expunged) :
    Coherent ((s.setProxy a p).setEntry handle ⟨some a, some a⟩) := by
  have hlt' : handle < (s.setProxy a p).mHandleToObject.length := hlt
  refine ⟨?_, ?_, ?_⟩
  · intro k b hb
    rw [ProcessState.entry_setEntry hlt'] at hb ⊢
    rw [ProcessState.memory_setEntry, ProcessState.memory_setProxy]
    split at hb
    · rename_i hk
      obtain rfl := Option.some.inj hb
      rw [if_pos rfl, if_pos hk, hk]
      exact ⟨p, rfl, hhandle, hstage, rfl⟩
    · rename_i hk
      rw [ProcessState.entry_setProxy] at hb
      obtain ⟨q, hq, hrest⟩ := h.entries k b hb
      have hne : b ≠ a := by
        intro heq
        rw [heq, hfresh] at hq
        cases hq
      rw [if_neg hne, if_neg hk]
      exact ⟨q, hq, hrest⟩
  · intro b q hq hpos
    rw [ProcessState.memory_setEntry, ProcessState.memory_setProxy] at hq
    rw [ProcessState.entry_setEntry hlt']
    split at hq
    · rename_i heq
      obtain rfl := Option.some.inj hq
      rw [if_pos hhandle, heq]
    · have hold := h.live b q hq hpos
      split
      · rename_i heq
        rw [heq] at hold
        exact absurd hpos (hnone b q hold hq)
      · exact hold
  · intro b q hq
    rw [ProcessState.memory_setEntry, ProcessState.memory_setProxy] at hq
    split at hq
    · obtain rfl := Option.some.inj hq
      exact hsound
    · exact h.sound b q hq

theorem Coherent.create (h : Coherent s) {handle : ℕ} {address : Option ℕ} {first : Proxy → Proxy}
    (hlt : handle < s.mHandleToObject.length)
    (hfresh : ∀ a, address = some a → s.memory a = none)
    (hnone : ∀ b q, (s.entry handle).binder = some b → s.memory b = some q → ¬ 0 < q.mWeak)
    (hhandle : (first (Proxy.new handle)).mHandle = handle)
    (hsound : (first (Proxy.new handle)).Sound)
    (hstage : (first (Proxy.new handle)).stage ≠ .expunged) :
    Coherent (s.create handle address first).2 := by
  unfold ProcessState.create
  cases address with
  | none => exact h.clearEntry hlt hnone
  | some a => exact h.replace hlt (hfresh a rfl) hnone hhandle hsound hstage

/-- A look-up never meets freed memory, keeps the table coherent, and returns the proxy of the
handle that has a reference if there is one. -/
theorem Coherent.lookup (h : Coherent s) {handle : ℕ} {e : LookupEnv} {take : Proxy → Proxy}
    {make : ProcessState → Option ℕ × ProcessState} (htake : Proxy.Takes take)
    (hmake : ∀ s₁ : ProcessState, Coherent s₁ → s₁.memory = s.memory →
      handle < s₁.mHandleToObject.length →
      (∀ b q, (s₁.entry handle).binder = some b → s₁.memory b = some q → ¬ 0 < q.mWeak) →
      Coherent (make s₁).2) :
    ∃ r s', s.lookup handle e take make = .ok (r, s') ∧ Coherent s' ∧
      ∀ b p, s.memory b = some p → p.mHandle = handle → 0 < p.mWeak → r = some b := by
  unfold ProcessState.lookup
  cases htable : lookupHandleLocked s.mHandleToObject handle e.grows with
  | none =>
      refine ⟨none, s, rfl, h, fun b p hp hph hpos => ?_⟩
      -- The entry of a proxy with a reference exists already.
      have hentry := h.live b p hp hpos
      rw [hph] at hentry
      by_cases hlt : handle < s.mHandleToObject.length
      · rw [lookupHandleLocked_of_lt e.grows hlt] at htable
        cases htable
      · simp [ProcessState.entry, List.getElem?_eq_none (not_lt.mp hlt)] at hentry
  | some table =>
      obtain ⟨hlt, hsame⟩ := lookupHandleLocked_spec htable
      have h₁ : Coherent { s with mHandleToObject := table } := h.grow hsame
      obtain ⟨s₁, hs₁⟩ : ∃ s₁ : ProcessState, s₁ = { s with mHandleToObject := table } := ⟨_, rfl⟩
      have hmem : s₁.memory = s.memory := by rw [hs₁]
      have hlen : handle < s₁.mHandleToObject.length := by
        rw [hs₁]
        exact hlt
      rw [← hs₁] at h₁
      simp only [← hs₁]
      cases hb : (s₁.entry handle).binder with
      | none =>
          refine ⟨(make s₁).1, (make s₁).2, rfl, hmake s₁ h₁ hmem hlen ?_, ?_⟩
          · intro b q hb'
            rw [hb] at hb'
            cases hb'
          · intro b p hp hph hpos
            have hentry := h₁.live b p (hmem ▸ hp) hpos
            rw [hph, hb] at hentry
            cases hentry
      | some b =>
          obtain ⟨p, hp, hph, hps, hrefs⟩ := h₁.entries handle b hb
          have hderef : s₁.deref (s₁.entry handle).refs = .ok (b, p) := by
            simp only [ProcessState.deref, hrefs, hp]
          simp only [hderef]
          by_cases hpos : 0 < p.mWeak
          · refine ⟨some b, s₁.setProxy b (take p.incWeak).decWeak, ?_, ?_, ?_⟩
            · rw [except_bind_ok rfl]
              simp only [hpos, if_true]
              rfl
            · exact h₁.setProxy hp hpos (htake.handle p) (htake.sound p (h₁.sound b p hp) hpos)
                (htake.stage p (h₁.sound b p hp) hpos)
            · intro c q hq hqh hqpos
              have hentry := h₁.live c q (hmem ▸ hq) hqpos
              rw [hqh, hb] at hentry
              exact hentry
          · refine ⟨(make s₁).1, (make s₁).2, ?_, hmake s₁ h₁ hmem hlen ?_, ?_⟩
            · rw [except_bind_ok rfl]
              simp only [hpos, if_false]
              rfl
            · intro c q hc hq
              rw [hb] at hc
              obtain rfl := Option.some.inj hc
              rw [hp] at hq
              obtain rfl := Option.some.inj hq
              exact hpos
            · intro c q hq hqh hqpos
              have hentry := h₁.live c q (hmem ▸ hq) hqpos
              rw [hqh, hb] at hentry
              obtain rfl := Option.some.inj hentry
              rw [← hmem, hp] at hq
              obtain rfl := Option.some.inj hq
              exact absurd hqpos hpos

theorem Coherent.getStrong (h : Coherent s) {handle : ℕ} {e : LookupEnv}
    (hfresh : ∀ a, e.address = some a → s.memory a = none) :
    ∃ r s', s.getStrongProxyForHandle handle e = .ok (r, s') ∧ Coherent s' ∧
      ∀ b p, s.memory b = some p → p.mHandle = handle → 0 < p.mWeak → r = some b := by
  refine h.lookup Proxy.takes_incStrong fun s₁ h₁ hmem hlt hnone => ?_
  split
  · exact h₁
  · exact h₁.create hlt (hmem ▸ hfresh) hnone rfl (Proxy.sound_new handle).2
      (by simp [Proxy.new, Proxy.incStrong, Proxy.incWeak])

theorem Coherent.getStrong_live (h : Coherent s) {b : ℕ} {p : Proxy} (e : LookupEnv)
    (hb : s.memory b = some p) (hpos : 0 < p.mWeak) :
    s.getStrongProxyForHandle p.mHandle e =
      .ok (some b, s.setProxy b p.incWeak.incStrong.decWeak) := by
  have hentry := h.live b p hb hpos
  obtain ⟨-, -, -, -, hrefs⟩ := h.entries p.mHandle b hentry
  have hlt : p.mHandle < s.mHandleToObject.length := by
    by_contra hge
    simp [ProcessState.entry, List.getElem?_eq_none (not_lt.mp hge)] at hentry
  have hderef : s.deref (s.entry p.mHandle).refs = .ok (b, p) := by
    simp only [ProcessState.deref, hrefs, hb]
  unfold ProcessState.getStrongProxyForHandle ProcessState.lookup
  simp only [lookupHandleLocked_of_lt e.grows hlt, hentry, hderef]
  rw [except_bind_ok rfl]
  simp only [hpos, if_true]
  rfl

theorem Coherent.getWeak (h : Coherent s) {handle : ℕ} {e : LookupEnv}
    (hfresh : ∀ a, e.address = some a → s.memory a = none) :
    ∃ r s', s.getWeakProxyForHandle handle e = .ok (r, s') ∧ Coherent s' ∧
      ∀ b p, s.memory b = some p → p.mHandle = handle → 0 < p.mWeak → r = some b :=
  h.lookup Proxy.takes_incWeak fun s₁ h₁ hmem hlt hnone =>
    h₁.create hlt (hmem ▸ hfresh) hnone rfl (Proxy.sound_new handle).1
      (by simp [Proxy.new, Proxy.incWeak])

/-- `expungeHandle` empties the entry of the handle if it leads to the binder, and changes no
entry else. -/
theorem entry_expungeHandle (s : ProcessState) (handle b : ℕ) (grows : Bool) (k : ℕ) :
    (s.expungeHandle handle b grows).entry k =
      if k = handle ∧ (s.entry k).binder = some b then { s.entry k with binder := none }
      else s.entry k := by
  unfold ProcessState.expungeHandle
  cases htable : lookupHandleLocked s.mHandleToObject handle grows with
  | none =>
      rw [if_neg]
      rintro ⟨rfl, hb⟩
      by_cases hlt : k < s.mHandleToObject.length
      · rw [lookupHandleLocked_of_lt grows hlt] at htable
        cases htable
      · simp [ProcessState.entry, List.getElem?_eq_none (not_lt.mp hlt)] at hb
  | some table =>
      obtain ⟨hlt, hsame⟩ := lookupHandleLocked_spec htable
      have hentry (j : ℕ) :
          ({ s with mHandleToObject := table } : ProcessState).entry j = s.entry j := hsame j
      simp only [hentry]
      split
      · rename_i hb
        rw [ProcessState.entry_setEntry hlt, hentry]
        by_cases hk : k = handle
        · subst hk
          rw [if_pos rfl, if_pos ⟨rfl, hb⟩]
        · rw [if_neg hk, if_neg fun hc => hk hc.1]
      · rename_i hb
        rw [hentry, if_neg]
        rintro ⟨rfl, hc⟩
        exact hb hc

@[simp] theorem memory_expungeHandle (s : ProcessState) (handle b : ℕ) (grows : Bool) :
    (s.expungeHandle handle b grows).memory = s.memory := by
  unfold ProcessState.expungeHandle
  cases lookupHandleLocked s.mHandleToObject handle grows with
  | none => rfl
  | some table =>
      dsimp only
      split <;> rfl

theorem Coherent.destructor (h : Coherent s) {b : ℕ} {p : Proxy} {grows : Bool}
    (hb : s.memory b = some p) (hstage : p.stage = .destroying) :
    Coherent ((s.expungeHandle p.mHandle b grows).setProxy b { p with stage := .expunged }) := by
  have hsound := h.sound b p hb
  have hdead : ¬ 0 < p.mWeak := by
    intro hpos
    have := hsound.stage.mpr hpos
    rw [hstage] at this
    cases this
  refine ⟨fun k c hc => ?_, fun c q hq hpos => ?_, fun c q hq => ?_⟩
  · rw [ProcessState.entry_setProxy, entry_expungeHandle] at hc ⊢
    split at hc
    · cases hc
    · rename_i hne
      obtain ⟨q, hq, hqk, hqs, hrefs⟩ := h.entries k c hc
      have hcb : c ≠ b := by
        intro heq
        rw [heq, hb] at hq
        obtain rfl := Option.some.inj hq
        exact hne ⟨hqk.symm, by rw [hc, heq]⟩
      rw [ProcessState.memory_setProxy, if_neg hcb, memory_expungeHandle, if_neg hne]
      exact ⟨q, hq, hqk, hqs, hrefs⟩
  · rw [ProcessState.memory_setProxy, memory_expungeHandle] at hq
    rw [ProcessState.entry_setProxy, entry_expungeHandle]
    split at hq
    · obtain rfl := Option.some.inj hq
      exact absurd hpos hdead
    · rename_i hcb
      have hentry := h.live c q hq hpos
      rw [if_neg]
      · exact hentry
      · rintro ⟨-, hcon⟩
        rw [hentry] at hcon
        exact hcb (Option.some.inj hcon)
  · rw [ProcessState.memory_setProxy, memory_expungeHandle] at hq
    split at hq
    · obtain rfl := Option.some.inj hq
      refine ⟨?_, hsound.strong, hsound.weak⟩
      simp only [reduceCtorEq, false_iff]
      exact hdead
    · exact h.sound c q hq

theorem Coherent.free (h : Coherent s) {b : ℕ} {p : Proxy} (hb : s.memory b = some p)
    (hstage : p.stage = .expunged) :
    Coherent { s with memory := Function.update s.memory b none } := by
  have hmem (c : ℕ) (q : Proxy) (hq : Function.update s.memory b none c = some q) :
      s.memory c = some q := by
    rw [Function.update_apply] at hq
    split at hq
    · cases hq
    · exact hq
  refine ⟨fun k c hc => ?_, fun c q hq => h.live c q (hmem c q hq), fun c q hq =>
    h.sound c q (hmem c q hq)⟩
  obtain ⟨q, hq, hqk, hqs, hrefs⟩ := h.entries k c hc
  have hcb : c ≠ b := by
    intro heq
    rw [heq, hb] at hq
    obtain rfl := Option.some.inj hq
    exact hqs hstage
  have hq' : Function.update s.memory b none c = some q := by
    rw [Function.update_of_ne hcb]
    exact hq
  exact ⟨q, hq', hqk, hqs, hrefs⟩

/-- Every step that the threads may take finds the memory it uses, and keeps the table
coherent. -/
theorem Coherent.step (h : Coherent s) {a : Act} (hok : Allowed s a) :
    ∃ s', step s a = .ok s' ∧ Coherent s' := by
  cases a with
  | getStrong handle e =>
      obtain ⟨r, s', hs', hc, -⟩ :
          ∃ r s', s.getStrongProxyForHandle handle e = .ok (r, s') ∧ Coherent s' ∧ _ :=
        h.getStrong hok
      exact ⟨s', by simp only [ProxyTable.step, hs']; rfl, hc⟩
  | getWeak handle e =>
      obtain ⟨r, s', hs', hc, -⟩ :
          ∃ r s', s.getWeakProxyForHandle handle e = .ok (r, s') ∧ Coherent s' ∧ _ :=
        h.getWeak hok
      exact ⟨s', by simp only [ProxyTable.step, hs']; rfl, hc⟩
  | copyStrong b =>
      obtain ⟨p, hp, hpos⟩ := hok
      rw [Option.mem_def] at hp
      refine ⟨s.setProxy b p.incStrong, by simp only [ProxyTable.step, ProcessState.count, hp],
        h.setProxy hp hpos rfl ((h.sound b p hp).incStrong hpos) ?_⟩
      have hstage : p.incStrong.stage = p.stage := rfl
      rw [hstage, (h.sound b p hp).stage.mpr hpos]
      decide
  | copyWeak b =>
      obtain ⟨p, hp, hpos⟩ := hok
      rw [Option.mem_def] at hp
      refine ⟨s.setProxy b p.incWeak, by simp only [ProxyTable.step, ProcessState.count, hp],
        h.setProxy hp hpos rfl ((h.sound b p hp).incWeak hpos) ?_⟩
      have hstage : p.incWeak.stage = p.stage := rfl
      rw [hstage, (h.sound b p hp).stage.mpr hpos]
      decide
  | dropStrong b =>
      obtain ⟨p, hp, hpos⟩ := hok
      rw [Option.mem_def] at hp
      have hsound := h.sound b p hp
      have hweak := hsound.weak
      refine ⟨s.setProxy b p.decStrong, by simp only [ProxyTable.step, ProcessState.count, hp],
        h.setProxy hp (by omega) rfl (hsound.decStrong hpos) ?_⟩
      have hstage : p.decStrong.stage = p.decWeak.stage := rfl
      rw [hstage]
      exact Proxy.stage_decWeak hsound (by omega)
  | dropWeak b =>
      obtain ⟨p, hp, hlt⟩ := hok
      rw [Option.mem_def] at hp
      have hsound := h.sound b p hp
      have hstrong := hsound.strong
      exact ⟨s.setProxy b p.decWeak, by simp only [ProxyTable.step, ProcessState.count, hp],
        h.setProxy hp (by omega) rfl (hsound.decWeak hlt)
          (Proxy.stage_decWeak hsound (by omega))⟩
  | destructor b grows =>
      obtain ⟨p, hp, hstage⟩ := hok
      rw [Option.mem_def] at hp
      exact ⟨_, by simp only [ProxyTable.step, hp]; rfl, h.destructor hp hstage⟩
  | free b =>
      obtain ⟨p, hp, hstage⟩ := hok
      rw [Option.mem_def] at hp
      exact ⟨_, rfl, h.free hp hstage⟩

theorem coherent_of_reach (h : Reach step Allowed init s) : Coherent s :=
  h.invariant coherent_init fun s a s' hs hok hstep => by
    obtain ⟨s₁, hs₁, hc⟩ := hs.step hok
    rw [hstep] at hs₁
    obtain rfl := Except.ok.inj hs₁
    exact hc

end Steps

/-- The last reference of a proxy is dropped, a look-up installs a second proxy, and the
destructor of the first comes after it. -/
def replaced : List Act :=
  [.getStrong 1 ⟨true, some 10, false⟩, .dropStrong 10, .getStrong 1 ⟨true, some 20, false⟩,
    .destructor 10 true, .free 10]

end ProxyTable

end BinderForLinux
