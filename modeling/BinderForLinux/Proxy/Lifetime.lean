import BinderForLinux.RefBase.Runs

/-!
# The reference commands of a proxy

`RefBase` with its virtual functions, one operation executed at a time, and `BpBinder`
as an object of an extended lifetime: what its callbacks send to the driver. The
counters with any number of threads are in `RefBase`; here it is what the counters make
the callbacks do.
-/

namespace BinderForLinux

namespace ProxyLifetime

open Library RefBase

/-! ### Objects with callbacks -/

/-- `OBJECT_LIFETIME_STRONG` and `OBJECT_LIFETIME_WEAK`. -/
inductive Lifetime
  | strong
  | weak
  deriving DecidableEq, Repr

/-- The virtual functions of a class derived from `RefBase`, and its destructor. -/
structure Virtuals (D : Type) where
  onFirstRef : D → D
  onLastStrongRef : D → D
  onIncStrongAttempted : D → Bool × D
  onLastWeakRef : D → D
  destructor : D → D

/-- An object with its `weakref_impl`. -/
structure Object (D : Type) where
  mStrong : ℤ
  mWeak : ℤ
  lifetime : Lifetime
  base : D
  destroyed : Bool

section Operations

variable {D : Type} (V : Virtuals D)

def Object.delete (o : Object D) : Object D :=
  { o with base := V.destructor o.base, destroyed := true }

def Object.incWeak (o : Object D) : Object D :=
  { o with mWeak := androidAtomicAdd 1 o.mWeak }

def Object.decWeak (o : Object D) : Object D :=
  let c := o.mWeak
  let o := { o with mWeak := androidAtomicAdd (-1) o.mWeak }
  if c ≠ 1 then o
  else
    match o.lifetime with
    | .strong => if o.mStrong = initialStrongValue then o.delete V else o
    | .weak => { o with base := V.onLastWeakRef o.base }.delete V

def Object.incStrong (o : Object D) : Object D :=
  let o := o.incWeak
  let c := o.mStrong
  let o := { o with mStrong := androidAtomicAdd 1 o.mStrong }
  if c ≠ initialStrongValue then o
  else
    { o with
      mStrong := androidAtomicAdd (-initialStrongValue) o.mStrong
      base := V.onFirstRef o.base }

def Object.decStrong (o : Object D) : Object D :=
  let c := o.mStrong
  let o := { o with mStrong := androidAtomicAdd (-1) o.mStrong }
  let o :=
    if c = 1 then
      let o := { o with base := V.onLastStrongRef o.base }
      if o.lifetime = .strong then o.delete V else o
    else o
  o.decWeak V

def Object.forceIncStrong (o : Object D) : Object D :=
  let o := o.incWeak
  let c := o.mStrong
  let o := { o with mStrong := androidAtomicAdd 1 o.mStrong }
  if c = initialStrongValue then
    { o with
      mStrong := androidAtomicAdd (-initialStrongValue) o.mStrong
      base := V.onFirstRef o.base }
  else if c = 0 then { o with base := V.onFirstRef o.base }
  else o

/-- The last loop of `attemptIncStrong`. -/
def Object.fixUp (o : Object D) : Object D :=
  if initialStrongValue ≤ o.mStrong then { o with mStrong := o.mStrong - initialStrongValue } else o

def Object.attemptIncStrong (o : Object D) : Bool × Object D :=
  let o := o.incWeak
  let curCount := o.mStrong
  if 0 < curCount ∧ curCount ≠ initialStrongValue then
    (true, { o with mStrong := androidAtomicAdd 1 curCount }.fixUp)
  else
    match o.lifetime with
    | .strong =>
        if curCount ≤ 0 then (false, o.decWeak V)
        else (true, { o with mStrong := androidAtomicAdd 1 curCount }.fixUp)
    | .weak =>
        let r := V.onIncStrongAttempted o.base
        let o := { o with base := r.2 }
        if !r.1 then (false, o.decWeak V)
        else
          let o := { o with mStrong := androidAtomicAdd 1 o.mStrong }
          let o :=
            if 0 < curCount ∧ curCount < initialStrongValue then
              { o with base := V.onLastStrongRef o.base }
            else o
          (true, o.fixUp)

def Object.attemptIncWeak (o : Object D) : Bool × Object D :=
  if 0 < o.mWeak then (true, { o with mWeak := androidAtomicAdd 1 o.mWeak }) else (false, o)

end Operations

/-! ### The proxy -/

/-- A command for the handle of a proxy, as it is put into `mOut`. -/
inductive Sent
  | increfs (handle : ℤ)
  | acquire (handle : ℤ)
  | release (handle : ℤ)
  | decrefs (handle : ℤ)
  | clearDeathNotification (handle : ℤ)
  deriving DecidableEq, Repr

/-- What the callbacks of a `BpBinder` use: whether there are death links, and what was sent. -/
structure Binder where
  mHandle : ℤ
  mObituaries : Bool
  sent : List Sent
  deriving DecidableEq, Repr

/-- `NO_ERROR` and `INVALID_OPERATION`. -/
inductive Status
  | noError
  | invalidOperation
  deriving DecidableEq, Repr

/-- `IPCThreadState::attemptIncStrongHandle`, without `HAS_BC_ATTEMPT_ACQUIRE`. -/
def attemptIncStrongHandle : Status := .invalidOperation

/-- Send a command if the thread has an `IPCThreadState`, which it has until the shutdown. -/
def Binder.send (ipc : Bool) (b : Binder) (c : Sent) : Binder :=
  if ipc then { b with sent := b.sent ++ [c] } else b

/-- `BpBinder`. The destructor also takes the proxy out of the table of the process. -/
def bpBinder (ipc : Bool) : Virtuals Binder where
  onFirstRef := fun b => b.send ipc (.acquire b.mHandle)
  onLastStrongRef := fun b => b.send ipc (.release b.mHandle)
  onIncStrongAttempted := fun b => (ipc && decide (attemptIncStrongHandle = .noError), b)
  onLastWeakRef := id
  destructor := fun b =>
    let b :=
      if b.mObituaries then
        { b.send ipc (.clearDeathNotification b.mHandle) with mObituaries := false }
      else b
    b.send ipc (.decrefs b.mHandle)

def newBinder (handle : ℤ) : Object Binder where
  mStrong := initialStrongValue
  mWeak := 0
  lifetime := .weak
  base := { mHandle := handle, mObituaries := false, sent := [.increfs handle] }
  destroyed := false

/-! ### Runs -/

/-- The operations of `sp` and `wp`, each with whether the thread has an `IPCThreadState`. -/
inductive Op
  | incStrong
  | decStrong
  | incWeak
  | decWeak
  | attemptIncStrong
  | attemptIncWeak
  | forceIncStrong
  deriving DecidableEq, Repr

structure Act where
  op : Op
  ipc : Bool
  deriving DecidableEq, Repr

/-- A proxy with the references that are held on it, and whether there ever was a strong
reference and a reference at all. -/
structure World where
  object : Object Binder
  strong : ℕ
  weak : ℕ
  everStrong : Bool
  everHeld : Bool

def World.new (handle : ℤ) : World where
  object := newBinder handle
  strong := 0
  weak := 0
  everStrong := false
  everHeld := false

/-- The world after the object has become `o` and one more strong reference is held. -/
def World.gainStrong (w : World) (o : Object Binder) : World :=
  { object := o, strong := w.strong + 1, weak := w.weak, everStrong := true, everHeld := true }

def World.act (w : World) (a : Act) : World :=
  match a.op with
  | .incStrong => w.gainStrong (w.object.incStrong (bpBinder a.ipc))
  | .decStrong =>
      { w with object := w.object.decStrong (bpBinder a.ipc), strong := w.strong - 1 }
  | .incWeak => { w with object := w.object.incWeak, weak := w.weak + 1, everHeld := true }
  | .decWeak => { w with object := w.object.decWeak (bpBinder a.ipc), weak := w.weak - 1 }
  | .attemptIncStrong =>
      let r := w.object.attemptIncStrong (bpBinder a.ipc)
      if r.1 then w.gainStrong r.2 else { w with object := r.2 }
  | .attemptIncWeak =>
      let r := w.object.attemptIncWeak
      if r.1 then { w with object := r.2, weak := w.weak + 1 } else { w with object := r.2 }
  | .forceIncStrong => w.gainStrong (w.object.forceIncStrong (bpBinder a.ipc))

def step (w : World) (a : Act) : Except Empty World := .ok (w.act a)

/-- What the holders keep to: the object is there, a reference that is given up is held, a strong
reference is counted up while there is one or for the first time, and a weak reference is promoted
by someone who holds a reference. -/
def Legal (w : World) (a : Act) : Prop :=
  w.object.destroyed = false ∧
    match a.op with
    | .incStrong => 0 < w.strong ∨ w.everStrong = false
    | .decStrong => 0 < w.strong
    | .decWeak => 0 < w.weak
    | .attemptIncStrong => 0 < w.strong + w.weak
    | _ => True

/-- The thread has an `IPCThreadState`, and the references stay within what the counters can tell:
a count of `INITIAL_STRONG_VALUE` stands for no strong reference at all. -/
def Fits (w : World) (a : Act) : Prop :=
  a.ipc = true ∧
    match a.op with
    | .incStrong | .forceIncStrong => w.strong < 2 ^ 28 ∧ w.strong + w.weak < 2 ^ 32
    | .attemptIncStrong => w.strong + 1 ≠ 2 ^ 28 ∧ w.strong + w.weak < 2 ^ 32
    | .incWeak | .attemptIncWeak => w.strong + w.weak < 2 ^ 32
    | _ => True

instance (w : World) : (a : Act) → Decidable (Legal w a)
  | ⟨.incStrong, _⟩ => inferInstanceAs (Decidable (_ ∧ (_ ∨ _)))
  | ⟨.decStrong, _⟩ => inferInstanceAs (Decidable (_ ∧ _ < _))
  | ⟨.decWeak, _⟩ => inferInstanceAs (Decidable (_ ∧ _ < _))
  | ⟨.attemptIncStrong, _⟩ => inferInstanceAs (Decidable (_ ∧ _ < _))
  | ⟨.incWeak, _⟩ => inferInstanceAs (Decidable (_ ∧ True))
  | ⟨.attemptIncWeak, _⟩ => inferInstanceAs (Decidable (_ ∧ True))
  | ⟨.forceIncStrong, _⟩ => inferInstanceAs (Decidable (_ ∧ True))

instance (w : World) : (a : Act) → Decidable (Fits w a)
  | ⟨.incStrong, _⟩ => inferInstanceAs (Decidable (_ ∧ _ ∧ _))
  | ⟨.forceIncStrong, _⟩ => inferInstanceAs (Decidable (_ ∧ _ ∧ _))
  | ⟨.attemptIncStrong, _⟩ => inferInstanceAs (Decidable (_ ∧ _ ∧ _))
  | ⟨.incWeak, _⟩ => inferInstanceAs (Decidable (_ ∧ _))
  | ⟨.attemptIncWeak, _⟩ => inferInstanceAs (Decidable (_ ∧ _))
  | ⟨.decStrong, _⟩ => inferInstanceAs (Decidable (_ ∧ True))
  | ⟨.decWeak, _⟩ => inferInstanceAs (Decidable (_ ∧ True))

/-- The commands of a proxy that was acquired and released `n` times. -/
def pairs (h : ℤ) (n : ℕ) : List Sent := (List.replicate n [.acquire h, .release h]).flatten

/-- The commands of a proxy from its constructor to its destructor. -/
def wholeLife (h : ℤ) (n : ℕ) : List Sent := .increfs h :: pairs h n ++ [.decrefs h]

/-- The commands so far are the start of a whole life; a `BC_ACQUIRE` is outstanding while a strong
reference is held; and `BC_DECREFS` is sent once, when the last reference goes and with it the
object. -/
structure Disciplined (h : ℤ) (w : World) : Prop where
  starts : ∃ n, w.object.base.sent <+: wholeLife h n
  outstanding : w.object.base.sent.count (.acquire h) =
    w.object.base.sent.count (.release h) + if 0 < w.strong then 1 else 0
  decrefs : w.object.base.sent.count (.decrefs h) = if w.object.destroyed then 1 else 0
  destroyed : w.object.destroyed = true ↔ w.everHeld = true ∧ w.strong + w.weak = 0

/-! ### The invariant -/

/-- What an `int32_t` that was counted up from zero to `t` holds. -/
@[irreducible] def counter (t : ℕ) : ℤ := Int.bmod t (2 ^ 32)

/-- What has been sent after `n` times, with a strong reference held or not, and the object
destroyed or not. -/
def script (h : ℤ) (n : ℕ) (acquired gone : Bool) : List Sent :=
  .increfs h :: pairs h n ++ (if acquired then [.acquire h] else []) ++
    if gone then [.decrefs h] else []

structure Inv (h : ℤ) (w : World) : Prop where
  lifetime : w.object.lifetime = .weak
  handle : w.object.base.mHandle = h
  unlinked : w.object.base.mObituaries = false
  mWeak : w.object.mWeak = counter (w.strong + w.weak)
  weak_le : w.strong + w.weak ≤ 2 ^ 32
  mStrong : w.object.mStrong = if w.everStrong then (w.strong : ℤ) else initialStrongValue
  strong_le : w.strong ≤ 2 ^ 28
  never : w.everStrong = false → w.strong = 0
  ever : 0 < w.strong + w.weak → w.everHeld = true
  destroyed : w.object.destroyed = true ↔ w.everHeld = true ∧ w.strong + w.weak = 0
  sent : ∃ n, w.object.base.sent = script h n (decide (0 < w.strong)) w.object.destroyed

section Script

variable {h : ℤ} {n : ℕ}

theorem pairs_succ (h : ℤ) (n : ℕ) : pairs h (n + 1) = pairs h n ++ [.acquire h, .release h] := by
  rw [pairs, List.replicate_succ', List.flatten_append, pairs]
  simp

theorem script_acquire (h : ℤ) (n : ℕ) :
    script h n false false ++ [.acquire h] = script h n true false := by
  simp [script]

theorem script_release (h : ℤ) (n : ℕ) :
    script h n true false ++ [.release h] = script h (n + 1) false false := by
  simp [script, pairs_succ]

theorem script_decrefs (h : ℤ) (n : ℕ) :
    script h n false false ++ [.decrefs h] = script h n false true := by
  simp [script]

theorem script_prefix {acquired gone : Bool} (hgone : gone = true → acquired = false) :
    ∃ m, script h n acquired gone <+: wholeLife h m := by
  cases gone with
  | true => exact ⟨n, by simp [script, wholeLife, hgone rfl]⟩
  | false =>
      cases acquired with
      | true => exact ⟨n + 1, [.release h, .decrefs h], by simp [script, wholeLife, pairs_succ]⟩
      | false => exact ⟨n, [.decrefs h], by simp [script, wholeLife]⟩

theorem count_pairs (h : ℤ) (n : ℕ) : (pairs h n).count (.acquire h) = n ∧
    (pairs h n).count (.release h) = n ∧ (pairs h n).count (.decrefs h) = 0 := by
  induction n with
  | zero => simp [pairs]
  | succ n ih =>
      rw [pairs_succ]
      simp [ih.1, ih.2.1, ih.2.2]

end Script

/-! ### The counters -/

section Counters

variable {t : ℕ}

@[simp] theorem counter_zero : counter 0 = 0 := by
  unfold counter
  rfl

theorem add_counter (t : ℕ) : androidAtomicAdd 1 (counter t) = counter (t + 1) := by
  unfold androidAtomicAdd counter
  rw [Int.bmod_add_bmod]
  norm_cast

theorem sub_counter (t : ℕ) : androidAtomicAdd (-1) (counter (t + 1)) = counter t := by
  unfold androidAtomicAdd counter
  rw [Int.bmod_add_bmod]
  congr 1
  omega

theorem counter_eq_one (hpos : 0 < t) (hle : t ≤ 2 ^ 32) : counter t = 1 ↔ t = 1 := by
  constructor
  · intro h
    unfold counter at h
    rw [Int.bmod_def] at h
    split at h <;> omega
  · rintro rfl
    unfold counter
    rfl

end Counters

theorem Inv.disciplined {h : ℤ} {w : World} (hw : Inv h w) : Disciplined h w := by
  obtain ⟨n, hsent⟩ := hw.sent
  obtain ⟨hacquire, hrelease, hdecrefs⟩ := count_pairs h n
  refine ⟨?_, ?_, ?_, hw.destroyed⟩
  · rw [hsent]
    refine script_prefix fun hgone => ?_
    have := (hw.destroyed.mp hgone).2
    exact decide_eq_false (by omega)
  · rw [hsent, script]
    by_cases hpos : 0 < w.strong <;> cases w.object.destroyed <;>
      simp [hacquire, hrelease, hpos]
  · rw [hsent, script]
    by_cases hpos : 0 < w.strong <;> cases w.object.destroyed <;>
      simp [hdecrefs, hpos]

theorem inv_new (h : ℤ) : Inv h (World.new h) := by
  refine ⟨rfl, rfl, rfl, ?_, Nat.zero_le _, rfl, Nat.zero_le _, fun _ => rfl, ?_, ?_, 0, rfl⟩
  · simp [World.new, newBinder]
  · simp [World.new]
  · simp [World.new, newBinder]

/-! ### The operations -/

/-- An object that is alive, with `s` strong references and `t` references counted. -/
structure Counted (h : ℤ) (o : Object Binder) (s t : ℕ) (everStrong : Bool) : Prop where
  lifetime : o.lifetime = .weak
  handle : o.base.mHandle = h
  unlinked : o.base.mObituaries = false
  alive : o.destroyed = false
  mWeak : o.mWeak = counter t
  mStrong : o.mStrong = if everStrong then (s : ℤ) else initialStrongValue
  never : everStrong = false → s = 0
  sent : ∃ n, o.base.sent = script h n (decide (0 < s)) false

section Counted

variable {h : ℤ} {o : Object Binder} {s t k : ℕ} {e : Bool}

theorem Inv.counted {w : World} (hw : Inv h w) (halive : w.object.destroyed = false) :
    Counted h w.object w.strong (w.strong + w.weak) w.everStrong := by
  obtain ⟨n, hsent⟩ := hw.sent
  exact ⟨hw.lifetime, hw.handle, hw.unlinked, halive, hw.mWeak, hw.mStrong, hw.never, n,
    halive ▸ hsent⟩

theorem Counted.inv (hc : Counted h o s (s + k) e) (hs : s ≤ 2 ^ 28) (hk : s + k ≤ 2 ^ 32)
    (hpos : 0 < s + k) :
    Inv h { object := o, strong := s, weak := k, everStrong := e, everHeld := true } := by
  obtain ⟨n, hsent⟩ := hc.sent
  refine ⟨hc.lifetime, hc.handle, hc.unlinked, hc.mWeak, hk, hc.mStrong, hs, hc.never,
    fun _ => rfl, ?_, n, ?_⟩
  · simp only [hc.alive, Bool.false_eq_true, false_iff, not_and]
    intro _
    omega
  · simp only [hc.alive]
    exact hsent

theorem Counted.incWeak (hc : Counted h o s t e) : Counted h o.incWeak s (t + 1) e := by
  refine ⟨hc.lifetime, hc.handle, hc.unlinked, hc.alive, ?_, hc.mStrong, hc.never, hc.sent⟩
  simp only [Object.incWeak, hc.mWeak, add_counter]

theorem Counted.decWeak_inv (hc : Counted h o s (s + k + 1) e) (hs : s ≤ 2 ^ 28)
    (hk : s + k + 1 ≤ 2 ^ 32) :
    Inv h { object := o.decWeak (bpBinder true), strong := s, weak := k, everStrong := e,
            everHeld := true } := by
  obtain ⟨n, hsent⟩ := hc.sent
  have hback : androidAtomicAdd (-1) o.mWeak = counter (s + k) := by rw [hc.mWeak, sub_counter]
  have hone : o.mWeak = 1 ↔ s + k = 0 := by
    rw [hc.mWeak, counter_eq_one (Nat.succ_pos _) hk]
    omega
  by_cases hlast : s + k = 0
  · obtain ⟨rfl, rfl⟩ : s = 0 ∧ k = 0 := by omega
    have hdec : o.decWeak (bpBinder true) =
        { o with
          mWeak := counter 0
          base := { o.base with sent := o.base.sent ++ [.decrefs h] }
          destroyed := true } := by
      rw [Object.decWeak, if_neg (fun hne => hne (hone.mpr hlast)), hback]
      simp only [hc.lifetime, Object.delete, bpBinder, Binder.send, hc.unlinked, hc.handle, id,
        Bool.false_eq_true, if_false, if_true]
    rw [hdec]
    refine ⟨hc.lifetime, hc.handle, hc.unlinked, rfl, Nat.zero_le _, hc.mStrong, hs, hc.never,
      fun _ => rfl, by simp, n, ?_⟩
    simp [hsent, script_decrefs]
  · have hdec : o.decWeak (bpBinder true) = { o with mWeak := counter (s + k) } := by
      rw [Object.decWeak, if_pos (fun h1 => hlast (hone.mp h1)), hback]
    rw [hdec]
    have hc' : Counted h { o with mWeak := counter (s + k) } s (s + k) e :=
      ⟨hc.lifetime, hc.handle, hc.unlinked, hc.alive, rfl, hc.mStrong, hc.never, n, hsent⟩
    exact hc'.inv hs (by omega) (Nat.pos_of_ne_zero hlast)

theorem first_count : androidAtomicAdd (-initialStrongValue)
    (androidAtomicAdd 1 initialStrongValue) = 1 := by
  decide

theorem add_strong (hs : s < 2 ^ 28) : androidAtomicAdd 1 (s : ℤ) = (s + 1 : ℕ) := by
  rw [androidAtomicAdd_eq (by omega) (by omega)]
  norm_cast

/-- The first strong reference, or the first one again: `BC_ACQUIRE` is sent. -/
theorem Counted.onFirstRef {v w : ℤ} (hc : Counted h o 0 t e) (hv : v = 1)
    (hw : w = counter (t + 1)) :
    Counted h { o with mWeak := w, mStrong := v, base := (bpBinder true).onFirstRef o.base } 1
      (t + 1) true := by
  obtain ⟨n, hsent⟩ := hc.sent
  refine ⟨hc.lifetime, hc.handle, hc.unlinked, hc.alive, hw, by simp [hv], by simp, n, ?_⟩
  simp [bpBinder, Binder.send, hsent, hc.handle, script_acquire]

theorem Counted.another {v w : ℤ} (hc : Counted h o s t true) (hpos : 0 < s) (hv : v = (s + 1 : ℕ))
    (hw : w = counter (t + 1)) :
    Counted h { o with mWeak := w, mStrong := v } (s + 1) (t + 1) true := by
  obtain ⟨n, hsent⟩ := hc.sent
  refine ⟨hc.lifetime, hc.handle, hc.unlinked, hc.alive, hw, by simpa using hv, by simp, n, ?_⟩
  simpa [hpos] using hsent

theorem Counted.incStrong (hc : Counted h o s t e) (hs : s < 2 ^ 28)
    (hlegal : 0 < s ∨ e = false) :
    Counted h (o.incStrong (bpBinder true)) (s + 1) (t + 1) true := by
  have hweak : androidAtomicAdd 1 o.mWeak = counter (t + 1) := by rw [hc.mWeak, add_counter]
  cases e with
  | false =>
      obtain rfl := hc.never rfl
      have hcount : o.mStrong = initialStrongValue := hc.mStrong
      have heq : o.incStrong (bpBinder true) =
          { o with
            mWeak := androidAtomicAdd 1 o.mWeak
            mStrong := androidAtomicAdd (-initialStrongValue) (androidAtomicAdd 1 o.mStrong)
            base := (bpBinder true).onFirstRef o.base } :=
        if_neg (not_not.mpr hcount)
      rw [heq]
      exact hc.onFirstRef (hcount ▸ first_count) hweak
  | true =>
      have hpos : 0 < s := hlegal.resolve_right (by simp)
      have hcount : o.mStrong = (s : ℤ) := hc.mStrong
      have hne : o.mStrong ≠ initialStrongValue := by
        rw [hcount, initialStrongValue]
        omega
      have heq : o.incStrong (bpBinder true) =
          { o with
            mWeak := androidAtomicAdd 1 o.mWeak
            mStrong := androidAtomicAdd 1 o.mStrong } :=
        if_pos hne
      rw [heq]
      exact hc.another hpos (by rw [hcount, add_strong hs]) hweak

theorem Counted.forceIncStrong (hc : Counted h o s t e) (hs : s < 2 ^ 28) :
    Counted h (o.forceIncStrong (bpBinder true)) (s + 1) (t + 1) true := by
  have hweak : androidAtomicAdd 1 o.mWeak = counter (t + 1) := by rw [hc.mWeak, add_counter]
  cases e with
  | false =>
      obtain rfl := hc.never rfl
      have hcount : o.mStrong = initialStrongValue := hc.mStrong
      have heq : o.forceIncStrong (bpBinder true) =
          { o with
            mWeak := androidAtomicAdd 1 o.mWeak
            mStrong := androidAtomicAdd (-initialStrongValue) (androidAtomicAdd 1 o.mStrong)
            base := (bpBinder true).onFirstRef o.base } :=
        if_pos hcount
      rw [heq]
      exact hc.onFirstRef (hcount ▸ first_count) hweak
  | true =>
      have hcount : o.mStrong = (s : ℤ) := hc.mStrong
      have hne : o.mStrong ≠ initialStrongValue := by
        rw [hcount, initialStrongValue]
        omega
      have heq : o.forceIncStrong (bpBinder true) =
          if o.mStrong = 0 then
            { o with
              mWeak := androidAtomicAdd 1 o.mWeak
              mStrong := androidAtomicAdd 1 o.mStrong
              base := (bpBinder true).onFirstRef o.base }
          else
            { o with
              mWeak := androidAtomicAdd 1 o.mWeak
              mStrong := androidAtomicAdd 1 o.mStrong } :=
        if_neg hne
      rw [heq]
      rcases Nat.eq_zero_or_pos s with rfl | hpos
      · rw [if_pos (by simpa using hcount)]
        exact hc.onFirstRef (by rw [hcount, add_strong hs]; rfl) hweak
      · rw [if_neg (by rw [hcount]; omega)]
        exact hc.another hpos (by rw [hcount, add_strong hs]) hweak

/-- A strong reference goes, and with the last one `BC_RELEASE` is sent; the weak reference under it
goes after that. -/
theorem Counted.decStrong (hc : Counted h o (s + 1) t e) (hs : s + 1 ≤ 2 ^ 28) :
    ∃ o', o.decStrong (bpBinder true) = o'.decWeak (bpBinder true) ∧ Counted h o' s t true := by
  obtain rfl : e = true := by
    cases e with
    | true => rfl
    | false => exact absurd (hc.never rfl) (Nat.succ_ne_zero s)
  obtain ⟨n, hsent⟩ := hc.sent
  have hcount : o.mStrong = ((s + 1 : ℕ) : ℤ) := hc.mStrong
  have hdown : androidAtomicAdd (-1) o.mStrong = (s : ℤ) := by
    rw [hcount, androidAtomicAdd_eq (by omega) (by omega)]
    omega
  by_cases hone : o.mStrong = 1
  · obtain rfl : s = 0 := by omega
    refine ⟨{ o with mStrong := androidAtomicAdd (-1) o.mStrong,
                     base := (bpBinder true).onLastStrongRef o.base }, ?_, ?_⟩
    · simp only [Object.decStrong, hone, if_true, hc.lifetime, reduceCtorEq, if_false]
    · refine ⟨hc.lifetime, hc.handle, hc.unlinked, hc.alive, hc.mWeak, hdown, by simp, n + 1, ?_⟩
      simp [bpBinder, Binder.send, hsent, hc.handle, script_release]
  · have hpos : 0 < s := by
      rw [hcount] at hone
      omega
    refine ⟨{ o with mStrong := androidAtomicAdd (-1) o.mStrong }, ?_, ?_⟩
    · simp only [Object.decStrong, hone, if_false]
    · refine ⟨hc.lifetime, hc.handle, hc.unlinked, hc.alive, hc.mWeak, hdown, by simp, n, ?_⟩
      simpa [hpos] using hsent

/-- A promotion takes one more strong reference while there is one, and is refused when there is
none: the driver is not asked. -/
theorem Counted.attemptIncStrong (hc : Counted h o s t e) (hle : s ≤ 2 ^ 28)
    (hs : s + 1 ≠ 2 ^ 28) :
    (∃ o', o.attemptIncStrong (bpBinder true) = (true, o') ∧ s < 2 ^ 28 ∧
        Counted h o' (s + 1) (t + 1) true) ∨
      ∃ o', o.attemptIncStrong (bpBinder true) = (false, o'.decWeak (bpBinder true)) ∧
        Counted h o' s (t + 1) e := by
  have hweak : androidAtomicAdd 1 o.mWeak = counter (t + 1) := by rw [hc.mWeak, add_counter]
  by_cases hgo : 0 < o.mStrong ∧ o.mStrong ≠ initialStrongValue
  · left
    obtain rfl : e = true := by
      cases e with
      | true => rfl
      | false => exact absurd hc.mStrong hgo.2
    have hcount : o.mStrong = (s : ℤ) := hc.mStrong
    have hpos : 0 < s := by
      have := hgo.1
      omega
    have hlt : s < 2 ^ 28 := by
      have := hgo.2
      rw [hcount, initialStrongValue] at this
      omega
    have hup : androidAtomicAdd 1 o.mStrong = (s + 1 : ℕ) := by rw [hcount, add_strong hlt]
    have hfix : ({ o.incWeak with mStrong := androidAtomicAdd 1 o.mStrong } : Object Binder).fixUp =
        { o.incWeak with mStrong := androidAtomicAdd 1 o.mStrong } := by
      refine if_neg ?_
      change ¬ initialStrongValue ≤ androidAtomicAdd 1 o.mStrong
      rw [hup, initialStrongValue]
      omega
    exact ⟨_, (if_pos hgo).trans (congrArg (Prod.mk true) hfix), hlt, hc.another hpos hup hweak⟩
  · right
    refine ⟨o.incWeak, (if_neg hgo).trans ?_, hc.incWeak⟩
    simp [Object.incWeak, hc.lifetime, bpBinder, attemptIncStrongHandle]

theorem Counted.attemptIncWeak (hc : Counted h o s t e) :
    (∃ o', o.attemptIncWeak = (true, o') ∧ 0 < t ∧ Counted h o' s (t + 1) e) ∨
      o.attemptIncWeak = (false, o) := by
  by_cases hgo : 0 < o.mWeak
  · refine .inl ⟨_, if_pos hgo, ?_, hc.incWeak⟩
    by_contra hno
    obtain rfl : t = 0 := by omega
    rw [hc.mWeak, counter_zero] at hgo
    exact lt_irrefl _ hgo
  · exact .inr (if_neg hgo)

end Counted

/-! ### Runs -/

/-- Every operation keeps the invariant. -/
theorem Inv.act {h : ℤ} {w : World} {a : Act} (hw : Inv h w) (hlegal : Legal w a)
    (hfits : Fits w a) : Inv h (w.act a) := by
  obtain ⟨op, ipc⟩ := a
  obtain ⟨halive, hlegal⟩ := hlegal
  obtain ⟨rfl, hfits⟩ := hfits
  have hc := hw.counted halive
  have hs := hw.strong_le
  have ht := hw.weak_le
  have hgain : ∀ o', Counted h o' (w.strong + 1) (w.strong + w.weak + 1) true →
      w.strong < 2 ^ 28 → w.strong + w.weak < 2 ^ 32 → Inv h (w.gainStrong o') := by
    intro o' hc' hlt hlt'
    have hadd : w.strong + w.weak + 1 = w.strong + 1 + w.weak := by omega
    rw [hadd] at hc'
    exact hc'.inv hlt (by omega) (by omega)
  cases op with
  | incStrong => exact hgain _ (hc.incStrong hfits.1 hlegal) hfits.1 hfits.2
  | forceIncStrong => exact hgain _ (hc.forceIncStrong hfits.1) hfits.1 hfits.2
  | decStrong =>
      have hpos : 0 < w.strong := hlegal
      obtain ⟨s, hstrong⟩ : ∃ s, w.strong = s + 1 := ⟨w.strong - 1, by omega⟩
      rw [hstrong] at hc hs ht
      have hever : w.everStrong = true := by
        by_contra hno
        exact absurd (hw.never (by simpa using hno)) (by omega)
      have hheld : w.everHeld = true := hw.ever (by omega)
      obtain ⟨o', heq, hc'⟩ := hc.decStrong hs
      have hadd : s + 1 + w.weak = s + w.weak + 1 := by omega
      rw [hadd] at hc'
      have hinv := hc'.decWeak_inv (by omega) (by omega)
      rw [← heq] at hinv
      simpa [World.act, hstrong, hever, hheld] using hinv
  | incWeak => exact hc.incWeak.inv hs (Nat.succ_le_of_lt hfits) (Nat.succ_pos _)
  | decWeak =>
      have hpos : 0 < w.weak := hlegal
      obtain ⟨k, hweak⟩ : ∃ k, w.weak = k + 1 := ⟨w.weak - 1, by omega⟩
      have hheld : w.everHeld = true := hw.ever (by omega)
      rw [hweak] at hc ht
      have hinv := hc.decWeak_inv hs ht
      simpa [World.act, hweak, hheld] using hinv
  | attemptIncStrong =>
      have hpos : 0 < w.strong + w.weak := hlegal
      have hheld : w.everHeld = true := hw.ever hpos
      rcases hc.attemptIncStrong hs hfits.1 with ⟨o', heq, hlt, hc'⟩ | ⟨o', heq, hc'⟩
      · simpa [World.act, heq] using hgain o' hc' hlt hfits.2
      · have hinv := hc'.decWeak_inv hs (Nat.succ_le_of_lt hfits.2)
        simpa [World.act, heq, hheld] using hinv
  | attemptIncWeak =>
      rcases hc.attemptIncWeak with ⟨o', heq, hpos, hc'⟩ | heq
      · have hinv := hc'.inv (k := w.weak + 1) hs (Nat.succ_le_of_lt hfits) (Nat.succ_pos _)
        simpa [World.act, heq, hw.ever hpos] using hinv
      · simpa [World.act, heq] using hw

/-- In every run of operations that are legal and stay within the counters, the commands of a proxy
are the start of a whole life, with `BC_ACQUIRE` outstanding while a strong reference is held and
`BC_DECREFS` at the end. -/
theorem disciplined_of_reach {h : ℤ} {w : World}
    (hreach : Reach step (fun w a => Legal w a ∧ Fits w a) (World.new h) w) : Disciplined h w := by
  refine (hreach.invariant (inv_new h) ?_).disciplined
  rintro w a w' hw ⟨hlegal, hfits⟩ hstep
  obtain rfl : w.act a = w' := Except.ok.inj hstep
  exact hw.act hlegal hfits

/-- A promotion that is refused and one that is not, and the end of the proxy. -/
theorem disciplined_of_reach_sample : ∃ w,
    Reach step (fun w a => Legal w a ∧ Fits w a) (World.new 1) w ∧ Disciplined 1 w ∧
      w.object.base.sent = wholeLife 1 2 := by
  have hreach : Reach step (fun w a => Legal w a ∧ Fits w a) (World.new 1) _ :=
    reach_of_runChecked (show runChecked step (fun w a => Legal w a ∧ Fits w a) (World.new 1)
      [⟨.incStrong, true⟩, ⟨.incWeak, true⟩, ⟨.attemptIncStrong, true⟩, ⟨.decStrong, true⟩,
        ⟨.decStrong, true⟩, ⟨.attemptIncStrong, true⟩, ⟨.attemptIncWeak, true⟩,
        ⟨.forceIncStrong, true⟩, ⟨.decWeak, true⟩, ⟨.decWeak, true⟩, ⟨.decStrong, true⟩] = some _
      from rfl)
  exact ⟨_, hreach, disciplined_of_reach hreach, rfl⟩

/-! ### Where the counters end -/

theorem reach_strong (h : ℤ) {n : ℕ} (hn : n ≤ 2 ^ 28) : ∃ w,
    Reach step (fun w a => Legal w a ∧ a.ipc = true) (World.new h) w ∧ Inv h w ∧ w.strong = n ∧
      w.weak = 0 ∧ (0 < n ∨ w.everStrong = false) ∧ w.object.destroyed = false := by
  induction n with
  | zero => exact ⟨_, .refl, inv_new h, rfl, rfl, .inr rfl, rfl⟩
  | succ n ih =>
      obtain ⟨w, hreach, hw, hstrong, hweak, hever, halive⟩ := ih (by omega)
      have hlegal : Legal w ⟨.incStrong, true⟩ := ⟨halive, hstrong ▸ hever⟩
      have hfits : Fits w ⟨.incStrong, true⟩ := ⟨rfl, by omega, by omega⟩
      have hw' : Inv h (w.act ⟨.incStrong, true⟩) := hw.act hlegal hfits
      have hstrong' : (w.act ⟨.incStrong, true⟩).strong = n + 1 := congrArg (· + 1) hstrong
      refine ⟨_, hreach.tail ⟨hlegal, rfl⟩ rfl, hw', hstrong', hweak, .inl (Nat.succ_pos n), ?_⟩
      cases hgone : (w.act ⟨.incStrong, true⟩).object.destroyed with
      | false => rfl
      | true =>
          have := (hw'.destroyed.mp hgone).2
          omega

/-- With `INITIAL_STRONG_VALUE` strong references the next one is taken for the first, and a second
`BC_ACQUIRE` is sent; and without an `IPCThreadState` no `BC_RELEASE` is. -/
theorem undisciplined :
    (∃ w, Reach step (fun w a => Legal w a ∧ a.ipc = true) (World.new 1) w ∧
      ¬ Disciplined 1 w) ∧
    ∃ w, Reach step Legal (World.new 1) w ∧ w.strong = 0 ∧ ¬ Disciplined 1 w := by
  constructor
  · obtain ⟨w, hreach, hw, hstrong, -, hever, halive⟩ := reach_strong 1 (n := 2 ^ 28) le_rfl
    have hlegal : Legal w ⟨.incStrong, true⟩ := ⟨halive, hstrong ▸ hever⟩
    refine ⟨_, hreach.tail ⟨hlegal, rfl⟩ rfl, fun hd => ?_⟩
    have hmStrong : w.object.mStrong = initialStrongValue := by
      rw [hw.mStrong, hstrong]
      split <;> rfl
    have hsent : (w.act ⟨.incStrong, true⟩).object.base.sent =
        w.object.base.sent ++ [.acquire 1] := by
      have heq : (w.act ⟨.incStrong, true⟩).object.base =
          (bpBinder true).onFirstRef w.object.base :=
        congrArg Object.base (if_neg (not_not.mpr hmStrong))
      rw [heq]
      simp [bpBinder, Binder.send, hw.handle]
    have hbefore := hw.disciplined.outstanding
    have hafter := hd.outstanding
    have hpos : 0 < (w.act ⟨.incStrong, true⟩).strong := Nat.succ_pos _
    rw [hsent] at hafter
    simp [hpos, hstrong] at hbefore hafter
    omega
  · have hreach : Reach step Legal (World.new 1) _ :=
      reach_of_runChecked (show runChecked step Legal (World.new 1)
        [⟨.incStrong, true⟩, ⟨.incWeak, true⟩, ⟨.decStrong, false⟩] = some _ from rfl)
    refine ⟨_, hreach, rfl, fun hd => ?_⟩
    exact absurd hd.outstanding (by decide)

end ProxyLifetime

end BinderForLinux
