import BinderForLinux.Driver.Changes.Parts
import BinderForLinux.Driver.Live
import Mathlib.Logic.Relation

/-!
# Transactions and their buffers

A transaction and the buffer it fills point to each other, and the stacks of
threads are made of calls that want a reply. Unwinding a stack, from a failed
reply to a thread that exits, is a sequence of small steps that touch nothing but
calls, their buffers, and the stacks and error codes of threads.
-/

namespace BinderForLinux

namespace Driver

open Library

/-- The transaction, if it still exists, is a call that wants a reply. -/
def State.IsCall (s : State) (t : TxnId) : Prop :=
  t < s.nextId ∧ ∀ tx, s.txns t = some tx → tx.needReply = true

/-- The transaction is on a stack, or below one that may be. -/
def State.Mentions (s : State) (t : TxnId) : Prop :=
  (∃ th thr, s.threads th = some thr ∧ thr.transactionStack = some t) ∨
    ∃ u tx, s.txns u = some tx ∧ (tx.fromParent = some t ∨ tx.toParent = some t)

/-- A transaction and its buffer agree on whether it is a call or a reply, and on
whether it is one-way. -/
def Transaction.Matches (tx : Transaction) (b : Buffer) : Prop :=
  tx.needReply = (b.targetNode.isSome && !tfOneWay tx.flags) ∧
    b.asyncTransaction = (b.targetNode.isSome && tfOneWay tx.flags)

structure Linked (s : State) : Prop where
  buffer : ∀ {t tx x}, s.txns t = some tx → tx.buffer = some x →
    ∃ b, s.live x = some b ∧ b.transaction = some t ∧ tx.Matches b
  transaction : ∀ {x b t}, s.live x = some b → b.transaction = some t →
    ∃ tx, s.txns t = some tx ∧ tx.buffer = some x
  stack : ∀ {th thr t}, s.threads th = some thr → thr.transactionStack = some t → s.IsCall t
  parents : ∀ {t tx u}, s.txns t = some tx → tx.fromParent = some u ∨ tx.toParent = some u →
    s.IsCall u
  txns_lt : ∀ {t tx}, s.txns t = some tx → t < s.nextId

theorem Linked.mentions {s : State} (h : Linked s) {t : TxnId} (ht : s.Mentions t) :
    s.IsCall t := by
  rcases ht with ⟨th, thr, hthr, hstack⟩ | ⟨u, tx, htx, hparent⟩
  · exact h.stack hthr hstack
  · exact h.parents htx hparent

theorem linked_init : Linked State.init where
  buffer := by simp [State.init]
  transaction := by
    simp [State.live, derefBuffer, State.init, Area.unmapped, findBuffer, Except.toOption]
  stack := by simp [State.init]
  parents := by simp [State.init]
  txns_lt := by simp [State.init]

section Linked

variable {L : Layout} {s s' : State} {th : ThreadId} {thr : Thread} {t : TxnId} {tx : Transaction}

theorem Linked.congr (h : Linked s) (hnext : s.nextId ≤ s'.nextId)
    (hthreads : ∀ {th thr}, s'.threads th = some thr →
      thr.transactionStack = none ∨
        ∃ thr₀, s.threads th = some thr₀ ∧ thr₀.transactionStack = thr.transactionStack)
    (htxns : s'.txns = s.txns) (hlive : s'.live = s.live) : Linked s' := by
  have hcall : ∀ {u}, s.IsCall u → s'.IsCall u := fun hu =>
    ⟨hu.1.trans_le hnext, fun tx htx => hu.2 tx (htxns ▸ htx)⟩
  refine ⟨?_, ?_, ?_, ?_, fun htx => (h.txns_lt (htxns ▸ htx)).trans_le hnext⟩
  · intro t tx x htx hx
    rw [hlive]
    exact h.buffer (htxns ▸ htx) hx
  · intro x b t hb ht
    rw [htxns]
    exact h.transaction (hlive ▸ hb) ht
  · intro th thr t hthr ht
    rcases hthreads hthr with hnone | ⟨thr₀, hthr₀, hstack⟩
    · simp [hnone] at ht
    · exact hcall (h.stack hthr₀ (hstack.trans ht))
  · exact fun htx hu => hcall (h.parents (htxns ▸ htx) hu)

theorem Linked.setThread (h : Linked s) {thr' : Thread}
    (hstack : ∀ t, thr'.transactionStack = some t → s.IsCall t) :
    Linked (s.setThread th thr') := by
  refine ⟨h.buffer, h.transaction, ?_, h.parents, h.txns_lt⟩
  intro th' thr₁ t hthr₁ ht
  by_cases heq : th' = th
  · subst heq
    simp only [State.setThread, Function.update_self, Option.some.injEq] at hthr₁
    exact hstack t (hthr₁ ▸ ht)
  · simp only [State.setThread, Function.update_of_ne heq] at hthr₁
    exact h.stack hthr₁ ht

theorem Linked.setTxn (h : Linked s) (htx : s.txns t = some tx) {tx' : Transaction}
    (hreply : tx'.needReply = tx.needReply) (hflags : tx'.flags = tx.flags)
    (hbuffer : tx'.buffer = tx.buffer)
    (hparents : ∀ u, tx'.fromParent = some u ∨ tx'.toParent = some u → s.IsCall u) :
    Linked (s.setTxn t tx') := by
  have hcall : ∀ {u}, s.IsCall u → (s.setTxn t tx').IsCall u := by
    refine fun {u} hu => ⟨hu.1, fun ux hux => ?_⟩
    by_cases heq : u = t
    · subst heq
      simp only [State.setTxn, Function.update_self, Option.some.injEq] at hux
      exact hux ▸ hreply.trans (hu.2 tx htx)
    · simp only [State.setTxn, Function.update_of_ne heq] at hux
      exact hu.2 ux hux
  refine ⟨?_, ?_, fun hthr ht => hcall (h.stack hthr ht), ?_, ?_⟩
  · intro u ux x hux hx
    by_cases heq : u = t
    · subst heq
      simp only [State.setTxn, Function.update_self, Option.some.injEq] at hux
      subst hux
      obtain ⟨b, hb, hbt, hm⟩ := h.buffer htx (hbuffer ▸ hx)
      exact ⟨b, hb, hbt, by rw [Transaction.Matches, hreply, hflags]; exact hm⟩
    · simp only [State.setTxn, Function.update_of_ne heq] at hux
      exact h.buffer hux hx
  · intro x b u hb hu
    obtain ⟨ux, hux, hx⟩ := h.transaction hb hu
    by_cases heq : u = t
    · subst heq
      obtain rfl : tx = ux := by simpa [htx] using hux
      exact ⟨tx', Function.update_self .., hbuffer.trans hx⟩
    · exact ⟨ux, (Function.update_of_ne heq ..).trans hux, hx⟩
  · intro u ux v hux hv
    by_cases heq : u = t
    · subst heq
      simp only [State.setTxn, Function.update_self, Option.some.injEq] at hux
      exact hcall (hparents v (hux ▸ hv))
    · simp only [State.setTxn, Function.update_of_ne heq] at hux
      exact hcall (h.parents hux hv)
  · intro u ux hux
    by_cases heq : u = t
    · subst heq
      exact h.txns_lt htx
    · simp only [State.setTxn, Function.update_of_ne heq] at hux
      exact h.txns_lt hux

theorem detachBuffer_live {buffer : Option (ProcId × ℕ)} (hrun : detachBuffer s buffer = .ok s') :
    s' = { s with area := s'.area } ∧ ∀ x, s'.live x =
      if buffer = some x then (s.live x).map fun b => { b with transaction := none }
      else s.live x := by
  rcases buffer with _ | ⟨p, a⟩
  · obtain rfl : s = s' := by simpa [detachBuffer] using hrun
    exact ⟨rfl, by simp⟩
  · simp only [detachBuffer, except_bind_eq_ok, except_pure_eq_ok] at hrun
    obtain ⟨_, _, rfl⟩ := hrun
    refine ⟨rfl, fun x => ?_⟩
    rw [live_updateBuffer (keepsBuffer_transaction none)]
    by_cases hx : x = (p, a)
    · simp [hx]
    · simp [Function.update_of_ne hx, Ne.symm hx]

theorem Linked.detached (h : Linked s) (htx : s.txns t = some tx) {s₁ : State}
    (hdetach : detachBuffer s tx.buffer = .ok s₁) {x : Option Transaction}
    (hx : ∀ tx', x = some tx' → tx'.needReply = tx.needReply ∧ tx'.buffer = none ∧
      tx'.fromParent = tx.fromParent ∧ tx'.toParent = tx.toParent) :
    Linked { s₁ with txns := Function.update s₁.txns t x } := by
  obtain ⟨hs₁, hlive⟩ := detachBuffer_live hdetach
  have htxns : s₁.txns = s.txns := by rw [hs₁]
  have hthreads : s₁.threads = s.threads := by rw [hs₁]
  have hnext : s₁.nextId = s.nextId := by rw [hs₁]
  rw [htxns]
  have hlive' : ({ s₁ with txns := Function.update s.txns t x } : State).live = s₁.live :=
    live_congr rfl
  have hcall : ∀ {u}, s.IsCall u →
      ({ s₁ with txns := Function.update s.txns t x } : State).IsCall u := by
    refine fun {u} hu => ⟨hnext ▸ hu.1, fun ux hux => ?_⟩
    by_cases heq : u = t
    · subst heq
      simp only [Function.update_self] at hux
      exact (hx ux hux).1.trans (hu.2 tx htx)
    · simp only [Function.update_of_ne heq] at hux
      exact hu.2 ux hux
  -- the buffers of the other transactions are as they were
  have hother : ∀ {u y b}, u ≠ t → s.live y = some b → b.transaction = some u →
      s₁.live y = some b := by
    intro u y b hu hb hbu
    rw [hlive, if_neg, hb]
    intro hbuf
    obtain ⟨b', hb', hbt, -⟩ := h.buffer htx hbuf
    rw [hb] at hb'
    cases hb'
    rw [hbu] at hbt
    exact hu (Option.some.inj hbt)
  refine ⟨?_, ?_, fun hthr ht => hcall (h.stack (hthreads ▸ hthr) ht), ?_, ?_⟩
  · intro u ux y hux hy
    by_cases heq : u = t
    · subst heq
      simp only [Function.update_self] at hux
      simp [(hx ux hux).2.1] at hy
    · simp only [Function.update_of_ne heq] at hux
      obtain ⟨b, hb, hbu, hm⟩ := h.buffer hux hy
      exact ⟨b, by rw [hlive']; exact hother heq hb hbu, hbu, hm⟩
  · intro y b u hb hu
    rw [hlive'] at hb
    have hsame : s.live y = some b ∧ u ≠ t := by
      rw [hlive] at hb
      split at hb
      · obtain ⟨b₀, -, rfl⟩ := Option.map_eq_some_iff.mp hb
        simp at hu
      · rename_i hbuf
        refine ⟨hb, ?_⟩
        rintro rfl
        obtain ⟨ux, hux, huy⟩ := h.transaction hb hu
        obtain rfl : tx = ux := by simpa [htx] using hux
        exact hbuf huy
    obtain ⟨ux, hux, huy⟩ := h.transaction hsame.1 hu
    exact ⟨ux, (Function.update_of_ne hsame.2 ..).trans hux, huy⟩
  · intro u ux v hux hv
    by_cases heq : u = t
    · subst heq
      simp only [Function.update_self] at hux
      obtain ⟨-, -, hfrom, hto⟩ := hx ux hux
      exact hcall (h.parents htx (by rwa [hfrom, hto] at hv))
    · simp only [Function.update_of_ne heq] at hux
      exact hcall (h.parents hux hv)
  · intro u ux hux
    change u < s₁.nextId
    rw [hnext]
    by_cases heq : u = t
    · exact heq ▸ h.txns_lt htx
    · simp only [Function.update_of_ne heq] at hux
      exact h.txns_lt hux

end Linked

/-! ### Unwinding -/

/-- One step of unwinding a stack. -/
inductive UnwindStep (s : State) : State → Prop
  /-- The error codes of a thread change. `BR_ERROR` does not come in. -/
  | slots {th : ThreadId} {thr : Thread} {e e₂ : ReturnError} (hthr : s.threads th = some thr)
      (he : e = .error → thr.returnError = .error)
      (he₂ : e₂ = .error → thr.returnError = .error ∨ thr.returnError2 = .error) :
      UnwindStep s (s.setThread th { thr with returnError := e, returnError2 := e₂ })
  | stack {th : ThreadId} {thr : Thread} {x : Option TxnId} (hthr : s.threads th = some thr)
      (hx : ∀ t, x = some t → s.Mentions t) :
      UnwindStep s (s.setThread th { thr with transactionStack := x })
  /-- The caller of a call is gone. -/
  | orphan {t : TxnId} {tx : Transaction} (htx : s.txns t = some tx) (hcall : s.IsCall t) :
      UnwindStep s (s.setTxn t { tx with fromThread := none })
  /-- The thread that served a call is gone. -/
  | cut {t : TxnId} {tx : Transaction} {s₁ : State} (htx : s.txns t = some tx) (hcall : s.IsCall t)
      (hdetach : detachBuffer s tx.buffer = .ok s₁) :
      UnwindStep s (s₁.setTxn t { tx with toProc := none, toThread := none, buffer := none })
  | free {t : TxnId} {s' : State} (hcall : s.IsCall t) (hrun : freeTxn s t = .ok s') :
      UnwindStep s s'

abbrev Unwound : State → State → Prop := Relation.ReflTransGen UnwindStep

section Unwind

variable {s s' : State} {th : ThreadId} {t : TxnId} {e : ReturnError}

theorem freeTxn_eq (hrun : freeTxn s t = .ok s') :
    ∃ tx s₁, s.txns t = some tx ∧ detachBuffer s tx.buffer = .ok s₁ ∧
      s' = { s₁ with txns := Function.update s₁.txns t none } := by
  simp only [freeTxn, except_bind_eq_ok, deref_eq_ok, except_pure_eq_ok] at hrun
  obtain ⟨tx, htx, s₁, hdetach, rfl⟩ := hrun
  exact ⟨tx, s₁, htx, hdetach, rfl⟩

theorem UnwindStep.linked (h : UnwindStep s s') (hs : Linked s) : Linked s' := by
  cases h with
  | slots hthr => exact hs.setThread fun t ht => hs.stack hthr ht
  | stack hthr hx => exact hs.setThread fun t ht => hs.mentions (hx t ht)
  | orphan htx => exact hs.setTxn htx rfl rfl rfl fun u hu => hs.parents htx hu
  | cut htx hcall hdetach =>
      exact hs.detached htx hdetach (by rintro _ ⟨⟩; exact ⟨rfl, rfl, rfl, rfl⟩)
  | free hcall hrun =>
      obtain ⟨tx, s₁, htx, hdetach, rfl⟩ := freeTxn_eq hrun
      exact hs.detached htx hdetach (by simp)

theorem Unwound.linked (h : Unwound s s') (hs : Linked s) : Linked s' := by
  induction h with
  | refl => exact hs
  | tail _ hstep ih => exact hstep.linked ih

theorem UnwindStep.rest (h : UnwindStep s s') :
    s' = { s with threads := s'.threads, txns := s'.txns, area := s'.area } := by
  cases h with
  | slots => rfl
  | stack => rfl
  | orphan => rfl
  | cut _ _ hdetach =>
      rw [(detachBuffer_live hdetach).1]
      rfl
  | free _ hrun =>
      obtain ⟨tx, s₁, -, hdetach, rfl⟩ := freeTxn_eq hrun
      rw [(detachBuffer_live hdetach).1]

theorem Unwound.rest (h : Unwound s s') :
    s' = { s with threads := s'.threads, txns := s'.txns, area := s'.area } := by
  induction h with
  | refl => rfl
  | tail _ hstep ih =>
      have := hstep.rest
      rw [ih] at this
      exact this

theorem UnwindStep.isCall (h : UnwindStep s s') {u : TxnId} (hu : s.IsCall u) : s'.IsCall u := by
  cases h with
  | slots => exact hu
  | stack => exact hu
  | @orphan t tx htx =>
      refine ⟨hu.1, fun ux hux => ?_⟩
      by_cases heq : u = t
      · subst heq
        simp only [State.setTxn, Function.update_self, Option.some.injEq] at hux
        exact hux ▸ hu.2 tx htx
      · simp only [State.setTxn, Function.update_of_ne heq] at hux
        exact hu.2 ux hux
  | @cut t tx s₁ htx hcall hdetach =>
      rw [(detachBuffer_live hdetach).1]
      refine ⟨hu.1, fun ux hux => ?_⟩
      by_cases heq : u = t
      · subst heq
        simp only [State.setTxn, Function.update_self, Option.some.injEq] at hux
        exact hux ▸ hu.2 tx htx
      · simp only [State.setTxn, Function.update_of_ne heq] at hux
        exact hu.2 ux hux
  | @free t _ hcall hrun =>
      obtain ⟨tx, s₁, -, hdetach, rfl⟩ := freeTxn_eq hrun
      rw [(detachBuffer_live hdetach).1]
      refine ⟨hu.1, fun ux hux => ?_⟩
      by_cases heq : u = t
      · simp [heq] at hux
      · simp only [Function.update_of_ne heq] at hux
        exact hu.2 ux hux

theorem Unwound.isCall (h : Unwound s s') {u : TxnId} (hu : s.IsCall u) : s'.IsCall u := by
  induction h with
  | refl => exact hu
  | tail _ hstep ih => exact hstep.isCall ih

theorem UnwindStep.mentions (h : UnwindStep s s') {u : TxnId} (hu : s'.Mentions u) :
    s.Mentions u := by
  have hstack : ∀ {th thr thr'}, s.threads th = some thr →
      (∀ v, thr'.transactionStack = some v → s.Mentions v) →
      (s.setThread th thr').Mentions u → s.Mentions u := by
    rintro th thr thr' hthr hsub (⟨th', thr₁, hthr₁, ht⟩ | hparent)
    · by_cases heq : th' = th
      · subst heq
        simp only [State.setThread, Function.update_self, Option.some.injEq] at hthr₁
        exact hsub u (hthr₁ ▸ ht)
      · simp only [State.setThread, Function.update_of_ne heq] at hthr₁
        exact .inl ⟨th', thr₁, hthr₁, ht⟩
    · exact .inr hparent
  have htxn : ∀ {v : TxnId} {y : Option Transaction} {s₁ : State}, s₁.Mentions u →
      s₁.threads = s.threads → s₁.txns = Function.update s.txns v y →
      (∀ vx', y = some vx' → ∃ vx, s.txns v = some vx ∧ vx'.fromParent = vx.fromParent ∧
        vx'.toParent = vx.toParent) → s.Mentions u := by
    rintro v y s₁ (⟨th, thr, hthr, ht⟩ | ⟨w, wx, hwx, hw⟩) hthreads htxns hsub
    · exact .inl ⟨th, thr, hthreads ▸ hthr, ht⟩
    · rw [htxns] at hwx
      by_cases heq : w = v
      · subst heq
        rw [Function.update_self] at hwx
        obtain ⟨vx, hvx, hfrom, hto⟩ := hsub wx hwx
        exact .inr ⟨w, vx, hvx, by rwa [hfrom, hto] at hw⟩
      · rw [Function.update_of_ne heq] at hwx
        exact .inr ⟨w, wx, hwx, hw⟩
  cases h with
  | @slots th thr e e₂ hthr =>
      refine hstack hthr (fun v hv => ?_) hu
      exact .inl ⟨th, thr, hthr, hv⟩
  | stack hthr hx => exact hstack hthr hx hu
  | @orphan t tx htx =>
      refine htxn hu rfl rfl ?_
      rintro _ ⟨⟩
      exact ⟨_, htx, rfl, rfl⟩
  | @cut t tx s₁ htx hcall hdetach =>
      have hs₁ := (detachBuffer_live hdetach).1
      refine htxn hu (by rw [hs₁]; rfl) (by rw [hs₁]; rfl) ?_
      rintro _ ⟨⟩
      exact ⟨_, htx, rfl, rfl⟩
  | free hcall hrun =>
      obtain ⟨tx, s₁, htx, hdetach, rfl⟩ := freeTxn_eq hrun
      have hs₁ := (detachBuffer_live hdetach).1
      exact htxn hu (by rw [hs₁]) (by rw [hs₁]) (by simp)

theorem UnwindStep.txns_none (h : UnwindStep s s') (ht : s.txns t = none) : s'.txns t = none := by
  cases h with
  | slots => exact ht
  | stack => exact ht
  | @orphan u ux hux =>
      have hne : t ≠ u := by
        rintro rfl
        simp [ht] at hux
      simpa [State.setTxn, Function.update_of_ne hne] using ht
  | @cut u ux s₁ hux hcall hdetach =>
      have hne : t ≠ u := by
        rintro rfl
        simp [ht] at hux
      rw [(detachBuffer_live hdetach).1]
      simpa [State.setTxn, Function.update_of_ne hne] using ht
  | @free u _ hcall hrun =>
      obtain ⟨ux, s₁, hux, hdetach, rfl⟩ := freeTxn_eq hrun
      have hne : t ≠ u := by
        rintro rfl
        simp [ht] at hux
      rw [(detachBuffer_live hdetach).1]
      simpa [Function.update_of_ne hne] using ht

theorem UnwindStep.live (h : UnwindStep s s') (hs : Linked s) (x : ProcId × ℕ) :
    s'.live x = s.live x ∨ ∃ b u, s.live x = some b ∧ b.transaction = some u ∧ s.IsCall u ∧
      s'.live x = some { b with transaction := none } := by
  have hdetached : ∀ {u ux} {s₁ s₂ : State}, s.txns u = some ux → s.IsCall u →
      detachBuffer s ux.buffer = .ok s₁ → s₂.live = s₁.live → s₂.live x = s.live x ∨ ∃ b u,
        s.live x = some b ∧ b.transaction = some u ∧ s.IsCall u ∧
          s₂.live x = some { b with transaction := none } := by
    intro u ux s₁ s₂ hux hcall hdetach hlive
    rw [hlive, (detachBuffer_live hdetach).2]
    split
    · rename_i hbuf
      obtain ⟨b, hb, hbu, -⟩ := hs.buffer hux hbuf
      exact .inr ⟨b, u, hb, hbu, hcall, by rw [hb]; rfl⟩
    · exact .inl rfl
  cases h with
  | slots => exact .inl (congrFun (live_congr rfl) x)
  | stack => exact .inl (congrFun (live_congr rfl) x)
  | orphan => exact .inl (congrFun (live_congr rfl) x)
  | cut htx hcall hdetach => exact hdetached htx hcall hdetach (live_congr rfl)
  | free hcall hrun =>
      obtain ⟨tx, s₁, htx, hdetach, rfl⟩ := freeTxn_eq hrun
      exact hdetached htx hcall hdetach (live_congr rfl)

theorem Unwound.live_of_none (h : Unwound s s') (hs : Linked s) {x : ProcId × ℕ} {b : Buffer}
    (hb : s.live x = some b) (hnone : b.transaction = none) : s'.live x = some b := by
  induction h with
  | refl => exact hb
  | @tail s₁ s₂ h₁ hstep ih =>
      rcases hstep.live (Unwound.linked h₁ hs) x with heq | ⟨b', u, hb', hbu, -⟩
      · exact heq.trans ih
      · rw [ih] at hb'
        cases hb'
        rw [hnone] at hbu
        cases hbu

/-! ### The functions that unwind -/

theorem popStack_unwound {target : Option ThreadId}
    (hrun : popStack s target t = .ok s') : Unwound s s' := by
  cases target with
  | none =>
      obtain rfl : s = s' := by simpa [popStack] using hrun
      exact .refl
  | some th =>
      simp only [popStack, except_bind_eq_ok, deref_eq_ok, except_pure_eq_ok] at hrun
      obtain ⟨thr, hthr, _, _, tx, htx, _, _, rfl⟩ := hrun
      exact .single (.stack hthr fun u hu => .inr ⟨t, tx, htx, .inl hu⟩)

theorem binderPopTransaction_unwound (hcall : s.IsCall t) {target : Option ThreadId}
    (hrun : binderPopTransaction s target t = .ok s') :
    Unwound s s' := by
  simp only [binderPopTransaction, except_bind_eq_ok] at hrun
  obtain ⟨s₁, hpop, hfree⟩ := hrun
  have h₁ := popStack_unwound hpop
  exact h₁.tail (.free (h₁.isCall hcall) hfree)

theorem Thread.shiftError_eq (thr : Thread) :
    ∃ e e₂, thr.shiftError = { thr with returnError := e, returnError2 := e₂ } ∧
      (e = .error → thr.returnError = .error) ∧
      (e₂ = .error → thr.returnError = .error ∨ thr.returnError2 = .error) := by
  unfold Thread.shiftError
  split
  · exact ⟨.ok, thr.returnError, rfl, by simp, .inl⟩
  · exact ⟨thr.returnError, thr.returnError2, rfl, id, .inr⟩

theorem failReplyTo_unwound (hcall : s.IsCall t) {thr : Thread} (he : e ≠ .error)
    (hrun : failReplyTo s th thr t e = .ok s') : Unwound s s' := by
  unfold failReplyTo at hrun
  split at hrun
  · obtain rfl : s = s' := by simpa using hrun
    exact .refl
  · simp only [except_bind_eq_ok, deref_eq_ok, except_pure_eq_ok] at hrun
    obtain ⟨s₁, hpop, thr₁, hthr₁, rfl⟩ := hrun
    have h₁ := binderPopTransaction_unwound hcall hpop
    exact h₁.tail (.slots hthr₁ (fun h => absurd h he) .inr)

theorem failedReplyLoop_unwound (hs : Linked s) (hcall : s.IsCall t) (he : e ≠ .error) {fuel : ℕ}
    (hrun : failedReplyLoop fuel s t e = .ok s') : Unwound s s' := by
  induction fuel generalizing s t with
  | zero => cases hrun
  | succ fuel ih =>
      simp only [failedReplyLoop, except_bind_eq_ok, deref_eq_ok] at hrun
      obtain ⟨tx, htx, hrun⟩ := hrun
      cases hfrom : tx.fromThread with
      | some th =>
          simp only [hfrom, except_bind_eq_ok, deref_eq_ok] at hrun
          obtain ⟨thr, hthr, hrun⟩ := hrun
          obtain ⟨e₁, e₂, heq, he₁, he₂⟩ := Thread.shiftError_eq thr
          rw [heq] at hrun
          have h₁ : UnwindStep s _ := .slots hthr he₁ he₂
          exact .head h₁ (failReplyTo_unwound (h₁.isCall hcall) he hrun)
      | none =>
          simp only [hfrom, except_bind_eq_ok] at hrun
          obtain ⟨s₁, hpop, hrun⟩ := hrun
          have h₁ := binderPopTransaction_unwound hcall hpop
          cases hparent : tx.fromParent with
          | none =>
              obtain rfl : s₁ = s' := by simpa [hparent] using hrun
              exact h₁
          | some next =>
              simp only [hparent] at hrun
              have hnext : s.IsCall next := hs.parents htx (.inl hparent)
              exact h₁.trans (ih (h₁.linked hs) (h₁.isCall hnext) hrun)

theorem binderSendFailedReply_unwound (hs : Linked s) (hcall : s.IsCall t) (he : e ≠ .error)
    (hrun : binderSendFailedReply s t e = .ok s') : Unwound s s' := by
  simp only [binderSendFailedReply, except_bind_eq_ok, deref_eq_ok] at hrun
  obtain ⟨tx, _, _, _, hrun⟩ := hrun
  exact failedReplyLoop_unwound hs hcall he hrun

theorem transactionFailed_unwound (hs : Linked s) {irt : Option TxnId}
    (hirt : ∀ t, irt = some t → s.IsCall t) (he : e ≠ .error)
    (hrun : transactionFailed s th e irt = .ok s') : Unwound s s' := by
  simp only [transactionFailed, except_bind_eq_ok, deref_eq_ok] at hrun
  obtain ⟨thr, hthr, _, _, hrun⟩ := hrun
  cases irt with
  | some irt =>
      have h₁ : UnwindStep s (s.setThread th { thr with returnError := .transactionComplete }) :=
        .slots hthr (by simp) .inr
      exact .head h₁
        (binderSendFailedReply_unwound (h₁.linked hs) (h₁.isCall (hirt irt rfl)) he hrun)
  | none =>
      simp only [except_pure_eq_ok] at hrun
      subst hrun
      exact .single (.slots hthr (fun h => absurd h he) .inr)

/-- The errors that a transaction is refused with, and the call it would answer. -/
def Selection.sound (s : State) : Selection → Prop
  | .target tg => ∀ t, tg.inReplyTo = some t → s.IsCall t
  | .refused e irt => e ≠ .error ∧ ∀ t, irt = some t → s.IsCall t

theorem selectReplyTarget_unwound (hs : Linked s) {sel : Selection}
    (hrun : selectReplyTarget s th = .ok (sel, s')) : Unwound s s' ∧ sel.sound s' := by
  simp only [selectReplyTarget, except_bind_eq_ok, deref_eq_ok] at hrun
  obtain ⟨thr, hthr, hrun⟩ := hrun
  cases hstack : thr.transactionStack with
  | none =>
      simp only [hstack, except_pure_eq_ok, Prod.mk.injEq] at hrun
      obtain ⟨rfl, rfl⟩ := hrun
      exact ⟨.refl, by simp [Selection.sound]⟩
  | some irt =>
      simp only [hstack, except_bind_eq_ok, deref_eq_ok] at hrun
      obtain ⟨tx, htx, hrun⟩ := hrun
      have hcall := hs.stack hthr hstack
      split at hrun
      · simp only [except_pure_eq_ok, Prod.mk.injEq] at hrun
        obtain ⟨rfl, rfl⟩ := hrun
        exact ⟨.refl, by simp [Selection.sound]⟩
      · have h₁ : UnwindStep s (s.setThread th { thr with transactionStack := tx.toParent }) :=
          .stack hthr fun u hu => .inr ⟨irt, tx, htx, .inr hu⟩
        have hcall₁ := h₁.isCall hcall
        split at hrun
        · simp only [except_pure_eq_ok, Prod.mk.injEq] at hrun
          obtain ⟨rfl, rfl⟩ := hrun
          refine ⟨.single h₁, by simp, ?_⟩
          rintro _ ⟨⟩
          exact hcall₁
        · simp only [except_bind_eq_ok, deref_eq_ok] at hrun
          obtain ⟨tthr, htth, hrun⟩ := hrun
          split at hrun
          · simp only [except_pure_eq_ok, Prod.mk.injEq] at hrun
            obtain ⟨rfl, rfl⟩ := hrun
            exact ⟨.single h₁, by simp [Selection.sound]⟩
          · simp only [except_pure_eq_ok, Prod.mk.injEq] at hrun
            obtain ⟨rfl, rfl⟩ := hrun
            refine ⟨.single h₁, ?_⟩
            rintro _ ⟨⟩
            exact hcall₁

theorem targetNodeOf_error {p : ProcId} {handle : ℕ}
    (hrun : targetNodeOf s p handle = .ok (.error e)) : e ≠ .error := by
  unfold targetNodeOf at hrun
  split at hrun
  · split at hrun
    · simp only [Except.ok.injEq, Except.error.injEq] at hrun
      simp [← hrun]
    · simp only [except_bind_eq_ok, except_pure_eq_ok, reduceCtorEq, and_false,
        exists_false] at hrun
  · split at hrun
    · simp only [Except.ok.injEq, Except.error.injEq] at hrun
      simp [← hrun]
    · cases hrun

theorem targetThreadOf_error {target : ProcId} {oneWay : Bool}
    (hrun : targetThreadOf s th target oneWay = .ok (.error e)) : e ≠ .error := by
  simp only [targetThreadOf, except_bind_eq_ok, deref_eq_ok] at hrun
  obtain ⟨thr, hthr, hrun⟩ := hrun
  cases hstack : thr.transactionStack with
  | none => simp [hstack] at hrun
  | some top =>
      simp only [hstack] at hrun
      split at hrun
      · simp at hrun
      · simp only [except_bind_eq_ok, deref_eq_ok] at hrun
        obtain ⟨tx, htx, hrun⟩ := hrun
        split at hrun
        · simp only [except_pure_eq_ok, Except.error.injEq] at hrun
          simp [← hrun]
        · simp only [except_bind_eq_ok, except_pure_eq_ok, reduceCtorEq, and_false,
            exists_false] at hrun

theorem selectCallTarget_sound {p : ProcId} {tr : TransactionData} {env : TxnEnv} {sel : Selection}
    (hrun : selectCallTarget s p th tr env = .ok sel) : sel.sound s := by
  simp only [selectCallTarget, except_bind_eq_ok] at hrun
  obtain ⟨x, hx, hrun⟩ := hrun
  cases x with
  | error e =>
      simp only [except_pure_eq_ok] at hrun
      subst hrun
      exact ⟨targetNodeOf_error hx, by simp⟩
  | ok n =>
      simp only [except_bind_eq_ok, deref_eq_ok] at hrun
      obtain ⟨nd, hnd, hrun⟩ := hrun
      cases hproc : nd.proc with
      | none =>
          simp only [hproc, except_pure_eq_ok] at hrun
          subst hrun
          exact ⟨by simp, by simp⟩
      | some target =>
          simp only [hproc] at hrun
          split at hrun
          · simp only [except_pure_eq_ok] at hrun
            subst hrun
            exact ⟨by simp, by simp⟩
          · simp only [except_bind_eq_ok] at hrun
            obtain ⟨y, hy, hrun⟩ := hrun
            cases y with
            | error e =>
                simp only [except_pure_eq_ok] at hrun
                subst hrun
                exact ⟨targetThreadOf_error hy, by simp⟩
            | ok thread =>
                simp only [except_pure_eq_ok] at hrun
                subst hrun
                simp [Selection.sound]

theorem selectTarget_unwound (hs : Linked s) {p : ProcId} {tr : TransactionData} {reply : Bool}
    {env : TxnEnv} {sel : Selection} (hrun : selectTarget s p th tr reply env = .ok (sel, s')) :
    Unwound s s' ∧ sel.sound s' := by
  cases reply with
  | true => exact selectReplyTarget_unwound hs hrun
  | false =>
      simp only [selectTarget, Bool.false_eq_true, ↓reduceIte, except_bind_eq_ok,
        except_pure_eq_ok, Prod.mk.injEq] at hrun
      obtain ⟨_, hsel, rfl, rfl⟩ := hrun
      exact ⟨.refl, selectCallTarget_sound hsel⟩

theorem freeThreadWalk_unwound (hs : Linked s) {fuel : ℕ} {stack : Option TxnId}
    (hstack : ∀ t, stack = some t → s.IsCall t)
    (hrun : freeThreadWalk fuel s th stack = .ok s') : Unwound s s' := by
  induction fuel generalizing s stack with
  | zero =>
      cases stack with
      | none =>
          obtain rfl : s = s' := by simpa [freeThreadWalk] using hrun
          exact .refl
      | some t => cases hrun
  | succ fuel ih =>
      cases stack with
      | none =>
          obtain rfl : s = s' := by simpa [freeThreadWalk] using hrun
          exact .refl
      | some t =>
          simp only [freeThreadWalk, except_bind_eq_ok, deref_eq_ok] at hrun
          obtain ⟨tx, htx, hrun⟩ := hrun
          have hcall := hstack t rfl
          split at hrun
          · simp only [except_bind_eq_ok] at hrun
            obtain ⟨s₁, hdetach, hrun⟩ := hrun
            have h₁ : UnwindStep s _ := .cut htx hcall hdetach
            exact .head h₁ (ih (h₁.linked hs)
              (fun u hu => h₁.isCall (hs.parents htx (.inr hu))) hrun)
          · split at hrun
            · have h₁ : UnwindStep s _ := .orphan htx hcall
              exact .head h₁ (ih (h₁.linked hs)
                (fun u hu => h₁.isCall (hs.parents htx (.inl hu))) hrun)
            · cases hrun

theorem owedReply_isCall (hs : Linked s) {thr : Thread} (hthr : s.threads th = some thr)
    {owed : Option TxnId} (hrun : owedReply s th thr.transactionStack = .ok owed) :
    ∀ t, owed = some t → s.IsCall t := by
  rintro t rfl
  unfold owedReply at hrun
  cases hstack : thr.transactionStack with
  | none => simp [hstack] at hrun
  | some u =>
      simp only [hstack, except_bind_eq_ok, deref_eq_ok, except_pure_eq_ok] at hrun
      obtain ⟨tx, htx, hrun⟩ := hrun
      split at hrun
      · exact Option.some.inj hrun ▸ hs.stack hthr hstack
      · cases hrun

theorem failOwed_unwound (hs : Linked s) {owed : Option TxnId}
    (howed : ∀ t, owed = some t → s.IsCall t) (hrun : failOwed s owed = .ok s') :
    Unwound s s' := by
  cases owed with
  | none =>
      obtain rfl : s = s' := by simpa [failOwed] using hrun
      exact .refl
  | some t => exact binderSendFailedReply_unwound hs (howed t rfl) (by simp) hrun

end Unwind

end Driver

end BinderForLinux
