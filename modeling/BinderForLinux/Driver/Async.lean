import BinderForLinux.Driver.Work.Runs

/-!
# One-way transactions take turns

A node serves one one-way transaction at a time. The turn is with a transaction
that is on the list of a process or a thread, or with a delivered buffer that is
not freed yet; the other transactions wait on the node.
-/

namespace BinderForLinux

namespace Driver

open Library

/-- The one-way transactions to the node that were accepted, in order. -/
def acceptedFor (n : NodeId) (h : List Obs) : List TxnId :=
  h.filterMap fun
    | .accepted _ _ t (some m) true => if m = n then some t else none
    | _ => none

/-- The transaction is an accepted one-way transaction. -/
def isOneWay (h : List Obs) (t : TxnId) : Bool :=
  h.any fun
    | .accepted _ _ u (some _) true => u = t
    | _ => false

def deliveredTxns (h : List Obs) : List TxnId :=
  h.filterMap fun
    | .delivered _ _ (some (.transaction t)) _ => some t
    | _ => none

/-- The one-way transactions to the node that were delivered, in order. -/
def deliveredFor (n : NodeId) (h : List Obs) : List TxnId :=
  (deliveredTxns h).filter (· ∈ acceptedFor n h)

/-- The accepted one-way transaction that an item is. -/
def Work.oneWay (h : List Obs) : Work → Option TxnId
  | .transaction t => if isOneWay h t then some t else none
  | _ => none

def State.oneWaysOn (s : State) (h : List Obs) (q : Queue) : List TxnId :=
  (s.todo q).filterMap (Work.oneWay h)

/-- Who has the turn at a node. -/
inductive Turn
  | queued (t : TxnId)
  | held (x : ProcId × ℕ)

/-- A transaction has the turn while it is on a list other than that of the node, a
buffer while it belongs to no transaction any more. -/
def HasTurn (d : Option ProcId) (h : List Obs) (s : State) (n : NodeId) : Turn → Prop
  | .queued t => t ∈ acceptedFor n h ∧ ∃ q, q ≠ .async n ∧ t ∈ s.oneWaysOn h q
  | .held x => ∃ b, s.live x = some b ∧ b.asyncTransaction = true ∧ b.targetNode = some n ∧
      b.transaction = none ∧ d ≠ some x.1

def Condition.noExit (C : Condition) : Prop := ∀ s p th, ¬ C s p th .exit

/-- One-way transactions, their buffers and the lists they are on agree with what was
accepted. -/
structure OneWays (h : List Obs) (s : State) : Prop where
  node_lt : ∀ {n t}, t ∈ acceptedFor n h → n < s.nextId
  target_lt : ∀ {x b n}, s.live x = some b → b.asyncTransaction = true → b.targetNode = some n →
    n < s.nextId
  item_lt : ∀ {q t}, .transaction t ∈ s.todo q → t < s.nextId
  accepted_lt : ∀ {n t}, t ∈ acceptedFor n h → t < s.nextId
  delivered_lt : ∀ {t}, t ∈ deliveredTxns h → t < s.nextId
  node_unique : ∀ {n m t}, t ∈ acceptedFor n h → t ∈ acceptedFor m h → n = m
  plain : ∀ {n t tx}, t ∈ acceptedFor n h → s.txns t = some tx → tx.needReply = false
  buffer : ∀ {x b n t}, s.live x = some b → b.asyncTransaction = true → b.targetNode = some n →
    b.transaction = some t → t ∈ acceptedFor n h ∧ b.allowUserFree = false
  owner : ∀ {x b n nd p}, s.live x = some b → b.asyncTransaction = true → b.targetNode = some n →
    s.nodes n = some nd → nd.proc = some p → p = x.1
  filled : ∀ {n t tx x}, t ∈ acceptedFor n h → s.txns t = some tx → tx.buffer = some x →
    ∃ b, s.live x = some b ∧ b.asyncTransaction = true ∧ b.targetNode = some n
  exists_of_mem : ∀ {q t}, t ∈ s.oneWaysOn h q → s.txns t ≠ none
  unique : ∀ {q q' t}, t ∈ s.oneWaysOn h q → t ∈ s.oneWaysOn h q' → q = q'
  nodup : ∀ q, (s.oneWaysOn h q).Nodup
  async : ∀ {n t}, t ∈ s.oneWaysOn h (.async n) → t ∈ acceptedFor n h

/-- At every node at most one has the turn, the flag of the node is set as long as
someone has it or waits, and transactions are delivered in the order in which they
were accepted. -/
structure TakesTurns (C : Condition) (d : Option ProcId) (h : List Obs) (s : State) : Prop
    extends OneWays h s where
  waiting_flag : ∀ {n t nd}, t ∈ s.oneWaysOn h (.async n) → s.nodes n = some nd →
    nd.hasAsyncTransaction = true
  turn_flag : ∀ {n k nd}, HasTurn d h s n k → s.nodes n = some nd →
    nd.hasAsyncTransaction = true
  one : ∀ {n k k'}, HasTurn d h s n k → HasTurn d h s n k' → k = k'
  order : ∀ n, ∃ l : List TxnId, l.length ≤ 1 ∧ (∀ t, t ∈ l ↔ HasTurn d h s n (.queued t)) ∧
    (deliveredFor n h ++ l ++ s.oneWaysOn h (.async n)).Sublist (acceptedFor n h) ∧
      (d = none → C.noExit → (∀ p, .released p ∉ h) →
        deliveredFor n h ++ l ++ s.oneWaysOn h (.async n) = acceptedFor n h)

section Log

variable {h o : List Obs} {n : NodeId} {t : TxnId}

theorem acceptedFor_append : acceptedFor n (h ++ o) = acceptedFor n h ++ acceptedFor n o := by
  simp [acceptedFor]

theorem deliveredTxns_append : deliveredTxns (h ++ o) = deliveredTxns h ++ deliveredTxns o := by
  simp [deliveredTxns]

theorem isOneWay_iff : isOneWay h t = true ↔ ∃ n, t ∈ acceptedFor n h := by
  simp only [isOneWay, acceptedFor, List.any_eq_true, List.mem_filterMap]
  constructor
  · rintro ⟨x, hx, hmatch⟩
    split at hmatch
    · rename_i p th u m
      exact ⟨m, _, hx, by simpa using hmatch⟩
    · cases hmatch
  · rintro ⟨n, x, hx, hmatch⟩
    refine ⟨x, hx, ?_⟩
    split at hmatch
    · simp only [Option.ite_none_right_eq_some, Option.some.injEq] at hmatch
      simpa using hmatch.2
    · cases hmatch

theorem mem_oneWaysOn {s : State} {q : Queue} :
    t ∈ s.oneWaysOn h q ↔ .transaction t ∈ s.todo q ∧ ∃ n, t ∈ acceptedFor n h := by
  rw [← isOneWay_iff]
  simp only [State.oneWaysOn, List.mem_filterMap]
  constructor
  · rintro ⟨w, hw, hmatch⟩
    unfold Work.oneWay at hmatch
    split at hmatch
    · simp only [Option.ite_none_right_eq_some, Option.some.injEq] at hmatch
      obtain ⟨hone, rfl⟩ := hmatch
      exact ⟨hw, hone⟩
    · cases hmatch
  · rintro ⟨hw, hone⟩
    exact ⟨_, hw, by simp [Work.oneWay, hone]⟩

section Nil

variable (ho : ∀ n, acceptedFor n o = [])
include ho

theorem acceptedFor_of_nil (n : NodeId) : acceptedFor n (h ++ o) = acceptedFor n h := by
  rw [acceptedFor_append, ho, List.append_nil]

theorem oneWay_of_nil : Work.oneWay (h ++ o) = Work.oneWay h := by
  have hone : isOneWay (h ++ o) = isOneWay h := by
    funext t
    rw [Bool.eq_iff_iff, isOneWay_iff, isOneWay_iff]
    simp only [acceptedFor_of_nil ho]
  funext w
  cases w with
  | transaction t => rw [Work.oneWay, Work.oneWay, hone]
  | _ => rfl

theorem oneWaysOn_of_nil (s : State) (q : Queue) : s.oneWaysOn (h ++ o) q = s.oneWaysOn h q := by
  rw [State.oneWaysOn, State.oneWaysOn, oneWay_of_nil ho]

end Nil

/-- The observations accept and deliver nothing one-way. -/
structure NoTurns (h o : List Obs) (s : State) : Prop where
  accepted : ∀ n, acceptedFor n o = []
  delivered : ∀ t ∈ deliveredTxns o, isOneWay h t = false ∧ t < s.nextId

theorem NoTurns.nil {s : State} : NoTurns h [] s := ⟨fun _ => rfl, by simp [deliveredTxns]⟩

theorem noTurns_of_plain {s : State} (ho : ∀ x ∈ o, x.isPlain = true) : NoTurns h o s := by
  constructor
  · intro n
    refine List.filterMap_eq_nil_iff.mpr fun x hx => ?_
    have := ho x hx
    split
    · cases this
    · rfl
  · intro t ht
    obtain ⟨x, hx, hmatch⟩ := List.mem_filterMap.mp ht
    have := ho x hx
    split at hmatch
    · cases this
    · cases hmatch

variable {s : State}

theorem NoTurns.acceptedFor (ho : NoTurns h o s) (n : NodeId) :
    acceptedFor n (h ++ o) = Driver.acceptedFor n h := acceptedFor_of_nil ho.accepted n

theorem NoTurns.oneWaysOn (ho : NoTurns h o s) (s' : State) (q : Queue) :
    s'.oneWaysOn (h ++ o) q = s'.oneWaysOn h q := oneWaysOn_of_nil ho.accepted s' q

theorem NoTurns.deliveredFor (ho : NoTurns h o s) (n : NodeId) :
    deliveredFor n (h ++ o) = Driver.deliveredFor n h := by
  have hnil : (deliveredTxns o).filter (· ∈ Driver.acceptedFor n h) = [] := by
    refine List.filter_eq_nil_iff.mpr fun t ht hmem => ?_
    have hone : Driver.isOneWay h t = true := isOneWay_iff.mpr ⟨n, by simpa using hmem⟩
    rw [(ho.delivered t ht).1] at hone
    cases hone
  rw [Driver.deliveredFor, Driver.deliveredFor, deliveredTxns_append, ho.acceptedFor,
    List.filter_append, hnil, List.append_nil]

end Log

section Kept

variable {C : Condition} {d : Option ProcId} {h o : List Obs} {s s' : State} {n : NodeId}
  {t : TxnId}

/-- Nothing is changed that the turns depend on. -/
structure TurnsKept (d : Option ProcId) (h : List Obs) (s s' : State) : Prop where
  nextId : s.nextId ≤ s'.nextId
  item_lt : ∀ {q t}, .transaction t ∈ s'.todo q → .transaction t ∈ s.todo q ∨ t < s'.nextId
  items : ∀ q, s'.oneWaysOn h q = s.oneWaysOn h q
  txn : ∀ {t}, isOneWay h t = true → s.txns t ≠ none → s'.txns t ≠ none
  txnBack : ∀ {t tx'}, isOneWay h t = true → s'.txns t = some tx' →
    ∃ tx, s.txns t = some tx ∧ tx'.needReply = tx.needReply ∧
      (tx'.buffer = tx.buffer ∨ tx'.buffer = none)
  live : ∀ {x b n}, b.asyncTransaction = true → b.targetNode = some n → s'.live x = some b →
    s.live x = some b
  kept : ∀ {x b n}, b.asyncTransaction = true → b.targetNode = some n → s.live x = some b →
    s'.live x = some b ∨ d = some x.1 ∧ ∀ t tx, s'.txns t = some tx → tx.buffer ≠ some x
  nodes : ∀ {n nd'}, s'.nodes n = some nd' →
    (∃ nd, s.nodes n = some nd ∧ nd'.hasAsyncTransaction = nd.hasAsyncTransaction ∧
      (nd'.proc = nd.proc ∨ nd'.proc = none)) ∨ s.nextId ≤ n

theorem TurnsKept.hasTurn (hk : TurnsKept d h s s') (ho : NoTurns h o s) {k : Turn} :
    HasTurn d (h ++ o) s' n k ↔ HasTurn d h s n k := by
  cases k with
  | queued t => simp only [HasTurn, ho.acceptedFor, ho.oneWaysOn, hk.items]
  | held x =>
      constructor
      · rintro ⟨b, hb, hasync, hnode, hrest⟩
        exact ⟨b, hk.live hasync hnode hb, hasync, hnode, hrest⟩
      · rintro ⟨b, hb, hasync, hnode, hnone, hd⟩
        rcases hk.kept hasync hnode hb with hb' | ⟨hd', -⟩
        · exact ⟨b, hb', hasync, hnode, hnone, hd⟩
        · exact absurd hd' hd

theorem TakesTurns.kept (ht : TakesTurns C d h s) (hk : TurnsKept d h s s') (ho : NoTurns h o s) :
    TakesTurns C d (h ++ o) s' where
  node_lt := fun hmem => (ht.node_lt (ho.acceptedFor _ ▸ hmem)).trans_le hk.nextId
  target_lt := fun hb hasync hnode =>
    (ht.target_lt (hk.live hasync hnode hb) hasync hnode).trans_le hk.nextId
  item_lt := fun hmem => (hk.item_lt hmem).elim
    (fun hmem => (ht.item_lt hmem).trans_le hk.nextId) id
  accepted_lt := fun hmem => (ht.accepted_lt (ho.acceptedFor _ ▸ hmem)).trans_le hk.nextId
  delivered_lt := by
    intro t hmem
    rw [deliveredTxns_append, List.mem_append] at hmem
    rcases hmem with hmem | hmem
    · exact (ht.delivered_lt hmem).trans_le hk.nextId
    · exact (ho.delivered t hmem).2.trans_le hk.nextId
  node_unique := fun hn hm => ht.node_unique (ho.acceptedFor _ ▸ hn) (ho.acceptedFor _ ▸ hm)
  plain := by
    intro n t tx' hmem htx'
    rw [ho.acceptedFor] at hmem
    obtain ⟨tx, htx, hreply, -⟩ := hk.txnBack (isOneWay_iff.mpr ⟨n, hmem⟩) htx'
    exact hreply.trans (ht.plain hmem htx)
  buffer := by
    intro x b n t hb hasync hnode hbt
    rw [ho.acceptedFor]
    exact ht.buffer (hk.live hasync hnode hb) hasync hnode hbt
  owner := by
    intro x b n nd' p hb hasync hnode hnd' hproc
    have hb := hk.live hasync hnode hb
    rcases hk.nodes hnd' with ⟨nd, hnd, -, hp | hp⟩ | hlt
    · exact ht.owner hb hasync hnode hnd (hp ▸ hproc)
    · rw [hp] at hproc
      cases hproc
    · exact absurd (ht.target_lt hb hasync hnode) (not_lt.mpr hlt)
  filled := by
    intro n t tx' x hmem htx' hx
    rw [ho.acceptedFor] at hmem
    obtain ⟨tx, htx, -, hbuf | hbuf⟩ := hk.txnBack (isOneWay_iff.mpr ⟨n, hmem⟩) htx'
    · obtain ⟨b, hb, hasync, hnode⟩ := ht.filled hmem htx (hbuf ▸ hx)
      rcases hk.kept hasync hnode hb with hb' | ⟨-, hnone⟩
      · exact ⟨b, hb', hasync, hnode⟩
      · exact absurd hx (hnone t tx' htx')
    · rw [hbuf] at hx
      cases hx
  exists_of_mem := by
    intro q t hmem
    rw [ho.oneWaysOn, hk.items] at hmem
    exact hk.txn (isOneWay_iff.mpr (mem_oneWaysOn.mp hmem).2) (ht.exists_of_mem hmem)
  unique := by
    intro q q' t hmem hmem'
    rw [ho.oneWaysOn, hk.items] at hmem hmem'
    exact ht.unique hmem hmem'
  nodup := by
    intro q
    rw [ho.oneWaysOn, hk.items]
    exact ht.nodup q
  async := by
    intro n t hmem
    rw [ho.oneWaysOn, hk.items] at hmem
    rw [ho.acceptedFor]
    exact ht.async hmem
  waiting_flag := by
    intro n t nd' hmem hnd'
    rw [ho.oneWaysOn, hk.items] at hmem
    rcases hk.nodes hnd' with ⟨nd, hnd, hflag, -⟩ | hlt
    · exact hflag.trans (ht.waiting_flag hmem hnd)
    · exact absurd (ht.node_lt (ht.async hmem)) (not_lt.mpr hlt)
  turn_flag := by
    intro n k nd' hturn hnd'
    rw [hk.hasTurn ho] at hturn
    rcases hk.nodes hnd' with ⟨nd, hnd, hflag, -⟩ | hlt
    · exact hflag.trans (ht.turn_flag hturn hnd)
    · have : n < s.nextId := by
        cases k with
        | queued t => exact ht.node_lt hturn.1
        | held x =>
            obtain ⟨b, hb, hasync, hnode, -⟩ := hturn
            exact ht.target_lt hb hasync hnode
      exact absurd this (not_lt.mpr hlt)
  one := by
    intro n k k' hk₁ hk₂
    rw [hk.hasTurn ho] at hk₁ hk₂
    exact ht.one hk₁ hk₂
  order := by
    intro n
    obtain ⟨l, hl, hmem, hsub, hexact⟩ := ht.order n
    refine ⟨l, hl, fun t => (hmem t).trans (hk.hasTurn ho).symm, ?_, fun hd hC hrel => ?_⟩
    · rw [ho.deliveredFor, ho.oneWaysOn, hk.items, ho.acceptedFor]
      exact hsub
    · rw [ho.deliveredFor, ho.oneWaysOn, hk.items, ho.acceptedFor]
      exact hexact hd hC fun p hp => hrel p (List.mem_append_left _ hp)

theorem TakesTurns.unobserved (ht : TakesTurns C d h s) (hk : TurnsKept d h s s') :
    TakesTurns C d h s' := by
  have hkept := ht.kept hk NoTurns.nil
  rwa [List.append_nil] at hkept

/-! ### Frames -/

theorem filterMap_oneWay (f : Work → Bool) (hf : ∀ t, f (.transaction t) = true) (l : List Work) :
    (l.filter f).filterMap (Work.oneWay h) = l.filterMap (Work.oneWay h) := by
  rw [List.filterMap_filter]
  refine List.filterMap_congr fun w _ => ?_
  cases w with
  | transaction t => simp [hf]
  | _ => simp [Work.oneWay]

/-- Transactions and buffers are as before, and the lists differ in other items. -/
theorem TurnsKept.of_items (f : Work → Bool) (hf : ∀ t, f (.transaction t) = true)
    (hnext : s.nextId ≤ s'.nextId) (hitems : ∀ q, (s'.todo q).filter f = (s.todo q).filter f)
    (htxns : s'.txns = s.txns) (hlive : s'.live = s.live)
    (hnodes : ∀ {n nd'}, s'.nodes n = some nd' →
      (∃ nd, s.nodes n = some nd ∧ nd'.hasAsyncTransaction = nd.hasAsyncTransaction ∧
        (nd'.proc = nd.proc ∨ nd'.proc = none)) ∨ s.nextId ≤ n) :
    TurnsKept d h s s' where
  nextId := hnext
  item_lt := by
    intro q t hmem
    have hmem : .transaction t ∈ (s'.todo q).filter f := List.mem_filter.mpr ⟨hmem, hf t⟩
    rw [hitems] at hmem
    exact .inl (List.mem_filter.mp hmem).1
  items := by
    intro q
    rw [State.oneWaysOn, ← filterMap_oneWay f hf, hitems, filterMap_oneWay f hf, State.oneWaysOn]
  txn := fun _ hsome => htxns ▸ hsome
  txnBack := fun _ htx => ⟨_, htxns ▸ htx, rfl, .inl rfl⟩
  live := fun _ _ hb => hlive ▸ hb
  kept := fun _ _ hb => .inl (hlive ▸ hb)
  nodes := hnodes

theorem TurnsKept.of_eq (hnext : s.nextId ≤ s'.nextId) (htodo : s'.todo = s.todo)
    (htxns : s'.txns = s.txns) (hlive : s'.live = s.live) (hnodes : s'.nodes = s.nodes) :
    TurnsKept d h s s' :=
  .of_items (fun _ => true) (fun _ => rfl) hnext (fun q => by rw [htodo]) htxns hlive
    fun hnd => .inl ⟨_, hnodes ▸ hnd, rfl, .inl rfl⟩

theorem Still.turnsKept (hstill : Still s s') : TurnsKept d h s s' := by
  refine .of_items Work.isTxn (fun _ => rfl) hstill.nextId hstill.items (by rw [hstill.rest])
    hstill.live fun {n nd'} hnd' => ?_
  rcases hstill.nodes hnd' with ⟨nd, hnd, hid⟩ | ⟨hlt, -⟩
  · exact .inl ⟨nd, hnd, congrArg (fun x => x.2.2.2.1) hid, .inl (congrArg Prod.fst hid)⟩
  · exact .inr hlt

/-- One buffer changes, and neither before nor after it is that of a one-way
transaction. -/
theorem TurnsKept.of_buffer {x : ProcId × ℕ} {z : Option Buffer} (hnext : s.nextId ≤ s'.nextId)
    (hitem : ∀ {q t}, .transaction t ∈ s'.todo q → .transaction t ∈ s.todo q ∨ t < s'.nextId)
    (hitems : ∀ q, s'.oneWaysOn h q = s.oneWaysOn h q)
    (htxn : ∀ {t}, isOneWay h t = true → s'.txns t = s.txns t) (hnodes : s'.nodes = s.nodes)
    (hlive : s'.live = Function.update s.live x z)
    (hx : ∀ b n, s.live x = some b → b.asyncTransaction = true → b.targetNode ≠ some n)
    (hz : ∀ b n, z = some b → b.asyncTransaction = true → b.targetNode ≠ some n) :
    TurnsKept d h s s' where
  nextId := hnext
  item_lt := hitem
  items := hitems
  txn := fun hone hsome => htxn hone ▸ hsome
  txnBack := fun hone htx => ⟨_, htxn hone ▸ htx, rfl, .inl rfl⟩
  live := by
    intro y b n hasync hnode hb
    rw [hlive] at hb
    by_cases hyx : y = x
    · rw [hyx, Function.update_self] at hb
      exact absurd hnode (hz b n hb hasync)
    · rwa [Function.update_of_ne hyx] at hb
  kept := by
    intro y b n hasync hnode hb
    rw [hlive]
    by_cases hyx : y = x
    · exact absurd hnode (hx b n (hyx ▸ hb) hasync)
    · rw [Function.update_of_ne hyx]
      exact .inl hb
  nodes := fun hnd => .inl ⟨_, hnodes ▸ hnd, rfl, .inl rfl⟩

/-! ### Calm steps -/

theorem UnwindStep.txn_plain (hstep : UnwindStep s s') {tx : Transaction} (htx : s.txns t = some tx)
    (hplain : tx.needReply = false) : s'.txns t = some tx := by
  have hne : ∀ {u : TxnId}, s.IsCall u → t ≠ u := by
    rintro u hu rfl
    rw [hu.2 tx htx] at hplain
    cases hplain
  cases hstep with
  | slots => exact htx
  | stack => exact htx
  | orphan hux hcall => exact (Function.update_of_ne (hne hcall) ..).trans htx
  | cut hux hcall hdetach =>
      rw [(detachBuffer_live hdetach).1]
      exact (Function.update_of_ne (hne hcall) ..).trans htx
  | free hcall hrun =>
      obtain ⟨ux, s₁, hux, hdetach, rfl⟩ := freeTxn_eq hrun
      rw [(detachBuffer_live hdetach).1]
      exact (Function.update_of_ne (hne hcall) ..).trans htx

theorem Linked.not_async (hs : Linked s) {x : ProcId × ℕ} {b : Buffer} (hb : s.live x = some b)
    (hbt : b.transaction = some t) (hcall : s.IsCall t) (hasync : b.asyncTransaction = true) :
    b.targetNode = none := by
  obtain ⟨tx, htx, hx⟩ := hs.transaction hb hbt
  obtain ⟨b', hb', -, hreply, hone⟩ := hs.buffer htx hx
  obtain rfl : b = b' := Option.some.inj (hb.symm.trans hb')
  rw [hcall.2 tx htx] at hreply
  rw [hasync] at hone
  cases hnode : b.targetNode with
  | none => rfl
  | some n =>
      simp only [hnode, Option.isSome_some, Bool.true_and] at hreply hone
      rw [← hone] at hreply
      cases hreply

theorem UnwindStep.turnsKept (hstep : UnwindStep s s') (hs : Linked s)
    (ht : TakesTurns C d h s) : TurnsKept d h s s' := by
  have hkeep : ∀ {t}, isOneWay h t = true → s'.txns t = s.txns t := by
    intro t hone
    obtain ⟨n, hmem⟩ := isOneWay_iff.mp hone
    cases htx : s.txns t with
    | none => exact hstep.txns_none htx
    | some tx => exact hstep.txn_plain htx (ht.plain hmem htx)
  refine ⟨by rw [hstep.rest], fun hmem => .inl (by rw [hstep.rest] at hmem; exact hmem),
    fun q => by rw [hstep.rest]; rfl, fun hone hsome => hkeep hone ▸ hsome,
    fun hone htx => ⟨_, hkeep hone ▸ htx, rfl, .inl rfl⟩, ?_, ?_,
    fun hnd => .inl ⟨_, by rw [hstep.rest] at hnd; exact hnd, rfl, .inl rfl⟩⟩
  · intro x b n hasync hnode hb
    rcases hstep.live hs x with heq | ⟨b₀, u, hb₀, hbu, hcall, hb₁⟩
    · exact heq ▸ hb
    · obtain rfl := Option.some.inj (hb₁.symm.trans hb)
      rw [show b₀.targetNode = none from hs.not_async hb₀ hbu hcall hasync] at hnode
      cases hnode
  · intro x b n hasync hnode hb
    rcases hstep.live hs x with heq | ⟨b₀, u, hb₀, hbu, hcall, hb₁⟩
    · exact .inl (heq ▸ hb)
    · obtain rfl := Option.some.inj (hb₀.symm.trans hb)
      rw [hs.not_async hb₀ hbu hcall hasync] at hnode
      cases hnode

theorem TurnsKept.of_idle {x : ProcId × ℕ} {y z : Option Buffer}
    (hrest : s' = { s with area := s'.area }) (hy : s.live x = y)
    (hlive : s'.live = Function.update s.live x z) (hyi : ∀ b, y = some b → b.idle)
    (hzi : ∀ b, z = some b → b.idle) : TurnsKept d h s s' := by
  refine .of_buffer (by rw [hrest]) (fun hmem => .inl (by rw [hrest] at hmem; exact hmem))
    (fun q => by rw [hrest]; rfl) (fun _ => by rw [hrest]) (by rw [hrest]) hlive ?_ ?_
  · intro b n hb _
    rw [(hyi b (hy ▸ hb)).2.1]
    simp
  · intro b n hb _
    rw [(hzi b hb).2.1]
    simp

theorem CalmStep.takesTurns (hstep : CalmStep s s') (hs : Linked s) (ht : TakesTurns C d h s) :
    TakesTurns C d h s' := by
  refine ht.unobserved ?_
  cases hstep with
  | still hstill => exact hstill.turnsKept
  | unwind hun => exact hun.turnsKept hs ht
  | thread hthr hsame => exact .of_eq le_rfl rfl rfl (live_congr rfl) rfl
  | fields hnext hrest hlive =>
      exact .of_eq hnext (by rw [hrest]) (by rw [hrest]) hlive (by rw [hrest])
  | alloc hx hb hrest hlive =>
      refine .of_idle hrest hx hlive (by simp) ?_
      rintro _ ⟨⟩
      exact hb
  | discard hx hb hrest hlive =>
      refine .of_idle hrest hx hlive ?_ (by simp)
      rintro _ ⟨⟩
      exact hb

theorem Calm.takesTurns (hcalm : Calm s s') (hs : Linked s) (ht : TakesTurns C d h s) :
    TakesTurns C d h s' := by
  induction hcalm with
  | refl => exact ht
  | tail hsteps hstep ih => exact hstep.takesTurns (Calm.linked hsteps hs) ih

end Kept

end Driver

end BinderForLinux
