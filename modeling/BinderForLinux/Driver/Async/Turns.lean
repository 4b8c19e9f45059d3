import BinderForLinux.Driver.Async

/-!
# How the turn is passed on

Sending takes the turn or waits for it, delivery hands it to the buffer, and freeing
the buffer passes it to the next transaction or gives it back. A thread that exits
leaves the turn with the buffer of the transaction it drops.
-/

namespace BinderForLinux

namespace Driver

open Library

section Lists

variable {h : List Obs} {s : State} {q q' : Queue} {w : Work} {ws : List Work} {t : TxnId}

theorem oneWay_of_not (hone : isOneWay h t = false) : Work.oneWay h (.transaction t) = none := by
  simp [Work.oneWay, hone]

theorem mem_listAddTail {w' : Work} (hw : w' ∈ (s.listAddTail q w).todo q') :
    w' ∈ s.todo q' ∨ q' = q ∧ w' = w := by
  by_cases hq : q' = q
  · subst hq
    simpa [State.listAddTail, State.setTodo] using hw
  · exact .inl (by simpa [State.listAddTail, State.setTodo, hq] using hw)

theorem mem_listAddTail_of_mem {w' : Work} (hw : w' ∈ s.todo q') :
    w' ∈ (s.listAddTail q w).todo q' := by
  by_cases hq : q' = q
  · subst hq
    simp [State.listAddTail, State.setTodo, hw]
  · simpa [State.listAddTail, State.setTodo, hq] using hw

theorem mem_listAddTail_self : w ∈ (s.listAddTail q w).todo q := by
  simp [State.listAddTail, State.setTodo]

theorem oneWaysOn_listAddTail_self :
    (s.listAddTail q w).oneWaysOn h q = s.oneWaysOn h q ++ (Work.oneWay h w).toList := by
  simp only [State.oneWaysOn, State.listAddTail, State.setTodo, Function.update_self,
    List.filterMap_append]
  cases hw : Work.oneWay h w <;> simp [hw]

theorem oneWaysOn_listAddTail_of_ne (hq : q' ≠ q) :
    (s.listAddTail q w).oneWaysOn h q' = s.oneWaysOn h q' := by
  simp [State.oneWaysOn, State.listAddTail, State.setTodo, hq]

theorem oneWaysOn_listAddTail_of_none (hw : Work.oneWay h w = none) (q' : Queue) :
    (s.listAddTail q w).oneWaysOn h q' = s.oneWaysOn h q' := by
  by_cases hq : q' = q
  · subst hq
    rw [oneWaysOn_listAddTail_self, hw, Option.toList_none, List.append_nil]
  · exact oneWaysOn_listAddTail_of_ne hq

theorem oneWaysOn_cons (hq : s.todo q = w :: ws) :
    s.oneWaysOn h q = (Work.oneWay h w).toList ++ (s.setTodo q ws).oneWaysOn h q := by
  simp only [State.oneWaysOn, hq, State.setTodo, Function.update_self, List.filterMap_cons]
  cases Work.oneWay h w <;> simp

theorem oneWaysOn_setTodo_of_ne (hq : q' ≠ q) :
    (s.setTodo q ws).oneWaysOn h q' = s.oneWaysOn h q' := by
  simp [State.oneWaysOn, State.setTodo, hq]

theorem oneWaysOn_listDel_of_none (hw : Work.oneWay h w = none) (q' : Queue) :
    (s.listDel q w).oneWaysOn h q' = s.oneWaysOn h q' := by
  by_cases hq : q' = q
  · subst hq
    simp only [State.oneWaysOn, State.listDel, State.setTodo, Function.update_self,
      List.filterMap_filter]
    refine List.filterMap_congr fun w' _ => ?_
    by_cases hw' : w' = w
    · simp [hw', hw]
    · simp [hw']
  · simp [State.oneWaysOn, State.listDel, State.setTodo, hq]

theorem oneWaysOn_listDel_of_ne (hq : q' ≠ q) :
    (s.listDel q w).oneWaysOn h q' = s.oneWaysOn h q' := by
  simp [State.oneWaysOn, State.listDel, State.setTodo, hq]

theorem oneWaysOn_listDel_self :
    (s.listDel q (.transaction t)).oneWaysOn h q = (s.oneWaysOn h q).filter (· ≠ t) := by
  simp only [State.oneWaysOn, State.listDel, State.setTodo, Function.update_self,
    List.filterMap_filter, List.filter_filterMap]
  refine List.filterMap_congr fun w _ => ?_
  cases w with
  | transaction u =>
      by_cases hu : u = t
      · subst hu
        cases hone : isOneWay h u <;> simp [Work.oneWay, hone, Option.filter]
      · cases hone : isOneWay h u <;> simp [Work.oneWay, hone, hu, Option.filter]
  | _ => simp [Work.oneWay]

end Lists

section Turns

variable {C : Condition} {d : Option ProcId} {h o : List Obs} {s s' : State} {p : ProcId}
  {th : ThreadId} {n m : NodeId} {nd : Node} {t : TxnId} {tx : Transaction} {tg : Target}
  {x : ProcId × ℕ} {b : Buffer} {q : Queue} {k : Turn}

/-! ### Sending -/

theorem Queued.turnsKept (hq : Queued s s' th t tg tx b x q) (hone : isOneWay h t = false)
    (hb : b.asyncTransaction = false ∨ b.targetNode = none) : TurnsKept d h s s' := by
  obtain ⟨b₀, hb₀, hidle⟩ := hq.idle
  have htodo : s'.todo = ((s.listAddTail q (.transaction t)).listAddTail (.thread th)
      (.transactionComplete t)).todo := by rw [hq.rest]
  refine .of_buffer (by rw [hq.rest]) ?_ ?_ ?_ (by rw [hq.rest]) hq.live ?_ ?_
  · intro q' u hu
    rw [htodo] at hu
    rcases mem_listAddTail hu with hu | ⟨-, hu⟩
    · rcases mem_listAddTail hu with hu | ⟨-, hu⟩
      · exact .inl hu
      · cases hu
        refine .inr ?_
        rw [hq.rest]
        exact hq.lt
    · cases hu
  · intro q'
    have h₁ := oneWaysOn_listAddTail_of_none (s := s.listAddTail q (.transaction t))
      (q := .thread th) (w := .transactionComplete t) (h := h) rfl q'
    have h₂ := oneWaysOn_listAddTail_of_none (s := s) (q := q) (oneWay_of_not hone) q'
    rw [State.oneWaysOn, htodo]
    exact h₁.trans h₂
  · intro u hu
    have hut : u ≠ t := by
      rintro rfl
      rw [hone] at hu
      cases hu
    rw [hq.rest]
    exact Function.update_of_ne hut ..
  · intro c m hc _
    rw [← Option.some.inj (hb₀.symm.trans hc), hidle.2.1]
    simp
  · rintro _ m ⟨⟩ hasync
    rcases hb with hb | hb
    · rw [hasync] at hb
      cases hb
    · simp [hb]

/-- The transaction number `t` was never used. -/
structure Unused (h : List Obs) (s : State) (t : TxnId) : Prop where
  accepted : ∀ m, t ∉ acceptedFor m h
  delivered : t ∉ deliveredTxns h
  item : ∀ q, .transaction t ∉ s.todo q

theorem OneWays.unused (hw : OneWays h s) (hcalm : Calm s s') : Unused h s' s.nextId where
  accepted := fun m hmem => absurd (hw.accepted_lt hmem) (lt_irrefl _)
  delivered := fun hmem => absurd (hw.delivered_lt hmem) (lt_irrefl _)
  item := by
    intro q hmem
    have hmem : .transaction s.nextId ∈ (s'.todo q).filter Work.isTxn :=
      List.mem_filter.mpr ⟨hmem, rfl⟩
    rw [hcalm.items] at hmem
    exact absurd (hw.item_lt (List.mem_filter.mp hmem).1) (lt_irrefl _)

theorem mem_acceptedFor_accepted {u : TxnId} :
    u ∈ acceptedFor m (h ++ [.accepted p th t (some n) true]) ↔
      u ∈ acceptedFor m h ∨ n = m ∧ u = t := by
  rw [acceptedFor_append, List.mem_append]
  by_cases hnm : n = m <;> simp [acceptedFor, hnm]

section Accept

variable (hu : Unused h s t) (hnode : tg.node = some n) (hnd : s.nodes n = some nd)
  (hq : Queued (s.setNode n { nd with hasAsyncTransaction := true }) s' th t tg tx b x q)

theorem oneWay_accepted {w : Work} (hw : w ≠ .transaction t) :
    Work.oneWay (h ++ [.accepted p th t (some n) true]) w = Work.oneWay h w := by
  cases w with
  | transaction u =>
      have hut : u ≠ t := fun hut => hw (by rw [hut])
      have hone : isOneWay (h ++ [.accepted p th t (some n) true]) u = isOneWay h u := by
        rw [Bool.eq_iff_iff, isOneWay_iff, isOneWay_iff]
        simp only [mem_acceptedFor_accepted, hut, and_false, or_false]
      rw [Work.oneWay, Work.oneWay, hone]
  | _ => rfl

include hu in
theorem Unused.oneWaysOn_accepted (q' : Queue) :
    s.oneWaysOn (h ++ [.accepted p th t (some n) true]) q' = s.oneWaysOn h q' := by
  refine List.filterMap_congr fun w hw => oneWay_accepted ?_
  rintro rfl
  exact hu.item q' hw

include hu hq in
theorem Queued.oneWaysOn_accepted (q' : Queue) :
    s'.oneWaysOn (h ++ [.accepted p th t (some n) true]) q' =
      if q' = q then s.oneWaysOn h q ++ [t] else s.oneWaysOn h q' := by
  have htodo : s'.todo = ((s.listAddTail q (.transaction t)).listAddTail (.thread th)
      (.transactionComplete t)).todo := by
    rw [hq.rest]
    rfl
  have h₁ := oneWaysOn_listAddTail_of_none (s := s.listAddTail q (.transaction t)) (q := .thread th)
    (w := .transactionComplete t) (h := h ++ [.accepted p th t (some n) true]) rfl q'
  have hone : Work.oneWay (h ++ [.accepted p th t (some n) true]) (.transaction t) = some t := by
    have : isOneWay (h ++ [.accepted p th t (some n) true]) t = true :=
      isOneWay_iff.mpr ⟨n, mem_acceptedFor_accepted.mpr (.inr ⟨rfl, rfl⟩)⟩
    simp [Work.oneWay, this]
  rw [State.oneWaysOn, htodo]
  refine h₁.trans ?_
  split
  · rename_i hq'
    rw [hq', oneWaysOn_listAddTail_self, hone, hu.oneWaysOn_accepted]
    rfl
  · rename_i hq'
    rw [oneWaysOn_listAddTail_of_ne hq', hu.oneWaysOn_accepted]

include hu hq in
theorem Queued.mem_oneWaysOn_accepted {q' : Queue} {u : TxnId} :
    u ∈ s'.oneWaysOn (h ++ [.accepted p th t (some n) true]) q' ↔
      u ∈ s.oneWaysOn h q' ∨ q' = q ∧ u = t := by
  rw [hq.oneWaysOn_accepted hu]
  split
  · rename_i hq'
    simp [hq']
  · rename_i hq'
    simp [hq']

theorem Unused.not_mem (hu : Unused h s t) (q' : Queue) : t ∉ s.oneWaysOn h q' :=
  fun hmem => hu.item q' (mem_oneWaysOn.mp hmem).1

theorem Queued.live_cases (hq : Queued s s' th t tg tx b x q) {y : ProcId × ℕ} {c : Buffer}
    (hc : s'.live y = some c) : y = x ∧ c = b ∨ y ≠ x ∧ s.live y = some c := by
  rw [hq.live] at hc
  by_cases hyx : y = x
  · rw [hyx, Function.update_self] at hc
    exact .inl ⟨hyx, (Option.some.inj hc).symm⟩
  · rw [Function.update_of_ne hyx] at hc
    exact .inr ⟨hyx, hc⟩

theorem Queued.txn_cases (hq : Queued s s' th t tg tx b x q) {u : TxnId} {ux : Transaction}
    (hux : s'.txns u = some ux) : u = t ∧ ux = tx ∨ u ≠ t ∧ s.txns u = some ux := by
  rw [hq.rest] at hux
  by_cases hut : u = t
  · simp only [hut, Function.update_self, Option.some.injEq] at hux
    exact .inl ⟨hut, hux.symm⟩
  · simp only [Function.update_of_ne hut] at hux
    exact .inr ⟨hut, hux⟩

theorem Queued.nextId (hq : Queued s s' th t tg tx b x q) : s'.nextId = s.nextId := by
  rw [hq.rest]

theorem Queued.oneWay_buffer (hq : Queued s s' th t tg tx b x q) (hnode : tg.node = some n)
    (hflags : tfOneWay tx.flags = true) : b.asyncTransaction = true ∧ b.targetNode = some n := by
  have hn : b.targetNode = some n := hq.node.trans hnode
  exact ⟨by rw [hq.agrees.2, hn, hflags]; rfl, hn⟩

include hu hnode hnd hq in
theorem OneWays.accept (hw : OneWays h s) (hlt : n < s.nextId) (hproc : nd.proc = some tg.proc)
    (hflags : tfOneWay tx.flags = true) (hqn : ∀ m, q = .async m → m = n) :
    OneWays (h ++ [.accepted p th t (some n) true]) s' where
  node_lt := by
    intro m u hmem
    rw [hq.nextId]
    rcases mem_acceptedFor_accepted.mp hmem with hmem | ⟨rfl, -⟩
    · exact hw.node_lt hmem
    · exact hlt
  target_lt := by
    intro y c m hc hasync hm
    rw [hq.nextId]
    rcases hq.live_cases hc with ⟨-, rfl⟩ | ⟨-, hc⟩
    · obtain rfl : n = m :=
        Option.some.inj ((hq.oneWay_buffer hnode hflags).2.symm.trans hm)
      exact hlt
    · exact hw.target_lt hc hasync hm
  item_lt := by
    intro q' u hmem
    have htodo : s'.todo = ((s.listAddTail q (.transaction t)).listAddTail (.thread th)
        (.transactionComplete t)).todo := by
      rw [hq.rest]
      rfl
    rw [htodo] at hmem
    rw [hq.nextId]
    rcases mem_listAddTail hmem with hmem | ⟨-, hmem⟩
    · rcases mem_listAddTail hmem with hmem | ⟨-, hmem⟩
      · exact hw.item_lt hmem
      · cases hmem
        exact hq.lt
    · cases hmem
  accepted_lt := by
    intro m u hmem
    rw [hq.nextId]
    rcases mem_acceptedFor_accepted.mp hmem with hmem | ⟨-, rfl⟩
    · exact hw.accepted_lt hmem
    · exact hq.lt
  delivered_lt := by
    intro u hmem
    rw [hq.nextId]
    refine hw.delivered_lt ?_
    simpa [deliveredTxns_append, deliveredTxns] using hmem
  node_unique := by
    intro m m' u hm hm'
    rcases mem_acceptedFor_accepted.mp hm with hm | ⟨hm, hut⟩
    · rcases mem_acceptedFor_accepted.mp hm' with hm' | ⟨-, hut⟩
      · exact hw.node_unique hm hm'
      · exact absurd (hut ▸ hm) (hu.accepted _)
    · rcases mem_acceptedFor_accepted.mp hm' with hm' | ⟨hm', -⟩
      · exact absurd (hut ▸ hm') (hu.accepted _)
      · exact hm.symm.trans hm'
  plain := by
    intro m u ux hmem hux
    rcases hq.txn_cases hux with ⟨-, rfl⟩ | ⟨hut, hux⟩
    · rw [hq.agrees.1, hflags, Bool.not_true, Bool.and_false]
    · rcases mem_acceptedFor_accepted.mp hmem with hmem | ⟨-, rfl⟩
      · exact hw.plain hmem hux
      · exact absurd rfl hut
  buffer := by
    intro y c m u hc hasync hm hcu
    rcases hq.live_cases hc with ⟨-, rfl⟩ | ⟨-, hc⟩
    · obtain rfl : t = u := Option.some.inj (hq.transaction.symm.trans hcu)
      obtain rfl : n = m :=
        Option.some.inj ((hq.oneWay_buffer hnode hflags).2.symm.trans hm)
      exact ⟨mem_acceptedFor_accepted.mpr (.inr ⟨rfl, rfl⟩), hq.unread⟩
    · obtain ⟨hmem, hunread⟩ := hw.buffer hc hasync hm hcu
      exact ⟨mem_acceptedFor_accepted.mpr (.inl hmem), hunread⟩
  owner := by
    intro y c m md pr hc hasync hm hmd hpr
    have hmd : (s.setNode n { nd with hasAsyncTransaction := true }).nodes m = some md := by
      rw [hq.rest] at hmd
      exact hmd
    have hold : ∃ md₀, s.nodes m = some md₀ ∧ md.proc = md₀.proc := by
      by_cases hmn : m = n
      · subst hmn
        simp only [State.setNode, Function.update_self, Option.some.injEq] at hmd
        exact ⟨nd, hnd, hmd ▸ rfl⟩
      · simp only [State.setNode, Function.update_of_ne hmn] at hmd
        exact ⟨md, hmd, rfl⟩
    obtain ⟨md₀, hmd₀, hp⟩ := hold
    rcases hq.live_cases hc with ⟨rfl, rfl⟩ | ⟨-, hc⟩
    · obtain rfl : n = m :=
        Option.some.inj ((hq.oneWay_buffer hnode hflags).2.symm.trans hm)
      obtain rfl : nd = md₀ := Option.some.inj (hnd.symm.trans hmd₀)
      rw [hp, hproc] at hpr
      exact (Option.some.inj hpr).symm.trans hq.place.symm
    · exact hw.owner hc hasync hm hmd₀ (hp ▸ hpr)
  filled := by
    intro m u ux y hmem hux hy
    rcases hq.txn_cases hux with ⟨rfl, rfl⟩ | ⟨hut, hux⟩
    · obtain rfl : x = y := Option.some.inj (hq.buffer.symm.trans hy)
      rcases mem_acceptedFor_accepted.mp hmem with hmem | ⟨rfl, -⟩
      · exact absurd hmem (hu.accepted _)
      · exact ⟨b, by rw [hq.live, Function.update_self], hq.oneWay_buffer hnode hflags⟩
    · rcases mem_acceptedFor_accepted.mp hmem with hmem | ⟨-, rfl⟩
      · obtain ⟨c, hc, hcb⟩ := hw.filled hmem hux hy
        refine ⟨c, ?_, hcb⟩
        rw [hq.live, Function.update_of_ne]
        · exact hc
        · rintro rfl
          obtain ⟨b₀, hb₀, hidle⟩ := hq.idle
          rw [Option.some.inj (hc.symm.trans hb₀), hidle.2.1] at hcb
          cases hcb.2
      · exact absurd rfl hut
  exists_of_mem := by
    intro q' u hmem
    have htxns : s'.txns = Function.update s.txns t (some tx) := by
      rw [hq.rest]
      rfl
    rw [htxns]
    by_cases hut : u = t
    · simp [hut]
    · rw [Function.update_of_ne hut]
      rcases (hq.mem_oneWaysOn_accepted hu).mp hmem with hmem | ⟨-, rfl⟩
      · exact hw.exists_of_mem hmem
      · exact absurd rfl hut
  unique := by
    intro q₁ q₂ u hmem₁ hmem₂
    rcases (hq.mem_oneWaysOn_accepted hu).mp hmem₁ with hmem₁ | ⟨hq₁, hut⟩
    · rcases (hq.mem_oneWaysOn_accepted hu).mp hmem₂ with hmem₂ | ⟨-, hut⟩
      · exact hw.unique hmem₁ hmem₂
      · exact absurd (hut ▸ hmem₁) (hu.not_mem _)
    · rcases (hq.mem_oneWaysOn_accepted hu).mp hmem₂ with hmem₂ | ⟨hq₂, -⟩
      · exact absurd (hut ▸ hmem₂) (hu.not_mem _)
      · exact hq₁.trans hq₂.symm
  nodup := by
    intro q'
    rw [hq.oneWaysOn_accepted hu]
    split
    · refine (hw.nodup q).append (List.nodup_singleton t) ?_
      simpa using hu.not_mem q
    · exact hw.nodup q'
  async := by
    intro m u hmem
    rcases (hq.mem_oneWaysOn_accepted hu).mp hmem with hmem | ⟨hqm, rfl⟩
    · exact mem_acceptedFor_accepted.mpr (.inl (hw.async hmem))
    · exact mem_acceptedFor_accepted.mpr (.inr ⟨(hqn m hqm.symm).symm, rfl⟩)

include hu hq in
theorem Queued.hasTurn_iff :
    HasTurn d (h ++ [.accepted p th t (some n) true]) s' m k ↔
      HasTurn d h s m k ∨ n = m ∧ q ≠ .async n ∧ k = .queued t := by
  cases k with
  | queued u =>
      simp only [HasTurn, mem_acceptedFor_accepted, hq.mem_oneWaysOn_accepted hu]
      constructor
      · rintro ⟨hacc, q', hq', hmem | ⟨rfl, rfl⟩⟩
        · rcases hacc with hacc | ⟨-, rfl⟩
          · exact .inl ⟨hacc, q', hq', hmem⟩
          · exact absurd hmem (hu.not_mem _)
        · rcases hacc with hacc | ⟨rfl, -⟩
          · exact absurd hacc (hu.accepted _)
          · exact .inr ⟨rfl, hq', rfl⟩
      · rintro (⟨hacc, q', hq', hmem⟩ | ⟨rfl, hne, hk⟩)
        · exact ⟨.inl hacc, q', hq', .inl hmem⟩
        · cases hk
          exact ⟨.inr ⟨rfl, rfl⟩, q, hne, .inr ⟨rfl, rfl⟩⟩
  | held y =>
      simp only [HasTurn, reduceCtorEq, and_false, or_false]
      constructor
      · rintro ⟨c, hc, hasync, hm, hnone, hd⟩
        rcases hq.live_cases hc with ⟨-, rfl⟩ | ⟨-, hc⟩
        · rw [hq.transaction] at hnone
          cases hnone
        · exact ⟨c, hc, hasync, hm, hnone, hd⟩
      · rintro ⟨c, hc, hasync, hm, hnone, hd⟩
        refine ⟨c, ?_, hasync, hm, hnone, hd⟩
        rw [hq.live, Function.update_of_ne]
        · exact hc
        · rintro rfl
          obtain ⟨b₀, hb₀, hidle⟩ := hq.idle
          rw [Option.some.inj (hc.symm.trans hb₀), hidle.2.1] at hm
          cases hm

include hu hnode hnd hq in
theorem TakesTurns.accept (ht : TakesTurns C none h s) (hlt : n < s.nextId)
    (hproc : nd.proc = some tg.proc) (hflags : tfOneWay tx.flags = true)
    (hcase : nd.hasAsyncTransaction = false ∧ q = .proc tg.proc ∨
      nd.hasAsyncTransaction = true ∧ q = .async n) :
    TakesTurns C none (h ++ [.accepted p th t (some n) true]) s' := by
  have hqn : ∀ m, q = .async m → m = n := by
    rintro m rfl
    rcases hcase with ⟨-, hcase⟩ | ⟨-, hcase⟩ <;> cases hcase
    rfl
  have hnodes : ∀ {m md}, s'.nodes m = some md →
      md.hasAsyncTransaction = true ∨ m ≠ n ∧ s.nodes m = some md := by
    intro m md hmd
    rw [hq.rest] at hmd
    by_cases hmn : m = n
    · simp only [State.setNode, hmn, Function.update_self, Option.some.injEq] at hmd
      exact .inl (hmd ▸ rfl)
    · simp only [State.setNode, Function.update_of_ne hmn] at hmd
      exact .inr ⟨hmn, hmd⟩
  -- a node whose flag is not set has no turn to give, and nobody waits there
  have hfree : nd.hasAsyncTransaction = false →
      (∀ k, ¬ HasTurn none h s n k) ∧ s.oneWaysOn h (.async n) = [] := by
    intro hflag
    refine ⟨fun k hk => ?_, List.eq_nil_iff_forall_not_mem.mpr fun u hmem => ?_⟩
    · rw [ht.turn_flag hk hnd] at hflag
      cases hflag
    · rw [ht.waiting_flag hmem hnd] at hflag
      cases hflag
  refine ⟨ht.toOneWays.accept hu hnode hnd hq hlt hproc hflags hqn, ?_, ?_, ?_, ?_⟩
  · intro m u md hmem hmd
    rcases hnodes hmd with hflag | ⟨hmn, hmd⟩
    · exact hflag
    · rcases (hq.mem_oneWaysOn_accepted hu).mp hmem with hmem | ⟨hqm, -⟩
      · exact ht.waiting_flag hmem hmd
      · exact absurd (hqn m hqm.symm) hmn
  · intro m k md hturn hmd
    rcases hnodes hmd with hflag | ⟨hmn, hmd⟩
    · exact hflag
    · rcases (hq.hasTurn_iff hu).mp hturn with hturn | ⟨rfl, -⟩
      · exact ht.turn_flag hturn hmd
      · exact absurd rfl hmn
  · intro m k k' hk hk'
    rcases (hq.hasTurn_iff hu).mp hk with hk | ⟨rfl, hne, rfl⟩ <;>
      rcases (hq.hasTurn_iff hu).mp hk' with hk' | ⟨hm', hne', rfl⟩
    · exact ht.one hk hk'
    · subst hm'
      rcases hcase with ⟨hflag, -⟩ | ⟨-, hasync⟩
      · exact absurd hk ((hfree hflag).1 _)
      · exact absurd hasync hne'
    · rcases hcase with ⟨hflag, -⟩ | ⟨-, hasync⟩
      · exact absurd hk' ((hfree hflag).1 _)
      · exact absurd hasync hne
    · rfl
  · intro m
    obtain ⟨l, hl, hmem, hsub, hexact⟩ := ht.order m
    have hdel : deliveredFor m (h ++ [.accepted p th t (some n) true]) = deliveredFor m h := by
      have hnil : deliveredTxns [Obs.accepted p th t (some n) true] = [] := rfl
      rw [deliveredFor, deliveredFor, deliveredTxns_append, hnil, List.append_nil]
      refine List.filter_congr fun u hmem => ?_
      have hut : u ≠ t := by
        rintro rfl
        exact hu.delivered hmem
      simp [mem_acceptedFor_accepted, hut]
    have hrel : (∀ pr, .released pr ∉ h ++ [.accepted p th t (some n) true]) →
        ∀ pr, .released pr ∉ h := fun hrel pr hpr => hrel pr (List.mem_append_left _ hpr)
    rw [hdel, acceptedFor_append, hq.oneWaysOn_accepted hu]
    by_cases hnm : n = m
    · subst hnm
      have hnew : acceptedFor n [.accepted p th t (some n) true] = [t] := by simp [acceptedFor]
      rw [hnew]
      rcases hcase with ⟨hflag, rfl⟩ | ⟨hflag, rfl⟩
      · -- the transaction takes the turn
        obtain ⟨hnone, hnil⟩ := hfree hflag
        obtain rfl : l = [] :=
          List.eq_nil_iff_forall_not_mem.mpr fun u hu => hnone _ ((hmem u).mp hu)
        rw [hnil] at hsub hexact
        rw [if_neg (by simp), hnil]
        refine ⟨[t], le_rfl, fun u => ?_, ?_, fun hd hC hr => ?_⟩
        · rw [hq.hasTurn_iff hu]
          simp [hnone]
        · simpa using hsub
        · simpa using hexact hd hC (hrel hr)
      · -- the transaction waits
        rw [if_pos rfl]
        refine ⟨l, hl, fun u => ?_, ?_, fun hd hC hr => ?_⟩
        · rw [hmem, hq.hasTurn_iff hu]
          simp
        · rw [← List.append_assoc]
          exact hsub.append (List.Sublist.refl [t])
        · rw [← List.append_assoc, hexact hd hC (hrel hr)]
    · have hnew : acceptedFor m [.accepted p th t (some n) true] = [] := by
        simp [acceptedFor, hnm]
      have hqm : Queue.async m ≠ q := fun hqm => hnm (hqn m hqm.symm).symm
      rw [hnew, List.append_nil, if_neg hqm]
      refine ⟨l, hl, fun u => ?_, hsub, fun hd hC hr => hexact hd hC (hrel hr)⟩
      rw [hmem, hq.hasTurn_iff hu]
      simp [hnm]

end Accept

theorem noTurns_accepted {node : Option NodeId} {oneWay : Bool}
    (ho : node = none ∨ oneWay = false) : NoTurns h [.accepted p th t node oneWay] s := by
  constructor
  · intro n
    rcases ho with rfl | rfl <;> simp [acceptedFor]
  · simp [deliveredTxns]

theorem Transacted.takesTurns (hsent : Transacted s p th t s') (heq : t = s.nextId)
    (hs : Linked s) (ht : TakesTurns C none h s) :
    TakesTurns C none (h ++ acceptedLog s s' p th) s' := by
  have hfresh : ∀ {s₁}, Calm s s₁ → Unused h s₁ t := fun hcalm => heq ▸ ht.toOneWays.unused hcalm
  have hnot : ∀ {s₁}, Calm s s₁ → isOneWay h t = false := by
    intro s₁ hcalm
    rw [Bool.eq_false_iff]
    intro hone
    obtain ⟨n, hmem⟩ := isOneWay_iff.mp hone
    exact (hfresh hcalm).accepted n hmem
  cases hsent with
  | failed hcalm =>
      have hnone : s'.txns s.nextId = none := by
        refine Calm.txns_none hcalm (Option.eq_none_iff_forall_ne_some.mpr fun tx htx => ?_)
        exact absurd (hs.txns_lt htx) (lt_irrefl _)
      rw [acceptedLog_of_none hnone, List.append_nil]
      exact Calm.takesTurns hcalm hs ht
  | @call s₁ _ thr tg tx b x n hcalm haddr hthr hq hnode hsender hfrom hparent hreply =>
      rw [hq.acceptedLog heq, hfrom]
      have ht₁ := Calm.takesTurns hcalm hs ht
      have ht₂ : TakesTurns C none h
          (s₁.setThread th { thr with transactionStack := some t }) :=
        ht₁.unobserved (.of_eq le_rfl rfl rfl (live_congr rfl) rfl)
      refine ht₂.kept (hq.turnsKept (hnot hcalm) (.inl ?_)) (noTurns_accepted (.inr rfl))
      have hm := hq.agrees
      rw [Transaction.Matches, hreply, hq.node, hnode] at hm
      have hflags : tfOneWay tx.flags = false := by simpa using hm.1
      rw [hm.2, hflags]
      rfl
  | @oneWay s₁ _ tg tx b x n nd hcalm hnode hnd hlt hproc hasync hq hsender hfrom hparent hflags =>
      rw [hq.acceptedLog heq, hfrom, hnode, hflags]
      exact (Calm.takesTurns hcalm hs ht).accept (hfresh hcalm) hnode hnd hq hlt hproc hflags
        (.inl ⟨hasync, rfl⟩)
  | @waiting s₁ _ tg tx b x n nd hcalm hnode hnd hlt hproc hasync hq hsender hfrom hparent hflags =>
      rw [hq.acceptedLog heq, hfrom, hnode, hflags]
      have hsame : s₁.setNode n { nd with hasAsyncTransaction := true } = s₁ := by
        have hnd' : { nd with hasAsyncTransaction := true } = nd := by rw [← hasync]
        rw [hnd', State.setNode, Function.update_eq_self_iff.mpr hnd.symm]
      rw [← hsame] at hq
      exact (Calm.takesTurns hcalm hs ht).accept (hfresh hcalm) hnode hnd hq hlt hproc hflags
        (.inr ⟨hasync, rfl⟩)
  | reply hcalm haddr hnode hthread hq hsender hfrom hparent hirt =>
      rw [hq.acceptedLog heq, hnode]
      exact (Calm.takesTurns hcalm hs ht).kept
        (hq.turnsKept (hnot hcalm) (.inr (hq.node.trans hnode))) (noTurns_accepted (.inl rfl))

/-! ### What goes away -/

/-- Transactions and buffers go away, and those that stay are as before. -/
structure Lessened (h : List Obs) (s s' : State) : Prop where
  nextId : s'.nextId = s.nextId
  item : ∀ {q t}, .transaction t ∈ s'.todo q → ∃ q', .transaction t ∈ s.todo q'
  txn : ∀ {t tx}, s'.txns t = some tx → s.txns t = some tx
  live : ∀ {x b'}, s'.live x = some b' → ∃ b, s.live x = some b ∧
    b'.asyncTransaction = b.asyncTransaction ∧ b'.targetNode = b.targetNode ∧
      (b'.transaction = none ∨
        b'.transaction = b.transaction ∧ b'.allowUserFree = b.allowUserFree)
  filled : ∀ {t tx x}, isOneWay h t = true → s'.txns t = some tx → tx.buffer = some x →
    s'.live x = s.live x
  nodes : ∀ {n nd'}, s'.nodes n = some nd' → ∃ nd, s.nodes n = some nd ∧ nd'.proc = nd.proc
  exists_of_mem : ∀ {q t}, t ∈ s'.oneWaysOn h q → s'.txns t ≠ none
  unique : ∀ {q q' t}, t ∈ s'.oneWaysOn h q → t ∈ s'.oneWaysOn h q' → q = q'
  nodup : ∀ q, (s'.oneWaysOn h q).Nodup
  async : ∀ {n t}, t ∈ s'.oneWaysOn h (.async n) → t ∈ acceptedFor n h

theorem OneWays.lessened (hw : OneWays h s) (hl : Lessened h s s')
    (ho : ∀ n, acceptedFor n o = []) (hdel : ∀ t ∈ deliveredTxns o, t < s.nextId) :
    OneWays (h ++ o) s' where
  node_lt := fun hmem => hl.nextId ▸ hw.node_lt (acceptedFor_of_nil ho _ ▸ hmem)
  target_lt := by
    intro x b' n hb' hasync hnode
    obtain ⟨b, hb, hasync', hnode', -⟩ := hl.live hb'
    exact hl.nextId ▸ hw.target_lt hb (hasync' ▸ hasync) (hnode' ▸ hnode)
  item_lt := by
    intro q t hmem
    obtain ⟨q', hmem⟩ := hl.item hmem
    exact hl.nextId ▸ hw.item_lt hmem
  accepted_lt := fun hmem => hl.nextId ▸ hw.accepted_lt (acceptedFor_of_nil ho _ ▸ hmem)
  delivered_lt := by
    intro t hmem
    rw [deliveredTxns_append, List.mem_append] at hmem
    rw [hl.nextId]
    rcases hmem with hmem | hmem
    · exact hw.delivered_lt hmem
    · exact hdel t hmem
  node_unique := fun hn hm =>
    hw.node_unique (acceptedFor_of_nil ho _ ▸ hn) (acceptedFor_of_nil ho _ ▸ hm)
  plain := fun hmem htx => hw.plain (acceptedFor_of_nil ho _ ▸ hmem) (hl.txn htx)
  buffer := by
    intro x b' n t hb' hasync hnode hbt
    obtain ⟨b, hb, hasync', hnode', hnone | ⟨hsame, huser⟩⟩ := hl.live hb'
    · rw [hnone] at hbt
      cases hbt
    · rw [acceptedFor_of_nil ho, huser]
      exact hw.buffer hb (hasync' ▸ hasync) (hnode' ▸ hnode) (hsame ▸ hbt)
  owner := by
    intro x b' n nd' p hb' hasync hnode hnd' hproc
    obtain ⟨b, hb, hasync', hnode', -⟩ := hl.live hb'
    obtain ⟨nd, hnd, hp⟩ := hl.nodes hnd'
    exact hw.owner hb (hasync' ▸ hasync) (hnode' ▸ hnode) hnd (hp ▸ hproc)
  filled := by
    intro n t tx x hmem htx hx
    rw [acceptedFor_of_nil ho] at hmem
    rw [hl.filled (isOneWay_iff.mpr ⟨n, hmem⟩) htx hx]
    exact hw.filled hmem (hl.txn htx) hx
  exists_of_mem := fun hmem => hl.exists_of_mem (oneWaysOn_of_nil ho _ _ ▸ hmem)
  unique := fun hmem hmem' =>
    hl.unique (oneWaysOn_of_nil ho _ _ ▸ hmem) (oneWaysOn_of_nil ho _ _ ▸ hmem')
  nodup := by
    intro q
    rw [oneWaysOn_of_nil ho]
    exact hl.nodup q
  async := by
    intro n t hmem
    rw [acceptedFor_of_nil ho]
    exact hl.async (oneWaysOn_of_nil ho _ _ ▸ hmem)

/-! ### Freeing a buffer -/

/-- The buffer `x` passes the turn to the transaction `o`, if there is one that waits. -/
theorem TakesTurns.pass {o : Option TxnId} (ht : TakesTurns C none h s)
    (hheld : HasTurn none h s n (.held x)) (hl : Lessened h s s')
    (hturns : ∀ m k, HasTurn none h s' m k ↔
      HasTurn none h s m k ∧ k ≠ .held x ∨ n = m ∧ ∃ u, o = some u ∧ k = .queued u)
    (hitems : ∀ m, s.oneWaysOn h (.async m) =
      (if n = m then o.toList else []) ++ s'.oneWaysOn h (.async m))
    (hflag : ∀ {m md'}, s'.nodes m = some md' → ∃ md, s.nodes m = some md ∧
      (md'.hasAsyncTransaction = md.hasAsyncTransaction ∨
        n = m ∧ o = none ∧ s'.oneWaysOn h (.async n) = [])) :
    TakesTurns C none h s' := by
  have hw : OneWays h s' := by
    have := ht.toOneWays.lessened (o := []) hl (fun _ => rfl) (by simp [deliveredTxns])
    rwa [List.append_nil] at this
  refine ⟨hw, ?_, ?_, ?_, ?_⟩
  · intro m u md' hmem hmd'
    obtain ⟨md, hmd, hsame | ⟨rfl, -, hnil⟩⟩ := hflag hmd'
    · refine hsame.trans (ht.waiting_flag (t := u) ?_ hmd)
      rw [hitems]
      exact List.mem_append_right _ hmem
    · rw [hnil] at hmem
      cases hmem
  · intro m k md' hturn hmd'
    rcases (hturns m k).mp hturn with ⟨hturn, hk⟩ | ⟨rfl, u, ho, -⟩
    · obtain ⟨md, hmd, hsame | ⟨rfl, -⟩⟩ := hflag hmd'
      · exact hsame.trans (ht.turn_flag hturn hmd)
      · exact absurd (ht.one hturn hheld) hk
    · obtain ⟨md, hmd, hsame | ⟨-, hnone, -⟩⟩ := hflag hmd'
      · exact hsame.trans (ht.turn_flag hheld hmd)
      · rw [hnone] at ho
        cases ho
  · intro m k k' hk hk'
    rcases (hturns m k).mp hk with ⟨hk, hne⟩ | ⟨hnm, u, ho, rfl⟩
    · rcases (hturns m k').mp hk' with ⟨hk', -⟩ | ⟨rfl, -⟩
      · exact ht.one hk hk'
      · exact absurd (ht.one hk hheld) hne
    · rcases (hturns m k').mp hk' with ⟨hk', hne⟩ | ⟨-, u', ho', rfl⟩
      · subst hnm
        exact absurd (ht.one hk' hheld) hne
      · rw [Option.some.inj (ho.symm.trans ho')]
  · intro m
    obtain ⟨l, hlen, hmem, hsub, hexact⟩ := ht.order m
    rw [hitems m] at hsub hexact
    by_cases hnm : n = m
    · subst hnm
      -- the buffer had the turn, so no transaction had it
      obtain rfl : l = [] := by
        refine List.eq_nil_iff_forall_not_mem.mpr fun u hu => ?_
        have := ht.one ((hmem u).mp hu) hheld
        cases this
      rw [if_pos rfl, List.append_nil] at hsub hexact
      refine ⟨o.toList, by cases o <;> simp, fun u => ?_, ?_, fun hd hC hr => ?_⟩
      · rw [hturns]
        constructor
        · intro hu
          exact .inr ⟨rfl, u, by simpa using hu, rfl⟩
        · rintro (⟨hturn, -⟩ | ⟨-, u', rfl, hu⟩)
          · have := ht.one hturn hheld
            cases this
          · cases hu
            simp
      · rw [List.append_assoc]
        exact hsub
      · rw [List.append_assoc]
        exact hexact hd hC hr
    · rw [if_neg hnm, List.nil_append] at hsub hexact
      refine ⟨l, hlen, fun u => ?_, hsub, hexact⟩
      rw [hmem, hturns]
      simp [hnm]

theorem detachedTxns_of_none (hb : b.transaction = none) : detachedTxns s b = s.txns := by
  simp [detachedTxns, hb]

theorem Linked.buffer_ne (hs : Linked s) (hb : s.live x = some b)
    (hnone : b.transaction = none) {tx : Transaction} {y : ProcId × ℕ} (htx : s.txns t = some tx)
    (hy : tx.buffer = some y) : y ≠ x := by
  rintro rfl
  obtain ⟨c, hc, hct, -⟩ := hs.buffer htx hy
  rw [Option.some.inj (hc.symm.trans hb), hnone] at hct
  cases hct

theorem hasTurn_held_update {y : ProcId × ℕ} (hlive : s'.live = Function.update s.live x none) :
    HasTurn d h s' m (.held y) ↔ HasTurn d h s m (.held y) ∧ Turn.held y ≠ .held x := by
  simp only [HasTurn, hlive, ne_eq, Turn.held.injEq]
  by_cases hyx : y = x
  · simp [hyx]
  · simp [hyx]

theorem TakesTurns.last (ht : TakesTurns C none h s) (hs : Linked s)
    (hb : s.live x = some b) (hnone : b.transaction = none) (hasync : b.asyncTransaction = true)
    (hnode : b.targetNode = some n) (hnd : s.nodes n = some nd) (hnil : s.todo (.async n) = [])
    (hrest : s' = { s.setNode n { nd with hasAsyncTransaction := false } with
      txns := s.txns, area := s'.area })
    (hlive : s'.live = Function.update s.live x none) : TakesTurns C none h s' := by
  have htodo : s'.todo = s.todo := by rw [hrest]; rfl
  have htxns : s'.txns = s.txns := by rw [hrest]
  have hnext : s'.nextId = s.nextId := by rw [hrest]; rfl
  have hitems : ∀ q, s'.oneWaysOn h q = s.oneWaysOn h q := by
    intro q
    rw [State.oneWaysOn, htodo, State.oneWaysOn]
  have hempty : s.oneWaysOn h (.async n) = [] := by
    rw [State.oneWaysOn, hnil]
    rfl
  have hnodes : ∀ {m md'}, s'.nodes m = some md' → ∃ md, s.nodes m = some md ∧
      md'.proc = md.proc ∧ (md'.hasAsyncTransaction = md.hasAsyncTransaction ∨ n = m) := by
    intro m md' hmd'
    rw [hrest] at hmd'
    by_cases hmn : m = n
    · simp only [State.setNode, hmn, Function.update_self, Option.some.injEq] at hmd'
      exact ⟨nd, hmn ▸ hnd, hmd' ▸ rfl, .inr hmn.symm⟩
    · simp only [State.setNode, Function.update_of_ne hmn] at hmd'
      exact ⟨md', hmd', rfl, .inl rfl⟩
  have hl : Lessened h s s' := by
    refine ⟨hnext, fun hmem => ⟨_, htodo ▸ hmem⟩, fun htx => htxns ▸ htx, ?_, ?_, ?_, ?_, ?_, ?_,
      ?_⟩
    · intro y c hc
      rw [hlive] at hc
      by_cases hyx : y = x
      · simp [hyx] at hc
      · rw [Function.update_of_ne hyx] at hc
        exact ⟨c, hc, rfl, rfl, .inr ⟨rfl, rfl⟩⟩
    · intro u ux y _ hux hy
      rw [hlive, Function.update_of_ne]
      exact hs.buffer_ne hb hnone (htxns ▸ hux) hy
    · intro m md' hmd'
      obtain ⟨md, hmd, hproc, -⟩ := hnodes hmd'
      exact ⟨md, hmd, hproc⟩
    · exact fun hmem => htxns ▸ ht.exists_of_mem (hitems _ ▸ hmem)
    · exact fun hmem hmem' => ht.unique (hitems _ ▸ hmem) (hitems _ ▸ hmem')
    · exact fun q => hitems q ▸ ht.nodup q
    · exact fun hmem => ht.async (hitems _ ▸ hmem)
  refine ht.pass (o := none) (x := x) (n := n) ⟨b, hb, hasync, hnode, hnone, by simp⟩ hl ?_ ?_ ?_
  · intro m k
    cases k with
    | queued u =>
        simp only [HasTurn, hitems]
        simp
    | held y =>
        rw [hasTurn_held_update hlive]
        simp
  · intro m
    rw [hitems]
    simp
  · intro m md' hmd'
    obtain ⟨md, hmd, -, hsame | rfl⟩ := hnodes hmd'
    · exact ⟨md, hmd, .inl hsame⟩
    · exact ⟨md, hmd, .inr ⟨rfl, rfl, (hitems _).trans hempty⟩⟩

section Moved

variable {w : Work} {ws : List Work}

theorem oneWaysOn_moved (q' : Queue) :
    ((s.setTodo (.async n) ws).listAddTail (.thread th) w).oneWaysOn h q' =
      if q' = .thread th then s.oneWaysOn h q' ++ (Work.oneWay h w).toList
      else (s.setTodo (.async n) ws).oneWaysOn h q' := by
  split
  · rename_i hqt
    subst hqt
    rw [oneWaysOn_listAddTail_self, oneWaysOn_setTodo_of_ne (by simp)]
  · rename_i hqt
    rw [oneWaysOn_listAddTail_of_ne hqt]

variable (hw : OneWays h s) (hq : s.todo (.async n) = w :: ws)

include hq in
theorem mem_async_of_first {u : TxnId} (hu : Work.oneWay h w = some u) :
    u ∈ s.oneWaysOn h (.async n) := by
  rw [oneWaysOn_cons hq, hu]
  simp

include hw hq

theorem OneWays.mem_moved {q' : Queue} {u : TxnId} :
    u ∈ ((s.setTodo (.async n) ws).listAddTail (.thread th) w).oneWaysOn h q' ↔
      u ∈ s.oneWaysOn h q' ∧ Work.oneWay h w ≠ some u ∨
        q' = .thread th ∧ Work.oneWay h w = some u := by
  rw [oneWaysOn_moved]
  split
  · rename_i hqt
    subst hqt
    rw [List.mem_append, Option.mem_toList]
    constructor
    · rintro (hu | hu)
      · refine .inl ⟨hu, fun hfirst => ?_⟩
        have := hw.unique hu (mem_async_of_first hq hfirst)
        cases this
      · exact .inr ⟨rfl, hu⟩
    · rintro (⟨hu, -⟩ | ⟨-, hu⟩)
      · exact .inl hu
      · exact .inr hu
  · rename_i hqt
    by_cases hqn : q' = .async n
    · subst hqn
      have hnodup := hw.nodup (.async n)
      rw [oneWaysOn_cons hq, List.nodup_append] at hnodup
      rw [oneWaysOn_cons hq, List.mem_append, Option.mem_toList]
      constructor
      · intro hu
        refine .inl ⟨.inr hu, fun hfirst => ?_⟩
        exact hnodup.2.2 u (by simp [hfirst]) u hu rfl
      · rintro (⟨hu | hu, hne⟩ | ⟨hqt', -⟩)
        · exact absurd hu hne
        · exact hu
        · exact absurd hqt' hqt
    · rw [oneWaysOn_setTodo_of_ne hqn]
      constructor
      · intro hu
        exact .inl ⟨hu, fun hfirst => hqn (hw.unique hu (mem_async_of_first hq hfirst))⟩
      · rintro (⟨hu, -⟩ | ⟨hqt', -⟩)
        · exact hu
        · exact absurd hqt' hqt

theorem OneWays.nodup_moved (q' : Queue) :
    (((s.setTodo (.async n) ws).listAddTail (.thread th) w).oneWaysOn h q').Nodup := by
  rw [oneWaysOn_moved]
  split
  · rename_i hqt
    refine (hw.nodup q').append (by cases Work.oneWay h w <;> simp) ?_
    intro u hu hu'
    have := hw.unique hu (mem_async_of_first hq (Option.mem_toList.mp hu'))
    rw [hqt] at this
    cases this
  · by_cases hqn : q' = .async n
    · subst hqn
      have := hw.nodup (.async n)
      rw [oneWaysOn_cons hq] at this
      exact (List.nodup_append.mp this).2.1
    · rw [oneWaysOn_setTodo_of_ne hqn]
      exact hw.nodup q'

theorem OneWays.moved (hs : Linked s) (hb : s.live x = some b) (hnone : b.transaction = none)
    (hrest : s' = { (s.setTodo (.async n) ws).listAddTail (.thread th) w with
      txns := s.txns, area := s'.area })
    (hlive : s'.live = Function.update s.live x none) : Lessened h s s' := by
  have htodo : s'.todo = ((s.setTodo (.async n) ws).listAddTail (.thread th) w).todo := by
    rw [hrest]
  have htxns : s'.txns = s.txns := by rw [hrest]
  have hmem : ∀ {q u}, u ∈ s'.oneWaysOn h q → u ∈ s.oneWaysOn h q ∧
      Work.oneWay h w ≠ some u ∨ q = .thread th ∧ Work.oneWay h w = some u := by
    intro q u hu
    rw [State.oneWaysOn, htodo] at hu
    exact (hw.mem_moved hq).mp hu
  refine ⟨by rw [hrest]; rfl, ?_, fun htx => htxns ▸ htx, ?_, ?_, ?_, ?_, ?_, ?_, ?_⟩
  · intro q u hu
    rw [htodo] at hu
    rcases mem_listAddTail hu with hu | ⟨-, rfl⟩
    · by_cases hqn : q = .async n
      · subst hqn
        simp only [State.setTodo, Function.update_self] at hu
        exact ⟨_, hq ▸ List.mem_cons_of_mem w hu⟩
      · simp only [State.setTodo, Function.update_of_ne hqn] at hu
        exact ⟨q, hu⟩
    · exact ⟨.async n, hq ▸ List.mem_cons_self⟩
  · intro y c hc
    rw [hlive] at hc
    by_cases hyx : y = x
    · simp [hyx] at hc
    · rw [Function.update_of_ne hyx] at hc
      exact ⟨c, hc, rfl, rfl, .inr ⟨rfl, rfl⟩⟩
  · intro u ux y _ hux hy
    rw [hlive, Function.update_of_ne]
    exact hs.buffer_ne hb hnone (htxns ▸ hux) hy
  · intro m md hmd
    rw [hrest] at hmd
    exact ⟨md, hmd, rfl⟩
  · intro q u hu
    rw [htxns]
    rcases hmem hu with ⟨hu, -⟩ | ⟨-, hfirst⟩
    · exact hw.exists_of_mem hu
    · exact hw.exists_of_mem (mem_async_of_first hq hfirst)
  · intro q q' u hu hu'
    rcases hmem hu with ⟨hu, hne⟩ | ⟨hqt, hfirst⟩
    · rcases hmem hu' with ⟨hu', -⟩ | ⟨-, hfirst⟩
      · exact hw.unique hu hu'
      · exact absurd hfirst hne
    · rcases hmem hu' with ⟨-, hne⟩ | ⟨hqt', -⟩
      · exact absurd hfirst hne
      · exact hqt.trans hqt'.symm
  · intro q
    rw [State.oneWaysOn, htodo]
    exact hw.nodup_moved hq q
  · intro m u hu
    rcases hmem hu with ⟨hu, -⟩ | ⟨hqt, -⟩
    · exact hw.async hu
    · cases hqt

end Moved

theorem TakesTurns.next {w : Work} {ws : List Work} (ht : TakesTurns C none h s) (hs : Linked s)
    (hb : s.live x = some b) (hnone : b.transaction = none) (hasync : b.asyncTransaction = true)
    (hnode : b.targetNode = some n) (hq : s.todo (.async n) = w :: ws)
    (hrest : s' = { (s.setTodo (.async n) ws).listAddTail (.thread th) w with
      txns := s.txns, area := s'.area })
    (hlive : s'.live = Function.update s.live x none) : TakesTurns C none h s' := by
  have htodo : s'.todo = ((s.setTodo (.async n) ws).listAddTail (.thread th) w).todo := by
    rw [hrest]
  have hmem : ∀ {q u}, u ∈ s'.oneWaysOn h q ↔ u ∈ s.oneWaysOn h q ∧
      Work.oneWay h w ≠ some u ∨ q = .thread th ∧ Work.oneWay h w = some u := by
    intro q u
    rw [State.oneWaysOn, htodo]
    exact ht.toOneWays.mem_moved hq
  refine ht.pass (o := Work.oneWay h w) ⟨b, hb, hasync, hnode, hnone, by simp⟩
    (ht.toOneWays.moved hq hs hb hnone hrest hlive) ?_ ?_ ?_
  · intro m k
    cases k with
    | queued u =>
        simp only [HasTurn, hmem, ne_eq, reduceCtorEq, not_false_eq_true, and_true,
          Turn.queued.injEq]
        constructor
        · rintro ⟨hacc, q, hqm, ⟨hu, hne⟩ | ⟨rfl, hfirst⟩⟩
          · exact .inl ⟨hacc, q, hqm, hu⟩
          · have hacc' := ht.async (mem_async_of_first hq hfirst)
            exact .inr ⟨ht.node_unique hacc' hacc, u, hfirst, rfl⟩
        · rintro (⟨hacc, q, hqm, hu⟩ | ⟨rfl, u', hfirst, rfl⟩)
          · refine ⟨hacc, q, hqm, .inl ⟨hu, fun hfirst => ?_⟩⟩
            have hmem' := mem_async_of_first hq hfirst
            obtain rfl := ht.node_unique (ht.async hmem') hacc
            exact hqm (ht.unique hu hmem')
          · exact ⟨ht.async (mem_async_of_first hq hfirst), .thread th, by simp, .inr ⟨rfl, hfirst⟩⟩
    | held y =>
        rw [hasTurn_held_update hlive]
        simp
  · intro m
    have hne : Queue.async m ≠ .thread th := by simp
    have hmoved : s'.oneWaysOn h (.async m) = (s.setTodo (.async n) ws).oneWaysOn h (.async m) := by
      rw [State.oneWaysOn, htodo]
      exact (oneWaysOn_moved _).trans (if_neg hne)
    rw [hmoved]
    by_cases hnm : n = m
    · subst hnm
      rw [if_pos rfl, oneWaysOn_cons hq]
    · have hne : Queue.async m ≠ .async n := fun h => hnm (by cases h; rfl)
      rw [if_neg hnm, oneWaysOn_setTodo_of_ne hne, List.nil_append]
  · intro m md hmd
    rw [hrest] at hmd
    exact ⟨md, hmd, .inl rfl⟩

theorem Advanced.takesTurns {s₁ : State} (hadv : Advanced s th b s₁) (hs : Linked s)
    (ht : TakesTurns C none h s) (hb : s.live x = some b) (huser : b.allowUserFree = true)
    (hrest : s' = { s₁ with txns := detachedTxns s b, area := s'.area })
    (hlive : s'.live = Function.update s.live x none) : TakesTurns C none h s' := by
  have hnone : ∀ {n}, b.asyncTransaction = true → b.targetNode = some n →
      b.transaction = none := by
    intro n hasync hnode
    refine Option.eq_none_iff_forall_ne_some.mpr fun t hbt => ?_
    rw [(ht.buffer hb hasync hnode hbt).2] at huser
    cases huser
  cases hadv with
  | idle hidle =>
      refine ht.unobserved (.of_buffer (by rw [hrest]) (fun hmem => .inl ?_) (fun q => ?_)
        (fun {t} hone => ?_) (by rw [hrest]) hlive (fun c n hc hasync => ?_) (by simp))
      · rw [hrest] at hmem
        exact hmem
      · rw [hrest]
        rfl
      · rw [hrest]
        change detachedTxns s b t = s.txns t
        cases hbt : b.transaction with
        | none => rw [detachedTxns_of_none hbt]
        | some u =>
            have hut : t ≠ u := by
              rintro rfl
              obtain ⟨n, hmem⟩ := isOneWay_iff.mp hone
              obtain ⟨tx, htx, hx⟩ := hs.transaction hb hbt
              obtain ⟨c, hc, hasync, hnode⟩ := ht.filled hmem htx hx
              obtain rfl := Option.some.inj (hb.symm.trans hc)
              rw [hidle hasync] at hnode
              cases hnode
            simp [detachedTxns, hbt, hut]
      · rw [← Option.some.inj (hb.symm.trans hc)] at hasync ⊢
        rw [hidle hasync]
        simp
  | last hasync hnode hnd hflag hnil =>
      rw [detachedTxns_of_none (hnone hasync hnode)] at hrest
      exact ht.last hs hb (hnone hasync hnode) hasync hnode hnd hnil hrest hlive
  | next hasync hnode hnd hflag hq =>
      rw [detachedTxns_of_none (hnone hasync hnode)] at hrest
      exact ht.next hs hb (hnone hasync hnode) hasync hnode hq hrest hlive

/-! ### Delivered and dropped transactions -/

/-- The one-way transaction `t` to the node `n` goes away and leaves its buffer. -/
structure Removed (h : List Obs) (s s' : State) (t : TxnId) (tx : Transaction) (n : NodeId) :
    Prop where
  accepted : t ∈ acceptedFor n h
  txn : s.txns t = some tx
  nextId : s'.nextId = s.nextId
  item : ∀ {q u}, .transaction u ∈ s'.todo q → .transaction u ∈ s.todo q
  items : ∀ q, s'.oneWaysOn h q = (s.oneWaysOn h q).filter (· ≠ t)
  txns : s'.txns = Function.update s.txns t none
  nodes : s'.nodes = s.nodes
  left : ∀ {x}, tx.buffer = some x → ∃ b b', s.live x = some b ∧ s'.live x = some b' ∧
    b'.asyncTransaction = b.asyncTransaction ∧ b'.targetNode = b.targetNode ∧
      b'.transaction = none
  others : ∀ {x}, tx.buffer ≠ some x → s'.live x = s.live x

theorem Removed.mem (hr : Removed h s s' t tx n) {u : TxnId} :
    u ∈ s'.oneWaysOn h q ↔ u ∈ s.oneWaysOn h q ∧ u ≠ t := by
  rw [hr.items, List.mem_filter]
  simp

theorem Removed.lessened (hr : Removed h s s' t tx n) (hs : Linked s) (hw : OneWays h s) :
    Lessened h s s' where
  nextId := hr.nextId
  item := fun hmem => ⟨_, hr.item hmem⟩
  txn := by
    intro u ux hux
    rw [hr.txns] at hux
    by_cases hut : u = t
    · simp [hut] at hux
    · rwa [Function.update_of_ne hut] at hux
  live := by
    intro y c' hc'
    by_cases hy : tx.buffer = some y
    · obtain ⟨b, b', hb, hb', hasync, hnode, hnone⟩ := hr.left hy
      obtain rfl := Option.some.inj (hb'.symm.trans hc')
      exact ⟨b, hb, hasync, hnode, .inl hnone⟩
    · exact ⟨c', hr.others hy ▸ hc', rfl, rfl, .inr ⟨rfl, rfl⟩⟩
  filled := by
    intro u ux y _ hux hy
    rw [hr.txns] at hux
    by_cases hut : u = t
    · simp [hut] at hux
    · rw [Function.update_of_ne hut] at hux
      refine hr.others fun hy' => hut ?_
      -- two transactions do not share a buffer
      obtain ⟨c, hc, hcu, -⟩ := hs.buffer hux hy
      obtain ⟨c', hc', hct, -⟩ := hs.buffer hr.txn hy'
      obtain rfl := Option.some.inj (hc.symm.trans hc')
      exact Option.some.inj (hcu.symm.trans hct)
  nodes := fun hnd => ⟨_, hr.nodes ▸ hnd, rfl⟩
  exists_of_mem := by
    intro q u hmem
    obtain ⟨hmem, hut⟩ := hr.mem.mp hmem
    rw [hr.txns, Function.update_of_ne hut]
    exact hw.exists_of_mem hmem
  unique := fun hmem hmem' => hw.unique (hr.mem.mp hmem).1 (hr.mem.mp hmem').1
  nodup := fun q => hr.items q ▸ (hw.nodup q).filter _
  async := fun hmem => hw.async (hr.mem.mp hmem).1

theorem Removed.hasTurn_iff (hr : Removed h s s' t tx n) (hs : Linked s) (hw : OneWays h s)
    (ho : ∀ n, acceptedFor n o = []) :
    HasTurn d (h ++ o) s' m k ↔ HasTurn d h s m k ∧ k ≠ .queued t ∨
      n = m ∧ ∃ x, tx.buffer = some x ∧ d ≠ some x.1 ∧ k = .held x := by
  cases k with
  | queued u =>
      simp only [HasTurn, acceptedFor_of_nil ho, oneWaysOn_of_nil ho, hr.mem, ne_eq,
        Turn.queued.injEq, reduceCtorEq, and_false, exists_false, or_false]
      constructor
      · rintro ⟨hacc, q, hq, hmem, hut⟩
        exact ⟨⟨hacc, q, hq, hmem⟩, hut⟩
      · rintro ⟨⟨hacc, q, hq, hmem⟩, hut⟩
        exact ⟨hacc, q, hq, hmem, hut⟩
  | held y =>
      by_cases hy : tx.buffer = some y
      · obtain ⟨b, b', hb, hb', hasync, hnode, hnone⟩ := hr.left hy
        obtain ⟨c, hc, hct, -⟩ := hs.buffer hr.txn hy
        obtain rfl := Option.some.inj (hb.symm.trans hc)
        obtain ⟨c, hc, hasync₀, hnode₀⟩ := hw.filled hr.accepted hr.txn hy
        obtain rfl := Option.some.inj (hb.symm.trans hc)
        constructor
        · rintro ⟨c', hc', -, hm, -, hd⟩
          obtain rfl := Option.some.inj (hb'.symm.trans hc')
          rw [hnode, hnode₀] at hm
          exact .inr ⟨Option.some.inj hm, y, hy, hd, rfl⟩
        · rintro (⟨⟨c', hc', -, -, hnone', -⟩, -⟩ | ⟨rfl, x, -, hd, hk⟩)
          · rw [← Option.some.inj (hb.symm.trans hc'), hct] at hnone'
            cases hnone'
          · cases hk
            exact ⟨b', hb', hasync.trans hasync₀, hnode.trans hnode₀, hnone, hd⟩
      · simp only [HasTurn, hr.others hy, ne_eq, reduceCtorEq, not_false_eq_true, and_true,
          Turn.held.injEq]
        constructor
        · exact .inl
        · rintro (hturn | ⟨-, x, hx, -, rfl⟩)
          · exact hturn
          · exact absurd hx hy

theorem eq_singleton_of_mem {α : Type} {a : α} {l : List α} (hl : l.length ≤ 1) (ha : a ∈ l) :
    l = [a] := by
  match l, hl, ha with
  | [b], _, ha => rw [List.mem_singleton.mp ha]

/-- A delivered transaction moves from the turn to those that were delivered. -/
theorem TakesTurns.order_of_delivered {l : List TxnId} (ht : TakesTurns C d h s)
    (hr : Removed h s s' t tx n) (hturn : HasTurn d h s n (.queued t))
    (hone : deliveredTxns o = [t]) (hlen : l.length ≤ 1)
    (hl : ∀ u, u ∈ l ↔ HasTurn d h s m (.queued u)) :
    deliveredFor m h ++ (deliveredTxns o).filter (· ∈ acceptedFor m h) ++ l.filter (· ≠ t) ++
        (s.oneWaysOn h (.async m)).filter (· ≠ t) =
      deliveredFor m h ++ l ++ s.oneWaysOn h (.async m) := by
  have hwait : (s.oneWaysOn h (.async m)).filter (· ≠ t) = s.oneWaysOn h (.async m) := by
    refine List.filter_eq_self.mpr fun u hu => ?_
    obtain ⟨hacc, q, hq, htq⟩ := hturn
    have hut : u ≠ t := by
      rintro rfl
      obtain rfl := ht.node_unique hacc (ht.async hu)
      exact hq (ht.unique htq hu)
    simpa using hut
  rw [hone, hwait]
  by_cases hnm : n = m
  · subst hnm
    obtain rfl : l = [t] := eq_singleton_of_mem hlen ((hl t).mpr hturn)
    simp [hr.accepted]
  · have hnot : ∀ {u}, u ∈ acceptedFor m h → u ≠ t := by
      rintro u hu rfl
      exact hnm (ht.node_unique hr.accepted hu)
    have hself : l.filter (· ≠ t) = l := by
      refine List.filter_eq_self.mpr fun u hu => ?_
      simpa using hnot ((hl u).mp hu).1
    have hacc : t ∉ acceptedFor m h := fun hacc => hnot hacc rfl
    rw [hself]
    simp [hacc]

/-- The transaction had the turn and leaves it to its buffer, or it was waiting at a
node of the process that is taken apart. -/
theorem TakesTurns.removed (ht : TakesTurns C d h s) (hs : Linked s)
    (hr : Removed h s s' t tx n) (ho : ∀ n, acceptedFor n o = [])
    (hcase : HasTurn d h s n (.queued t) ∧
        (deliveredTxns o = [t] ∨ deliveredTxns o = [] ∧ (d = none → ¬ C.noExit)) ∨
      (∀ x, tx.buffer = some x → d = some x.1) ∧ deliveredTxns o = [] ∧ d ≠ none) :
    TakesTurns C d (h ++ o) s' := by
  have hiff : ∀ {m k}, HasTurn d (h ++ o) s' m k ↔ HasTurn d h s m k ∧ k ≠ .queued t ∨
      n = m ∧ ∃ x, tx.buffer = some x ∧ d ≠ some x.1 ∧ k = .held x :=
    hr.hasTurn_iff hs ht.toOneWays ho
  have hdel : ∀ u ∈ deliveredTxns o, u < s.nextId := by
    intro u hu
    rcases hcase with ⟨-, hone | ⟨hnil, -⟩⟩ | ⟨-, hnil, -⟩
    · rw [hone, List.mem_singleton] at hu
      exact hu ▸ ht.accepted_lt hr.accepted
    · rw [hnil] at hu
      cases hu
    · rw [hnil] at hu
      cases hu
  refine ⟨ht.toOneWays.lessened (hr.lessened hs ht.toOneWays) ho hdel, ?_, ?_, ?_, ?_⟩
  · intro m u nd hmem hnd
    rw [oneWaysOn_of_nil ho] at hmem
    exact ht.waiting_flag (hr.mem.mp hmem).1 (hr.nodes ▸ hnd)
  · intro m k nd hturn hnd
    rw [hr.nodes] at hnd
    rcases hiff.mp hturn with ⟨hturn, -⟩ | ⟨rfl, x, hx, hd, -⟩
    · exact ht.turn_flag hturn hnd
    · rcases hcase with ⟨hturn, -⟩ | ⟨hd', -⟩
      · exact ht.turn_flag hturn hnd
      · exact absurd (hd' x hx) hd
  · intro m k k' hk hk'
    have hold : ∀ {k}, HasTurn d h s n k → k ≠ .queued t → ∀ x, tx.buffer = some x →
        d ≠ some x.1 → False := by
      intro k hk hne x hx hd
      rcases hcase with ⟨hturn, -⟩ | ⟨hd', -⟩
      · exact hne (ht.one hk hturn)
      · exact hd (hd' x hx)
    rcases hiff.mp hk with ⟨hk, hne⟩ | ⟨hnm, x, hx, hd, rfl⟩
    · rcases hiff.mp hk' with ⟨hk', -⟩ | ⟨rfl, x, hx, hd, -⟩
      · exact ht.one hk hk'
      · exact (hold hk hne x hx hd).elim
    · rcases hiff.mp hk' with ⟨hk', hne⟩ | ⟨-, x', hx', -, rfl⟩
      · exact (hold (hnm ▸ hk') hne x hx hd).elim
      · rw [Option.some.inj (hx.symm.trans hx')]
  · intro m
    obtain ⟨l, hlen, hmem, hsub, hexact⟩ := ht.order m
    rw [acceptedFor_of_nil ho, oneWaysOn_of_nil ho, hr.items]
    have hrel : (∀ pr, .released pr ∉ h ++ o) → ∀ pr, .released pr ∉ h :=
      fun hrel pr hpr => hrel pr (List.mem_append_left _ hpr)
    have hdelivered : deliveredFor m (h ++ o) = deliveredFor m h ++
        (deliveredTxns o).filter (· ∈ acceptedFor m h) := by
      rw [deliveredFor, deliveredFor, deliveredTxns_append, acceptedFor_of_nil ho,
        List.filter_append]
    rw [hdelivered]
    refine ⟨l.filter (· ≠ t), (List.length_filter_le ..).trans hlen, fun u => ?_, ?_⟩
    · rw [List.mem_filter, hmem, hiff]
      simp
    · have hnil : deliveredTxns o = [] → (d = none → ¬ C.noExit) →
          (deliveredFor m h ++ (deliveredTxns o).filter (· ∈ acceptedFor m h) ++ l.filter (· ≠ t) ++
            (s.oneWaysOn h (.async m)).filter (· ≠ t)).Sublist (acceptedFor m h) ∧
          (d = none → C.noExit → (∀ pr, .released pr ∉ h ++ o) →
            deliveredFor m h ++ (deliveredTxns o).filter (· ∈ acceptedFor m h) ++
              l.filter (· ≠ t) ++
              (s.oneWaysOn h (.async m)).filter (· ≠ t) = acceptedFor m h) := by
        intro hnil hnot
        refine ⟨List.Sublist.trans ?_ hsub, fun hd hC => absurd hC (hnot hd)⟩
        rw [hnil, List.filter_nil, List.append_nil]
        exact ((List.Sublist.refl _).append List.filter_sublist).append List.filter_sublist
      rcases hcase with ⟨hturn, hone | ⟨hdn, hnot⟩⟩ | ⟨-, hdn, hd⟩
      · have hsame := ht.order_of_delivered hr hturn hone hlen hmem
        rw [hsame]
        exact ⟨hsub, fun hd hC hr => hexact hd hC (hrel hr)⟩
      · exact hnil hdn hnot
      · exact hnil hdn fun hd' => absurd hd' hd

end Turns

end Driver

end BinderForLinux
