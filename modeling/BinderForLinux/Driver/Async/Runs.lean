import BinderForLinux.Driver.Async.Turns

/-!
# One-way transactions over whole runs

In every run at most one one-way transaction of a node is outstanding, the others
wait on the node, and they are delivered in the order in which they were accepted.
-/

namespace BinderForLinux

namespace Driver

open Library

section Steps

variable {L : Layout} {C : Condition} {d : Option ProcId} {h o : List Obs} {s s' : State}
  {p : ProcId} {th : ThreadId} {n : NodeId} {t : TxnId} {tx : Transaction} {x : ProcId × ℕ}
  {b : Buffer} {q : Queue} {w : Work} {ws : List Work}

theorem TurnsKept.dropItem (hq : s.todo q = w :: ws) (hw : Work.oneWay h w = none) :
    TurnsKept d h s (s.setTodo q ws) where
  nextId := le_rfl
  item_lt := by
    intro q' u hu
    by_cases hq' : q' = q
    · subst hq'
      simp only [State.setTodo, Function.update_self] at hu
      exact .inl (hq ▸ List.mem_cons_of_mem w hu)
    · simp only [State.setTodo, Function.update_of_ne hq'] at hu
      exact .inl hu
  items := by
    intro q'
    by_cases hq' : q' = q
    · subst hq'
      rw [oneWaysOn_cons hq, hw]
      rfl
    · exact oneWaysOn_setTodo_of_ne hq'
  txn := fun _ hsome => hsome
  txnBack := fun _ htx => ⟨_, htx, rfl, .inl rfl⟩
  live := fun _ _ hb => hb
  kept := fun _ _ hb => .inl hb
  nodes := fun hnd => .inl ⟨_, hnd, rfl, .inl rfl⟩

theorem TurnsKept.delivered {y : Option Transaction} {b' : Buffer} (hw : OneWays h s)
    (hs : Linked s) (hone : isOneWay h t = false) (htx : s.txns t = some tx)
    (hx : tx.buffer = some x) (hb : s.live x = some b)
    (hlive : s'.live = Function.update s.live x (some b'))
    (hasync : b'.asyncTransaction = b.asyncTransaction) (hnode : b'.targetNode = b.targetNode)
    (hnext : s'.nextId = s.nextId) (htodo : s'.todo = (s.listDel q (.transaction t)).todo)
    (htxns : s'.txns = Function.update s.txns t y) (hnodes : s'.nodes = s.nodes) :
    TurnsKept d h s s' := by
  have hnot : ∀ n, b.asyncTransaction = true → b.targetNode ≠ some n := by
    intro n hasync hnode
    obtain ⟨c, hc, hct, -⟩ := hs.buffer htx hx
    obtain rfl := Option.some.inj (hb.symm.trans hc)
    have hone' := isOneWay_iff.mpr ⟨n, (hw.buffer hb hasync hnode hct).1⟩
    rw [hone] at hone'
    cases hone'
  refine .of_buffer hnext.ge ?_ ?_ ?_ hnodes hlive ?_ ?_
  · intro q' u hu
    rw [htodo] at hu
    by_cases hq' : q' = q
    · subst hq'
      simp only [State.listDel, State.setTodo, Function.update_self] at hu
      exact .inl (List.mem_filter.mp hu).1
    · simp only [State.listDel, State.setTodo, Function.update_of_ne hq'] at hu
      exact .inl hu
  · intro q'
    rw [State.oneWaysOn, htodo]
    exact oneWaysOn_listDel_of_none (oneWay_of_not hone) q'
  · intro u hu
    rw [htxns, Function.update_of_ne]
    rintro rfl
    rw [hone] at hu
    cases hu
  · intro c n hc hasync hnode
    obtain rfl := Option.some.inj (hb.symm.trans hc)
    exact hnot n hasync hnode
  · rintro _ n ⟨⟩ hasync' hnode'
    exact hnot n (hasync ▸ hasync') (hnode ▸ hnode')

theorem noTurns_delivered {cmd : ReturnCommand} (hw : OneWays h s) (hone : isOneWay h t = false)
    (ht : .transaction t ∈ s.todo q) :
    NoTurns h [.delivered p th (some (.transaction t)) cmd] s := by
  refine ⟨fun n => rfl, fun u hu => ?_⟩
  obtain rfl : u = t := by simpa [deliveredTxns] using hu
  exact ⟨hone, hw.item_lt ht⟩

theorem noTurns_other {cmd : ReturnCommand} (hw : ∀ t, w ≠ .transaction t) :
    NoTurns h [.delivered p th (some w) cmd] s := by
  refine ⟨fun n => rfl, fun u hu => ?_⟩
  cases w with
  | transaction t => exact absurd rfl (hw t)
  | _ => simp [deliveredTxns] at hu

theorem mem_oneWaysOn_of_mem (hone : isOneWay h t = true) (ht : .transaction t ∈ s.todo q) :
    t ∈ s.oneWaysOn h q :=
  mem_oneWaysOn.mpr ⟨ht, isOneWay_iff.mp hone⟩

theorem filter_ne_of_not_mem {l : List TxnId} (ht : t ∉ l) : l.filter (· ≠ t) = l := by
  refine List.filter_eq_self.mpr fun u hu => ?_
  have hut : u ≠ t := fun hut => ht (hut ▸ hu)
  simpa using hut

theorem TakesTurns.received {cmd : ReturnCommand} (ht : TakesTurns C none h s) (hs : Linked s)
    (howner : s.queueOwner q = some p) (hq : s.todo q = .transaction t :: ws)
    (htx : s.txns t = some tx) (hx : tx.buffer = some x) (hb : s.live x = some b)
    (hrest : s' = { s with
      todo := (s.listDel q (.transaction t)).todo
      txns := Function.update s.txns t none
      area := s'.area })
    (hlive : s'.live = Function.update s.live x
      (some { b with allowUserFree := true, transaction := none })) :
    TakesTurns C none (h ++ [.delivered p th (some (.transaction t)) cmd]) s' := by
  have hitem : .transaction t ∈ s.todo q := hq ▸ List.mem_cons_self
  have htodo : s'.todo = (s.listDel q (.transaction t)).todo := by rw [hrest]
  cases hone : isOneWay h t with
  | false =>
      have hk : TurnsKept none h s s' := .delivered ht.toOneWays hs hone htx hx hb hlive rfl
        rfl (by rw [hrest]) htodo (by rw [hrest]) (by rw [hrest])
      exact ht.kept hk (noTurns_delivered ht.toOneWays hone hitem)
  | true =>
      obtain ⟨n, hacc⟩ := isOneWay_iff.mp hone
      have hmem := mem_oneWaysOn_of_mem hone hitem
      have hr : Removed h s s' t tx n := by
        refine ⟨hacc, htx, by rw [hrest], fun {q' u} hu => ?_, fun q' => ?_, by rw [hrest],
          by rw [hrest], fun {y} hy => ?_, fun {y} hy => ?_⟩
        · rw [htodo] at hu
          by_cases hq' : q' = q
          · subst hq'
            simp only [State.listDel, State.setTodo, Function.update_self] at hu
            exact (List.mem_filter.mp hu).1
          · simpa only [State.listDel, State.setTodo, Function.update_of_ne hq'] using hu
        · rw [State.oneWaysOn, htodo]
          by_cases hq' : q' = q
          · subst hq'
            exact oneWaysOn_listDel_self
          · refine (oneWaysOn_listDel_of_ne hq').trans (filter_ne_of_not_mem ?_).symm
            exact fun hmem' => hq' (ht.unique hmem' hmem)
        · obtain rfl := Option.some.inj (hx.symm.trans hy)
          have hb' : s'.live x = some { b with allowUserFree := true, transaction := none } := by
            rw [hlive, Function.update_self]
          exact ⟨b, _, hb, hb', rfl, rfl, rfl⟩
        · rw [hlive, Function.update_of_ne]
          rintro rfl
          exact hy hx
      refine ht.removed hs hr (fun n => rfl) (.inl ⟨⟨hacc, q, ?_, hmem⟩, .inl rfl⟩)
      rintro rfl
      cases howner

theorem freeTxn_turnsKept (hrun : freeTxn s t = .ok s') (hw : OneWays h s) (hs : Linked s)
    (hone : isOneWay h t = false) : TurnsKept d h s s' := by
  obtain ⟨tx, s₁, htx, hdetach, rfl⟩ := freeTxn_eq hrun
  obtain ⟨hs₁, hlive⟩ := detachBuffer_live hdetach
  have hlive' : ({ s₁ with txns := Function.update s₁.txns t none } : State).live = s₁.live :=
    live_congr rfl
  have htxn : ∀ {u}, isOneWay h u = true → Function.update s₁.txns t none u = s.txns u := by
    intro u hu
    rw [Function.update_of_ne, hs₁]
    rintro rfl
    rw [hone] at hu
    cases hu
  have hnext : s.nextId ≤ s₁.nextId := by rw [hs₁]
  have htodo : s₁.todo = s.todo := by rw [hs₁]
  have hnodes : s₁.nodes = s.nodes := by rw [hs₁]
  have hitems : ∀ q, ({ s₁ with txns := Function.update s₁.txns t none } : State).oneWaysOn h q =
      s.oneWaysOn h q := by
    intro q
    rw [State.oneWaysOn, State.oneWaysOn, ← htodo]
  cases hx : tx.buffer with
  | none =>
      have hsame : s₁.live = s.live := funext fun y => by rw [hlive, hx, if_neg (by simp)]
      exact ⟨hnext, fun hmem => .inl (htodo ▸ hmem), hitems,
        fun hu hsome => (htxn hu).trans_ne hsome,
        fun hu htx => ⟨_, (htxn hu).symm.trans htx, rfl, .inl rfl⟩,
        fun _ _ hb => by rw [hlive', hsame] at hb; exact hb,
        fun _ _ hb => .inl (by rw [hlive', hsame]; exact hb),
        fun hnd => .inl ⟨_, hnodes ▸ hnd, rfl, .inl rfl⟩⟩
  | some x =>
      obtain ⟨b, hb, hbt, -⟩ := hs.buffer htx hx
      have hnot : ∀ n, b.asyncTransaction = true → b.targetNode ≠ some n := by
        intro n hasync hnode
        have hone' := isOneWay_iff.mpr ⟨n, (hw.buffer hb hasync hnode hbt).1⟩
        rw [hone] at hone'
        cases hone'
      have hupd : s₁.live = Function.update s.live x (some { b with transaction := none }) := by
        funext y
        rw [hlive, hx]
        by_cases hyx : y = x
        · subst hyx
          rw [if_pos rfl, hb, Function.update_self]
          rfl
        · rw [if_neg (fun h => hyx (Option.some.inj h).symm), Function.update_of_ne hyx]
      refine .of_buffer hnext (fun hmem => .inl (htodo ▸ hmem)) hitems htxn hnodes
        (hlive'.trans hupd) ?_ ?_
      · intro c n hc hasync
        obtain rfl := Option.some.inj (hb.symm.trans hc)
        exact hnot n hasync
      · rintro _ n ⟨⟩ hasync
        exact hnot n hasync

theorem TakesTurns.droppedTxn (ht : TakesTurns C d h s) (hs : Linked s)
    (hq : s.todo q = .transaction t :: ws) (hrun : freeTxn (s.setTodo q ws) t = .ok s')
    (hmay : MayDrop C d s q (.transaction t)) : TakesTurns C d h s' := by
  cases hone : isOneWay h t with
  | false =>
      have ht₁ := ht.unobserved (.dropItem hq (oneWay_of_not hone))
      exact ht₁.unobserved
        (freeTxn_turnsKept hrun ht₁.toOneWays (hs.others le_rfl rfl rfl rfl) hone)
  | true =>
      obtain ⟨tx, s₁, htx, hdetach, rfl⟩ := freeTxn_eq hrun
      obtain ⟨hs₁, hlive⟩ := detachBuffer_live hdetach
      obtain ⟨n, hacc⟩ := isOneWay_iff.mp hone
      have hmem := mem_oneWaysOn_of_mem hone (hq ▸ List.mem_cons_self)
      have hlive' : ∀ y, ({ s₁ with txns := Function.update s₁.txns t none } : State).live y =
          if tx.buffer = some y then (s.live y).map fun b => { b with transaction := none }
          else s.live y := hlive
      have htodo : s₁.todo = (s.setTodo q ws).todo := by rw [hs₁]
      have hr : Removed h s { s₁ with txns := Function.update s₁.txns t none } t tx n := by
        refine ⟨hacc, htx, by rw [hs₁]; rfl, fun {q' u} hu => ?_, fun q' => ?_, by rw [hs₁]; rfl,
          by rw [hs₁]; rfl, fun {y} hy => ?_, fun {y} hy => ?_⟩
        · have hu : .transaction u ∈ (s.setTodo q ws).todo q' := htodo ▸ hu
          by_cases hq' : q' = q
          · subst hq'
            simp only [State.setTodo, Function.update_self] at hu
            exact hq ▸ List.mem_cons_of_mem _ hu
          · simpa only [State.setTodo, Function.update_of_ne hq'] using hu
        · rw [State.oneWaysOn, htodo]
          by_cases hq' : q' = q
          · subst hq'
            have hcons := oneWaysOn_cons (h := h) hq
            have hfirst : Work.oneWay h (.transaction t) = some t := by simp [Work.oneWay, hone]
            have hnodup := ht.nodup q'
            rw [hfirst] at hcons
            rw [hcons, Option.toList_some, List.singleton_append, List.nodup_cons] at hnodup
            rw [hcons, Option.toList_some, List.singleton_append, List.filter_cons_of_neg (by simp),
              filter_ne_of_not_mem hnodup.1]
            rfl
          · rw [filter_ne_of_not_mem fun hmem' => hq' (ht.unique hmem' hmem)]
            exact oneWaysOn_setTodo_of_ne hq'
        · obtain ⟨b, hb, -⟩ := hs.buffer htx hy
          refine ⟨b, { b with transaction := none }, hb, ?_, rfl, rfl, rfl⟩
          rw [hlive', if_pos hy, hb]
          rfl
        · rw [hlive', if_neg hy]
      have hremoved := ht.removed (o := []) hs hr (fun _ => rfl)
      rw [List.append_nil] at hremoved
      have hturn : (∀ n, q ≠ .async n) → HasTurn d h s n (.queued t) :=
        fun hq => ⟨hacc, q, hq n, hmem⟩
      cases hmay with
      | proc hd => exact hremoved (.inl ⟨hturn (by simp), .inr ⟨rfl, by simp [hd]⟩⟩)
      | deliveredDeath hd => exact hremoved (.inl ⟨hturn (by simp), .inr ⟨rfl, by simp [hd]⟩⟩)
      | thread hd => exact hremoved (.inl ⟨hturn (by simp), .inr ⟨rfl, by simp [hd]⟩⟩)
      | async hd hnd hproc =>
          obtain rfl := ht.node_unique hacc (ht.async hmem)
          refine hremoved (.inr ⟨fun y hy => ?_, rfl, by simp [hd]⟩)
          obtain ⟨b, hb, hasync, hnode⟩ := ht.filled hacc htx hy
          rw [hd, ht.owner hb hasync hnode hnd hproc]
      | exit hC =>
          exact hremoved (.inl ⟨hturn (by simp), .inr ⟨rfl, fun _ hno => hno _ _ _ hC⟩⟩)

theorem Dropped.takesTurns (hdrop : Dropped (s.setTodo q ws) w s') (hs : Linked s)
    (ht : TakesTurns C d h s) (hq : s.todo q = w :: ws) (hmay : MayDrop C d s q w) :
    TakesTurns C d h s' := by
  cases hdrop with
  | @call t _ hcall hun =>
      have hone : isOneWay h t = false := by
        rw [Bool.eq_false_iff]
        intro hone
        have hmem := mem_oneWaysOn_of_mem (s := s) (q := q) hone (hq ▸ List.mem_cons_self)
        obtain ⟨tx, htx⟩ := Option.ne_none_iff_exists'.mp (ht.exists_of_mem hmem)
        obtain ⟨n, hacc⟩ := isOneWay_iff.mp hone
        have hreply := hcall.2 tx htx
        rw [ht.plain hacc htx] at hreply
        cases hreply
      have hs₁ : Linked (s.setTodo q ws) := hs.others le_rfl rfl rfl rfl
      exact Calm.takesTurns (Unwound.calm hun) hs₁
        (ht.unobserved (.dropItem hq (oneWay_of_not hone)))
  | transaction htx hcall hrun => exact ht.droppedTxn hs hq hrun hmay
  | complete => exact ht.unobserved (.dropItem hq rfl)
  | deadBinder =>
      exact (ht.unobserved (.dropItem hq rfl)).unobserved
        (.of_eq le_rfl rfl rfl (live_congr rfl) rfl)
  | death =>
      exact (ht.unobserved (.dropItem hq rfl)).unobserved
        (.of_eq le_rfl rfl rfl (live_congr rfl) rfl)
  | @node n nd hnd =>
      refine (ht.unobserved (.dropItem hq rfl)).unobserved
        (.of_items (fun _ => true) (fun _ => rfl) le_rfl (fun q => rfl) rfl (live_congr rfl)
          fun {m md} hmd => .inl ?_)
      by_cases hm : m = n
      · simp only [State.setNode, hm, Function.update_self, Option.some.injEq] at hmd
        exact ⟨nd, hm ▸ hnd, hmd ▸ rfl, .inl (hmd ▸ rfl)⟩
      · simp only [State.setNode, Function.update_of_ne hm] at hmd
        exact ⟨md, hmd, rfl, .inl rfl⟩

theorem TurnsKept.bufferGone {a : ℕ} (hs : Linked s) (hb : s.live (p, a) = some b)
    (hrest : s' = { s with txns := detachedTxns s b, area := s'.area })
    (hlive : s'.live = Function.update s.live (p, a) none) : TurnsKept (some p) h s s' := by
  have htxns : ∀ {u ux'}, s'.txns u = some ux' → ∃ ux, s.txns u = some ux ∧
      ux'.needReply = ux.needReply ∧ (b.transaction = some u ∧ ux'.buffer = none ∨
        b.transaction ≠ some u ∧ ux'.buffer = ux.buffer) := by
    intro u ux' hux'
    rw [hrest] at hux'
    cases hbt : b.transaction with
    | none =>
        simp only [detachedTxns, hbt] at hux'
        exact ⟨ux', hux', rfl, .inr ⟨by simp, rfl⟩⟩
    | some v =>
        simp only [detachedTxns, hbt] at hux'
        by_cases huv : u = v
        · subst huv
          rw [Function.update_self] at hux'
          obtain ⟨ux, hux, rfl⟩ := Option.map_eq_some_iff.mp hux'
          exact ⟨ux, hux, rfl, .inl ⟨rfl, rfl⟩⟩
        · rw [Function.update_of_ne huv] at hux'
          exact ⟨ux', hux', rfl, .inr ⟨by simpa using Ne.symm huv, rfl⟩⟩
  refine ⟨by rw [hrest], fun hmem => .inl (by rw [hrest] at hmem; exact hmem),
    fun q => by rw [hrest]; rfl, ?_, ?_, ?_, ?_,
    fun hnd => .inl ⟨_, by rw [hrest] at hnd; exact hnd, rfl, .inl rfl⟩⟩
  · intro u _ hsome
    rw [hrest]
    change detachedTxns s b u ≠ none
    cases hbt : b.transaction with
    | none => rwa [detachedTxns_of_none hbt]
    | some v =>
        simp only [detachedTxns, hbt]
        by_cases huv : u = v
        · subst huv
          simpa using hsome
        · rwa [Function.update_of_ne huv]
  · intro u ux' _ hux'
    obtain ⟨ux, hux, hreply, ⟨-, hnone⟩ | ⟨-, hsame⟩⟩ := htxns hux'
    · exact ⟨ux, hux, hreply, .inr hnone⟩
    · exact ⟨ux, hux, hreply, .inl hsame⟩
  · intro y c n _ _ hc
    rw [hlive] at hc
    by_cases hy : y = (p, a)
    · simp [hy] at hc
    · rwa [Function.update_of_ne hy] at hc
  · intro y c n _ _ hc
    rw [hlive]
    by_cases hy : y = (p, a)
    · subst hy
      refine .inr ⟨rfl, fun u ux' hux' hy => ?_⟩
      obtain ⟨ux, hux, -, ⟨-, hnone⟩ | ⟨hne, hsame⟩⟩ := htxns hux'
      · rw [hnone] at hy
        cases hy
      · obtain ⟨c', hc', hcu, -⟩ := hs.buffer hux (hsame ▸ hy)
        obtain rfl := Option.some.inj (hb.symm.trans hc')
        exact hne hcu
    · rw [Function.update_of_ne hy]
      exact .inl hc

/-! ### All steps -/

section Filter

variable {f : Work → Bool} (hw : f w = false)
include hw

theorem filter_todo_listAddTail (q q' : Queue) :
    ((s.listAddTail q w).todo q').filter f = (s.todo q').filter f := by
  by_cases hq : q' = q
  · subst hq
    simp [State.listAddTail, State.setTodo, hw]
  · simp [State.listAddTail, State.setTodo, hq]

theorem filter_todo_listDel (q q' : Queue) :
    ((s.listDel q w).todo q').filter f = (s.todo q').filter f := by
  by_cases hq : q' = q
  · subst hq
    simp only [State.listDel, State.setTodo, Function.update_self, List.filter_filter]
    refine List.filter_congr fun w' _ => ?_
    by_cases hw' : w' = w
    · simp [hw', hw]
    · simp [hw']
  · simp [State.listDel, State.setTodo, hq]

end Filter

theorem filter_todo_unlinkDeath (e : DeathId) (de : Death) (q : Queue) :
    ((unlinkDeath s e de).todo q).filter Work.isTxn = (s.todo q).filter Work.isTxn := by
  unfold unlinkDeath
  split
  · exact filter_todo_listDel rfl _ q
  · rfl

theorem TurnsKept.of_deaths (hnext : s.nextId ≤ s'.nextId)
    (hitems : ∀ q, (s'.todo q).filter Work.isTxn = (s.todo q).filter Work.isTxn)
    (htxns : s'.txns = s.txns) (harea : s'.area = s.area) (hnodes : s'.nodes = s.nodes) :
    TurnsKept d h s s' :=
  .of_items Work.isTxn (fun _ => rfl) hnext hitems htxns (live_congr harea)
    fun hnd => .inl ⟨_, hnodes ▸ hnd, rfl, .inl rfl⟩

theorem noTurns_nil_of (hacc : ∀ n, acceptedFor n o = []) (hdel : deliveredTxns o = []) :
    NoTurns h o s :=
  ⟨hacc, by simp [hdel]⟩

theorem WorkStep.takesTurns (hstep : WorkStep C d s o s') (hs : Linked s)
    (ht : TakesTurns C d h s) : TakesTurns C d (h ++ o) s' := by
  cases hstep with
  | calm hcalm ho =>
      refine (Calm.takesTurns hcalm hs ht).kept ?_ (noTurns_of_plain ho)
      exact .of_eq le_rfl rfl rfl rfl rfl
  | sent hd heq _ _ hsent =>
      subst hd
      exact hsent.takesTurns heq hs ht
  | freed hd _ _ _ hb huser hadv hrest hlive =>
      subst hd
      rw [List.append_nil]
      exact hadv.takesTurns hs ht hb huser hrest hlive
  | noMemory =>
      rw [List.append_nil]
      exact ht.unobserved (.of_eq le_rfl rfl rfl (live_congr rfl) rfl)
  | requested =>
      refine ht.kept (.of_deaths (Nat.le_succ _) (fun q => rfl) rfl rfl rfl) ?_
      exact noTurns_nil_of (fun n => rfl) rfl
  | requestedDead =>
      refine ht.kept (.of_deaths (Nat.le_succ _) ?_ rfl rfl rfl) (noTurns_nil_of (fun n => rfl) rfl)
      exact filter_todo_listAddTail rfl _
  | cleared =>
      refine ht.kept (.of_deaths le_rfl ?_ rfl rfl rfl) (noTurns_nil_of (fun n => rfl) rfl)
      exact filter_todo_listAddTail rfl _
  | clearedQueued =>
      exact ht.kept (.of_deaths le_rfl (fun q => rfl) rfl rfl rfl)
        (noTurns_nil_of (fun n => rfl) rfl)
  | @acked p e de =>
      refine ht.kept (.of_deaths ?_ ?_ ?_ ?_ ?_) (noTurns_nil_of (fun n => rfl) rfl)
      · rw [unlinkDeath_eq]
        rfl
      · exact filter_todo_unlinkDeath e de
      all_goals
        rw [unlinkDeath_eq]
        rfl
  | @ackedClear p th thr e de =>
      refine ht.kept (.of_deaths ?_ ?_ ?_ ?_ ?_) (noTurns_nil_of (fun n => rfl) rfl)
      · rw [unlinkDeath_eq]
        rfl
      · intro q
        refine (filter_todo_listAddTail rfl _ q).trans ?_
        exact filter_todo_unlinkDeath e de q
      all_goals
        rw [unlinkDeath_eq]
        rfl
  | complete hd howner hq =>
      exact ht.kept (.dropItem hq rfl) (noTurns_other (by simp))
  | clearDone =>
      refine ht.kept (.of_deaths le_rfl ?_ rfl rfl rfl) (noTurns_other (by simp))
      exact filter_todo_listDel rfl _
  | @deadBinder p th q e de ws =>
      refine ht.kept (.of_deaths le_rfl (fun q' => ?_) rfl rfl rfl) (noTurns_other (by simp))
      by_cases hq' : q' = .deliveredDeath p
      · subst hq'
        simp only [State.setTodo, Function.update_self, List.filter_cons, Work.isTxn]
        exact filter_todo_listDel rfl q _
      · simp only [State.setTodo, Function.update_of_ne hq']
        exact filter_todo_listDel rfl q q'
  | @receivedCall p th thr q t ws tx b x tr _ hd howner hq hthr hproc htx hx hb hcall hrest hlive =>
      have hone : isOneWay h t = false := by
        rw [Bool.eq_false_iff]
        intro hone
        obtain ⟨n, hacc⟩ := isOneWay_iff.mp hone
        rw [ht.plain hacc htx] at hcall
        cases hcall
      have hk : TurnsKept d h s s' := .delivered ht.toOneWays hs hone htx hx hb hlive rfl rfl
        (by rw [hrest]) (by rw [hrest]) (by rw [hrest]) (by rw [hrest])
      exact ht.kept hk (noTurns_delivered ht.toOneWays hone (hq ▸ List.mem_cons_self))
  | received hd howner hq htx hx hb hcall hcmd hrest hlive =>
      subst hd
      exact ht.received hs howner hq htx hx hb hrest hlive
  | dropped hq hdrop hmay =>
      rw [List.append_nil]
      exact hdrop.takesTurns hs ht hq hmay
  | threadGone =>
      rw [List.append_nil]
      exact ht.unobserved (.of_eq le_rfl rfl rfl (live_congr rfl) rfl)
  | threadNew =>
      rw [List.append_nil]
      exact ht.unobserved (.of_eq (Nat.le_succ _) rfl rfl (live_congr rfl) rfl)
  | @nodeGone p n nd hd hnd =>
      rw [List.append_nil]
      refine ht.unobserved (.of_items (fun _ => true) (fun _ => rfl) le_rfl (fun q => rfl) rfl
        (live_congr rfl) fun {m md} hmd => .inl ⟨md, ?_, rfl, .inl rfl⟩)
      by_cases hm : m = n
      · simp [hm] at hmd
      · simpa [Function.update_of_ne hm] using hmd
  | @nodeDies p n nd nd' _ hd hnd hproc hrefs hq hdead hasync hrun =>
      rw [List.append_nil]
      obtain ⟨hrest, hitems⟩ := notifyDeath_rest hrun
      refine ht.unobserved (.of_items Work.isTxn (fun _ => rfl) (by rw [hrest]) hitems
        (by rw [hrest]) (live_congr (by rw [hrest])) fun {m md} hmd => .inl ?_)
      rw [hrest] at hmd
      by_cases hm : m = n
      · simp only [hm, Function.update_self, Option.some.injEq] at hmd
        exact ⟨nd, hm ▸ hnd, hmd ▸ hasync, .inr (hmd ▸ hdead)⟩
      · simp only [Function.update_of_ne hm] at hmd
        exact ⟨md, hmd, rfl, .inl rfl⟩
  | bufferGone hd hb hrest hlive =>
      subst hd
      rw [List.append_nil]
      exact ht.unobserved (.bufferGone hs hb hrest hlive)

theorem takesTurns_init : TakesTurns C none [] State.init := by
  have hlive : ∀ x, State.init.live x = none := by
    simp [State.live, derefBuffer, State.init, Area.unmapped, findBuffer, Except.toOption]
  have hnil : ∀ q, State.init.oneWaysOn [] q = [] := fun q => rfl
  refine ⟨⟨by simp [acceptedFor], by simp [hlive], by simp [State.init], by simp [acceptedFor],
    by simp [deliveredTxns], by simp [acceptedFor], by simp [acceptedFor], by simp [hlive],
    by simp [hlive], by simp [acceptedFor], by simp [hnil], by simp [hnil], by simp [hnil],
    by simp [hnil]⟩, by simp [hnil], ?_, ?_, ?_⟩
  · intro n k nd hk hnd
    cases hnd
  · intro n k k' hk
    cases k with
    | queued t => simp [HasTurn, acceptedFor] at hk
    | held x => simp [HasTurn, hlive] at hk
  · intro n
    exact ⟨[], by simp, by simp [HasTurn, acceptedFor], by simp [deliveredFor, deliveredTxns, hnil],
      by simp [deliveredFor, deliveredTxns, hnil, acceptedFor]⟩

theorem TakesTurns.exempt (ht : TakesTurns C none h s) (p : ProcId) :
    TakesTurns C (some p) h s := by
  have hturn : ∀ {n k}, HasTurn (some p) h s n k → HasTurn none h s n k := by
    intro n k hk
    cases k with
    | queued t => exact hk
    | held x =>
        obtain ⟨b, hb, hasync, hnode, hnone, -⟩ := hk
        exact ⟨b, hb, hasync, hnode, hnone, by simp⟩
  refine ⟨ht.toOneWays, ht.waiting_flag, fun hk => ht.turn_flag (hturn hk),
    fun hk hk' => ht.one (hturn hk) (hturn hk'), fun n => ?_⟩
  obtain ⟨l, hlen, hmem, hsub, -⟩ := ht.order n
  exact ⟨l, hlen, hmem, hsub, by simp⟩

theorem TakesTurns.gone (ht : TakesTurns C (some p) h s) (hgone : Gone p s) :
    TakesTurns C none (h ++ [.released p]) s := by
  have hlive : ∀ {x b}, s.live x = some b → some p ≠ some x.1 := by
    rintro ⟨pr, a⟩ b hb ⟨⟩
    simp [State.live, derefBuffer, hgone.area, Area.unmapped, findBuffer, Except.toOption] at hb
  have hturn : ∀ {n k}, HasTurn none h s n k → HasTurn (some p) h s n k := by
    intro n k hk
    cases k with
    | queued t => exact hk
    | held x =>
        obtain ⟨b, hb, hasync, hnode, hnone, -⟩ := hk
        exact ⟨b, hb, hasync, hnode, hnone, hlive hb⟩
  have ht' : TakesTurns C (some p) (h ++ [.released p]) s :=
    ht.kept (.of_eq le_rfl rfl rfl rfl rfl) (noTurns_nil_of (fun n => rfl) rfl)
  have ho : NoTurns h [.released p] s := noTurns_nil_of (fun n => rfl) rfl
  have hsame : TurnsKept none h s s := .of_eq le_rfl rfl rfl rfl rfl
  have hturn' : ∀ {n k}, HasTurn none (h ++ [.released p]) s n k →
      HasTurn (some p) (h ++ [.released p]) s n k := by
    intro n k hk
    have hsame' : TurnsKept (some p) h s s := .of_eq le_rfl rfl rfl rfl rfl
    exact (hsame'.hasTurn ho).mpr (hturn ((hsame.hasTurn ho).mp hk))
  refine ⟨ht'.toOneWays, ht'.waiting_flag, fun hk => ht'.turn_flag (hturn' hk),
    fun hk hk' => ht'.one (hturn' hk) (hturn' hk'), fun n => ?_⟩
  obtain ⟨l, hlen, hmem, hsub, -⟩ := ht'.order n
  exact ⟨l, hlen, hmem, hsub, fun _ _ hr => absurd (by simp) (hr p)⟩

theorem takesTurns_steady : Steady L C (TakesTurns C) where
  step := fun hs ht hstep => hstep.takesTurns hs ht
  exempt := fun ht => ht.exempt _
  gone := fun _ hgone ht => ht.gone hgone

end Steps

end Driver

end BinderForLinux
