import BinderForLinux.Driver.Deaths

/-!
# Steps of death notifications

Every step of work moves a notification to the next stage of its life or leaves it
alone.
-/

namespace BinderForLinux

namespace Driver

open Library

section Steps

variable {L : Layout} {C : Condition} {d : Option ProcId} {h o : List Obs} {s s' s'' : State}
  {e e₀ : DeathId} {g : Registration} {st : Stage} {de : Death} {p : ProcId} {th : ThreadId}
  {thr : Thread} {r : RefId} {rf : Ref} {q : Queue}

/-! ### Lists -/

theorem count_listAddTail (w w' : Work) (q q' : Queue) :
    ((s.listAddTail q w).todo q').count w' =
      (s.todo q').count w' + if q' = q ∧ w' = w then 1 else 0 := by
  by_cases hq : q' = q
  · subst hq
    by_cases hw : w' = w
    · subst hw
      simp [State.listAddTail, State.setTodo]
    · simp [State.listAddTail, State.setTodo, hw, Ne.symm hw]
  · simp [State.listAddTail, State.setTodo, hq]

theorem count_listDel_of_ne {w w' : Work} (hw : w' ≠ w) (q q' : Queue) :
    ((s.listDel q w).todo q').count w' = (s.todo q').count w' := by
  by_cases hq : q' = q
  · subst hq
    simp only [State.listDel, State.setTodo, Function.update_self]
    rw [List.count_filter (by simpa using hw)]
  · simp [State.listDel, State.setTodo, hq]

theorem count_listDel_self (w : Work) (q q' : Queue) :
    ((s.listDel q w).todo q').count w = if q' = q then 0 else (s.todo q').count w := by
  by_cases hq : q' = q
  · subst hq
    simp [State.listDel, State.setTodo, List.count_eq_zero]
  · simp [State.listDel, State.setTodo, hq]

theorem queueOwner_deathQueue (hthr : s.threads th = some thr) (hproc : thr.proc = p) :
    s.queueOwner (deathQueue p th thr) = some p := by
  unfold deathQueue
  split
  · rw [queueOwner_thread hthr, hproc]
  · rfl

/-! ### Other notifications -/

theorem DeathKept.of_other (hnext : s.nextId ≤ s'.nextId)
    (hrefs : ∀ r, s'.refs r = s.refs r ∨ ∃ rf x, s.refs r = some rf ∧
      s'.refs r = some { rf with death := x } ∧ rf.death ≠ some e ∧ x ≠ some e)
    (hdeaths : s'.deaths e = s.deaths e) (hnodes : s'.nodes = s.nodes)
    (hthreads : s'.threads = s.threads)
    (hitems : ∀ q, (s'.todo q).count (.death e) = (s.todo q).count (.death e)) :
    DeathKept s s' e where
  deaths := hdeaths
  items := hitems
  refs := by
    intro r rf _ hrf hd
    rcases hrefs r with hsame | ⟨rf', x, hrf', -, hne, -⟩
    · exact ⟨rf, hsame.trans hrf, rfl, hd⟩
    · obtain rfl : rf = rf' := Option.some.inj (hrf.symm.trans hrf')
      exact absurd hd hne
  nextId := hnext
  back := by
    intro r rf' hrf' hd'
    rcases hrefs r with hsame | ⟨rf, x, -, hx, -, hne⟩
    · exact ⟨rf', hsame.symm.trans hrf', rfl, hd'⟩
    · obtain rfl : rf' = { rf with death := x } := Option.some.inj (hrf'.symm.trans hx)
      exact absurd hd' hne
  nodes := fun _ hnd' => ⟨_, hnodes ▸ hnd', .inl rfl⟩
  owner := by
    intro q p _ hq
    cases q with
    | thread th =>
        rw [← hq]
        simp [State.queueOwner, hthreads]
    | _ => exact hq

theorem setRef_other (hrf : s.refs r = some rf) {x : Option DeathId} (hne : rf.death ≠ some e)
    (hx : x ≠ some e) (r' : RefId) :
    (s.setRef r { rf with death := x }).refs r' = s.refs r' ∨ ∃ rf₀ x₀,
      s.refs r' = some rf₀ ∧
        (s.setRef r { rf with death := x }).refs r' = some { rf₀ with death := x₀ } ∧
        rf₀.death ≠ some e ∧ x₀ ≠ some e := by
  by_cases hr : r' = r
  · subst hr
    exact .inr ⟨rf, x, hrf, Function.update_self .., hne, hx⟩
  · exact .inl (Function.update_of_ne hr ..)

/-! ### Registering -/

theorem Registered.observe (hreg : Registered h s e g st) {x : Obs} {ev : DeathEvent} {st' : Stage}
    (hx : x.deathEvent e = some ev) (hlife : Life g st' (deathEvents e h ++ [ev]))
    (hdead : ev = .deadBinder g.proc g.cookie → s.NodeDead g.node) (hnext : s.nextId ≤ s'.nextId)
    (hnodes : s'.nodes = s.nodes) : Registered (h ++ [x]) s' e g st' := by
  have hev : deathEvents e (h ++ [x]) = deathEvents e h ++ [ev] := by
    simp [deathEvents, hx]
  refine ⟨hev ▸ hlife, hreg.lt.trans_le hnext, hreg.node_lt.trans_le hnext, fun hmem => ?_⟩
  rw [hev, List.mem_append, List.mem_singleton] at hmem
  have hsame : s.NodeDead g.node → s'.NodeDead g.node := fun hd nd hnd => hd nd (hnodes ▸ hnd)
  exact hsame (hmem.elim hreg.dead fun h => hdead h.symm)

theorem DeathOk.fresh (hok : DeathOk C d h s e) (he : s.nextId ≤ e) :
    deathEvents e h = [] ∧ s.Absent e := by
  cases hok with
  | unborn hev habs => exact ⟨hev, habs⟩
  | live hreg => exact absurd hreg.lt (not_lt.mpr he)
  | freed hreg => exact absurd hreg.lt (not_lt.mpr he)

theorem DeathOk.registered (hok : DeathOk C d h s s.nextId) (hr : r < s.nextId)
    (hn : rf.node < s.nextId) {cookie : ℕ} {de : Death}
    (hdeaths : s'.deaths s.nextId = some de) (hcookie : de.cookie = cookie)
    (hnext : s'.nextId = s.nextId + 1)
    (hrefs : s'.refs = Function.update s.refs r (some { rf with death := some s.nextId }))
    (hitems : ∀ q, (s'.todo q).count (.death s.nextId) =
      (s.todo q).count (.death s.nextId) + if de.entry = some q then 1 else 0)
    (hfits : s'.Holds ⟨rf.proc, rf.node, cookie⟩ s.nextId →
      DeathFits C d s' ⟨rf.proc, rf.node, cookie⟩ s.nextId de .registered) :
    DeathOk C d (h ++ [.requested rf.proc s.nextId rf.node cookie]) s' s.nextId := by
  obtain ⟨hev, habs⟩ := hok.fresh le_rfl
  have hheld : ∀ {r' rf'}, s'.refs r' = some rf' → rf'.death = some s.nextId → r' = r := by
    intro r' rf' hrf' hd'
    by_contra hne
    rw [hrefs, Function.update_of_ne hne] at hrf'
    exact habs.unheld r' rf' hrf' hd'
  have hev' : deathEvents s.nextId (h ++ [.requested rf.proc s.nextId rf.node cookie]) =
      [.requested rf.proc rf.node cookie] := by
    rw [deathEvents_append, hev]
    simp [deathEvents, Obs.deathEvent]
  refine .live (g := ⟨rf.proc, rf.node, cookie⟩) ⟨?_, ?_, ?_, ?_⟩ hdeaths hcookie (hfits ?_)
    (fun q => ?_) fun _ _ _ _ hrf hrf' hd hd' => (hheld hrf hd).trans (hheld hrf' hd').symm
  · rw [hev']
    exact .request
  · exact hnext ▸ Nat.lt_succ_self _
  · exact hnext ▸ hn.trans (Nat.lt_succ_self _)
  · simp [hev']
  · refine ⟨r, { rf with death := some s.nextId }, hnext ▸ hr.trans (Nat.lt_succ_self _), ?_, rfl,
      rfl, rfl⟩
    rw [hrefs, Function.update_self]
  · rw [hitems, habs.items, Nat.zero_add]

theorem Deaths.requested (hok : Deaths C none h s) (hr : r < s.nextId) (hrf : s.refs r = some rf)
    (hnone : rf.death = none) (hn : rf.node < s.nextId) {nd : Node}
    (hnd : s.nodes rf.node = some nd) (halive : nd.proc ≠ none) {cookie : ℕ} :
    Deaths C none (h ++ [.requested rf.proc s.nextId rf.node cookie])
      (registerDeath s r rf cookie) := by
  intro e
  by_cases he : e = s.nextId
  · subst he
    refine (hok s.nextId).registered hr hn (Function.update_self ..) rfl rfl rfl (fun q => ?_)
      fun hheld => ?_
    · simp [registerDeath, State.setRef, State.setDeath]
    · refine .idle hheld rfl rfl fun _ _ nd' hnd' => ?_
      obtain rfl : nd = nd' := Option.some.inj (hnd.symm.trans hnd')
      exact halive
  · refine (hok e).kept (.of_other (Nat.le_succ _) ?_ ?_ rfl rfl fun q => rfl) ?_
    · exact setRef_other hrf (by simp [hnone]) (by simpa using Ne.symm he)
    · exact Function.update_of_ne he ..
    · simp [Obs.deathEvent, Ne.symm he]

theorem Deaths.requestedDead (hok : Deaths C none h s) (hthr : s.threads th = some thr)
    (hproc : thr.proc = rf.proc) (hr : r < s.nextId) (hrf : s.refs r = some rf)
    (hnone : rf.death = none) (hn : rf.node < s.nextId) {nd : Node}
    (hnd : s.nodes rf.node = some nd) (hdead : nd.proc = none) {cookie : ℕ} :
    Deaths C none (h ++ [.requested rf.proc s.nextId rf.node cookie])
      (queueDeath (registerDeath s r rf cookie) s.nextId
        { cookie := cookie, workType := .deadBinder, entry := none } .deadBinder
        (deathQueue rf.proc th thr)) := by
  intro e
  by_cases he : e = s.nextId
  · subst he
    refine (hok s.nextId).registered hr hn (Function.update_self ..) rfl rfl rfl (fun q => ?_)
      fun hheld => ?_
    · refine (count_listAddTail ..).trans ?_
      simp [registerDeath, State.setRef, State.setDeath, eq_comm]
    · refine .queued hheld rfl rfl (queueOwner_deathQueue hthr hproc) fun nd' hnd' => ?_
      obtain rfl : nd = nd' := Option.some.inj (hnd.symm.trans hnd')
      exact hdead
  · refine (hok e).kept (.of_other (Nat.le_succ _) ?_ ?_ rfl rfl fun q => ?_) ?_
    · exact setRef_other hrf (by simp [hnone]) (by simpa using Ne.symm he)
    · exact (Function.update_of_ne he ..).trans (Function.update_of_ne he ..)
    · refine (count_listAddTail ..).trans ?_
      simp [he, registerDeath, State.setRef, State.setDeath]
    · simp [Obs.deathEvent, Ne.symm he]

/-! ### Clearing -/

theorem DeathOk.of_some (hok : DeathOk C d h s e) (hde : s.deaths e = some de) :
    ∃ g st, Registered h s e g st ∧ de.cookie = g.cookie ∧ DeathFits C d s g e de st ∧
      (∀ q, (s.todo q).count (.death e) = if de.entry = some q then 1 else 0) ∧ s.HeldOnce e := by
  cases hok with
  | unborn hev habs => simp [habs.deaths] at hde
  | freed hreg habs => simp [habs.deaths] at hde
  | @live g st de' hreg hde' hcookie hfits hitems hone =>
      obtain rfl : de = de' := Option.some.inj (hde.symm.trans hde')
      exact ⟨g, st, hreg, hcookie, hfits, hitems, hone⟩

theorem DeathFits.holds (hfits : DeathFits C d s g e de st) (hrf : s.refs r = some rf)
    (hd : rf.death = some e) : s.Holds g e ∧ de.workType = .deadBinder := by
  cases hfits with
  | idle hheld hty => exact ⟨hheld, hty⟩
  | queued hheld hty => exact ⟨hheld, hty⟩
  | delivered hheld hty => exact ⟨hheld, hty⟩
  | lost hheld hty => exact ⟨hheld, hty⟩
  | acked hheld hty => exact ⟨hheld, hty⟩
  | cleared hfree => exact absurd hd (hfree r rf hrf)
  | clearedQueued hfree => exact absurd hd (hfree r rf hrf)
  | owed hfree => exact absurd hd (hfree r rf hrf)
  | settled hfree => exact absurd hd (hfree r rf hrf)

theorem Holds.proc (hh : s.Holds g e) (hrf : s.refs r = some rf) (hd : rf.death = some e)
    (hone : s.HeldOnce e) : rf.proc = g.proc ∧ rf.node = g.node := by
  obtain ⟨r₀, rf₀, -, hrf₀, hd₀, hp, hn⟩ := hh
  obtain rfl := hone _ _ _ _ hrf hrf₀ hd hd₀
  obtain rfl : rf = rf₀ := Option.some.inj (hrf.symm.trans hrf₀)
  exact ⟨hp, hn⟩

theorem unheld_setRef (hrf : s.refs r = some rf) (hd : rf.death = some e)
    (hone : s.HeldOnce e)
    (hrefs : s'.refs = (s.setRef r { rf with death := none }).refs) : s'.Unheld e := by
  intro r' rf' hrf' hd'
  rw [hrefs] at hrf'
  by_cases hr : r' = r
  · subst hr
    obtain rfl : { rf with death := none } = rf' := by
      simpa [State.setRef] using hrf'
    cases hd'
  · simp only [State.setRef, Function.update_of_ne hr] at hrf'
    exact hr (hone _ _ _ _ hrf' hrf hd' hd)

theorem Unheld.heldOnce (hu : s.Unheld e) : s.HeldOnce e :=
  fun r _ rf _ hrf _ hd _ => absurd hd (hu r rf hrf)

theorem DeathOk.cleared (hok : DeathOk C none h s e) (hthr : s.threads th = some thr)
    (hproc : thr.proc = rf.proc) (hrf : s.refs r = some rf) (hd : rf.death = some e)
    (hde : s.deaths e = some de) (hentry : de.entry = none) :
    DeathOk C none (h ++ [.cleared rf.proc e])
      (queueDeath (s.setRef r { rf with death := none }) e de .clearDeathNotification
        (deathQueue rf.proc th thr)) e := by
  obtain ⟨g, st, hreg, hcookie, hfits, hitems, hone⟩ := hok.of_some hde
  have hx : (Obs.cleared rf.proc e).deathEvent e = some (.cleared rf.proc) := by
    simp [Obs.deathEvent]
  have hfree : (queueDeath (s.setRef r { rf with death := none }) e de .clearDeathNotification
      (deathQueue rf.proc th thr)).Unheld e := unheld_setRef hrf hd hone rfl
  have hcount : ∀ q, ((queueDeath (s.setRef r { rf with death := none }) e de
      .clearDeathNotification (deathQueue rf.proc th thr)).todo q).count (.death e) =
        if some (deathQueue rf.proc th thr) = some q then 1 else 0 := by
    intro q
    refine (count_listAddTail ..).trans ?_
    change (s.todo q).count (.death e) + _ = _
    simp [hitems, hentry, eq_comm]
  have howner := queueOwner_deathQueue hthr hproc
  cases hfits with
  | idle hheld =>
      have hp := (Holds.proc hheld hrf hd hone).1
      refine .live (hreg.observe hx (hp ▸ .clear hreg.life) (by simp) le_rfl rfl)
        (Function.update_self ..) hcookie (.cleared hfree rfl rfl (hp ▸ howner)) hcount
        (Unheld.heldOnce hfree)
  | acked hheld =>
      have hp := (Holds.proc hheld hrf hd hone).1
      refine .live (hreg.observe hx (hp ▸ .clearAcked hreg.life) (by simp) le_rfl rfl)
        (Function.update_self ..) hcookie (.settled hfree rfl rfl (hp ▸ howner)) hcount
        (Unheld.heldOnce hfree)
  | lost _ _ _ hd => cases hd
  | queued _ _ hq => simp [hentry] at hq
  | delivered _ _ hq => simp [hentry] at hq
  | cleared hfree => exact absurd hd (hfree r rf hrf)
  | clearedQueued hfree => exact absurd hd (hfree r rf hrf)
  | owed hfree => exact absurd hd (hfree r rf hrf)
  | settled hfree => exact absurd hd (hfree r rf hrf)

theorem DeathOk.clearedQueued (hok : DeathOk C none h s e) (hrf : s.refs r = some rf)
    (hd : rf.death = some e) (hde : s.deaths e = some de) (hentry : de.entry ≠ none) :
    DeathOk C none (h ++ [.cleared rf.proc e])
      ((s.setRef r { rf with death := none }).setDeath e
        { de with workType := .deadBinderAndClear }) e := by
  obtain ⟨g, st, hreg, hcookie, hfits, hitems, hone⟩ := hok.of_some hde
  have hx : (Obs.cleared rf.proc e).deathEvent e = some (.cleared rf.proc) := by
    simp [Obs.deathEvent]
  have hfree : ((s.setRef r { rf with death := none }).setDeath e
      { de with workType := .deadBinderAndClear }).Unheld e := unheld_setRef hrf hd hone rfl
  cases hfits with
  | queued hheld _ hq howner hdead =>
      have hp := (Holds.proc hheld hrf hd hone).1
      refine .live (hreg.observe hx (hp ▸ .clear hreg.life) (by simp) le_rfl rfl)
        (Function.update_self ..) hcookie (.clearedQueued hfree rfl hq howner hdead) hitems
        (Unheld.heldOnce hfree)
  | delivered hheld _ hq =>
      have hp := (Holds.proc hheld hrf hd hone).1
      refine .live (hreg.observe hx (hp ▸ .clearDelivered hreg.life) (by simp) le_rfl rfl)
        (Function.update_self ..) hcookie (.owed hfree rfl hq) hitems
        (Unheld.heldOnce hfree)
  | idle _ _ hnone => exact absurd hnone hentry
  | acked _ _ hnone => exact absurd hnone hentry
  | lost _ _ _ hd => cases hd
  | cleared hfree => exact absurd hd (hfree r rf hrf)
  | clearedQueued hfree => exact absurd hd (hfree r rf hrf)
  | owed hfree => exact absurd hd (hfree r rf hrf)
  | settled hfree => exact absurd hd (hfree r rf hrf)

/-! ### Acknowledging -/

theorem count_unlinkDeath (hitems : ∀ q, (s.todo q).count (.death e) =
      if de.entry = some q then 1 else 0) (q : Queue) :
    ((unlinkDeath s e de).todo q).count (.death e) = 0 := by
  unfold unlinkDeath
  split
  · rename_i q' hq'
    rw [count_listDel_self, hitems]
    by_cases hq : q = q'
    · simp [hq]
    · simp [hq, hq', Ne.symm hq]
  · rename_i hnone
    simp [hitems, hnone]

theorem count_unlinkDeath_of_ne (he : e ≠ e₀) (q : Queue) :
    ((unlinkDeath s e₀ de).todo q).count (.death e) = (s.todo q).count (.death e) := by
  unfold unlinkDeath
  split
  · exact count_listDel_of_ne (by simpa using he) ..
  · rfl

/-- Only notifications of the process are on the list of the delivered ones. -/
theorem DeathFits.delivered_of_entry (hfits : DeathFits C d s g e de st)
    (hentry : de.entry = some (.deliveredDeath p)) :
    p = g.proc ∧ (s.Holds g e ∧ de.workType = .deadBinder ∧ st = .delivered ∨
      s.Unheld e ∧ de.workType = .deadBinderAndClear ∧ st = .owed) := by
  have howner : ∀ {q}, de.entry = some q → s.queueOwner q ≠ some g.proc := by
    intro q hq
    obtain rfl : .deliveredDeath p = q := Option.some.inj (hentry.symm.trans hq)
    simp [State.queueOwner]
  cases hfits with
  | delivered hheld hty hq =>
      rw [hentry] at hq
      cases hq
      exact ⟨rfl, .inl ⟨hheld, hty, rfl⟩⟩
  | owed hfree hty hq =>
      rw [hentry] at hq
      cases hq
      exact ⟨rfl, .inr ⟨hfree, hty, rfl⟩⟩
  | idle _ _ hnone => simp [hentry] at hnone
  | lost _ _ hnone => simp [hentry] at hnone
  | acked _ _ hnone => simp [hentry] at hnone
  | queued _ _ hq hp => exact absurd hp (howner hq)
  | cleared _ _ hq hp => exact absurd hp (howner hq)
  | clearedQueued _ _ hq hp => exact absurd hp (howner hq)
  | settled _ _ hq hp => exact absurd hp (howner hq)

theorem DeathOk.acked (hok : DeathOk C none h s e) (he : .death e ∈ s.todo (.deliveredDeath p))
    (hde : s.deaths e = some de) (hty : de.workType ≠ .deadBinderAndClear) :
    DeathOk C none (h ++ [.acked p e])
      ((unlinkDeath s e de).setDeath e { de with entry := none }) e := by
  obtain ⟨g, st, hreg, hcookie, hfits, hitems, hone⟩ := hok.of_some hde
  have hx : (Obs.acked p e).deathEvent e = some (.acked p) := by simp [Obs.deathEvent]
  obtain ⟨rfl, ⟨hheld, hty', rfl⟩ | ⟨-, hty', -⟩⟩ :=
    hfits.delivered_of_entry ((mem_of_count hitems).mp he)
  · have hun := unlinkDeath_eq s e de
    refine .live (hreg.observe hx (.ack hreg.life) (by simp) ?_ ?_) (Function.update_self ..)
      hcookie (.acked ?_ hty' rfl) (fun q => ?_) ?_
    · rw [hun]
      rfl
    · rw [hun]
      rfl
    · rw [hun]
      exact hheld
    · exact (count_unlinkDeath hitems q).trans (by simp)
    · rw [hun]
      exact hone
  · exact absurd hty' hty

theorem DeathOk.ackedClear (hok : DeathOk C none h s e) (hthr : s.threads th = some thr)
    (hproc : thr.proc = p) (he : .death e ∈ s.todo (.deliveredDeath p))
    (hde : s.deaths e = some de) (hty : de.workType = .deadBinderAndClear) :
    DeathOk C none (h ++ [.acked p e])
      (queueDeath ((unlinkDeath s e de).setDeath e { de with entry := none }) e de
        .clearDeathNotification (deathQueue p th thr)) e := by
  obtain ⟨g, st, hreg, hcookie, hfits, hitems, hone⟩ := hok.of_some hde
  have hx : (Obs.acked p e).deathEvent e = some (.acked p) := by simp [Obs.deathEvent]
  obtain ⟨rfl, ⟨-, hty', -⟩ | ⟨hfree, hty', rfl⟩⟩ :=
    hfits.delivered_of_entry ((mem_of_count hitems).mp he)
  · rw [hty] at hty'
    cases hty'
  · have hun := unlinkDeath_eq s e de
    have howner := queueOwner_deathQueue hthr hproc
    refine .live (hreg.observe hx (.ackOwed hreg.life) (by simp) ?_ ?_) (Function.update_self ..)
      hcookie (.settled ?_ rfl rfl ?_) (fun q => ?_) ?_
    · rw [hun]
      rfl
    · rw [hun]
      rfl
    · rw [hun]
      exact hfree
    · rw [hun]
      exact howner
    · refine (count_listAddTail ..).trans ?_
      rw [show (((unlinkDeath s e de).setDeath e { de with entry := none }).setDeath e
        { de with workType := .clearDeathNotification,
                  entry := some (deathQueue g.proc th thr) }).todo q =
          (unlinkDeath s e de).todo q from rfl, count_unlinkDeath hitems q]
      simp [eq_comm]
    · rw [hun]
      exact hone

/-! ### Delivering -/

theorem DeathFits.queued_of_entry (hfits : DeathFits C d s g e de st) (hentry : de.entry = some q)
    (howner : s.queueOwner q = some p) :
    p = g.proc ∧ (s.Holds g e ∧ de.workType = .deadBinder ∧ s.NodeDead g.node ∧ st = .registered ∨
      s.Unheld e ∧ de.workType = .deadBinderAndClear ∧ s.NodeDead g.node ∧ st = .cleared ∨
      s.Unheld e ∧ de.workType = .clearDeathNotification ∧ (st = .cleared ∨ st = .settled)) := by
  have hproc : ∀ {q'}, de.entry = some q' → s.queueOwner q' = some g.proc → p = g.proc := by
    intro q' hq' hp
    obtain rfl : q = q' := Option.some.inj (hentry.symm.trans hq')
    exact Option.some.inj (howner.symm.trans hp)
  have hdelivered : de.entry ≠ some (.deliveredDeath g.proc) := by
    intro hq
    obtain rfl : q = .deliveredDeath g.proc := Option.some.inj (hentry.symm.trans hq)
    cases howner
  cases hfits with
  | queued hheld hty hq hp hdead => exact ⟨hproc hq hp, .inl ⟨hheld, hty, hdead, rfl⟩⟩
  | clearedQueued hfree hty hq hp hdead =>
      exact ⟨hproc hq hp, .inr (.inl ⟨hfree, hty, hdead, rfl⟩)⟩
  | cleared hfree hty hq hp => exact ⟨hproc hq hp, .inr (.inr ⟨hfree, hty, .inl rfl⟩)⟩
  | settled hfree hty hq hp => exact ⟨hproc hq hp, .inr (.inr ⟨hfree, hty, .inr rfl⟩)⟩
  | delivered _ _ hq => exact absurd hq hdelivered
  | owed _ _ hq => exact absurd hq hdelivered
  | idle _ _ hnone => simp [hentry] at hnone
  | lost _ _ hnone => simp [hentry] at hnone
  | acked _ _ hnone => simp [hentry] at hnone

theorem DeathOk.clearDone (hok : DeathOk C d h s e) (howner : s.queueOwner q = some p)
    {ws : List Work} (hq : s.todo q = .death e :: ws) (hde : s.deaths e = some de)
    (hty : de.workType = .clearDeathNotification) :
    DeathOk C d
      (h ++ [.delivered p th (some (.death e)) (.clearDeathNotificationDone de.cookie)])
      { s with
        todo := (s.listDel q (.death e)).todo
        deaths := Function.update s.deaths e none } e := by
  obtain ⟨g, st, hreg, hcookie, hfits, hitems, hone⟩ := hok.of_some hde
  have hentry : de.entry = some q := (mem_of_count hitems).mp (hq ▸ List.mem_cons_self)
  have hx : (Obs.delivered p th (some (.death e))
      (.clearDeathNotificationDone de.cookie)).deathEvent e = some (.clearDone p de.cookie) := by
    simp [Obs.deathEvent]
  obtain ⟨rfl, ⟨-, hty', -⟩ | ⟨-, hty', -⟩ | ⟨hfree, -, hst⟩⟩ := hfits.queued_of_entry hentry howner
  · rw [hty] at hty'
    cases hty'
  · rw [hty] at hty'
    cases hty'
  · have hlife : Life g .done (deathEvents e h ++ [.clearDone g.proc de.cookie]) := by
      rw [hcookie]
      rcases hst with rfl | rfl
      · exact .finish hreg.life
      · exact .finishSettled hreg.life
    refine .freed (hreg.observe hx hlife (by simp) le_rfl rfl) ⟨Function.update_self .., hfree, ?_⟩
      (by simp)
    intro q'
    rw [count_listDel_self, hitems, hentry]
    by_cases hq' : q' = q
    · simp [hq']
    · simp [hq', Ne.symm hq']

theorem DeathOk.deadBinder (hok : DeathOk C d h s e) (howner : s.queueOwner q = some p)
    {ws : List Work} (hq : s.todo q = .death e :: ws) (hde : s.deaths e = some de)
    (hty : de.workType ≠ .clearDeathNotification) :
    DeathOk C d (h ++ [.delivered p th (some (.death e)) (.deadBinder de.cookie)])
      (((s.listDel q (.death e)).setDeath e { de with entry := some (.deliveredDeath p) }).setTodo
        (.deliveredDeath p) (.death e :: (s.listDel q (.death e)).todo (.deliveredDeath p))) e := by
  obtain ⟨g, st, hreg, hcookie, hfits, hitems, hone⟩ := hok.of_some hde
  have hentry : de.entry = some q := (mem_of_count hitems).mp (hq ▸ List.mem_cons_self)
  have hne : q ≠ .deliveredDeath p := by
    rintro rfl
    cases howner
  have hx : (Obs.delivered p th (some (.death e)) (.deadBinder de.cookie)).deathEvent e =
      some (.deadBinder p de.cookie) := by simp [Obs.deathEvent]
  have hcount : ∀ q', ((((s.listDel q (.death e)).setDeath e
      { de with entry := some (.deliveredDeath p) }).setTodo (.deliveredDeath p)
        (.death e :: (s.listDel q (.death e)).todo (.deliveredDeath p))).todo q').count (.death e) =
          if some (.deliveredDeath p) = some q' then 1 else 0 := by
    intro q'
    have hdel : ((s.listDel q (.death e)).todo q').count (.death e) = 0 := by
      rw [count_listDel_self, hitems, hentry]
      by_cases hq' : q' = q
      · simp [hq']
      · simp [hq', Ne.symm hq']
    by_cases hq' : q' = .deliveredDeath p
    · subst hq'
      simp [State.setTodo, hdel]
    · rw [State.setTodo]
      simp only [Function.update_of_ne hq']
      exact hdel.trans (by simp [Ne.symm hq'])
  obtain ⟨rfl, ⟨hheld, hty', hdead, rfl⟩ | ⟨hfree, hty', hdead, rfl⟩ | ⟨-, hty', -⟩⟩ :=
    hfits.queued_of_entry hentry howner
  · exact .live (hreg.observe hx (hcookie ▸ .deliver hreg.life) (fun _ => hdead) le_rfl rfl)
      (Function.update_self ..) hcookie (.delivered hheld hty' rfl) hcount hone
  · exact .live (hreg.observe hx (hcookie ▸ .deliverCleared hreg.life) (fun _ => hdead) le_rfl rfl)
      (Function.update_self ..) hcookie (.owed hfree hty' rfl) hcount hone
  · exact absurd hty' hty

/-! ### Dropping -/

theorem MayDrop.proc_of_death (hmay : MayDrop C d s q (.death e)) (hC : C.sparesDeaths)
    (hq : s.queueOwner q = some p ∨ q = .deliveredDeath p) : d = some p := by
  cases hmay with
  | proc hd =>
      rcases hq with hq | hq
      · exact hd.trans hq
      · cases hq
  | deliveredDeath hd =>
      rcases hq with hq | hq
      · cases hq
      · cases hq
        exact hd
  | thread hd hthr hproc =>
      rcases hq with hq | hq
      · rw [queueOwner_thread hthr, hproc] at hq
        exact hd.trans hq
      · cases hq
  | async =>
      rcases hq with hq | hq
      · cases hq
      · cases hq
  | exit hexit hw => exact absurd hw (hC _ _ _ _ hexit)

theorem count_tail {w w' : Work} {ws : List Work} (hq : s.todo q = w :: ws) (hw : w ≠ w')
    (q' : Queue) : ((s.setTodo q ws).todo q').count w' = (s.todo q').count w' := by
  by_cases hq' : q' = q
  · subst hq'
    simp [State.setTodo, hq, hw]
  · simp [State.setTodo, hq']

theorem count_tail_self {ws : List Work} (hq : s.todo q = .death e :: ws)
    (hitems : ∀ q, (s.todo q).count (.death e) = if de.entry = some q then 1 else 0) (q' : Queue) :
    ((s.setTodo q ws).todo q').count (.death e) = 0 := by
  have hentry : de.entry = some q := (mem_of_count hitems).mp (hq ▸ List.mem_cons_self)
  have hcount := hitems q'
  rw [hentry] at hcount
  by_cases hq' : q' = q
  · subst hq'
    simpa [State.setTodo, hq] using hcount
  · simpa [State.setTodo, hq', Ne.symm hq'] using hcount

theorem DeathKept.setTodo {td : Queue → List Work}
    (hitems : ∀ q, (td q).count (.death e) = (s.todo q).count (.death e)) :
    DeathKept s { s with todo := td } e :=
  .of_eq le_rfl rfl rfl (fun hnd => ⟨_, hnd, rfl⟩) (fun hthr => ⟨_, hthr, rfl⟩) hitems

theorem freeTxn_deathKept {t : TxnId} (hrun : freeTxn s t = .ok s') : DeathKept s s' e := by
  obtain ⟨tx, s₁, -, hdetach, rfl⟩ := freeTxn_eq hrun
  have hrest := (detachBuffer_live hdetach).1
  rw [hrest]
  exact .of_eq le_rfl rfl rfl (fun hnd => ⟨_, hnd, rfl⟩) (fun hthr => ⟨_, hthr, rfl⟩) fun q => rfl

/-- The notification itself is dropped before it is delivered or acknowledged. -/
theorem DeathOk.droppedDeath (hok : DeathOk C d h s e) {ws : List Work}
    (hq : s.todo q = .death e :: ws) (hmay : MayDrop C d s q (.death e))
    (hde : s.deaths e = some de) (hty : de.workType = .deadBinder) :
    DeathOk C d h ((s.setTodo q ws).setDeath e { de with entry := none }) e := by
  obtain ⟨g, st, hreg, hcookie, hfits, hitems, hone⟩ := hok.of_some hde
  have hentry : de.entry = some q := (mem_of_count hitems).mp (hq ▸ List.mem_cons_self)
  have hreg' : Registered h ((s.setTodo q ws).setDeath e { de with entry := none }) e g st :=
    ⟨hreg.life, hreg.lt, hreg.node_lt, hreg.dead⟩
  have hcount : ∀ q', (((s.setTodo q ws).setDeath e { de with entry := none }).todo q').count
      (.death e) = if (none : Option Queue) = some q' then 1 else 0 := by
    intro q'
    exact (count_tail_self hq hitems q').trans (by simp)
  have hlive : DeathFits C d ((s.setTodo q ws).setDeath e { de with entry := none }) g e
      { de with entry := none } st →
      DeathOk C d h ((s.setTodo q ws).setDeath e { de with entry := none }) e := fun hfits =>
    .live hreg' (Function.update_self ..) hcookie hfits hcount hone
  cases hfits with
  | queued hheld _ hq' howner =>
      obtain rfl : q = _ := Option.some.inj (hentry.symm.trans hq')
      exact hlive (.idle hheld hty rfl fun hC hd => absurd (hmay.proc_of_death hC (.inl howner)) hd)
  | delivered hheld _ hq' =>
      obtain rfl : q = _ := Option.some.inj (hentry.symm.trans hq')
      have hd : d = some g.proc := by
        cases hmay with
        | deliveredDeath hd => exact hd
      exact hlive (.lost hheld hty rfl hd)
  | idle _ _ hnone => simp [hentry] at hnone
  | lost _ _ hnone => simp [hentry] at hnone
  | acked _ _ hnone => simp [hentry] at hnone
  | cleared _ hty' =>
      rw [hty] at hty'
      cases hty'
  | clearedQueued _ hty' =>
      rw [hty] at hty'
      cases hty'
  | owed _ hty' =>
      rw [hty] at hty'
      cases hty'
  | settled _ hty' =>
      rw [hty] at hty'
      cases hty'

theorem DeathOk.droppedClear (hok : DeathOk C d h s e) {ws : List Work}
    (hq : s.todo q = .death e :: ws) (hmay : MayDrop C d s q (.death e))
    (hde : s.deaths e = some de) (hty : de.workType ≠ .deadBinder) :
    DeathOk C d h { s.setTodo q ws with deaths := Function.update s.deaths e none } e := by
  obtain ⟨g, st, hreg, hcookie, hfits, hitems, hone⟩ := hok.of_some hde
  have hentry : de.entry = some q := (mem_of_count hitems).mp (hq ▸ List.mem_cons_self)
  have hfreed : s.Unheld e → s.queueOwner q = some g.proc ∨ q = .deliveredDeath g.proc →
      DeathOk C d h { s.setTodo q ws with deaths := Function.update s.deaths e none } e := by
    intro hfree howner
    have hreg' : Registered h { s.setTodo q ws with deaths := Function.update s.deaths e none } e g
        st := ⟨hreg.life, hreg.lt, hreg.node_lt, hreg.dead⟩
    refine .freed hreg' ⟨Function.update_self .., hfree, count_tail_self hq hitems⟩ fun hC hd => ?_
    exact absurd (hmay.proc_of_death hC howner) hd
  cases hfits with
  | cleared hfree _ hq' howner =>
      obtain rfl : q = _ := Option.some.inj (hentry.symm.trans hq')
      exact hfreed hfree (.inl howner)
  | clearedQueued hfree _ hq' howner =>
      obtain rfl : q = _ := Option.some.inj (hentry.symm.trans hq')
      exact hfreed hfree (.inl howner)
  | owed hfree _ hq' =>
      obtain rfl : q = _ := Option.some.inj (hentry.symm.trans hq')
      exact hfreed hfree (.inr rfl)
  | settled hfree _ hq' howner =>
      obtain rfl : q = _ := Option.some.inj (hentry.symm.trans hq')
      exact hfreed hfree (.inl howner)
  | idle _ hty' => exact absurd hty' hty
  | queued _ hty' => exact absurd hty' hty
  | delivered _ hty' => exact absurd hty' hty
  | lost _ hty' => exact absurd hty' hty
  | acked _ hty' => exact absurd hty' hty

theorem Deaths.dropped (hok : Deaths C d h s) {w : Work} {ws : List Work} (hq : s.todo q = w :: ws)
    (hdrop : Dropped (s.setTodo q ws) w s') (hmay : MayDrop C d s q w) : Deaths C d h s' := by
  intro e
  have htail : w ≠ .death e → DeathKept s (s.setTodo q ws) e := fun hw =>
    .setTodo (count_tail hq hw)
  cases hdrop with
  | call _ hun => exact hun.deathOk ((hok e).unobserved (htail (by simp)))
  | transaction _ _ hrun =>
      exact ((hok e).unobserved (htail (by simp))).unobserved (freeTxn_deathKept hrun)
  | complete => exact (hok e).unobserved (htail (by simp))
  | node hnd =>
      refine ((hok e).unobserved (htail (by simp))).unobserved
        (.of_eq le_rfl rfl rfl (fun {m md} hmd => ?_) (fun hthr => ⟨_, hthr, rfl⟩) fun q => rfl)
      rename_i n nd
      by_cases hm : m = n
      · subst hm
        simp only [State.setNode, Function.update_self, Option.some.injEq] at hmd
        exact ⟨nd, hnd, hmd ▸ rfl⟩
      · simp only [State.setNode, Function.update_of_ne hm] at hmd
        exact ⟨md, hmd, rfl⟩
  | @deadBinder e₀ de hde hty =>
      by_cases he : e = e₀
      · subst he
        exact (hok e).droppedDeath hq hmay hde hty
      · refine ((hok e).unobserved (htail (by simpa using Ne.symm he))).unobserved
          (.of_other le_rfl (fun _ => .inl rfl) ?_ rfl rfl fun q => rfl)
        exact Function.update_of_ne he ..
  | @death e₀ de hde hty =>
      by_cases he : e = e₀
      · subst he
        exact (hok e).droppedClear hq hmay hde hty
      · refine ((hok e).unobserved (htail (by simpa using Ne.symm he))).unobserved
          (.of_other le_rfl (fun _ => .inl rfl) ?_ rfl rfl fun q => rfl)
        exact Function.update_of_ne he ..

/-! ### A node that dies -/

/-- What the walk over the references of a dead node does to a notification. -/
theorem notifyDeath_death {rs : List RefId} (hrun : notifyDeath s rs = .ok s') (e : DeathId) :
    (s'.deaths e = s.deaths e ∧
      (∀ q, (s'.todo q).count (.death e) = (s.todo q).count (.death e)) ∧
      ∀ r rf, r ∈ rs → s.refs r = some rf → rf.death ≠ some e) ∨
    ∃ r rf de, r ∈ rs ∧ s.refs r = some rf ∧ rf.death = some e ∧ s.deaths e = some de ∧
      de.entry = none ∧
      s'.deaths e = some { de with workType := .deadBinder, entry := some (.proc rf.proc) } ∧
      ∀ q, (s'.todo q).count (.death e) =
        (s.todo q).count (.death e) + if q = .proc rf.proc then 1 else 0 := by
  induction rs generalizing s with
  | nil =>
      obtain rfl : s = s' := by simpa [notifyDeath] using hrun
      exact .inl ⟨rfl, fun q => rfl, by simp⟩
  | cons r rs ih =>
      simp only [notifyDeath, except_bind_eq_ok, deref_eq_ok] at hrun
      obtain ⟨rf, hrf, hrun⟩ := hrun
      cases hd : rf.death with
      | none =>
          simp only [hd] at hrun
          rcases ih hrun with ⟨hde, hitems, hno⟩ | ⟨r', rf', de, hmem, hrest⟩
          · refine .inl ⟨hde, hitems, fun r' rf' hmem hrf' => ?_⟩
            rcases List.mem_cons.mp hmem with rfl | hmem
            · obtain rfl : rf = rf' := Option.some.inj (hrf.symm.trans hrf')
              simp [hd]
            · exact hno r' rf' hmem hrf'
          · exact .inr ⟨r', rf', de, List.mem_cons_of_mem _ hmem, hrest⟩
      | some e₀ =>
          simp only [hd, except_bind_eq_ok, deref_eq_ok, bugOn_eq_ok] at hrun
          obtain ⟨de₀, hde₀, _, hentry₀, hrun⟩ := hrun
          have hentry₀ : de₀.entry = none := by simpa using hentry₀
          by_cases he : e = e₀
          · subst he
            right
            refine ⟨r, rf, de₀, List.mem_cons_self, hrf, hd, hde₀, hentry₀, ?_⟩
            -- the notification is queued now, so no other reference of the list may hold it
            rcases ih hrun with ⟨hde, hitems, -⟩ | ⟨r', rf', de, -, -, -, hde, hentry, -⟩
            · refine ⟨hde.trans (Function.update_self ..), fun q => (hitems q).trans ?_⟩
              exact (count_listAddTail ..).trans (by simp [State.setDeath])
            · obtain rfl : { de₀ with workType := .deadBinder, entry := some (.proc rf.proc) } =
                de := by
                simpa [State.listAddTail, State.setTodo, State.setDeath] using hde
              cases hentry
          · have hdeaths : ((s.setDeath e₀ { de₀ with
                workType := .deadBinder, entry := some (.proc rf.proc) }).listAddTail
                  (.proc rf.proc) (.death e₀)).deaths e = s.deaths e := Function.update_of_ne he ..
            have hcount : ∀ q, (((s.setDeath e₀ { de₀ with
                workType := .deadBinder, entry := some (.proc rf.proc) }).listAddTail
                  (.proc rf.proc) (.death e₀)).todo q).count (.death e) =
                  (s.todo q).count (.death e) := fun q =>
              (count_listAddTail ..).trans (by simp [State.setDeath, he])
            rcases ih hrun with ⟨hde, hitems, hno⟩ |
              ⟨r', rf', de, hmem, hrf', hd', hde, hentry, hde', hitems⟩
            · refine .inl ⟨hde.trans hdeaths, fun q => (hitems q).trans (hcount q),
                fun r' rf' hmem hrf' => ?_⟩
              rcases List.mem_cons.mp hmem with rfl | hmem
              · obtain rfl : rf = rf' := Option.some.inj (hrf.symm.trans hrf')
                simpa [hd] using Ne.symm he
              · exact hno r' rf' hmem hrf'
            · refine .inr ⟨r', rf', de, List.mem_cons_of_mem _ hmem, hrf', hd',
                hdeaths.symm.trans hde, hentry, hde', fun q => ?_⟩
              rw [hitems q, hcount q]

theorem Deaths.nodeDies (hok : Deaths C d h s) {n : NodeId} {nd nd' : Node}
    (hnd : s.nodes n = some nd) (hproc : nd.proc = some p)
    (hrefs : ∀ r rf, s.refs r = some rf → (rf.node = n ↔ r ∈ nd.refs)) (hdead : nd'.proc = none)
    (hrun : notifyDeath { s with
      nodes := Function.update s.nodes n (some nd')
      deadNodes := n :: s.deadNodes } nd.refs = .ok s') : Deaths C d h s' := by
  intro e
  have hrest := (notifyDeath_rest hrun).1
  have hnodes : s'.nodes = Function.update s.nodes n (some nd') := by rw [hrest]
  have hrefs' : s'.refs = s.refs := by rw [hrest]
  have halive : ¬ s.NodeDead n := fun hd => by
    have := hd nd hnd
    rw [hproc] at this
    cases this
  rcases notifyDeath_death hrun e with ⟨hdeaths, hitems, hno⟩ |
    ⟨r, rf, de, hmem, hrf, hd, hde, hentry, hde', hitems⟩
  · refine (hok e).unobserved ⟨⟨hdeaths, hitems, fun _ hrf hd => ⟨_, hrefs' ▸ hrf, rfl, hd⟩⟩,
      by rw [hrest], fun hrf hd => ⟨_, hrefs' ▸ hrf, rfl, hd⟩, fun {m md} _ hmd => ?_,
      fun {q p} _ hq => by rw [hrest]; exact hq⟩
    rw [hnodes] at hmd
    by_cases hm : m = n
    · subst hm
      obtain rfl : nd' = md := by simpa using hmd
      refine ⟨nd, hnd, .inr ⟨hdead, fun r rf hrf hd hnode => ?_⟩⟩
      exact hno r rf ((hrefs r rf hrf).mp hnode) hrf hd
    · rw [Function.update_of_ne hm] at hmd
      exact ⟨md, hmd, .inl rfl⟩
  · have hnode : rf.node = n := (hrefs r rf hrf).mpr hmem
    obtain ⟨g, st, hreg, hcookie, hfits, hcount, hone⟩ := (hok e).of_some hde
    have hheld : s.Holds g e ∧ st = .registered := by
      have hg : s.Holds g e → g.node = n := fun hh => (Holds.proc hh hrf hd hone).2.symm.trans hnode
      cases hfits with
      | idle hheld => exact ⟨hheld, rfl⟩
      | queued hheld => exact ⟨hheld, rfl⟩
      | delivered hheld =>
          exact absurd (hg hheld ▸ hreg.dead hreg.life.mem_of_delivered) halive
      | lost hheld =>
          exact absurd (hg hheld ▸ hreg.dead hreg.life.mem_of_delivered) halive
      | acked hheld => exact absurd (hg hheld ▸ hreg.dead hreg.life.mem_of_acked) halive
      | cleared hfree => exact absurd hd (hfree r rf hrf)
      | clearedQueued hfree => exact absurd hd (hfree r rf hrf)
      | owed hfree => exact absurd hd (hfree r rf hrf)
      | settled hfree => exact absurd hd (hfree r rf hrf)
    obtain ⟨hheld, rfl⟩ := hheld
    obtain ⟨hp, hn⟩ := Holds.proc hheld hrf hd hone
    have hdead' : s'.NodeDead g.node := by
      intro md hmd
      rw [hnodes, ← hn, hnode, Function.update_self] at hmd
      exact Option.some.inj hmd ▸ hdead
    refine .live ⟨hreg.life, by rw [hrest]; exact hreg.lt, by rw [hrest]; exact hreg.node_lt,
      fun _ => hdead'⟩ hde' hcookie (.queued (q := .proc g.proc) ?_ rfl (by rw [hp]) rfl hdead')
      (fun q => ?_) (by rw [State.HeldOnce, hrefs']; exact hone)
    · rw [hrest]
      exact hheld
    · rw [hitems q]
      change (s.todo q).count (.death e) + _ = _
      rw [hcount q, hentry]
      simp [eq_comm]

/-! ### All steps -/

theorem Queued.deathKept {t : TxnId} {tg : Target} {tx : Transaction} {b : Buffer} {x : ProcId × ℕ}
    (hq : Queued s s' th t tg tx b x q) : DeathKept s s' e := by
  have hrest := hq.rest
  refine .of_eq (by rw [hrest]) (by rw [hrest]) (by rw [hrest])
    (fun hnd => ⟨_, by rw [hrest] at hnd; exact hnd, rfl⟩)
    (fun hthr => ⟨_, by rw [hrest]; exact hthr, rfl⟩) fun q' => ?_
  rw [hrest]
  exact (count_listAddTail ..).trans (by simp [count_listAddTail])

theorem DeathKept.setNode {n : NodeId} {nd nd' : Node} (hnd : s.nodes n = some nd)
    (hproc : nd'.proc = nd.proc) : DeathKept s (s.setNode n nd') e := by
  refine .of_eq le_rfl rfl rfl (fun {m md} hmd => ?_) (fun hthr => ⟨_, hthr, rfl⟩) fun q => rfl
  by_cases hm : m = n
  · subst hm
    simp only [State.setNode, Function.update_self, Option.some.injEq] at hmd
    exact ⟨nd, hnd, hmd ▸ hproc⟩
  · simp only [State.setNode, Function.update_of_ne hm] at hmd
    exact ⟨md, hmd, rfl⟩

theorem Transacted.deathOk {t : TxnId} (hsent : Transacted s p th t s') (hok : DeathOk C d h s e) :
    DeathOk C d h s' e := by
  cases hsent with
  | failed hcalm => exact Calm.deathOk hcalm hok
  | @call s₁ _ thr _ _ _ _ _ hcalm _ hthr hq =>
      have hk : DeathKept s₁ (s₁.setThread th { thr with transactionStack := some t }) e :=
        .setThread hthr rfl
      exact ((Calm.deathOk hcalm hok).unobserved hk).unobserved hq.deathKept
  | @oneWay s₁ _ _ _ _ _ n nd hcalm _ hnd _ _ _ hq =>
      have hk : DeathKept s₁ (s₁.setNode n { nd with hasAsyncTransaction := true }) e :=
        .setNode hnd rfl
      exact ((Calm.deathOk hcalm hok).unobserved hk).unobserved hq.deathKept
  | waiting hcalm _ _ _ _ _ hq => exact (Calm.deathOk hcalm hok).unobserved hq.deathKept
  | reply hcalm _ _ _ hq => exact (Calm.deathOk hcalm hok).unobserved hq.deathKept

theorem Deaths.not_async (hok : Deaths C d h s) (n : NodeId) : .death e ∉ s.todo (.async n) := by
  intro hmem
  have hcount := List.count_pos_iff.mpr hmem
  cases hok e with
  | unborn _ habs => simp [habs.items] at hcount
  | freed _ habs => simp [habs.items] at hcount
  | live hreg hde hcookie hfits hitems hone =>
      have hentry := (mem_of_count hitems).mp hmem
      cases hfits with
      | queued _ _ hq howner =>
          obtain rfl := Option.some.inj (hentry.symm.trans hq)
          cases howner
      | cleared _ _ hq howner =>
          obtain rfl := Option.some.inj (hentry.symm.trans hq)
          cases howner
      | clearedQueued _ _ hq howner =>
          obtain rfl := Option.some.inj (hentry.symm.trans hq)
          cases howner
      | settled _ _ hq howner =>
          obtain rfl := Option.some.inj (hentry.symm.trans hq)
          cases howner
      | idle _ _ hq => simp [hentry] at hq
      | lost _ _ hq => simp [hentry] at hq
      | acked _ _ hq => simp [hentry] at hq
      | delivered _ _ hq => simp [hentry] at hq
      | owed _ _ hq => simp [hentry] at hq

theorem Advanced.deathKept {b : Buffer} (hadv : Advanced s th b s') (hok : Deaths C d h s) :
    DeathKept s s' e := by
  cases hadv with
  | idle =>
      exact .of_eq le_rfl rfl rfl (fun hnd => ⟨_, hnd, rfl⟩) (fun hthr => ⟨_, hthr, rfl⟩)
        fun q => rfl
  | last _ _ hnd => exact .setNode hnd rfl
  | @next n nd w ws _ _ _ _ hq =>
      refine .of_eq le_rfl rfl rfl (fun hnd => ⟨_, hnd, rfl⟩) (fun hthr => ⟨_, hthr, rfl⟩)
        fun q' => ?_
      have hw : w ≠ .death e := by
        rintro rfl
        exact hok.not_async n (hq ▸ List.mem_cons_self)
      refine (count_listAddTail ..).trans ?_
      rw [count_tail hq hw]
      simp [Ne.symm hw]

theorem DeathOk.threadGone (hok : DeathOk C d h s e) (hq : s.todo (.thread th) = []) :
    DeathOk C d h { s with threads := Function.update s.threads th none } e := by
  refine hok.unobserved ⟨⟨rfl, fun q => rfl, fun _ hrf hd => ⟨_, hrf, rfl, hd⟩⟩, le_rfl,
    fun hrf hd => ⟨_, hrf, rfl, hd⟩, fun _ hnd => ⟨_, hnd, .inl rfl⟩, fun {q p} hmem howner => ?_⟩
  cases q with
  | thread th' =>
      have hne : th' ≠ th := by
        rintro rfl
        rw [hq] at hmem
        cases hmem
      simpa [State.queueOwner, Function.update_of_ne hne] using howner
  | _ => exact howner

theorem DeathKept.threadNew (hfresh : s.threads s.nextId = none) (thr : Thread) :
    DeathKept s ({ s with nextId := s.nextId + 1 }.setThread s.nextId thr) e := by
  refine .of_eq (Nat.le_succ _) rfl rfl (fun hnd => ⟨_, hnd, rfl⟩)
    (fun {u ur} hur => ⟨ur, ?_, rfl⟩) fun q => rfl
  have hne : u ≠ s.nextId := by
    rintro rfl
    rw [hfresh] at hur
    cases hur
  exact (Function.update_of_ne hne ..).trans hur

theorem acceptedLog_deathEvent : ∀ x ∈ acceptedLog s s' p th, x.deathEvent e = none := by
  intro x hx
  unfold acceptedLog at hx
  split at hx
  · cases hx
  · split at hx
    · cases hx
    · rw [List.mem_singleton.mp hx]
      rfl

theorem Deaths.cleared (hok : Deaths C none h s) (hthr : s.threads th = some thr)
    (hproc : thr.proc = rf.proc) (hrf : s.refs r = some rf) (hd : rf.death = some e₀)
    (hde : s.deaths e₀ = some de) (hentry : de.entry = none) :
    Deaths C none (h ++ [.cleared rf.proc e₀])
      (queueDeath (s.setRef r { rf with death := none }) e₀ de .clearDeathNotification
        (deathQueue rf.proc th thr)) := by
  intro e
  by_cases he : e = e₀
  · subst he
    exact (hok e).cleared hthr hproc hrf hd hde hentry
  · refine (hok e).kept (.of_other le_rfl ?_ (Function.update_of_ne he ..) rfl rfl fun q => ?_) ?_
    · exact setRef_other hrf (by simpa [hd] using Ne.symm he) (by simp)
    · exact (count_listAddTail ..).trans (by simp [he, State.setDeath, State.setRef])
    · simp [Obs.deathEvent, Ne.symm he]

theorem Deaths.acked (hok : Deaths C none h s) (hmem : .death e₀ ∈ s.todo (.deliveredDeath p))
    (hde : s.deaths e₀ = some de) (hty : de.workType ≠ .deadBinderAndClear) :
    Deaths C none (h ++ [.acked p e₀])
      ((unlinkDeath s e₀ de).setDeath e₀ { de with entry := none }) := by
  intro e
  by_cases he : e = e₀
  · subst he
    exact (hok e).acked hmem hde hty
  · have hun := unlinkDeath_eq s e₀ de
    refine (hok e).kept (.of_other ?_ (fun r => .inl ?_) ?_ ?_ ?_ ?_) ?_
    · rw [hun]
      rfl
    · rw [hun]
      rfl
    · refine (Function.update_of_ne he ..).trans ?_
      rw [hun]
    · rw [hun]
      rfl
    · rw [hun]
      rfl
    · exact count_unlinkDeath_of_ne he
    · simp [Obs.deathEvent, Ne.symm he]

theorem Deaths.ackedClear (hok : Deaths C none h s) (hthr : s.threads th = some thr)
    (hproc : thr.proc = p) (hmem : .death e₀ ∈ s.todo (.deliveredDeath p))
    (hde : s.deaths e₀ = some de) (hty : de.workType = .deadBinderAndClear) :
    Deaths C none (h ++ [.acked p e₀])
      (queueDeath ((unlinkDeath s e₀ de).setDeath e₀ { de with entry := none }) e₀ de
        .clearDeathNotification (deathQueue p th thr)) := by
  intro e
  by_cases he : e = e₀
  · subst he
    exact (hok e).ackedClear hthr hproc hmem hde hty
  · have hun := unlinkDeath_eq s e₀ de
    refine (hok e).kept (.of_other ?_ (fun r => .inl ?_) ?_ ?_ ?_ fun q => ?_) ?_
    · rw [hun]
      rfl
    · rw [hun]
      rfl
    · refine (Function.update_of_ne he ..).trans ((Function.update_of_ne he ..).trans ?_)
      rw [hun]
    · rw [hun]
      rfl
    · rw [hun]
      rfl
    · refine (count_listAddTail ..).trans ?_
      simp only [Work.death.injEq, he, and_false, if_false, Nat.add_zero]
      exact count_unlinkDeath_of_ne he q
    · simp [Obs.deathEvent, Ne.symm he]

theorem Deaths.deadBinder (hok : Deaths C d h s) (howner : s.queueOwner q = some p)
    {ws : List Work} (hq : s.todo q = .death e₀ :: ws) (hde : s.deaths e₀ = some de)
    (hty : de.workType ≠ .clearDeathNotification) :
    Deaths C d (h ++ [.delivered p th (some (.death e₀)) (.deadBinder de.cookie)])
      (((s.listDel q (.death e₀)).setDeath e₀ { de with entry := some (.deliveredDeath p) }).setTodo
        (.deliveredDeath p) (.death e₀ :: (s.listDel q (.death e₀)).todo (.deliveredDeath p))) := by
  intro e
  by_cases he : e = e₀
  · subst he
    exact (hok e).deadBinder howner hq hde hty
  · refine (hok e).kept (.of_other le_rfl (fun r => .inl rfl) (Function.update_of_ne he ..) rfl rfl
      fun q' => ?_) ?_
    · have hdel : ((s.listDel q (.death e₀)).todo q').count (.death e) =
          (s.todo q').count (.death e) := count_listDel_of_ne (by simpa using he) q q'
      by_cases hq' : q' = .deliveredDeath p
      · subst hq'
        simpa [State.setTodo, Ne.symm he] using hdel
      · rw [State.setTodo]
        simp only [Function.update_of_ne hq']
        exact hdel
    · simp [Obs.deathEvent, Ne.symm he]

theorem WorkStep.deaths (hstep : WorkStep C d s o s') (hok : Deaths C d h s) :
    Deaths C d (h ++ o) s' := by
  have hkept : o = [] → (∀ e, DeathKept s s' e) → Deaths C d (h ++ o) s' := by
    rintro rfl hk e
    rw [List.append_nil]
    exact (hok e).unobserved (hk e)
  cases hstep with
  | calm hcalm ho =>
      exact fun e => (Calm.deathOk hcalm (hok e)).observed fun x hx =>
        Obs.deathEvent_of_plain (ho x hx)
  | sent _ _ _ _ hsent => exact fun e => (hsent.deathOk (hok e)).observed acceptedLog_deathEvent
  | freed _ _ _ _ _ _ hadv hrest =>
      rw [List.append_nil, hrest]
      refine fun e => ((hok e).unobserved (hadv.deathKept hok)).unobserved ?_
      exact .of_eq le_rfl rfl rfl (fun hnd => ⟨_, hnd, rfl⟩) (fun hthr => ⟨_, hthr, rfl⟩)
        fun q => rfl
  | noMemory _ hthr => exact hkept rfl fun e => .setThread hthr rfl
  | requested hd hr hrf hproc hnone hn hnd halive =>
      subst hd hproc
      exact hok.requested hr hrf hnone hn hnd halive
  | requestedDead hd hthr hproc hr hrf hrproc hnone hn hnd hdead =>
      subst hd hrproc
      exact hok.requestedDead hthr hproc hr hrf hnone hn hnd hdead
  | cleared hd hthr hproc hrf hrproc hdeath hde hentry =>
      subst hd hrproc
      exact hok.cleared hthr hproc hrf hdeath hde hentry
  | @clearedQueued p r rf e₀ de hd hrf hproc hdeath hde hentry hty =>
      subst hd hproc
      intro e
      by_cases he : e = e₀
      · subst he
        exact (hok e).clearedQueued hrf hdeath hde hentry
      · refine (hok e).kept (.of_other le_rfl ?_ (Function.update_of_ne he ..) rfl rfl
          fun q => rfl) ?_
        · exact setRef_other hrf (by simpa [hdeath] using Ne.symm he) (by simp)
        · simp [Obs.deathEvent, Ne.symm he]
  | acked hd hmem hde hty =>
      subst hd
      exact hok.acked hmem hde hty
  | ackedClear hd hthr hproc hmem hde hty =>
      subst hd
      exact hok.ackedClear hthr hproc hmem hde hty
  | complete _ _ hq =>
      exact fun e => (hok e).kept (.setTodo (count_tail hq (by simp))) (by simp [Obs.deathEvent])
  | @clearDone p th q e₀ de ws hd howner hq hde hty =>
      intro e
      by_cases he : e = e₀
      · subst he
        exact (hok e).clearDone howner hq hde hty
      · refine (hok e).kept (.of_other le_rfl (fun r => .inl rfl) (Function.update_of_ne he ..) rfl
          rfl (count_listDel_of_ne (by simpa using he) q)) ?_
        simp [Obs.deathEvent, Ne.symm he]
  | deadBinder _ howner hq hde hty => exact hok.deadBinder howner hq hde hty
  | @receivedCall p th thr q t ws tx b x tr _ hd _ _ hthr _ _ _ _ _ hrest =>
      have hthread : ∀ e, DeathKept s
          (s.setThread th { thr with transactionStack := some t }) e := fun e => .setThread hthr rfl
      intro e
      rw [hrest]
      refine ((hok e).unobserved (hthread e)).kept (.of_eq le_rfl rfl rfl (fun hnd => ⟨_, hnd, rfl⟩)
        (fun hthr => ⟨_, hthr, rfl⟩) (count_listDel_of_ne (by simp) q)) ?_
      simp [Obs.deathEvent]
  | @received p th q t ws tx b x cmd _ _ _ _ _ _ _ _ _ hrest =>
      intro e
      rw [hrest]
      refine (hok e).kept (.of_eq le_rfl rfl rfl (fun hnd => ⟨_, hnd, rfl⟩)
        (fun hthr => ⟨_, hthr, rfl⟩) (count_listDel_of_ne (by simp) q)) ?_
      simp [Obs.deathEvent]
  | dropped hq hdrop hmay =>
      rw [List.append_nil]
      exact hok.dropped hq hdrop hmay
  | threadGone _ hq =>
      rw [List.append_nil]
      exact fun e => (hok e).threadGone hq
  | threadNew _ _ _ _ hfresh => exact hkept rfl fun e => .threadNew hfresh _
  | @nodeGone p n nd =>
      refine hkept rfl fun e => .of_eq le_rfl rfl rfl (fun {m md} hmd => ⟨md, ?_, rfl⟩)
        (fun hthr => ⟨_, hthr, rfl⟩) fun q => rfl
      by_cases hm : m = n
      · simp [hm] at hmd
      · simpa [Function.update_of_ne hm] using hmd
  | nodeDies _ hnd hproc hrefs _ hdead _ hrun =>
      rw [List.append_nil]
      exact hok.nodeDies hnd hproc hrefs hdead hrun
  | bufferGone _ _ hrest =>
      refine hkept rfl fun e => ?_
      rw [hrest]
      exact .of_eq le_rfl rfl rfl (fun hnd => ⟨_, hnd, rfl⟩) (fun hthr => ⟨_, hthr, rfl⟩)
        fun q => rfl

theorem deaths_init : Deaths C none [] State.init := by
  refine fun e => .unborn rfl ⟨rfl, fun r rf hrf => ?_, fun q => rfl⟩
  cases hrf

theorem DeathOk.exempt (hok : DeathOk C none h s e) (p : ProcId) : DeathOk C (some p) h s e := by
  cases hok with
  | unborn hev habs => exact .unborn hev habs
  | freed hreg habs hkept => exact .freed hreg habs fun hC _ => hkept hC (by simp)
  | live hreg hde hcookie hfits hitems hone =>
      refine .live hreg hde hcookie ?_ hitems hone
      cases hfits with
      | idle hheld hty hentry hkept => exact .idle hheld hty hentry fun hC _ => hkept hC (by simp)
      | queued hheld hty hentry howner hdead => exact .queued hheld hty hentry howner hdead
      | delivered hheld hty hentry => exact .delivered hheld hty hentry
      | lost _ _ _ hd => cases hd
      | acked hheld hty hentry => exact .acked hheld hty hentry
      | cleared hfree hty hentry howner => exact .cleared hfree hty hentry howner
      | clearedQueued hfree hty hentry howner hdead =>
          exact .clearedQueued hfree hty hentry howner hdead
      | owed hfree hty hentry => exact .owed hfree hty hentry
      | settled hfree hty hentry howner => exact .settled hfree hty hentry howner

theorem DeathOk.gone (hok : DeathOk C (some p) h s e) (hgone : Gone p s) :
    DeathOk C none (h ++ [.released p]) s e := by
  have hheld : ∀ {g}, s.Holds g e → some p ≠ some g.proc := by
    rintro g ⟨r, rf, -, hrf, -, hp, -⟩ heq
    exact hgone.refs r rf hrf (hp.trans (Option.some.inj heq).symm)
  have hok' : DeathOk C (some p) (h ++ [.released p]) s e := hok.observed (by simp [Obs.deathEvent])
  cases hok' with
  | unborn hev habs => exact .unborn hev habs
  | freed hreg habs hkept =>
      refine .freed hreg habs fun hC _ hrel => hkept hC (fun hp => hrel ?_) hrel
      rw [Option.some.inj hp]
      simp
  | live hreg hde hcookie hfits hitems hone =>
      refine .live hreg hde hcookie ?_ hitems hone
      cases hfits with
      | idle hh hty hentry hkept => exact .idle hh hty hentry fun hC _ => hkept hC (hheld hh)
      | queued hh hty hentry howner hdead => exact .queued hh hty hentry howner hdead
      | delivered hh hty hentry => exact .delivered hh hty hentry
      | lost hh _ _ hd => exact absurd hd (hheld hh)
      | acked hh hty hentry => exact .acked hh hty hentry
      | cleared hfree hty hentry howner => exact .cleared hfree hty hentry howner
      | clearedQueued hfree hty hentry howner hdead =>
          exact .clearedQueued hfree hty hentry howner hdead
      | owed hfree hty hentry => exact .owed hfree hty hentry
      | settled hfree hty hentry howner => exact .settled hfree hty hentry howner

theorem deaths_steady : Steady L C (Deaths C) where
  step := fun _ hok hstep => hstep.deaths hok
  exempt := fun hok e => (hok e).exempt _
  gone := fun _ hgone hok e => (hok e).gone hgone

end Steps

end Driver

end BinderForLinux
