import BinderForLinux.Driver.Asserts
import BinderForLinux.Driver.Deaths.Owner
import BinderForLinux.Driver.Refs.Runs

/-!
# Death notifications over whole runs

What a process is told for each notification it registers, and where the notification
is as long as there is something to tell.
-/

namespace BinderForLinux

namespace Driver

open Library

def DeathEvent.notification : DeathEvent → Option (ProcId × ReturnCommand)
  | .deadBinder p c => some (p, .deadBinder c)
  | .clearDone p c => some (p, .clearDeathNotificationDone c)
  | _ => none

/-- What was delivered for the notification, in order. -/
def notificationsOf (e : DeathId) (h : List Obs) : List (ProcId × ReturnCommand) :=
  (deathEvents e h).filterMap DeathEvent.notification

/-- What a process is told for the notification `e` of the node `n`: at most that the node
is dead and then that the notification is cleared, the former when the node has no owner,
the latter when the process asked for it and has acknowledged what it was told before. -/
structure NotifiedInTurn (h : List Obs) (s : State) (p : ProcId) (n : NodeId) (c : ℕ)
    (e : DeathId) :
    Prop where
  once : (notificationsOf e h).Sublist [(p, .deadBinder c), (p, .clearDeathNotificationDone c)]
  dead : (p, .deadBinder c) ∈ notificationsOf e h → s.NodeDead n
  cleared : ∀ h₁ h₂ th,
    h = h₁ ++ .delivered p th (some (.death e)) (.clearDeathNotificationDone c) :: h₂ →
      .cleared p e ∈ h₁ ∧ ((p, .deadBinder c) ∈ notificationsOf e h₁ → .acked p e ∈ h₁) ∧
        notificationsOf e h₂ = []

section Life

variable {g : Registration} {st : Stage} {l l₁ l₂ : List DeathEvent} {p : ProcId} {n : NodeId}
  {c : ℕ} {h : List Obs} {e : DeathId}

def Stage.told (g : Registration) : Stage → List (List (ProcId × ReturnCommand))
  | .registered => [[]]
  | .cleared => [[]]
  | .done => [[(g.proc, .clearDeathNotificationDone g.cookie)],
      [(g.proc, .deadBinder g.cookie), (g.proc, .clearDeathNotificationDone g.cookie)]]
  | _ => [[(g.proc, .deadBinder g.cookie)]]

theorem Life.told (hlife : Life g st l) : l.filterMap DeathEvent.notification ∈ st.told g := by
  induction hlife <;> simp_all [Stage.told, DeathEvent.notification]

theorem Life.told_sublist (hlife : Life g st l) : (l.filterMap DeathEvent.notification).Sublist
    [(g.proc, .deadBinder g.cookie), (g.proc, .clearDeathNotificationDone g.cookie)] := by
  have htold := hlife.told
  cases st <;> simp only [Stage.told, List.mem_cons, List.not_mem_nil, or_false] at htold
  case done =>
    rcases htold with htold | htold
    · rw [htold]
      exact .cons _ (.refl _)
    · rw [htold]
  all_goals
    rw [htold]
    simp

theorem Life.requested (hlife : Life g st l) (hmem : .requested p n c ∈ l) : g = ⟨p, n, c⟩ := by
  induction hlife with
  | request =>
      simp only [List.mem_singleton, DeathEvent.requested.injEq] at hmem
      obtain ⟨rfl, rfl, rfl⟩ := hmem
      rfl
  | _ => simp_all

theorem Life.done_of_clearDone (hlife : Life g st l) (hmem : .clearDone p c ∈ l) : st = .done := by
  induction hlife <;> simp_all

theorem Life.cleared_mem (hlife : Life g st l) (hst : st = .cleared ∨ st = .owed ∨ st = .settled) :
    .cleared g.proc ∈ l := by
  induction hlife <;> simp_all

theorem Life.cleared_proc (hlife : Life g st l) (hmem : .cleared p ∈ l) : p = g.proc := by
  induction hlife with
  | clear _ ih | clearDelivered _ ih | clearAcked _ ih =>
      simp only [List.mem_append, List.mem_singleton, DeathEvent.cleared.injEq] at hmem
      exact hmem.elim ih id
  | _ => simp_all

theorem Life.acked_mem (hlife : Life g st l) (hst : st = .acked ∨ st = .settled) :
    .acked g.proc ∈ l := by
  induction hlife <;> simp_all

theorem Life.not_deadBinder (hlife : Life g st l) (hst : st = .registered ∨ st = .cleared) :
    .deadBinder p c ∉ l := by
  induction hlife <;> simp_all

/-- Before the last word on a notification it was cleared, and acknowledged if it was
delivered. -/
theorem Life.before_clearDone (hlife : Life g st (l₁ ++ .clearDone p c :: l₂)) :
    l₂ = [] ∧ .cleared g.proc ∈ l₁ ∧ ∀ p' c', .deadBinder p' c' ∈ l₁ → .acked g.proc ∈ l₁ := by
  have hdone := hlife.done_of_clearDone (p := p) (c := c) (by simp)
  have hlast : ∀ {l : List DeathEvent} {ev : DeathEvent}, .clearDone p c ∉ l →
      l ++ [ev] = l₁ ++ .clearDone p c :: l₂ → l = l₁ ∧ l₂ = [] := by
    intro l ev hnot heq
    rcases List.eq_nil_or_concat l₂ with rfl | ⟨l₃, ev', rfl⟩
    · exact ⟨(List.append_inj' heq rfl).1, rfl⟩
    · rw [List.concat_eq_append, ← List.cons_append, ← List.append_assoc] at heq
      have := (List.append_inj' heq rfl).1
      exact absurd (this ▸ by simp) hnot
  generalize hl : l₁ ++ .clearDone p c :: l₂ = l at hlife
  cases hlife with
  | @finish l hlife =>
      have hnot : .clearDone p c ∉ l := fun hmem => by simpa using hlife.done_of_clearDone hmem
      obtain ⟨rfl, rfl⟩ := hlast hnot hl.symm
      refine ⟨rfl, hlife.cleared_mem (by simp), fun p' c' hmem => ?_⟩
      exact absurd hmem (hlife.not_deadBinder (by simp))
  | @finishSettled l hlife =>
      have hnot : .clearDone p c ∉ l := fun hmem => by simpa using hlife.done_of_clearDone hmem
      obtain ⟨rfl, rfl⟩ := hlast hnot hl.symm
      exact ⟨rfl, hlife.cleared_mem (by simp), fun p' c' _ => hlife.acked_mem (by simp)⟩
  | _ => cases hdone

theorem requested_mem : .requested p n c ∈ deathEvents e h ↔ .requested p e n c ∈ h := by
  simp only [deathEvents, List.mem_filterMap]
  constructor
  · rintro ⟨x, hx, heq⟩
    unfold Obs.deathEvent at heq
    split at heq <;> simp_all
  · exact fun hmem => ⟨_, hmem, by simp [Obs.deathEvent]⟩

theorem cleared_mem : .cleared p ∈ deathEvents e h ↔ .cleared p e ∈ h := by
  simp only [deathEvents, List.mem_filterMap]
  constructor
  · rintro ⟨x, hx, heq⟩
    unfold Obs.deathEvent at heq
    split at heq <;> simp_all
  · exact fun hmem => ⟨_, hmem, by simp [Obs.deathEvent]⟩

theorem acked_mem : .acked p ∈ deathEvents e h ↔ .acked p e ∈ h := by
  simp only [deathEvents, List.mem_filterMap]
  constructor
  · rintro ⟨x, hx, heq⟩
    unfold Obs.deathEvent at heq
    split at heq <;> simp_all
  · exact fun hmem => ⟨_, hmem, by simp [Obs.deathEvent]⟩

theorem deadBinder_mem : (p, .deadBinder c) ∈ notificationsOf e h ↔
    .deadBinder p c ∈ deathEvents e h := by
  simp only [notificationsOf, List.mem_filterMap]
  constructor
  · rintro ⟨x, hx, heq⟩
    unfold DeathEvent.notification at heq
    split at heq <;> simp_all
  · exact fun hmem => ⟨_, hmem, rfl⟩

end Life

section Runs

variable {L : Layout} {s : State} {h : List Obs}

theorem DeathOk.notifiedInTurn {C : Condition} {e : DeathId} {p : ProcId} {n : NodeId} {c : ℕ}
    (hok : DeathOk C none h s e) (hreq : .requested p e n c ∈ h) : NotifiedInTurn h s p n c e := by
  have hmem := requested_mem.mpr hreq
  have hreg : ∃ st, Registered h s e ⟨p, n, c⟩ st := by
    cases hok with
    | unborn hev => simp [hev] at hmem
    | live hreg =>
        obtain rfl := hreg.life.requested hmem
        exact ⟨_, hreg⟩
    | freed hreg =>
        obtain rfl := hreg.life.requested hmem
        exact ⟨_, hreg⟩
  obtain ⟨st, hreg⟩ := hreg
  refine ⟨hreg.life.told_sublist, fun hdead => hreg.dead (deadBinder_mem.mp hdead), ?_⟩
  rintro h₁ h₂ th rfl
  have hev : deathEvents e (h₁ ++ .delivered p th (some (.death e))
      (.clearDeathNotificationDone c) :: h₂) =
        deathEvents e h₁ ++ .clearDone p c :: deathEvents e h₂ := by
    simp [deathEvents, Obs.deathEvent]
  obtain ⟨hnil, hclr, hack⟩ := (hev ▸ hreg.life).before_clearDone
  refine ⟨cleared_mem.mp hclr, fun hdead => ?_, by simp [notificationsOf, hnil]⟩
  exact acked_mem.mp (hack p c (deadBinder_mem.mp hdead))

/-- The life of a death notification: each registration is told of in turn, of the death
of the node only after the process that owned it was taken apart, and no assertion on
death notifications fails. -/
theorem notifiedInTurn_of_reach {s₀ : State} {h₀ : List Obs}
    (hreach₀ : Reach (loggedStep L) (fun _ _ => True) (State.init, []) (s₀, h₀))
    (hreach : Reach (loggedStep L) (fun _ _ => True) (s₀, h₀) (s, h)) :
    (∀ p e n c, .requested p e n c ∈ h → NotifiedInTurn h s p n c e ∧
      ∀ nd q, s₀.nodes n = some nd → nd.proc = some q →
        (p, .deadBinder c) ∈ notificationsOf e h → .released q ∈ h) ∧
    ∀ a, step L s a ≠ .error (.bug .threadWrite) ∧ step L s a ≠ .error (.bug .nodeRelease) := by
  have hall : ∀ (s : State) (a : Act), ActOk (fun _ _ _ _ => True) L s a :=
    actOk_of_forall (fun _ _ _ _ => trivial) L
  have hr₀ : Reach (loggedStep L) (fun x a => ActOk (fun _ _ _ _ => True) L x.1 a)
      (State.init, []) (s₀, h₀) := hreach₀.mono fun x a _ => hall x.1 a
  have hr : Reach (loggedStep L) (fun x a => ActOk (fun _ _ _ _ => True) L x.1 a)
      (s₀, h₀) (s, h) := hreach.mono fun x a _ => hall x.1 a
  obtain ⟨-, -, hok⟩ := work_invariant deaths_steady deaths_init (hr₀.trans hr)
  refine ⟨fun p e n c hreq => ⟨(hok e).notifiedInTurn hreq, fun nd q hnd hproc hdead => ?_⟩,
    fun a => ⟨threadWrite_asserts (hr₀.trans hr) (hall s a),
      nodeRelease_asserts (hr₀.trans hr) (hall s a)⟩⟩
  exact released_of_deadBinder hr₀ hr hnd hproc ⟨p, c, requested_mem.mpr hreq⟩
    (deadBinder_mem.mp hdead)

/-! ### Notifications that are not lost -/

/-- The notification is on the list of its process, of one of the threads of the process,
or among the delivered ones. -/
def Pending (s : State) (p : ProcId) (e : DeathId) : Prop :=
  (∃ q, s.queueOwner q = some p ∧ .death e ∈ s.todo q) ∨ .death e ∈ s.todo (.deliveredDeath p)

def Work.isDeath : Work → Bool
  | .death _ => true
  | _ => false

/-- No thread exits while a death notification is on its list. -/
def sparingDeaths : Condition := fun s _ th r =>
  match r with
  | .exit => ((s.todo (.thread th)).any Work.isDeath) = false
  | _ => True

instance (s : State) (p : ProcId) (th : ThreadId) (r : Request) :
    Decidable (sparingDeaths s p th r) := by
  unfold sparingDeaths
  split <;> infer_instance

theorem sparingDeaths_spares : sparingDeaths.sparesDeaths := by
  intro s p th e hexit hmem
  have hexit : ((s.todo (.thread th)).any Work.isDeath) = false := hexit
  have hany : ((s.todo (.thread th)).any Work.isDeath) = true :=
    List.any_eq_true.mpr ⟨_, hmem, rfl⟩
  rw [hexit] at hany
  cases hany

theorem DeathFits.pending {C : Condition} {e : DeathId} {de : Death} {g : Registration} {st : Stage}
    (hfits : DeathFits C none s g e de st)
    (hitems : ∀ q, (s.todo q).count (.death e) = if de.entry = some q then 1 else 0) :
    Pending s g.proc e ∨ st = .registered ∧
        (C.sparesDeaths → ∀ nd, s.nodes g.node = some nd → nd.proc ≠ none) ∨ st = .acked := by
  have hmem : ∀ {q}, de.entry = some q → .death e ∈ s.todo q := fun hq =>
    (mem_of_count hitems).mpr hq
  cases hfits with
  | idle _ _ _ hkept => exact .inr (.inl ⟨rfl, fun hC => hkept hC (by simp)⟩)
  | acked => exact .inr (.inr rfl)
  | lost _ _ _ hd => cases hd
  | queued _ _ hq howner => exact .inl (.inl ⟨_, howner, hmem hq⟩)
  | cleared _ _ hq howner => exact .inl (.inl ⟨_, howner, hmem hq⟩)
  | clearedQueued _ _ hq howner => exact .inl (.inl ⟨_, howner, hmem hq⟩)
  | settled _ _ hq howner => exact .inl (.inl ⟨_, howner, hmem hq⟩)
  | delivered _ _ hq => exact .inl (.inr (hmem hq))
  | owed _ _ hq => exact .inl (.inr (hmem hq))

/-- A notification of a dead node is pending until the process has acknowledged it, and
one that was cleared until the process is told so or taken apart. -/
theorem pending_of_reach
    (hreach : Reach (loggedStep L) (fun x a => ActOk sparingDeaths L x.1 a) (State.init, [])
      (s, h)) :
    (∀ r rf e nd, s.refs r = some rf → rf.death = some e → s.nodes rf.node = some nd →
      nd.proc = none → Pending s rf.proc e ∨
        .acked rf.proc e ∈ h ∧ ∃ c, (rf.proc, .deadBinder c) ∈ notificationsOf e h) ∧
    ∀ p e, .cleared p e ∈ h → .released p ∉ h →
      Pending s p e ∨ ∃ c, (p, .clearDeathNotificationDone c) ∈ notificationsOf e h := by
  obtain ⟨hs, -, hok⟩ := work_invariant deaths_steady deaths_init hreach
  refine ⟨fun r rf e nd hrf hd hnd hdead => ?_, fun p e hclr hrel => ?_⟩
  · cases hok e with
    | unborn _ habs => exact absurd hd (habs.unheld r rf hrf)
    | freed _ habs => exact absurd hd (habs.unheld r rf hrf)
    | @live g st de hreg hde hcookie hfits hitems hone =>
        obtain ⟨hp, hn⟩ := Holds.proc (hfits.holds hrf hd).1 hrf hd hone
        rw [hp]
        rcases hfits.pending hitems with hpend | ⟨-, hkept⟩ | rfl
        · exact .inl hpend
        · exact absurd hdead (hkept sparingDeaths_spares nd (hn ▸ hnd))
        · right
          refine ⟨acked_mem.mp (hreg.life.acked_mem (by simp)), g.cookie, ?_⟩
          exact deadBinder_mem.mpr hreg.life.mem_of_acked
  · have hclr := cleared_mem.mpr hclr
    cases hok e with
    | unborn hev => simp [hev] at hclr
    | live hreg hde hcookie hfits hitems hone =>
        have hp := hreg.life.cleared_proc hclr
        subst hp
        rcases hfits.pending hitems with hpend | ⟨rfl, -⟩ | rfl
        · exact .inl hpend
        · simpa using hreg.life.of_cleared hclr
        · simpa using hreg.life.of_cleared hclr
    | @freed g st hreg habs hkept =>
        have hp := hreg.life.cleared_proc hclr
        subst hp
        obtain rfl := hkept sparingDeaths_spares (by simp) hrel hclr
        right
        refine ⟨g.cookie, ?_⟩
        have htold := hreg.life.told
        simp only [Stage.told, List.mem_cons, List.not_mem_nil, or_false] at htold
        rw [notificationsOf]
        rcases htold with htold | htold
        · simp [htold]
        · simp [htold]

end Runs

/-- Process 1 asks to be told when the context manager dies. -/
def deathAsked : List Act :=
  [.open 100, .open 200, .ioctl 0 10 true (.setContextMgr 0 true true),
    .write 1 20 [.acquire 0 true, .requestDeathNotification 0 77 true]]

/-- The context manager dies, and process 1 is told, acknowledges it and is done. -/
def deathTold : List Act :=
  [.release 0, .deferred 0, .read 1 20, .goOn 4,
    .write 1 20 [.deadBinderDone 77, .clearDeathNotification 0 77], .read 1 20, .goOn 4]

theorem notifiedInTurn_deathTold : ∃ s₀ h₀ s h,
    runChecked (loggedStep Layout.x86) (fun _ _ => True) (State.init, []) deathAsked =
        some (s₀, h₀) ∧
      runChecked (loggedStep Layout.x86) (fun _ _ => True) (s₀, h₀) deathTold = some (s, h) ∧
      notificationsOf 6 h = [(1, .deadBinder 77), (1, .clearDeathNotificationDone 77)] ∧
      NotifiedInTurn h s 1 3 77 6 ∧ .released 0 ∈ h := by
  obtain ⟨⟨s₀, h₀⟩, hrun₀, hx⟩ := Option.map_eq_some_iff.mp
    (show (runChecked (loggedStep Layout.x86) (fun _ _ => True) (State.init, []) deathAsked).map
      (fun x => ((x.1.nodes 3).map Node.proc,
        (runChecked (loggedStep Layout.x86) (fun _ _ => True) x deathTold).map fun y =>
          (deathEvents 6 y.2, notificationsOf 6 y.2))) =
      some (some (some 0), some ([.requested 1 3 77, .deadBinder 1 77, .acked 1, .cleared 1,
        .clearDone 1 77], [(1, .deadBinder 77), (1, .clearDeathNotificationDone 77)]))
      by decide +kernel)
  simp only [Prod.mk.injEq] at hx
  obtain ⟨nd, hnd, hproc⟩ := Option.map_eq_some_iff.mp hx.1
  obtain ⟨⟨s, h⟩, hrun, hy⟩ := Option.map_eq_some_iff.mp hx.2
  simp only [Prod.mk.injEq] at hy
  have hreq : .requested 1 6 3 77 ∈ h := requested_mem.mp (hy.1 ▸ by simp)
  obtain ⟨hturn, hrel⟩ := (notifiedInTurn_of_reach (reach_of_runChecked hrun₀)
    (reach_of_runChecked hrun)).1 1 6 3 77 hreq
  refine ⟨s₀, h₀, s, h, hrun₀, hrun, hy.2, hturn, hrel nd 0 hnd hproc ?_⟩
  rw [hy.2]
  simp

set_option synthInstance.maxSize 512 in
theorem pending_deathAsked : ∃ s h,
    runChecked (loggedStep Layout.x86) (fun x a => ActOk sparingDeaths Layout.x86 x.1 a)
        (State.init, []) (deathAsked ++ [.release 0, .deferred 0]) = some (s, h) ∧
      notificationsOf 6 h = [] ∧ Pending s 1 6 := by
  obtain ⟨⟨s, h⟩, hrun, hx⟩ := Option.map_eq_some_iff.mp
    (show (runChecked (loggedStep Layout.x86) (fun x a => ActOk sparingDeaths Layout.x86 x.1 a)
      (State.init, []) (deathAsked ++ [.release 0, .deferred 0])).map
        (fun x => (notificationsOf 6 x.2, deathEvents 6 x.2,
          (x.1.refs 5).map fun rf => (rf.proc, rf.node, rf.death), (x.1.nodes 3).map Node.proc)) =
      some ([], [.requested 1 3 77], some (1, 3, some 6), some none) by decide +kernel)
  simp only [Prod.mk.injEq] at hx
  obtain ⟨rf, hrf, hx₁⟩ := Option.map_eq_some_iff.mp hx.2.2.1
  obtain ⟨nd, hnd, hdead⟩ := Option.map_eq_some_iff.mp hx.2.2.2
  simp only [Prod.mk.injEq] at hx₁
  obtain ⟨hp, hn, hd⟩ := hx₁
  refine ⟨s, h, hrun, hx.1, ?_⟩
  have hall := (pending_of_reach (reach_of_runChecked hrun)).1 5 rf 6 nd hrf hd (hn ▸ hnd) hdead
  rw [hp, hx.1] at hall
  simpa using hall

/-- A looper of process 1 asks to be told of the death of a node that is dead already, and
exits before it reads. -/
def deathLost : List Act :=
  managerDies ++ [.write 1 20 [.enterLooper, .requestDeathNotification 0 77 true],
    .ioctl 1 20 true .threadExit]

set_option synthInstance.maxSize 512 in
/-- The process is not told, and nothing is left that would tell it. -/
theorem deathLost_forgotten : ∃ s h r rf e nd,
    runChecked (loggedStep Layout.x86) (fun _ _ => True) (State.init, []) deathLost = some (s, h) ∧
      s.refs r = some rf ∧ rf.death = some e ∧ s.nodes rf.node = some nd ∧ nd.proc = none ∧
      .released rf.proc ∉ h ∧ ¬ Pending s rf.proc e ∧ notificationsOf e h = [] := by
  obtain ⟨⟨s, h⟩, hrun, hx⟩ := Option.map_eq_some_iff.mp
    (show (runChecked (loggedStep Layout.x86) (fun _ _ => True) (State.init, []) deathLost).map
      (fun x => (notificationsOf 6 x.2, (x.1.refs 5).map fun rf => (rf.proc, rf.node, rf.death),
        (x.1.nodes 3).map Node.proc, (x.1.deaths 6).map Death.entry,
        x.2.filterMap Obs.releasedProc)) =
      some ([], some (1, 3, some 6), some none, some none, [0]) by decide +kernel)
  simp only [Prod.mk.injEq] at hx
  obtain ⟨hnone, hxr, hxn, hxd, hrel⟩ := hx
  obtain ⟨rf, hrf, hx₁⟩ := Option.map_eq_some_iff.mp hxr
  obtain ⟨nd, hnd, hdead⟩ := Option.map_eq_some_iff.mp hxn
  obtain ⟨de, hde, hentry⟩ := Option.map_eq_some_iff.mp hxd
  simp only [Prod.mk.injEq] at hx₁
  obtain ⟨hp, hn, hd⟩ := hx₁
  have hreach : Reach (loggedStep Layout.x86)
      (fun x a => ActOk (fun _ _ _ _ => True) Layout.x86 x.1 a) (State.init, []) (s, h) :=
    (reach_of_runChecked hrun).mono fun x a _ =>
      actOk_of_forall (fun _ _ _ _ => trivial) Layout.x86 x.1 a
  obtain ⟨-, -, hok⟩ := work_invariant deaths_steady deaths_init hreach
  obtain ⟨g, st, -, -, -, hitems, -⟩ := (hok 6).of_some hde
  have hoff : ∀ q, .death 6 ∉ s.todo q := by
    intro q hmem
    have := (mem_of_count hitems).mp hmem
    rw [hentry] at this
    cases this
  refine ⟨s, h, 5, rf, 6, nd, hrun, hrf, hd, hn ▸ hnd, hdead, fun hmem => ?_, ?_, hnone⟩
  · rw [hp] at hmem
    have hone : 1 ∈ h.filterMap Obs.releasedProc := List.mem_filterMap.mpr ⟨_, hmem, rfl⟩
    rw [hrel] at hone
    simp at hone
  · rintro (⟨q, -, hmem⟩ | hmem)
    · exact hoff q hmem
    · exact hoff _ hmem

end Driver

end BinderForLinux
