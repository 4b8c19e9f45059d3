import BinderForLinux.Driver.Work.Runs

/-!
# The life of a death notification

A registered notification is delivered at most once, may be cleared at any time, and
ends with the acknowledgement of the clearing. Which of its stages it is in shows in
the reference that asked for it, in the type of its work and in the list that holds
it. A notification that is not acknowledged as cleared may still go away early,
together with its reference, with a thread that exits or with its process.
-/

namespace BinderForLinux

namespace Driver

open Library

/-- What is observed of one notification. -/
inductive DeathEvent
  | requested (p : ProcId) (n : NodeId) (cookie : ℕ)
  | cleared (p : ProcId)
  | acked (p : ProcId)
  | deadBinder (p : ProcId) (cookie : ℕ)
  | clearDone (p : ProcId) (cookie : ℕ)
deriving DecidableEq, Repr

def Obs.deathEvent (e : DeathId) : Obs → Option DeathEvent
  | .requested p d n c => if d = e then some (.requested p n c) else none
  | .cleared p d => if d = e then some (.cleared p) else none
  | .acked p d => if d = e then some (.acked p) else none
  | .delivered p _ (some (.death d)) (.deadBinder c) =>
      if d = e then some (.deadBinder p c) else none
  | .delivered p _ (some (.death d)) (.clearDeathNotificationDone c) =>
      if d = e then some (.clearDone p c) else none
  | _ => none

/-- What was observed of the notification, in order. -/
def deathEvents (e : DeathId) (h : List Obs) : List DeathEvent := h.filterMap (Obs.deathEvent e)

/-- Who asked for a notification, of which node, and under which cookie. -/
structure Registration where
  proc : ProcId
  node : NodeId
  cookie : ℕ

inductive Stage
  | registered
  | delivered
  | acked
  | cleared
  /-- Delivered and cleared, in either order, but not acknowledged. -/
  | owed
  /-- Delivered, cleared and acknowledged. -/
  | settled
  | done
deriving DecidableEq, Repr

/-- The lives of a notification. -/
inductive Life (g : Registration) : Stage → List DeathEvent → Prop
  | request : Life g .registered [.requested g.proc g.node g.cookie]
  | deliver {l : List DeathEvent} (h : Life g .registered l) :
      Life g .delivered (l ++ [.deadBinder g.proc g.cookie])
  | ack {l : List DeathEvent} (h : Life g .delivered l) : Life g .acked (l ++ [.acked g.proc])
  | clear {l : List DeathEvent} (h : Life g .registered l) :
      Life g .cleared (l ++ [.cleared g.proc])
  | clearDelivered {l : List DeathEvent} (h : Life g .delivered l) :
      Life g .owed (l ++ [.cleared g.proc])
  | deliverCleared {l : List DeathEvent} (h : Life g .cleared l) :
      Life g .owed (l ++ [.deadBinder g.proc g.cookie])
  | clearAcked {l : List DeathEvent} (h : Life g .acked l) :
      Life g .settled (l ++ [.cleared g.proc])
  | ackOwed {l : List DeathEvent} (h : Life g .owed l) : Life g .settled (l ++ [.acked g.proc])
  | finish {l : List DeathEvent} (h : Life g .cleared l) :
      Life g .done (l ++ [.clearDone g.proc g.cookie])
  | finishSettled {l : List DeathEvent} (h : Life g .settled l) :
      Life g .done (l ++ [.clearDone g.proc g.cookie])

def State.Holds (s : State) (g : Registration) (e : DeathId) : Prop :=
  ∃ r rf, r < s.nextId ∧ s.refs r = some rf ∧ rf.death = some e ∧ rf.proc = g.proc ∧
    rf.node = g.node

def State.Unheld (s : State) (e : DeathId) : Prop := ∀ r rf, s.refs r = some rf → rf.death ≠ some e

def State.HeldOnce (s : State) (e : DeathId) : Prop :=
  ∀ r r' rf rf', s.refs r = some rf → s.refs r' = some rf' → rf.death = some e →
    rf'.death = some e → r = r'

def State.NodeDead (s : State) (n : NodeId) : Prop := ∀ nd, s.nodes n = some nd → nd.proc = none

/-- The notification does not exist. -/
structure State.Absent (s : State) (e : DeathId) : Prop where
  deaths : s.deaths e = none
  unheld : s.Unheld e
  items : ∀ q, (s.todo q).count (.death e) = 0

/-- No thread exits while a death notification is on its list. -/
def Condition.sparesDeaths (C : Condition) : Prop :=
  ∀ s p th e, C s p th .exit → .death e ∉ s.todo (.thread th)

/-- The record `de` of a notification in each of its stages. -/
inductive DeathFits (C : Condition) (d : Option ProcId) (s : State) (g : Registration) (e : DeathId)
    (de : Death) : Stage → Prop
  | idle (hheld : s.Holds g e) (hty : de.workType = .deadBinder) (hentry : de.entry = none)
      (hkept : C.sparesDeaths → d ≠ some g.proc → ∀ nd, s.nodes g.node = some nd → nd.proc ≠ none) :
      DeathFits C d s g e de .registered
  | queued {q : Queue} (hheld : s.Holds g e) (hty : de.workType = .deadBinder)
      (hentry : de.entry = some q) (howner : s.queueOwner q = some g.proc)
      (hdead : s.NodeDead g.node) : DeathFits C d s g e de .registered
  | delivered (hheld : s.Holds g e) (hty : de.workType = .deadBinder)
      (hentry : de.entry = some (.deliveredDeath g.proc)) : DeathFits C d s g e de .delivered
  /-- The process is taken apart, and its references follow. -/
  | lost (hheld : s.Holds g e) (hty : de.workType = .deadBinder) (hentry : de.entry = none)
      (hd : d = some g.proc) : DeathFits C d s g e de .delivered
  | acked (hheld : s.Holds g e) (hty : de.workType = .deadBinder) (hentry : de.entry = none) :
      DeathFits C d s g e de .acked
  | cleared {q : Queue} (hfree : s.Unheld e) (hty : de.workType = .clearDeathNotification)
      (hentry : de.entry = some q) (howner : s.queueOwner q = some g.proc) :
      DeathFits C d s g e de .cleared
  | clearedQueued {q : Queue} (hfree : s.Unheld e) (hty : de.workType = .deadBinderAndClear)
      (hentry : de.entry = some q) (howner : s.queueOwner q = some g.proc)
      (hdead : s.NodeDead g.node) : DeathFits C d s g e de .cleared
  | owed (hfree : s.Unheld e) (hty : de.workType = .deadBinderAndClear)
      (hentry : de.entry = some (.deliveredDeath g.proc)) : DeathFits C d s g e de .owed
  | settled {q : Queue} (hfree : s.Unheld e) (hty : de.workType = .clearDeathNotification)
      (hentry : de.entry = some q) (howner : s.queueOwner q = some g.proc) :
      DeathFits C d s g e de .settled

/-- What is known of every notification that was registered. -/
structure Registered (h : List Obs) (s : State) (e : DeathId) (g : Registration) (st : Stage) :
    Prop where
  life : Life g st (deathEvents e h)
  lt : e < s.nextId
  node_lt : g.node < s.nextId
  dead : .deadBinder g.proc g.cookie ∈ deathEvents e h → s.NodeDead g.node

/-- A notification exists in the stage that its observations tell, or is gone. -/
inductive DeathOk (C : Condition) (d : Option ProcId) (h : List Obs) (s : State) (e : DeathId) :
    Prop
  | unborn (hev : deathEvents e h = []) (habs : s.Absent e) : DeathOk C d h s e
  | live {g : Registration} {st : Stage} {de : Death} (hreg : Registered h s e g st)
      (hde : s.deaths e = some de) (hcookie : de.cookie = g.cookie)
      (hfits : DeathFits C d s g e de st)
      (hitems : ∀ q, (s.todo q).count (.death e) = if de.entry = some q then 1 else 0)
      (hone : s.HeldOnce e) : DeathOk C d h s e
  | freed {g : Registration} {st : Stage} (hreg : Registered h s e g st) (habs : s.Absent e)
      (hkept : C.sparesDeaths → d ≠ some g.proc → .released g.proc ∉ h →
        .cleared g.proc ∈ deathEvents e h → st = .done) : DeathOk C d h s e

def Deaths (C : Condition) (d : Option ProcId) (h : List Obs) (s : State) : Prop :=
  ∀ e, DeathOk C d h s e

section Log

variable {h o : List Obs} {e : DeathId}

theorem deathEvents_append : deathEvents e (h ++ o) = deathEvents e h ++ deathEvents e o := by
  simp [deathEvents]

theorem deathEvents_eq_nil (ho : ∀ x ∈ o, x.deathEvent e = none) : deathEvents e o = [] :=
  List.filterMap_eq_nil_iff.mpr ho

theorem Obs.deathEvent_of_plain {x : Obs} (hx : x.isPlain = true) : x.deathEvent e = none := by
  cases x with
  | wrote => rfl
  | managed => rfl
  | released => rfl
  | delivered p th w cmd =>
      cases w with
      | none => rfl
      | some w =>
          cases w with
          | node => rfl
          | _ => cases hx
  | _ => cases hx

end Log

/-! ### What leaves a notification alone -/

/-- The notification `e`, its reference, its node and the lists it is on are as before.
A node that `e` does not wait for may die. -/
structure DeathKept (s s' : State) (e : DeathId) : Prop extends DeathStill s s' e where
  nextId : s.nextId ≤ s'.nextId
  back : ∀ {r rf'}, s'.refs r = some rf' → rf'.death = some e →
    ∃ rf, s.refs r = some rf ∧ rf'.entries = rf.entries ∧ rf.death = some e
  nodes : ∀ {n nd'}, n < s.nextId → s'.nodes n = some nd' → ∃ nd, s.nodes n = some nd ∧
    (nd'.proc = nd.proc ∨
      nd'.proc = none ∧ ∀ r rf, s.refs r = some rf → rf.death = some e → rf.node ≠ n)
  owner : ∀ {q p}, .death e ∈ s.todo q → s.queueOwner q = some p → s'.queueOwner q = some p

section Kept

variable {C : Condition} {d : Option ProcId} {h o : List Obs} {s s' s'' : State} {e : DeathId}
  {g : Registration} {st : Stage} {de : Death}

theorem DeathKept.holds (hk : DeathKept s s' e) (hh : s.Holds g e) : s'.Holds g e := by
  obtain ⟨r, rf, hr, hrf, hd, hp, hn⟩ := hh
  obtain ⟨rf', hrf', hentries, hd'⟩ := hk.refs hr hrf hd
  refine ⟨r, rf', hr.trans_le hk.nextId, hrf', hd', ?_, ?_⟩
  · exact (congrArg Prod.fst hentries).trans hp
  · exact (congrArg (fun x => x.2.1) hentries).trans hn

theorem DeathKept.unheld (hk : DeathKept s s' e) (hu : s.Unheld e) : s'.Unheld e := by
  intro r rf' hrf' hd'
  obtain ⟨rf, hrf, -, hd⟩ := hk.back hrf' hd'
  exact hu r rf hrf hd

theorem DeathKept.nodeDead (hk : DeathKept s s' e) {n : NodeId} (hn : n < s.nextId)
    (hdead : s.NodeDead n) : s'.NodeDead n := by
  intro nd' hnd'
  obtain ⟨nd, hnd, hproc | ⟨hproc, -⟩⟩ := hk.nodes hn hnd'
  · exact hproc.trans (hdead nd hnd)
  · exact hproc

theorem DeathKept.absent (hk : DeathKept s s' e) (habs : s.Absent e) : s'.Absent e where
  deaths := hk.deaths.trans habs.deaths
  unheld := hk.unheld habs.unheld
  items := fun q => (hk.items q).trans (habs.items q)

theorem DeathKept.registered (hk : DeathKept s s' e) (hreg : Registered h s e g st) :
    Registered h s' e g st where
  life := hreg.life
  lt := hreg.lt.trans_le hk.nextId
  node_lt := hreg.node_lt.trans_le hk.nextId
  dead := fun hmem => hk.nodeDead hreg.node_lt (hreg.dead hmem)

theorem DeathKept.fits (hk : DeathKept s s' e) (hn : g.node < s.nextId)
    (hmem : ∀ q, de.entry = some q → .death e ∈ s.todo q) (hfits : DeathFits C d s g e de st) :
    DeathFits C d s' g e de st := by
  have howner : ∀ {q}, de.entry = some q → s.queueOwner q = some g.proc →
      s'.queueOwner q = some g.proc := fun hq h => hk.owner (hmem _ hq) h
  cases hfits with
  | idle hheld hty hentry hkept =>
      refine .idle (hk.holds hheld) hty hentry fun hC hd nd' hnd' => ?_
      obtain ⟨nd, hnd, hproc | ⟨-, hne⟩⟩ := hk.nodes hn hnd'
      · exact hproc ▸ hkept hC hd nd hnd
      · obtain ⟨r, rf, -, hrf, hdeath, -, hnode⟩ := hheld
        exact absurd hnode (hne r rf hrf hdeath)
  | queued hheld hty hentry hq hdead =>
      exact .queued (hk.holds hheld) hty hentry (howner hentry hq) (hk.nodeDead hn hdead)
  | delivered hheld hty hentry => exact .delivered (hk.holds hheld) hty hentry
  | lost hheld hty hentry hd => exact .lost (hk.holds hheld) hty hentry hd
  | acked hheld hty hentry => exact .acked (hk.holds hheld) hty hentry
  | cleared hfree hty hentry hq =>
      exact .cleared (hk.unheld hfree) hty hentry (howner hentry hq)
  | clearedQueued hfree hty hentry hq hdead =>
      exact .clearedQueued (hk.unheld hfree) hty hentry (howner hentry hq) (hk.nodeDead hn hdead)
  | owed hfree hty hentry => exact .owed (hk.unheld hfree) hty hentry
  | settled hfree hty hentry hq =>
      exact .settled (hk.unheld hfree) hty hentry (howner hentry hq)

theorem mem_of_count
    (hitems : ∀ q, (s.todo q).count (.death e) = if de.entry = some q then 1 else 0)
    {q : Queue} : .death e ∈ s.todo q ↔ de.entry = some q := by
  rw [← List.count_pos_iff, hitems q]
  split <;> simp_all

/-- The frame rule. -/
theorem DeathOk.unobserved (hok : DeathOk C d h s e) (hk : DeathKept s s' e) :
    DeathOk C d h s' e := by
  cases hok with
  | unborn hev habs => exact .unborn hev (hk.absent habs)
  | @live g st de hreg hde hcookie hfits hitems hone =>
      refine .live (hk.registered hreg) (hk.deaths.trans hde) hcookie
        (hk.fits hreg.node_lt (fun q hq => (mem_of_count hitems).mpr hq) hfits)
        (fun q => (hk.items q).trans (hitems q)) fun r r' rf rf' hrf hrf' hd hd' => ?_
      obtain ⟨rf₀, hrf₀, -, hd₀⟩ := hk.back hrf hd
      obtain ⟨rf₁, hrf₁, -, hd₁⟩ := hk.back hrf' hd'
      exact hone r r' rf₀ rf₁ hrf₀ hrf₁ hd₀ hd₁
  | freed hreg habs hkept => exact .freed (hk.registered hreg) (hk.absent habs) hkept

theorem DeathOk.observed (hok : DeathOk C d h s e) (ho : ∀ x ∈ o, x.deathEvent e = none) :
    DeathOk C d (h ++ o) s e := by
  have hev : deathEvents e (h ++ o) = deathEvents e h := by
    rw [deathEvents_append, deathEvents_eq_nil ho, List.append_nil]
  have hreg' : ∀ {g st}, Registered h s e g st → Registered (h ++ o) s e g st := fun hreg =>
    ⟨hev ▸ hreg.life, hreg.lt, hreg.node_lt, hev ▸ hreg.dead⟩
  cases hok with
  | unborn hnil habs => exact .unborn (hev.trans hnil) habs
  | live hreg hde hcookie hfits hitems hone =>
      exact .live (hreg' hreg) hde hcookie hfits hitems hone
  | freed hreg habs hkept =>
      refine .freed (hreg' hreg) habs fun hC hd hrel hclr => hkept hC hd (fun hmem => hrel ?_) ?_
      · exact List.mem_append_left _ hmem
      · rwa [hev] at hclr

theorem DeathOk.kept (hok : DeathOk C d h s e) (hk : DeathKept s s' e)
    (ho : ∀ x ∈ o, x.deathEvent e = none) : DeathOk C d (h ++ o) s' e :=
  (hok.unobserved hk).observed ho

end Kept

/-! ### Calm steps -/

section Calm

variable {C : Condition} {d : Option ProcId} {h o : List Obs} {s s' s'' : State} {e : DeathId}
  {g : Registration} {st : Stage} {l : List DeathEvent}

theorem Life.of_cleared (hlife : Life g st l) (hmem : .cleared g.proc ∈ l) :
    st = .cleared ∨ st = .owed ∨ st = .settled ∨ st = .done := by
  induction hlife with
  | request => simp at hmem
  | deliver _ ih => simp_all
  | ack _ ih => simp_all
  | _ => simp

theorem Life.mem_of_delivered (hlife : Life g .delivered l) :
    .deadBinder g.proc g.cookie ∈ l := by
  cases hlife
  simp

theorem Life.mem_of_acked (hlife : Life g .acked l) : .deadBinder g.proc g.cookie ∈ l := by
  cases hlife with
  | ack hlife => exact List.mem_append_left _ hlife.mem_of_delivered

theorem Life.mem_of_owed (hlife : Life g .owed l) : .deadBinder g.proc g.cookie ∈ l := by
  cases hlife with
  | clearDelivered hlife => exact List.mem_append_left _ hlife.mem_of_delivered
  | deliverCleared hlife => simp

theorem Life.deadBinder (hlife : Life g st l) {p : ProcId} {c : ℕ} (hmem : .deadBinder p c ∈ l) :
    .deadBinder g.proc g.cookie ∈ l := by
  induction hlife <;> simp_all

theorem DeathKept.of_eq (hnext : s.nextId ≤ s'.nextId) (hrefs : s'.refs = s.refs)
    (hdeaths : s'.deaths e = s.deaths e)
    (hnodes : ∀ {n nd'}, s'.nodes n = some nd' → ∃ nd, s.nodes n = some nd ∧ nd'.proc = nd.proc)
    (hthreads : ∀ {th thr}, s.threads th = some thr →
      ∃ thr', s'.threads th = some thr' ∧ thr'.proc = thr.proc)
    (hitems : ∀ q, (s'.todo q).count (.death e) = (s.todo q).count (.death e)) :
    DeathKept s s' e where
  deaths := hdeaths
  items := hitems
  refs := fun _ hrf hd => ⟨_, hrefs ▸ hrf, rfl, hd⟩
  nextId := hnext
  back := fun hrf hd => ⟨_, hrefs ▸ hrf, rfl, hd⟩
  nodes := by
    intro n nd' _ hnd'
    obtain ⟨nd, hnd, hproc⟩ := hnodes hnd'
    exact ⟨nd, hnd, .inl hproc⟩
  owner := by
    intro q p _ hq
    cases q with
    | proc => exact hq
    | thread th =>
        obtain ⟨thr, hthr, hproc⟩ := Option.map_eq_some_iff.mp hq
        obtain ⟨thr', hthr', hsame⟩ := hthreads hthr
        exact Option.map_eq_some_iff.mpr ⟨thr', hthr', hsame.trans hproc⟩
    | async => cases hq
    | deliveredDeath => cases hq

theorem DeathOk.deleted (hok : DeathOk C d h s e) (hnext : s.nextId ≤ s'.nextId)
    (hnodes : ∀ {n nd'}, n < s.nextId → s'.nodes n = some nd' →
      ∃ nd, s.nodes n = some nd ∧ nd'.proc = nd.proc)
    (hback : ∀ {r rf'}, s'.refs r = some rf' → rf'.death = some e →
      ∃ rf, s.refs r = some rf ∧ rf.death = some e)
    (hnone : s'.deaths e = none)
    (href : ∃ r rf, s.refs r = some rf ∧ rf.death = some e ∧ (r < s.nextId → s'.refs r = none))
    (hitems : ∀ q, .death e ∈ s'.todo q → .death e ∈ s.todo q ∧ ∀ de, s.deaths e = some de →
      de.entry ≠ some q) : DeathOk C d h s' e := by
  obtain ⟨r, rf, hrf, hd, hgone⟩ := href
  cases hok with
  | unborn hev habs => exact absurd hd (habs.unheld r rf hrf)
  | freed hreg habs hkept => exact absurd hd (habs.unheld r rf hrf)
  | @live g st de hreg hde hcookie hfits hcount hone =>
      have hdead : s.NodeDead g.node → s'.NodeDead g.node := by
        intro hdead nd' hnd'
        obtain ⟨nd, hnd, hproc⟩ := hnodes hreg.node_lt hnd'
        exact hproc.trans (hdead nd hnd)
      have hfree : s.Holds g e → s'.Absent e := by
        rintro ⟨r₀, rf₀, hlt, hrf₀, hd₀, -⟩
        obtain rfl := hone _ _ _ _ hrf hrf₀ hd hd₀
        refine ⟨hnone, fun r' rf' hrf' hd' => ?_, fun q => List.count_eq_zero.mpr fun hmem => ?_⟩
        · obtain ⟨rf₁, hrf₁, hd₁⟩ := hback hrf' hd'
          obtain rfl := hone _ _ _ _ hrf hrf₁ hd hd₁
          rw [hgone hlt] at hrf'
          cases hrf'
        · obtain ⟨hmem, hentry⟩ := hitems q hmem
          exact hentry de hde ((mem_of_count hcount).mp hmem)
      have hreg' : Registered h s' e g st := ⟨hreg.life, hreg.lt.trans_le hnext,
        hreg.node_lt.trans_le hnext, fun hmem => hdead (hreg.dead hmem)⟩
      have hearly : st = .registered ∨ st = .delivered ∨ st = .acked → s.Holds g e →
          DeathOk C d h s' e := by
        intro hst hheld
        refine .freed hreg' (hfree hheld) fun _ _ _ hmem => ?_
        rcases hst with rfl | rfl | rfl <;> simpa using hreg.life.of_cleared hmem
      cases hfits with
      | idle hheld => exact hearly (by simp) hheld
      | queued hheld => exact hearly (by simp) hheld
      | delivered hheld => exact hearly (by simp) hheld
      | lost hheld => exact hearly (by simp) hheld
      | acked hheld => exact hearly (by simp) hheld
      | cleared hfree => exact absurd hd (hfree r rf hrf)
      | clearedQueued hfree => exact absurd hd (hfree r rf hrf)
      | owed hfree => exact absurd hd (hfree r rf hrf)
      | settled hfree => exact absurd hd (hfree r rf hrf)

theorem Still.deathOk (hstill : Still s s') (hok : DeathOk C d h s e) : DeathOk C d h s' e := by
  have hback : ∀ {r rf'}, s'.refs r = some rf' → rf'.death = some e →
      ∃ rf, s.refs r = some rf ∧ rf'.entries = rf.entries ∧ rf.death = some e := by
    intro r rf' hrf' hd'
    rcases hstill.refs hrf' with ⟨rf, hrf, hentries, hd⟩ | ⟨-, hd⟩
    · exact ⟨rf, hrf, hentries, hd.symm.trans hd'⟩
    · rw [hd] at hd'
      cases hd'
  have hnodes : ∀ {n nd'}, n < s.nextId → s'.nodes n = some nd' →
      ∃ nd, s.nodes n = some nd ∧ nd'.proc = nd.proc := by
    intro n nd' hn hnd'
    rcases hstill.nodes hnd' with ⟨nd, hnd, hid⟩ | ⟨hle, -⟩
    · exact ⟨nd, hnd, congrArg Prod.fst hid⟩
    · exact absurd hn (not_lt.mpr hle)
  rcases hstill.deaths e with hkept | ⟨hnone, href, hitems⟩
  · refine hok.unobserved ⟨hkept, hstill.nextId, hback, fun hn hnd' => ?_, fun {q p} _ hq => ?_⟩
    · obtain ⟨nd, hnd, hproc⟩ := hnodes hn hnd'
      exact ⟨nd, hnd, .inl hproc⟩
    · rw [hstill.rest]
      exact hq
  · refine hok.deleted hstill.nextId hnodes (fun hrf' hd' => ?_) hnone href hitems
    obtain ⟨rf, hrf, -, hd⟩ := hback hrf' hd'
    exact ⟨rf, hrf, hd⟩

theorem UnwindStep.deathKept (hstep : UnwindStep s s') : DeathKept s s' e := by
  have hrest := hstep.rest
  exact .of_eq (by rw [hrest]) (by rw [hrest]) (by rw [hrest])
    (fun hnd => ⟨_, by rw [hrest] at hnd; exact hnd, rfl⟩) hstep.thread (fun q => by rw [hrest])

theorem Unwound.deathOk (hun : Unwound s s') (hok : DeathOk C d h s e) : DeathOk C d h s' e := by
  induction hun with
  | refl => exact hok
  | tail _ hstep ih => exact ih.unobserved hstep.deathKept

theorem DeathKept.setThread {th : ThreadId} {thr thr' : Thread} (hthr : s.threads th = some thr)
    (hproc : thr'.proc = thr.proc) : DeathKept s (s.setThread th thr') e := by
  refine .of_eq le_rfl rfl rfl (fun hnd => ⟨_, hnd, rfl⟩) (fun {u ur} hur => ?_) (fun q => rfl)
  by_cases hu : u = th
  · subst hu
    obtain rfl : thr = ur := Option.some.inj (hthr.symm.trans hur)
    exact ⟨thr', Function.update_self .., hproc⟩
  · exact ⟨ur, (Function.update_of_ne hu ..).trans hur, rfl⟩

theorem CalmStep.deathOk (hstep : CalmStep s s') (hok : DeathOk C d h s e) :
    DeathOk C d h s' e := by
  have hsame : s.nextId ≤ s'.nextId → s'.refs = s.refs → s'.deaths = s.deaths →
      s'.nodes = s.nodes → s'.threads = s.threads → s'.todo = s.todo → DeathOk C d h s' e := by
    intro hnext hrefs hdeaths hnodes hthreads htodo
    exact hok.unobserved (.of_eq hnext hrefs (by rw [hdeaths])
      (fun hnd => ⟨_, hnodes ▸ hnd, rfl⟩) (fun hthr => ⟨_, hthreads ▸ hthr, rfl⟩)
      (fun q => by rw [htodo]))
  cases hstep with
  | still hstill => exact hstill.deathOk hok
  | unwind hun => exact hok.unobserved hun.deathKept
  | thread hthr hduties => exact hok.unobserved (.setThread hthr (congrArg Prod.fst hduties))
  | fields hnext hrest =>
      exact hsame hnext (by rw [hrest]) (by rw [hrest]) (by rw [hrest]) (by rw [hrest])
        (by rw [hrest])
  | alloc _ _ hrest =>
      exact hsame (by rw [hrest]) (by rw [hrest]) (by rw [hrest]) (by rw [hrest]) (by rw [hrest])
        (by rw [hrest])
  | discard _ _ hrest =>
      exact hsame (by rw [hrest]) (by rw [hrest]) (by rw [hrest]) (by rw [hrest]) (by rw [hrest])
        (by rw [hrest])

theorem Calm.deathOk (hcalm : Calm s s') (hok : DeathOk C d h s e) : DeathOk C d h s' e := by
  induction hcalm with
  | refl => exact hok
  | tail _ hstep ih => exact hstep.deathOk ih

end Calm

end Driver

end BinderForLinux
