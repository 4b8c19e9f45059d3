import BinderForLinux.Driver.Deaths.Steps

/-!
# Notifications wait for the owner of a node

A node that belongs to a process stays with it until the process is taken apart. Only
then is a notification of its death queued, and only then delivered.
-/

namespace BinderForLinux

namespace Driver

open Library

/-- The process was taken apart, or is being so. -/
def Left (d : Option ProcId) (h : List Obs) (q : ProcId) : Prop := d = some q ∨ .released q ∈ h

def AskedFor (n : NodeId) (h : List Obs) (e : DeathId) : Prop :=
  ∃ p c, .requested p n c ∈ deathEvents e h

/-- The notification is queued as one of a death, or was delivered. -/
def State.Doomed (s : State) (e : DeathId) : Prop :=
  ∃ de, s.deaths e = some de ∧ de.entry ≠ none ∧ de.workType ≠ .clearDeathNotification

/-- What is known of a node that belonged to `q`. -/
structure Mourned (n : NodeId) (q : ProcId) (d : Option ProcId) (h : List Obs) (s : State) :
    Prop where
  lt : n < s.nextId
  owner : ∀ nd, s.nodes n = some nd → nd.proc = some q ∨ nd.proc = none ∧ Left d h q
  doomed : ∀ e, AskedFor n h e → s.Doomed e → Left d h q
  delivered : ∀ e p c, AskedFor n h e → .deadBinder p c ∈ deathEvents e h → Left d h q

section Mourned

variable {L : Layout} {C : Condition} {d : Option ProcId} {h o : List Obs} {s s' : State}
  {n : NodeId} {q p : ProcId} {e : DeathId} {x : Obs}

theorem Left.append (hl : Left d h q) : Left d (h ++ o) q :=
  hl.imp_right fun hmem => List.mem_append_left _ hmem

/-- The observations that register a notification or deliver one. -/
def Obs.isDeathNews : Obs → Bool
  | .requested _ _ _ _ => true
  | .delivered _ _ (some (.death _)) (.deadBinder _) => true
  | _ => false

theorem askedFor_append (ho : ∀ x ∈ o, x.isDeathNews = false) :
    AskedFor n (h ++ o) e ↔ AskedFor n h e := by
  have hno : ∀ p c, .requested p n c ∉ deathEvents e o := by
    intro p c hmem
    obtain ⟨x, hx, heq⟩ := List.mem_filterMap.mp hmem
    have := ho x hx
    unfold Obs.deathEvent at heq
    split at heq <;> simp_all [Obs.isDeathNews]
  simp [AskedFor, deathEvents_append, hno]

theorem deadBinder_append (ho : ∀ x ∈ o, x.isDeathNews = false) {c : ℕ} :
    .deadBinder p c ∈ deathEvents e (h ++ o) ↔ .deadBinder p c ∈ deathEvents e h := by
  have hno : .deadBinder p c ∉ deathEvents e o := by
    intro hmem
    obtain ⟨x, hx, heq⟩ := List.mem_filterMap.mp hmem
    have := ho x hx
    unfold Obs.deathEvent at heq
    split at heq <;> simp_all [Obs.isDeathNews]
  simp [deathEvents_append, hno]

/-- Steps in which no node dies and no notification is queued as one of a death. -/
theorem Mourned.kept (hm : Mourned n q d h s) (hnext : s.nextId ≤ s'.nextId)
    (hnodes : ∀ nd', s'.nodes n = some nd' → ∃ nd, s.nodes n = some nd ∧ nd'.proc = nd.proc)
    (hdeaths : ∀ e, s'.Doomed e → s.Doomed e) (ho : ∀ x ∈ o, x.isDeathNews = false) :
    Mourned n q d (h ++ o) s' where
  lt := hm.lt.trans_le hnext
  owner := by
    intro nd' hnd'
    obtain ⟨nd, hnd, hproc⟩ := hnodes nd' hnd'
    rw [hproc]
    exact (hm.owner nd hnd).imp_right fun h => ⟨h.1, h.2.append⟩
  doomed := fun e hask hd => (hm.doomed e ((askedFor_append ho).mp hask) (hdeaths e hd)).append
  delivered := fun e p c hask hmem =>
    (hm.delivered e p c ((askedFor_append ho).mp hask) ((deadBinder_append ho).mp hmem)).append

theorem Mourned.unobserved (hm : Mourned n q d h s) (hnext : s.nextId ≤ s'.nextId)
    (hnodes : ∀ nd', s'.nodes n = some nd' → ∃ nd, s.nodes n = some nd ∧ nd'.proc = nd.proc)
    (hdeaths : ∀ e, s'.Doomed e → s.Doomed e) : Mourned n q d h s' := by
  have hkept := hm.kept (o := []) hnext hnodes hdeaths (by simp)
  rwa [List.append_nil] at hkept

theorem Mourned.of_eq (hm : Mourned n q d h s) (hnext : s.nextId ≤ s'.nextId)
    (hnodes : s'.nodes = s.nodes) (hdeaths : s'.deaths = s.deaths) : Mourned n q d h s' :=
  hm.unobserved hnext (fun nd' hnd' => ⟨nd', hnodes ▸ hnd', rfl⟩)
    fun e => by rw [State.Doomed, State.Doomed, hdeaths]; exact id

theorem CalmStep.mourned (hstep : CalmStep s s') (hm : Mourned n q d h s) : Mourned n q d h s' := by
  cases hstep with
  | still hstill =>
      refine hm.unobserved hstill.nextId (fun nd' hnd' => ?_) fun e => ?_
      · rcases hstill.nodes hnd' with ⟨nd, hnd, hid⟩ | ⟨hle, -⟩
        · exact ⟨nd, hnd, congrArg Prod.fst hid⟩
        · exact absurd hm.lt (not_lt.mpr hle)
      · rintro ⟨de, hde, hrest⟩
        rcases hstill.deaths e with hkept | ⟨hnone, -⟩
        · exact ⟨de, hkept.deaths.symm.trans hde, hrest⟩
        · rw [hnone] at hde
          cases hde
  | unwind hun =>
      have hrest := hun.rest
      exact hm.of_eq (by rw [hrest]) (by rw [hrest]) (by rw [hrest])
  | thread => exact hm.of_eq le_rfl rfl rfl
  | fields hnext hrest => exact hm.of_eq hnext (by rw [hrest]) (by rw [hrest])
  | alloc _ _ hrest => exact hm.of_eq (by rw [hrest]) (by rw [hrest]) (by rw [hrest])
  | discard _ _ hrest => exact hm.of_eq (by rw [hrest]) (by rw [hrest]) (by rw [hrest])

theorem Calm.mourned (hcalm : Calm s s') (hm : Mourned n q d h s) : Mourned n q d h s' := by
  induction hcalm with
  | refl => exact hm
  | tail _ hstep ih => exact hstep.mourned ih

theorem setNode_proc {m : NodeId} {nd nd' md : Node} (hnd : s.nodes m = some nd)
    (hmd : (s.setNode m nd').nodes n = some md) (hproc : nd'.proc = nd.proc) :
    ∃ nd, s.nodes n = some nd ∧ md.proc = nd.proc := by
  by_cases hm : n = m
  · subst hm
    simp only [State.setNode, Function.update_self, Option.some.injEq] at hmd
    exact ⟨nd, hnd, hmd ▸ hproc⟩
  · simp only [State.setNode, Function.update_of_ne hm] at hmd
    exact ⟨md, hmd, rfl⟩

theorem Transacted.mourned {th : ThreadId} {t : TxnId} (hsent : Transacted s p th t s')
    (hm : Mourned n q d h s) : Mourned n q d h s' := by
  have hqueued : ∀ {s s' : State} {tg tx b x q'}, Queued s s' th t tg tx b x q' →
      Mourned n q d h s → Mourned n q d h s' := by
    intro s s' tg tx b x q' hq hm
    have hrest := hq.rest
    exact hm.of_eq (by rw [hrest]) (by rw [hrest]) (by rw [hrest])
  cases hsent with
  | failed hcalm => exact Calm.mourned hcalm hm
  | call hcalm _ _ hq => exact hqueued hq ((Calm.mourned hcalm hm).of_eq le_rfl rfl rfl)
  | oneWay hcalm _ hnd _ _ _ hq =>
      refine hqueued hq ((Calm.mourned hcalm hm).unobserved le_rfl (fun nd' hnd' => ?_) fun e => id)
      exact setNode_proc hnd hnd' rfl
  | waiting hcalm _ _ _ _ _ hq => exact hqueued hq (Calm.mourned hcalm hm)
  | reply hcalm _ _ _ hq => exact hqueued hq (Calm.mourned hcalm hm)

theorem Advanced.mourned {th : ThreadId} {b : Buffer} (hadv : Advanced s th b s')
    (hm : Mourned n q d h s) : Mourned n q d h s' := by
  cases hadv with
  | idle => exact hm
  | last _ _ hnd =>
      exact hm.unobserved le_rfl (fun nd' hnd' => setNode_proc hnd hnd' rfl) fun e => id
  | next => exact hm.of_eq le_rfl rfl rfl

/-- A notification that is written is not queued as one of a death, or was so before. -/
theorem doomed_setDeath {e₀ : DeathId} {de : Death}
    (hdeaths : s'.deaths = Function.update s.deaths e₀ (some de))
    (hde : de.entry ≠ none → de.workType ≠ .clearDeathNotification → s.Doomed e₀)
    (hd : s'.Doomed e) : s.Doomed e := by
  obtain ⟨de', hde', hentry, hty⟩ := hd
  rw [hdeaths] at hde'
  by_cases he : e = e₀
  · subst he
    rw [Function.update_self, Option.some.injEq] at hde'
    subst hde'
    exact hde hentry hty
  · rw [Function.update_of_ne he] at hde'
    exact ⟨de', hde', hentry, hty⟩

theorem doomed_eraseDeath {e₀ : DeathId}
    (hdeaths : s'.deaths = Function.update s.deaths e₀ none) (hd : s'.Doomed e) : s.Doomed e := by
  obtain ⟨de', hde', hrest⟩ := hd
  rw [hdeaths] at hde'
  by_cases he : e = e₀
  · simp [he] at hde'
  · rw [Function.update_of_ne he] at hde'
    exact ⟨de', hde', hrest⟩

theorem Dropped.mourned {w : Work} (hdrop : Dropped s w s') (hm : Mourned n q d h s) :
    Mourned n q d h s' := by
  cases hdrop with
  | call _ hun =>
      have hrest := Unwound.rest hun
      exact hm.of_eq (by rw [hrest]) (by rw [hrest]) (by rw [hrest])
  | transaction _ _ hrun =>
      obtain ⟨tx, s₁, -, hdetach, rfl⟩ := freeTxn_eq hrun
      rw [(detachBuffer_live hdetach).1]
      exact hm.of_eq le_rfl rfl rfl
  | complete => exact hm
  | node hnd => exact hm.unobserved le_rfl (fun nd' hnd' => setNode_proc hnd hnd' rfl) fun e => id
  | deadBinder =>
      exact hm.unobserved le_rfl (fun nd' hnd' => ⟨nd', hnd', rfl⟩) fun e =>
        doomed_setDeath rfl (by simp)
  | death =>
      exact hm.unobserved le_rfl (fun nd' hnd' => ⟨nd', hnd', rfl⟩) fun e => doomed_eraseDeath rfl

theorem AskedFor.node (hask : AskedFor n h e) {g : Registration} {st : Stage}
    (hlife : Life g st (deathEvents e h)) : g.node = n := by
  obtain ⟨p, c, hmem⟩ := hask
  generalize deathEvents e h = l at hlife hmem
  induction hlife with
  | request =>
      simp only [List.mem_singleton, DeathEvent.requested.injEq] at hmem
      exact hmem.2.1.symm
  | _ => simp_all

/-- A notification that is queued as one of a death is one of a dead node. -/
theorem DeathFits.nodeDead {g : Registration} {st : Stage} {de : Death}
    (hfits : DeathFits C d s g e de st) (hreg : Registered h s e g st) (hentry : de.entry ≠ none)
    (hty : de.workType ≠ .clearDeathNotification) : s.NodeDead g.node := by
  cases hfits with
  | queued _ _ _ _ hdead => exact hdead
  | clearedQueued _ _ _ _ hdead => exact hdead
  | delivered => exact hreg.dead hreg.life.mem_of_delivered
  | owed => exact hreg.dead hreg.life.mem_of_owed
  | idle _ _ hnone => exact absurd hnone hentry
  | lost _ _ hnone => exact absurd hnone hentry
  | acked _ _ hnone => exact absurd hnone hentry
  | cleared _ hclear => exact absurd hclear hty
  | settled _ hclear => exact absurd hclear hty

theorem Mourned.requested (hm : Mourned n q d h s) (hok : Deaths C d h s) {n' : NodeId} {c : ℕ}
    (hnext : s.nextId ≤ s'.nextId) (hnodes : s'.nodes = s.nodes)
    (hdeaths : ∀ e, e ≠ s.nextId → s'.deaths e = s.deaths e)
    (hnew : s'.Doomed s.nextId → ∃ nd, s.nodes n' = some nd ∧ nd.proc = none) :
    Mourned n q d (h ++ [.requested p s.nextId n' c]) s' := by
  have hask : ∀ {e}, AskedFor n (h ++ [.requested p s.nextId n' c]) e →
      AskedFor n h e ∨ e = s.nextId ∧ n' = n := by
    rintro e ⟨p', c', hmem⟩
    rw [deathEvents_append, List.mem_append] at hmem
    refine hmem.imp (fun hmem => ⟨p', c', hmem⟩) fun hmem => ?_
    by_cases he : s.nextId = e
    · simp only [deathEvents, Obs.deathEvent, he, List.filterMap_cons, if_true, List.filterMap_nil,
        List.mem_singleton, DeathEvent.requested.injEq] at hmem
      exact ⟨he.symm, hmem.2.1.symm⟩
    · simp [deathEvents, Obs.deathEvent, he] at hmem
  have hfresh : deathEvents s.nextId h = [] := ((hok s.nextId).fresh le_rfl).1
  have hdelivered : ∀ {e p' c'}, .deadBinder p' c' ∈ deathEvents e (h ++
      [.requested p s.nextId n' c]) → .deadBinder p' c' ∈ deathEvents e h := by
    intro e p' c' hmem
    rw [deathEvents_append, List.mem_append] at hmem
    refine hmem.resolve_right fun hmem => ?_
    by_cases he : s.nextId = e
    · simp [deathEvents, Obs.deathEvent, he] at hmem
    · simp [deathEvents, Obs.deathEvent, he] at hmem
  refine ⟨hm.lt.trans_le hnext, fun nd hnd => ?_, fun e hasked hd => ?_,
    fun e p' c' hasked hmem => ?_⟩
  · rw [hnodes] at hnd
    exact (hm.owner nd hnd).imp_right fun h => ⟨h.1, h.2.append⟩
  · by_cases he : e = s.nextId
    · subst he
      obtain ⟨nd, hnd, hdead⟩ := hnew hd
      rcases hask hasked with ⟨p', c', hmem⟩ | ⟨-, rfl⟩
      · simp [hfresh] at hmem
      · rcases hm.owner nd hnd with hproc | ⟨-, hleft⟩
        · rw [hdead] at hproc
          cases hproc
        · exact hleft.append
    · refine (hm.doomed e ((hask hasked).resolve_right fun h => he h.1) ?_).append
      rw [State.Doomed, hdeaths e he] at hd
      exact hd
  · have hmem := hdelivered hmem
    rcases hask hasked with hasked | ⟨rfl, -⟩
    · exact (hm.delivered e p' c' hasked hmem).append
    · simp [hfresh] at hmem

theorem Mourned.deadBinder (hm : Mourned n q d h s) {e₀ : DeathId} {th : ThreadId} {c : ℕ}
    (hnext : s.nextId ≤ s'.nextId) (hnodes : s'.nodes = s.nodes)
    (hdeaths : ∀ e, s'.Doomed e → s.Doomed e) (hd₀ : s.Doomed e₀) :
    Mourned n q d (h ++ [.delivered p th (some (.death e₀)) (.deadBinder c)]) s' := by
  have hask : ∀ {e}, AskedFor n (h ++ [.delivered p th (some (.death e₀)) (.deadBinder c)]) e →
      AskedFor n h e := by
    rintro e ⟨p', c', hmem⟩
    rw [deathEvents_append, List.mem_append] at hmem
    refine ⟨p', c', hmem.resolve_right fun hmem => ?_⟩
    by_cases he : e₀ = e
    · simp [deathEvents, Obs.deathEvent, he] at hmem
    · simp [deathEvents, Obs.deathEvent, he] at hmem
  refine ⟨hm.lt.trans_le hnext, fun nd hnd => ?_, fun e hasked hd => ?_,
    fun e p' c' hasked hmem => ?_⟩
  · rw [hnodes] at hnd
    exact (hm.owner nd hnd).imp_right fun h => ⟨h.1, h.2.append⟩
  · exact (hm.doomed e (hask hasked) (hdeaths e hd)).append
  · rw [deathEvents_append, List.mem_append] at hmem
    rcases hmem with hmem | hmem
    · exact (hm.delivered e p' c' (hask hasked) hmem).append
    · by_cases he : e₀ = e
      · subst he
        exact (hm.doomed e₀ (hask hasked) hd₀).append
      · simp [deathEvents, Obs.deathEvent, he] at hmem

theorem Mourned.nodeDies (hm : Mourned n q (some p) h s) (hok : Deaths C (some p) h s)
    {n' : NodeId} {nd nd' : Node} (hnd : s.nodes n' = some nd) (hproc : nd.proc = some p)
    (hrefs : ∀ r rf, s.refs r = some rf → (rf.node = n' ↔ r ∈ nd.refs)) (hdead : nd'.proc = none)
    (hrun : notifyDeath { s with
      nodes := Function.update s.nodes n' (some nd')
      deadNodes := n' :: s.deadNodes } nd.refs = .ok s') : Mourned n q (some p) h s' := by
  have hrest := (notifyDeath_rest hrun).1
  have hnodes : s'.nodes = Function.update s.nodes n' (some nd') := by rw [hrest]
  have hleft : n' = n → Left (some p) h q := by
    rintro rfl
    rcases hm.owner nd hnd with hq | ⟨hnone, -⟩
    · exact .inl (hproc.symm.trans hq)
    · rw [hproc] at hnone
      cases hnone
  refine ⟨by rw [hrest]; exact hm.lt, fun md hmd => ?_, fun e hasked hd => ?_, hm.delivered⟩
  · rw [hnodes] at hmd
    by_cases heq : n = n'
    · subst heq
      rw [Function.update_self, Option.some.injEq] at hmd
      exact .inr ⟨hmd ▸ hdead, hleft rfl⟩
    · rw [Function.update_of_ne heq] at hmd
      exact hm.owner md hmd
  · rcases notifyDeath_death hrun e with ⟨hdeaths, -⟩ | ⟨r, rf, de, hmem, hrf, hdeath, hde, -⟩
    · refine hm.doomed e hasked ?_
      rw [State.Doomed, hdeaths] at hd
      exact hd
    · refine hleft ?_
      obtain ⟨g, st, hreg, -, hfits, -, hone⟩ := (hok e).of_some hde
      have hheld := (hfits.holds hrf hdeath).1
      rw [← hasked.node hreg.life, ← (Holds.proc hheld hrf hdeath hone).2]
      exact ((hrefs r rf hrf).mpr hmem).symm

theorem WorkStep.mourned (hstep : WorkStep C d s o s') (hok : Deaths C d h s)
    (hm : Mourned n q d h s) : Mourned n q d (h ++ o) s' := by
  have hsame : (∀ x ∈ o, x.isDeathNews = false) → Mourned n q d h s' → Mourned n q d (h ++ o) s' :=
    fun ho hm => hm.kept le_rfl (fun nd' hnd' => ⟨nd', hnd', rfl⟩) (fun e => id) ho
  cases hstep with
  | calm hcalm ho =>
      refine hsame (fun x hx => ?_) (Calm.mourned hcalm hm)
      have := ho x hx
      unfold Obs.isDeathNews
      split <;> simp_all [Obs.isPlain]
  | sent _ _ _ _ hsent =>
      refine hsame (fun x hx => ?_) (hsent.mourned hm)
      unfold acceptedLog at hx
      split at hx
      · cases hx
      · split at hx
        · cases hx
        · rw [List.mem_singleton.mp hx]
          rfl
  | freed _ _ _ _ _ _ hadv hrest =>
      refine hsame (by simp) ((hadv.mourned hm).of_eq ?_ ?_ ?_)
      all_goals rw [hrest]
  | noMemory => exact hsame (by simp) (hm.of_eq le_rfl rfl rfl)
  | requested =>
      refine hm.requested hok (Nat.le_succ _) rfl (fun e he => Function.update_of_ne he ..) ?_
      rintro ⟨de, hde, hentry, -⟩
      simp only [registerDeath, State.setRef, State.setDeath, Function.update_self,
        Option.some.injEq] at hde
      exact absurd (hde ▸ rfl) hentry
  | requestedDead _ _ _ _ _ _ _ _ hnd hdead =>
      refine hm.requested hok (Nat.le_succ _) rfl (fun e he => ?_) fun _ => ⟨_, hnd, hdead⟩
      exact (Function.update_of_ne he ..).trans (Function.update_of_ne he ..)
  | cleared =>
      exact hm.kept le_rfl (fun nd' hnd' => ⟨nd', hnd', rfl⟩)
        (fun e => doomed_setDeath rfl (by simp)) (by simp [Obs.isDeathNews])
  | clearedQueued _ _ _ _ hde hentry hty =>
      exact hm.kept le_rfl (fun nd' hnd' => ⟨nd', hnd', rfl⟩)
        (fun e => doomed_setDeath rfl fun _ _ => ⟨_, hde, hentry, by simp [hty]⟩)
        (by simp [Obs.isDeathNews])
  | @acked p e₀ de =>
      have hun := unlinkDeath_eq s e₀ de
      refine hm.kept ?_ (fun nd' hnd' => ⟨nd', ?_, rfl⟩) (fun e => ?_) (by simp [Obs.isDeathNews])
      · rw [hun]
        rfl
      · rw [hun] at hnd'
        exact hnd'
      · have hdeaths : ((unlinkDeath s e₀ de).setDeath e₀ { de with entry := none }).deaths =
            Function.update s.deaths e₀ (some { de with entry := none }) := by
          rw [hun]
          rfl
        exact doomed_setDeath hdeaths (by simp)
  | @ackedClear p th thr e₀ de =>
      have hun := unlinkDeath_eq s e₀ de
      refine hm.kept ?_ (fun nd' hnd' => ⟨nd', ?_, rfl⟩) (fun e => ?_) (by simp [Obs.isDeathNews])
      · rw [hun]
        rfl
      · rw [hun] at hnd'
        exact hnd'
      · have hdeaths :
            (queueDeath ((unlinkDeath s e₀ de).setDeath e₀ { de with entry := none }) e₀ de
            .clearDeathNotification (deathQueue p th thr)).deaths =
              Function.update s.deaths e₀ (some { de with
                workType := .clearDeathNotification, entry := some (deathQueue p th thr) }) := by
          rw [hun]
          exact Function.update_idem ..
        exact doomed_setDeath hdeaths (by simp)
  | complete =>
      exact hsame (by simp [Obs.isDeathNews]) (hm.of_eq le_rfl rfl rfl)
  | clearDone =>
      exact hm.kept le_rfl (fun nd' hnd' => ⟨nd', hnd', rfl⟩) (fun e => doomed_eraseDeath rfl)
        (by simp [Obs.isDeathNews])
  | @deadBinder p th q' e₀ de ws _ _ hq hde hty =>
      have hd₀ : s.Doomed e₀ := by
        obtain ⟨g, st, -, -, -, hitems, -⟩ := (hok e₀).of_some hde
        have hentry := (mem_of_count hitems).mp (hq ▸ List.mem_cons_self)
        exact ⟨de, hde, by simp [hentry], hty⟩
      exact hm.deadBinder le_rfl rfl (fun e => doomed_setDeath rfl fun _ _ => hd₀) hd₀
  | receivedCall _ _ _ _ _ _ _ _ _ hrest =>
      refine hsame (by simp [Obs.isDeathNews]) (hm.of_eq ?_ ?_ ?_)
      all_goals rw [hrest]
  | @received p th q' t ws tx b x cmd _ _ _ _ _ _ _ _ _ hrest =>
      refine hsame (by simp [Obs.isDeathNews]) (hm.of_eq ?_ ?_ ?_)
      all_goals rw [hrest]
  | dropped _ hdrop =>
      exact hsame (by simp) (hdrop.mourned (hm.of_eq le_rfl rfl rfl))
  | threadGone => exact hsame (by simp) (hm.of_eq le_rfl rfl rfl)
  | threadNew => exact hsame (by simp) (hm.of_eq (Nat.le_succ _) rfl rfl)
  | @nodeGone p m =>
      refine hsame (by simp) (hm.unobserved le_rfl (fun nd' hnd' => ⟨nd', ?_, rfl⟩) fun e => id)
      by_cases hnm : n = m
      · simp [hnm] at hnd'
      · simpa [Function.update_of_ne hnm] using hnd'
  | nodeDies hd hnd hproc hrefs _ hdead _ hrun =>
      subst hd
      exact hsame (by simp) (hm.nodeDies hok hnd hproc hrefs hdead hrun)
  | bufferGone _ _ hrest =>
      refine hsame (by simp) (hm.of_eq ?_ ?_ ?_)
      all_goals rw [hrest]

theorem Left.gone (hl : Left (some p) h q) : Left none (h ++ [.released p]) q := by
  rcases hl with hp | hmem
  · rw [Option.some.inj hp]
    exact .inr (by simp)
  · exact .inr (List.mem_append_left _ hmem)

theorem mourned_steady :
    Steady L C fun d h s => Deaths C d h s ∧ Mourned n q d h s where
  step := fun _ hinv hstep => ⟨hstep.deaths hinv.1, hstep.mourned hinv.1 hinv.2⟩
  exempt := by
    rintro p h s ⟨hok, hm⟩
    have hleft : ∀ {q}, Left none h q → Left (some p) h q := fun hl => hl.imp_left (by simp)
    exact ⟨fun e => (hok e).exempt p, hm.lt, fun nd hnd => (hm.owner nd hnd).imp_right fun h =>
      ⟨h.1, hleft h.2⟩, fun e hask hd => hleft (hm.doomed e hask hd),
      fun e p' c hask hmem => hleft (hm.delivered e p' c hask hmem)⟩
  gone := by
    rintro p h s - hgone ⟨hok, hm⟩
    have ho : ∀ x ∈ [Obs.released p], x.isDeathNews = false := by simp [Obs.isDeathNews]
    refine ⟨fun e => (hok e).gone hgone, hm.lt, fun nd hnd => (hm.owner nd hnd).imp_right fun h =>
      ⟨h.1, h.2.gone⟩, fun e hask hd => (hm.doomed e ((askedFor_append ho).mp hask) hd).gone,
      fun e p' c hask hmem => ?_⟩
    exact (hm.delivered e p' c ((askedFor_append ho).mp hask) ((deadBinder_append ho).mp hmem)).gone

/-- A notification of the death of a node that a process owns at some point of a run is
delivered only after the process was taken apart. -/
theorem released_of_deadBinder {s₀ : State} {h₀ : List Obs}
    (hreach₀ : Reach (loggedStep L) (fun x a => ActOk C L x.1 a) (State.init, []) (s₀, h₀))
    (hreach : Reach (loggedStep L) (fun x a => ActOk C L x.1 a) (s₀, h₀) (s, h)) {nd : Node}
    (hnd : s₀.nodes n = some nd) (hproc : nd.proc = some q) {c : ℕ} (hask : AskedFor n h e)
    (hmem : .deadBinder p c ∈ deathEvents e h) : .released q ∈ h := by
  obtain ⟨hs₀, hlinked₀, hok₀⟩ := work_invariant deaths_steady deaths_init hreach₀
  have halive : ¬ s₀.NodeDead n := by
    intro hdead
    have := hdead nd hnd
    rw [hproc] at this
    cases this
  have hm₀ : Mourned n q none h₀ s₀ := by
    refine ⟨hs₀.tables.node_lt hnd, fun nd' hnd' => ?_, fun e hask hd => ?_,
      fun e p c hask hmem => ?_⟩
    · obtain rfl : nd = nd' := Option.some.inj (hnd.symm.trans hnd')
      exact .inl hproc
    · obtain ⟨de, hde, hentry, hty⟩ := hd
      obtain ⟨g, st, hreg, -, hfits, -, -⟩ := (hok₀ e).of_some hde
      have hnode := hask.node hreg.life
      exact absurd (hnode ▸ hfits.nodeDead hreg hentry hty) halive
    · cases hok₀ e with
      | unborn hev => simp [hev] at hmem
      | live hreg =>
          exact absurd (hask.node hreg.life ▸ hreg.dead (hreg.life.deadBinder hmem)) halive
      | freed hreg =>
          exact absurd (hask.node hreg.life ▸ hreg.dead (hreg.life.deadBinder hmem)) halive
  obtain ⟨-, -, -, hm⟩ := work_invariant_from mourned_steady hreach hs₀ hlinked₀ ⟨hok₀, hm₀⟩
  rcases hm.delivered e p c hask hmem with hd | hrel
  · cases hd
  · exact hrel

end Mourned

end Driver

end BinderForLinux
