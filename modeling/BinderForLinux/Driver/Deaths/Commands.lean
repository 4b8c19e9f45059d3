import BinderForLinux.Driver.Deaths.Runs

/-!
# The notification of a reference

Which notification a reference has follows from the commands of its process: a request
registers one when there is none, a clearing under its cookie takes it away, and nothing
else touches it as long as the reference is there.
-/

namespace BinderForLinux

namespace Driver

open Library

/-- References keep their entries and their notifications, or go away. -/
structure RefsKept (s s' : State) : Prop where
  nextId : s.nextId ≤ s'.nextId
  ref : ∀ {r rf'}, r < s.nextId → s'.refs r = some rf' →
    ∃ rf, s.refs r = some rf ∧ rf'.entries = rf.entries ∧ rf'.death = rf.death

/-- The observations of a change to the notification of a reference. -/
def Obs.isRelink : Obs → Bool
  | .requested _ _ _ _ => true
  | .cleared _ _ => true
  | _ => false

section RefsKept

variable {C : Condition} {d : Option ProcId} {s s' s'' : State} {o : List Obs}

theorem RefsKept.of_eq (hnext : s.nextId ≤ s'.nextId) (hrefs : s'.refs = s.refs) : RefsKept s s' :=
  ⟨hnext, fun _ hrf => ⟨_, hrefs ▸ hrf, rfl, rfl⟩⟩

theorem RefsKept.refl (s : State) : RefsKept s s := .of_eq le_rfl rfl

theorem RefsKept.trans (h : RefsKept s s') (h' : RefsKept s' s'') : RefsKept s s'' where
  nextId := h.nextId.trans h'.nextId
  ref := by
    intro r rf'' hr hrf''
    obtain ⟨rf', hrf', he', hd'⟩ := h'.ref (hr.trans_le h.nextId) hrf''
    obtain ⟨rf, hrf, he, hd⟩ := h.ref hr hrf'
    exact ⟨rf, hrf, he'.trans he, hd'.trans hd⟩

theorem RefsKept.of_first (h : RefsKept s' s'') (hnext : s.nextId ≤ s'.nextId)
    (hrefs : s'.refs = s.refs) : RefsKept s s'' :=
  (RefsKept.of_eq hnext hrefs).trans h

theorem CalmStep.refsKept (hstep : CalmStep s s') : RefsKept s s' := by
  cases hstep with
  | still hstill =>
      refine ⟨hstill.nextId, fun {r rf'} hr hrf' => ?_⟩
      rcases hstill.refs hrf' with hsame | ⟨hle, -⟩
      · exact hsame
      · exact absurd hr (not_lt.mpr hle)
  | unwind hun =>
      have hrest := hun.rest
      exact .of_eq (by rw [hrest]) (by rw [hrest])
  | thread => exact .of_eq le_rfl rfl
  | fields hnext hrest => exact .of_eq hnext (by rw [hrest])
  | alloc _ _ hrest => exact .of_eq (by rw [hrest]) (by rw [hrest])
  | discard _ _ hrest => exact .of_eq (by rw [hrest]) (by rw [hrest])

theorem Calm.refsKept (hcalm : Calm s s') : RefsKept s s' := by
  induction hcalm with
  | refl => exact .refl s
  | tail _ hstep ih => exact ih.trans hstep.refsKept

theorem Queued.refsKept {th : ThreadId} {t : TxnId} {tg : Target} {tx : Transaction} {b : Buffer}
    {x : ProcId × ℕ} {q : Queue} (hq : Queued s s' th t tg tx b x q) : RefsKept s s' :=
  .of_eq (by rw [hq.rest]) (by rw [hq.rest])

theorem Transacted.refsKept {p : ProcId} {th : ThreadId} {t : TxnId}
    (hsent : Transacted s p th t s') : RefsKept s s' := by
  cases hsent with
  | failed hcalm => exact Calm.refsKept hcalm
  | call hcalm haddr hthr hq =>
      exact (Calm.refsKept hcalm).trans (hq.refsKept.of_first le_rfl rfl)
  | oneWay hcalm hnode hnd hlt hproc hasync hq =>
      exact (Calm.refsKept hcalm).trans (hq.refsKept.of_first le_rfl rfl)
  | waiting hcalm hnode hnd hlt hproc hasync hq => exact (Calm.refsKept hcalm).trans hq.refsKept
  | reply hcalm haddr hnode hthread hq => exact (Calm.refsKept hcalm).trans hq.refsKept

theorem Dropped.refsKept {w : Work} (hdrop : Dropped s w s') : RefsKept s s' := by
  cases hdrop with
  | call _ hun => exact Calm.refsKept (Unwound.calm hun)
  | transaction _ _ hrun =>
      obtain ⟨tx, s₁, htx, hdetach, rfl⟩ := freeTxn_eq hrun
      have hs₁ := (detachBuffer_live hdetach).1
      exact .of_eq (by rw [hs₁]) (by rw [hs₁])
  | complete => exact .refl s
  | deadBinder => exact .of_eq le_rfl rfl
  | death => exact .of_eq le_rfl rfl
  | node => exact .of_eq le_rfl rfl

theorem WorkStep.refsKept (hstep : WorkStep C d s o s') (ho : ∀ x ∈ o, x.isRelink = false) :
    RefsKept s s' := by
  cases hstep with
  | calm hcalm => exact Calm.refsKept hcalm
  | sent _ _ _ _ hsent => exact hsent.refsKept
  | freed _ _ _ _ _ _ hadv hrest =>
      cases hadv with
      | idle => exact .of_eq (by rw [hrest]) (by rw [hrest])
      | last => exact .of_eq (by rw [hrest]; rfl) (by rw [hrest]; rfl)
      | next => exact .of_eq (by rw [hrest]; rfl) (by rw [hrest]; rfl)
  | requested => simp [Obs.isRelink] at ho
  | requestedDead => simp [Obs.isRelink] at ho
  | cleared => simp [Obs.isRelink] at ho
  | clearedQueued => simp [Obs.isRelink] at ho
  | acked => exact .of_eq (by rw [unlinkDeath_eq]; rfl) (by rw [unlinkDeath_eq]; rfl)
  | ackedClear => exact .of_eq (by rw [unlinkDeath_eq]; rfl) (by rw [unlinkDeath_eq]; rfl)
  | receivedCall _ _ _ _ _ _ _ _ _ hrest => exact .of_eq (by rw [hrest]) (by rw [hrest])
  | received _ _ _ _ _ _ _ _ hrest => exact .of_eq (by rw [hrest]) (by rw [hrest])
  | dropped hq hdrop => exact hdrop.refsKept.of_first le_rfl rfl
  | threadNew => exact .of_eq (Nat.le_succ _) rfl
  | nodeDies _ _ _ _ _ _ _ hrun =>
      have hrest := (notifyDeath_rest hrun).1
      exact .of_eq (by rw [hrest]) (by rw [hrest])
  | bufferGone _ _ hrest => exact .of_eq (by rw [hrest]) (by rw [hrest])
  | _ => exact .of_eq le_rfl rfl

theorem WorkSteps.refsKept (hsteps : WorkSteps C d s o s') (ho : ∀ x ∈ o, x.isRelink = false) :
    RefsKept s s' := by
  obtain ⟨es, hes, rfl⟩ := hsteps
  refine hes.relates RefsKept.refl (fun _ _ _ h h' => h.trans h') fun _ o' _ ho' hstep => ?_
  exact hstep.refsKept fun x hx => ho x (List.mem_flatten.mpr ⟨o', ho', hx⟩)

theorem Part.refsKept {L : Layout} (hpart : Part L C s o s') (hs : Coherent L none s)
    (hlinked : Linked s) (ho : ∀ x ∈ o, x.isRelink = false) : RefsKept s s' := by
  rcases hpart.steps hs hlinked with hsteps | ⟨p, rfl, -, hsteps⟩
  · exact hsteps.refsKept ho
  · exact hsteps.refsKept (by simp)

end RefsKept

/-! ### Requests and clearings -/

section Commands

variable {L : Layout} {C : Condition} {s s' : State} {p : ProcId} {th : ThreadId}
  {handle cookie : ℕ} {alloc : Bool} {r : RefId} {rf : Ref}

theorem RefTables.getRef_eq (ht : RefTables s) (hrf : s.refs r = some rf) :
    binderGetRef s rf.proc rf.desc = some r := by
  cases hget : binderGetRef s rf.proc rf.desc with
  | none =>
      have hmem : r ∈ s.refsByDesc rf.proc := (ht.byDesc _ _).mpr ⟨rf, hrf, rfl⟩
      simpa [hrf] using List.find?_eq_none.mp hget r hmem
  | some r' =>
      obtain ⟨rf', hrf', hproc, hdesc⟩ := ht.getRef hget
      rw [ht.desc_inj hrf hrf' hproc.symm hdesc.symm]

/-- A request registers a notification at the reference it names, or does nothing to
references. -/
theorem requestDeathCommand_ref
    (hrun : requestDeathCommand s p th handle cookie alloc = .ok s') :
    (∃ r rf, binderGetRef s p handle = some r ∧ s.refs r = some rf ∧ rf.death = none ∧
      alloc = true ∧ s'.nextId = s.nextId + 1 ∧
      s'.refs = Function.update s.refs r (some { rf with death := some s.nextId }) ∧
      deathLog s p (.requestDeathNotification handle cookie alloc) =
        [.requested p s.nextId rf.node cookie]) ∨
    (s'.nextId = s.nextId ∧ s'.refs = s.refs ∧
      ∀ r rf, binderGetRef s p handle = some r → s.refs r = some rf → alloc = true →
        rf.death ≠ none) := by
  unfold requestDeathCommand at hrun
  cases hget : binderGetRef s p handle with
  | none =>
      obtain rfl : s = s' := by simpa [hget] using hrun
      exact .inr ⟨rfl, rfl, by simp⟩
  | some r =>
      simp only [hget, except_bind_eq_ok, deref_eq_ok] at hrun
      obtain ⟨rf, hrf, thr, hthr, hrun⟩ := hrun
      cases hdeath : rf.death with
      | some e =>
          obtain rfl : s = s' := by simpa [hdeath] using hrun
          refine .inr ⟨rfl, rfl, ?_⟩
          rintro _ rf' ⟨⟩ hrf' -
          rw [← Option.some.inj (hrf.symm.trans hrf'), hdeath]
          simp
      | none =>
          cases alloc with
          | false =>
              obtain rfl : s.setThread th { thr with returnError := .error } = s' := by
                simpa [hdeath] using hrun
              exact .inr ⟨rfl, rfl, by simp⟩
          | true =>
              simp only [hdeath, Option.isSome_none, Bool.false_eq_true, ↓reduceIte, Bool.not_true,
                except_bind_eq_ok, deref_eq_ok] at hrun
              obtain ⟨nd, hnd, hrun⟩ := hrun
              refine .inl ⟨r, rf, rfl, hrf, hdeath, rfl, ?_, ?_,
                by simp [deathLog, hget, hrf, hdeath]⟩
              all_goals
                split at hrun
                · rw [except_pure_eq_ok] at hrun
                  exact hrun ▸ rfl
                · rw [except_pure_eq_ok] at hrun
                  exact hrun ▸ rfl

/-- A clearing takes the notification from the reference it names, or does nothing to
references. -/
theorem clearDeathCommand_ref (hrun : clearDeathCommand s p th handle cookie = .ok s') :
    s'.nextId = s.nextId ∧
    ((∃ r rf e, binderGetRef s p handle = some r ∧ s.refs r = some rf ∧ rf.death = some e ∧
      (∃ de, s.deaths e = some de ∧ de.cookie = cookie) ∧
      s'.refs = Function.update s.refs r (some { rf with death := none })) ∨
    (s'.refs = s.refs ∧
      ∀ r rf e de, binderGetRef s p handle = some r → s.refs r = some rf → rf.death = some e →
        s.deaths e = some de → de.cookie ≠ cookie)) := by
  unfold clearDeathCommand at hrun
  cases hget : binderGetRef s p handle with
  | none =>
      obtain rfl : s = s' := by simpa [hget] using hrun
      exact ⟨rfl, .inr ⟨rfl, by simp⟩⟩
  | some r =>
      simp only [hget, except_bind_eq_ok, deref_eq_ok] at hrun
      obtain ⟨rf, hrf, thr, hthr, hrun⟩ := hrun
      cases hdeath : rf.death with
      | none =>
          obtain rfl : s = s' := by simpa [hdeath] using hrun
          refine ⟨rfl, .inr ⟨rfl, ?_⟩⟩
          rintro _ rf' e de ⟨⟩ hrf' hd
          rw [← Option.some.inj (hrf.symm.trans hrf'), hdeath] at hd
          cases hd
      | some e =>
          simp only [hdeath, except_bind_eq_ok, deref_eq_ok] at hrun
          obtain ⟨de, hde, hrun⟩ := hrun
          split at hrun
          · rename_i hcookie
            obtain rfl : s = s' := by simpa using hrun
            refine ⟨rfl, .inr ⟨rfl, ?_⟩⟩
            rintro _ rf' e' de' ⟨⟩ hrf' hd hde'
            rw [← Option.some.inj (hrf.symm.trans hrf'), hdeath] at hd
            obtain rfl := Option.some.inj hd
            rwa [← Option.some.inj (hde.symm.trans hde')]
          · rename_i hcookie
            have hcookie : de.cookie = cookie := by simpa using hcookie
            split at hrun
            · rw [except_pure_eq_ok] at hrun
              subst hrun
              exact ⟨rfl, .inl ⟨r, rf, e, rfl, hrf, hdeath, ⟨de, hde, hcookie⟩, rfl⟩⟩
            · simp only [except_bind_eq_ok, bugOn_eq_ok, except_pure_eq_ok] at hrun
              obtain ⟨_, -, rfl⟩ := hrun
              exact ⟨rfl, .inl ⟨r, rf, e, rfl, hrf, hdeath, ⟨de, hde, hcookie⟩, rfl⟩⟩

end Commands

/-! ### The cookie of the notification -/

/-- The cookie that a process has registered for a handle, after one of its commands. -/
def Command.registers (handle : ℕ) (reg : Option ℕ) : Command → Option ℕ
  | .requestDeathNotification h k alloc =>
      if h = handle ∧ alloc = true ∧ reg = none then some k else reg
  | .clearDeathNotification h k => if h = handle ∧ reg = some k then none else reg
  | _ => reg

def Obs.registers (p : ProcId) (handle : ℕ) (reg : Option ℕ) : Obs → Option ℕ
  | .wrote q _ c => if q = p then c.registers handle reg else reg
  | _ => reg

/-- The cookie of the notification that a reference has. -/
def State.noticeOf (s : State) (r : RefId) : Option ℕ :=
  (s.refs r).bind fun rf => rf.death.bind fun e => (s.deaths e).map Death.cookie

section Notice

variable {L : Layout} {C : Condition} {s s' : State} {h o : List Obs} {p : ProcId} {th : ThreadId}
  {r : RefId} {rf rf' : Ref} {e : DeathId} {n : NodeId} {k : ℕ} {c : Command}

theorem Life.requested_mem {g : Registration} {st : Stage} {l : List DeathEvent}
    (hlife : Life g st l) : .requested g.proc g.node g.cookie ∈ l := by
  induction hlife <;> simp_all

theorem State.noticeOf_none (hrf : s.refs r = some rf) (hdeath : rf.death = none) :
    s.noticeOf r = none := by
  simp [noticeOf, hrf, hdeath]

theorem Deaths.noticeOf (hok : Deaths C none h s) (hrf : s.refs r = some rf)
    (hdeath : rf.death = some e) : ∃ p n k, .requested p e n k ∈ h ∧ s.noticeOf r = some k ∧
      ∀ p' n' k', .requested p' e n' k' ∈ h → k' = k := by
  cases hok e with
  | unborn _ habs => exact absurd hdeath (habs.unheld r rf hrf)
  | freed _ habs => exact absurd hdeath (habs.unheld r rf hrf)
  | @live g st de hreg hde hcookie =>
      refine ⟨g.proc, g.node, g.cookie, requested_mem.mp hreg.life.requested_mem, ?_, ?_⟩
      · simp [State.noticeOf, hrf, hdeath, hde, hcookie]
      · intro p' n' k' hmem
        rw [hreg.life.requested (requested_mem.mpr hmem)]

theorem Deaths.noticeOf_kept (hok : Deaths C none h s) (hok' : Deaths C none (h ++ o) s')
    (hrf : s.refs r = some rf) (hrf' : s'.refs r = some rf') (hdeath : rf'.death = rf.death) :
    s'.noticeOf r = s.noticeOf r := by
  cases hd : rf.death with
  | none => rw [State.noticeOf_none hrf hd, State.noticeOf_none hrf' (hdeath.trans hd)]
  | some e =>
      obtain ⟨p, n, k, hmem, hk, -⟩ := hok.noticeOf hrf hd
      obtain ⟨_, _, k', -, hk', hall⟩ := hok'.noticeOf hrf' (hdeath.trans hd)
      rw [hk, hk', hall p n k (List.mem_append_left _ hmem)]

/-- Observations of what is no command of a process. -/
def Obs.isSilent : Obs → Bool
  | .wrote _ _ _ => false
  | .requested _ _ _ _ => false
  | .cleared _ _ => false
  | _ => true

theorem foldl_registers {handle : ℕ} {reg : Option ℕ} (ho : ∀ x ∈ o, ∀ q th c, x ≠ .wrote q th c) :
    o.foldl (Obs.registers p handle) reg = reg := by
  induction o with
  | nil => rfl
  | cons x o ih =>
      obtain ⟨hx, hrest⟩ := List.forall_mem_cons.mp ho
      cases x with
      | wrote q th c => exact absurd rfl (hx q th c)
      | _ => exact ih hrest

theorem mem_acceptedLog {x : Obs} (hx : x ∈ acceptedLog s s' p th) : x.isSilent = true := by
  unfold acceptedLog at hx
  split at hx
  · cases hx
  · split at hx
    · cases hx
    · rw [List.mem_singleton.mp hx]
      rfl

theorem mem_deathLog {x : Obs} (hx : x ∈ deathLog s p c) :
    x.isRelink = true ∨ ∃ e, x = .acked p e := by
  unfold deathLog at hx
  split at hx
  · split at hx
    · cases hx
    · split at hx
      · exact .inl (List.mem_singleton.mp hx ▸ rfl)
      · cases hx
  · split at hx
    · cases hx
    · split at hx
      · cases hx
      · split at hx
        · exact .inl (List.mem_singleton.mp hx ▸ rfl)
        · cases hx
  · split at hx
    · cases hx
    · exact .inr ⟨_, List.mem_singleton.mp hx⟩
  · cases hx

theorem foldl_commandLog {q : ProcId} {handle : ℕ} {reg : Option ℕ} :
    (commandLog s s' p th c).foldl (Obs.registers q handle) reg =
      if p = q then c.registers handle reg else reg := by
  rw [commandLog, List.foldl_cons, foldl_registers]
  · rfl
  · rintro x hx _ _ _ rfl
    rcases List.mem_append.mp hx with hx | hx
    · cases mem_acceptedLog hx
    · rcases mem_deathLog hx with hx | ⟨e, hx⟩
      · cases hx
      · cases hx

/-- What a part makes of the notification of a reference that is still there after it. -/
structure Registers (h o : List Obs) (s s' : State) (r : RefId) : Prop where
  lt : r < s'.nextId
  kept : ∀ {rf'}, s'.refs r = some rf' → ∃ rf, s.refs r = some rf ∧ rf'.entries = rf.entries ∧
    s'.noticeOf r = o.foldl (Obs.registers rf.proc rf.desc) (s.noticeOf r)

theorem Registers.of_kept (hok : Deaths C none h s) (hok' : Deaths C none (h ++ o) s')
    (hr : r < s.nextId) (hk : RefsKept s s')
    (ho : ∀ {rf reg}, s.refs r = some rf → reg = s.noticeOf r →
      o.foldl (Obs.registers rf.proc rf.desc) reg = reg) : Registers h o s s' r where
  lt := hr.trans_le hk.nextId
  kept := fun {rf'} hrf' => by
    obtain ⟨rf, hrf, hentries, hdeath⟩ := hk.ref hr hrf'
    exact ⟨rf, hrf, hentries, by rw [hok.noticeOf_kept hok' hrf hrf' hdeath, ho hrf rfl]⟩

theorem Registers.requested (hs : Coherent L none s) (hok : Deaths C none h s)
    {handle cookie : ℕ} {alloc : Bool}
    (hok' : Deaths C none
      (h ++ commandLog s s' p th (.requestDeathNotification handle cookie alloc)) s')
    (hr : r < s.nextId) (hrun : requestDeathCommand s p th handle cookie alloc = .ok s') :
    Registers h (commandLog s s' p th (.requestDeathNotification handle cookie alloc)) s s' r := by
  rcases requestDeathCommand_ref hrun with
    ⟨r₁, rf₁, hget, hrf₁, hnone, rfl, hnext, hrefs, hlog⟩ | ⟨hnext, hrefs, hset⟩
  · obtain ⟨rf₂, hrf₂, hproc, hdesc⟩ := hs.tables.getRef hget
    obtain rfl := Option.some.inj (hrf₁.symm.trans hrf₂)
    refine ⟨hr.trans_le (hnext ▸ Nat.le_succ _), fun {rf'} hrf' => ?_⟩
    rw [hrefs] at hrf'
    by_cases hrr : r = r₁
    · subst hrr
      rw [Function.update_self] at hrf'
      obtain rfl := Option.some.inj hrf'
      obtain ⟨_, _, k, -, hk, hall⟩ := hok'.noticeOf (r := r) (by rw [hrefs, Function.update_self])
        rfl
      have hcookie : cookie = k := hall p rf₁.node cookie (by
        rw [commandLog, hlog]
        simp)
      refine ⟨rf₁, hrf₁, rfl, ?_⟩
      rw [foldl_commandLog, hk, State.noticeOf_none hrf₁ hnone, if_pos hproc.symm,
        Command.registers, if_pos ⟨hdesc.symm, rfl, rfl⟩, hcookie]
    · have hsame := hrf'
      rw [Function.update_of_ne hrr] at hsame
      refine ⟨rf', hsame, rfl, ?_⟩
      rw [foldl_commandLog, hok.noticeOf_kept hok' hsame (hrefs ▸ hrf') rfl]
      split
      · rename_i hp
        rw [Command.registers, if_neg]
        rintro ⟨rfl, -⟩
        exact hrr (hs.tables.desc_inj hsame hrf₁ (hp.symm.trans hproc.symm) hdesc.symm)
      · rfl
  · refine .of_kept hok hok' hr (.of_eq hnext.ge hrefs) fun {rf reg} hrf hreg => ?_
    rw [foldl_commandLog]
    split
    · rename_i hp
      rw [Command.registers, if_neg]
      rintro ⟨rfl, rfl, hregnone⟩
      have hget := hs.tables.getRef_eq hrf
      rw [← hp] at hget
      obtain ⟨e, hd⟩ := Option.ne_none_iff_exists'.mp (hset r rf hget hrf rfl)
      obtain ⟨_, _, k, -, hk, -⟩ := hok.noticeOf hrf hd
      rw [hreg, hk] at hregnone
      cases hregnone
    · rfl

theorem Registers.cleared (hs : Coherent L none s) (hok : Deaths C none h s)
    {handle cookie : ℕ}
    (hok' : Deaths C none (h ++ commandLog s s' p th (.clearDeathNotification handle cookie)) s')
    (hr : r < s.nextId) (hrun : clearDeathCommand s p th handle cookie = .ok s') :
    Registers h (commandLog s s' p th (.clearDeathNotification handle cookie)) s s' r := by
  obtain ⟨hnext, ⟨r₁, rf₁, e, hget, hrf₁, hdeath, ⟨de, hde, hcookie⟩, hrefs⟩ |
    ⟨hrefs, hnot⟩⟩ := clearDeathCommand_ref hrun
  · obtain ⟨rf₂, hrf₂, hproc, hdesc⟩ := hs.tables.getRef hget
    obtain rfl := Option.some.inj (hrf₁.symm.trans hrf₂)
    refine ⟨hnext ▸ hr, fun {rf'} hrf' => ?_⟩
    rw [hrefs] at hrf'
    by_cases hrr : r = r₁
    · subst hrr
      rw [Function.update_self] at hrf'
      obtain rfl := Option.some.inj hrf'
      have hk : s.noticeOf r = some cookie := by
        simp [State.noticeOf, hrf₁, hdeath, hde, hcookie]
      refine ⟨rf₁, hrf₁, rfl, ?_⟩
      rw [foldl_commandLog, if_pos hproc.symm, Command.registers, if_pos ⟨hdesc.symm, hk⟩]
      exact State.noticeOf_none (by rw [hrefs, Function.update_self]) rfl
    · have hsame := hrf'
      rw [Function.update_of_ne hrr] at hsame
      refine ⟨rf', hsame, rfl, ?_⟩
      rw [foldl_commandLog, hok.noticeOf_kept hok' hsame (hrefs ▸ hrf') rfl]
      split
      · rename_i hp
        rw [Command.registers, if_neg]
        rintro ⟨rfl, -⟩
        exact hrr (hs.tables.desc_inj hsame hrf₁ (hp.symm.trans hproc.symm) hdesc.symm)
      · rfl
  · refine .of_kept hok hok' hr (.of_eq hnext.ge hrefs) fun {rf reg} hrf hreg => ?_
    rw [foldl_commandLog]
    split
    · rename_i hp
      rw [Command.registers, if_neg]
      rintro ⟨rfl, hregk⟩
      have hget := hs.tables.getRef_eq hrf
      rw [← hp] at hget
      cases hd : rf.death with
      | none =>
          rw [hreg, State.noticeOf_none hrf hd] at hregk
          cases hregk
      | some e =>
          simp only [hreg, State.noticeOf, hrf, hd, Option.bind_some, Option.map_eq_some_iff]
            at hregk
          obtain ⟨de, hde, hk⟩ := hregk
          exact hnot r rf e de hget hrf hd hde hk
    · rfl

theorem Part.registers (hpart : Part L C s o s') (hs : Coherent L none s) (hlinked : Linked s)
    (hok : Deaths C none h s) (hr : r < s.nextId) : Registers h o s s' r := by
  have hok' := (hpart.keeps deaths_steady hs hlinked hok).2
  have hkept := hpart.refsKept hs hlinked
  have hsilent : (∀ x ∈ o, x.isSilent = true) → Registers h o s s' r := by
    intro ho
    refine .of_kept hok hok' hr (hkept fun x hx => ?_) fun _ _ => foldl_registers ?_
    · have hx := ho x hx
      cases x <;> first | rfl | cases hx
    · rintro x hx q th c rfl
      cases ho _ hx
  cases hpart with
  | @command p th thr c _ hthr hproc herr hC hrun =>
      have hplain : (∀ x ∈ deathLog s p c, x.isRelink = false) →
          (∀ handle reg, c.registers handle reg = reg) →
          Registers h (commandLog s s' p th c) s s' r := by
        intro hlog hc
        refine .of_kept hok hok' hr (hkept fun x hx => ?_) fun {rf reg} _ _ => ?_
        · rcases List.mem_cons.mp hx with rfl | hx
          · rfl
          · rcases List.mem_append.mp hx with hx | hx
            · have hx := mem_acceptedLog hx
              cases x <;> first | rfl | cases hx
            · exact hlog x hx
        · rw [foldl_commandLog, hc]
          split <;> rfl
      cases c with
      | requestDeathNotification handle cookie alloc => exact .requested hs hok hok' hr hrun
      | clearDeathNotification handle cookie => exact .cleared hs hok hok' hr hrun
      | deadBinderDone cookie =>
          refine hplain (fun x hx => ?_) fun _ _ => rfl
          simp only [deathLog] at hx
          split at hx
          · cases hx
          · rw [List.mem_singleton.mp hx]
            rfl
      | _ => exact hplain (by simp [deathLog]) fun _ _ => rfl
  | retry =>
      refine hsilent fun x hx => ?_
      obtain ⟨e, rfl⟩ := mem_retryLog hx
      rfl
  | item =>
      refine hsilent fun x hx => ?_
      obtain ⟨cmd, -, rfl⟩ := List.mem_map.mp hx
      rfl
  | setContextMgr =>
      refine hsilent fun x hx => ?_
      split at hx
      · cases hx
      · rw [List.mem_singleton.mp hx]
        rfl
  | _ => exact hsilent (by simp [Obs.isSilent])

/-- The run lemma: as long as the reference is there, every part registers what it should. -/
theorem registers_of_reach {s₀ : State} {h₀ g : List Obs}
    (hreach₀ : Reach (loggedStep L) (fun _ _ => True) (State.init, []) (s₀, h₀))
    (hreach : Reach (loggedStep L) (fun _ _ => True) (s₀, h₀) (s, g))
    {rf₀ : Ref} (hrf₀ : s₀.refs r = some rf₀) :
    ∃ h, g = h₀ ++ h ∧ ∀ rf, s.refs r = some rf → rf.entries = rf₀.entries ∧
      s.noticeOf r = h.foldl (Obs.registers rf₀.proc rf₀.desc) (s₀.noticeOf r) := by
  have hany : ∀ {x y}, Reach (loggedStep L) (fun _ _ => True) x y →
      Reach (loggedStep L) (fun x a => ActOk (fun _ _ _ _ => True) L x.1 a) x y :=
    fun h => h.mono fun x a _ => actOk_of_forall (fun _ _ _ _ => trivial) L x.1 a
  obtain ⟨hs₀, hlinked₀, hok₀⟩ := work_invariant deaths_steady deaths_init (hany hreach₀)
  refine (logged_invariant_from (hany hreach)
    (I := fun g s => Linked s ∧ Deaths _ none g s ∧ r < s.nextId ∧ ∃ h, g = h₀ ++ h ∧
      ∀ rf, s.refs r = some rf → rf.entries = rf₀.entries ∧
        s.noticeOf r = h.foldl (Obs.registers rf₀.proc rf₀.desc) (s₀.noticeOf r))
    hs₀ ⟨hlinked₀, hok₀, hs₀.tables.ref_lt hrf₀, [], (List.append_nil h₀).symm, fun rf hrf =>
      ⟨by rw [Option.some.inj (hrf.symm.trans hrf₀)], rfl⟩⟩ ?_).2.2.2.2
  rintro _ s o s' hs ⟨hlinked, hok, hlt, h, rfl, hall⟩ hpart
  obtain ⟨hlinked', hok'⟩ := hpart.keeps deaths_steady hs hlinked hok
  have hreg := hpart.registers hs hlinked hok hlt
  refine ⟨hlinked', hok', hreg.lt, h ++ o, by simp, fun rf' hrf' => ?_⟩
  obtain ⟨rf, hrf, hentries, hnotice⟩ := hreg.kept hrf'
  obtain ⟨hsame, hbefore⟩ := hall rf hrf
  have hproc : rf.proc = rf₀.proc := congrArg Prod.fst hsame
  have hdesc : rf.desc = rf₀.desc := congrArg (fun y => y.2.2) hsame
  exact ⟨hentries.trans hsame, by rw [hnotice, hbefore, List.foldl_append, hproc, hdesc]⟩

/-- The notification of a reference is the one that the commands of its process have registered
for its handle, whatever else happens in between. -/
theorem noticeOf_of_reach {s₀ : State} {h₀ h : List Obs} {rf₀ : Ref}
    (hreach₀ : Reach (loggedStep L) (fun _ _ => True) (State.init, []) (s₀, h₀))
    (hreach : Reach (loggedStep L) (fun _ _ => True) (s₀, h₀) (s, h₀ ++ h))
    (hrf₀ : s₀.refs r = some rf₀) (hrf : s.refs r = some rf) :
    rf.proc = rf₀.proc ∧ rf.node = rf₀.node ∧ rf.desc = rf₀.desc ∧
      s.noticeOf r = h.foldl (Obs.registers rf.proc rf.desc) (s₀.noticeOf r) := by
  obtain ⟨h', happend, hall⟩ := registers_of_reach hreach₀ hreach hrf₀
  obtain rfl := List.append_cancel_left happend
  obtain ⟨hentries, hnotice⟩ := hall rf hrf
  have hproc : rf.proc = rf₀.proc := congrArg Prod.fst hentries
  have hdesc : rf.desc = rf₀.desc := congrArg (fun y => y.2.2) hentries
  exact ⟨hproc, congrArg (fun y => y.2.1) hentries, hdesc, by rw [hnotice, hproc, hdesc]⟩

end Notice

/-- Process 1 asks again under another cookie, which does not count, and then clears the first. -/
def deathRenewed : List Act :=
  [.write 1 20 [.requestDeathNotification 0 78 true, .clearDeathNotification 0 78,
    .clearDeathNotification 0 77]]

set_option synthInstance.maxSize 512 in
theorem noticeOf_deathRenewed : ∃ s₀ h₀ s h, ∃ rf : Ref,
    runChecked (loggedStep Layout.x86) (fun _ _ => True) (s₀, h₀) deathRenewed =
      some (s, h₀ ++ h) ∧ s₀.noticeOf 5 = some 77 ∧
        s.noticeOf 5 = h.foldl (Obs.registers rf.proc rf.desc) (some 77) := by
  obtain ⟨⟨s₀, h₀⟩, hrun₀, hx⟩ := Option.map_eq_some_iff.mp
    (show (runChecked (loggedStep Layout.x86) (fun _ _ => True) (State.init, []) deathAsked).map
      (fun x => ((x.1.refs 5).map Ref.proc, x.1.noticeOf 5,
        (runChecked (loggedStep Layout.x86) (fun _ _ => True) x deathRenewed).map fun y =>
          (y.1.refs 5).map Ref.proc)) =
      some (some 1, some 77, some (some 1)) by decide +kernel)
  simp only [Prod.mk.injEq] at hx
  obtain ⟨rf₀, hrf₀, -⟩ := Option.map_eq_some_iff.mp hx.1
  obtain ⟨⟨s, g⟩, hrun, hy⟩ := Option.map_eq_some_iff.mp hx.2.2
  obtain ⟨rf, hrf, -⟩ := Option.map_eq_some_iff.mp hy
  have hreach₀ := reach_of_runChecked hrun₀
  obtain ⟨h, rfl, -⟩ := registers_of_reach hreach₀ (reach_of_runChecked hrun) hrf₀
  have hnotice := (noticeOf_of_reach hreach₀ (reach_of_runChecked hrun) hrf₀ hrf).2.2.2
  exact ⟨s₀, h₀, s, h, rf, hrun, hx.2.1, hx.2.1 ▸ hnotice⟩

end Driver

end BinderForLinux
