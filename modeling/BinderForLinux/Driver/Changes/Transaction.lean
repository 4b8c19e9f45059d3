import BinderForLinux.Driver.Changes.Buffers

/-!
# Transactions as changes

From the allocation of the buffer to the queued transaction, or back to where it
started: `binder_transaction` and `BC_FREE_BUFFER` taken apart into changes. The
claims that are held on the way are those that the buffer makes in the end, when
its objects are disjoint.
-/

namespace BinderForLinux

namespace Driver

open Library

/-- A piece of the driver that leads from `s` to `s'` by events that meet `ok`,
with the tally `δ`. -/
def Moves (L : Layout) (ok : Event → Prop) (s s' : State) (δ : Claim → ℤ) : Prop :=
  ∃ es, Changes L s es s' ∧ (∀ e ∈ es, ok e) ∧ ∀ c, tally s es s' c = δ c

def Solvent (s : State) (es : List Event) : Prop :=
  ∀ es₁ es₂, es = es₁ ++ es₂ → ∀ c,
    (dropped es₁).count c ≤ (s.claims c.proc).count c + (held es₁).count c

/-- A piece whose books are even and never in debt when `D` holds. -/
def Walk (L : Layout) (ok : Event → Prop) (D : Prop) (s s' : State) : Prop :=
  ∃ es, Changes L s es s' ∧ (∀ e ∈ es, ok e) ∧ (D → (∀ c, tally s es s' c = 0) ∧ Solvent s es)

section Walk

variable {L : Layout} {d : Option ProcId} {s s' s'' : State} {ok ok' : Event → Prop} {D D' : Prop}
  {δ δ' : Claim → ℤ}

theorem Moves.trans (h : Moves L ok s s' δ) (h' : Moves L ok s' s'' δ') :
    Moves L ok s s'' fun c => δ c + δ' c := by
  obtain ⟨es, hes, hok, hδ⟩ := h
  obtain ⟨es', hes', hok', hδ'⟩ := h'
  refine ⟨es ++ es', hes.append hes', ?_, fun c => by rw [tally_append, hδ, hδ']⟩
  intro e he
  rcases List.mem_append.mp he with he | he
  · exact hok e he
  · exact hok' e he

theorem Moves.congr (h : Moves L ok s s' δ) (hδ : ∀ c, δ c = δ' c) : Moves L ok s s' δ' := by
  obtain rfl : δ = δ' := funext hδ
  exact h

theorem Moves.mono (h : Moves L ok s s' δ) (hok : ∀ e, ok e → ok' e) : Moves L ok' s s' δ := by
  obtain ⟨es, hes, hev, hδ⟩ := h
  exact ⟨es, hes, fun e he => hok e (hev e he), hδ⟩

theorem Moves.coherent (h : Moves L ok s s' δ) (hs : Coherent L d s)
    (hok : ∀ e, ok e → e.stays) : Coherent L d s' := by
  obtain ⟨es, hes, hev, -⟩ := h
  exact hes.coherent hs fun e he => (hok e (hev e he)).okFor

theorem Moves.ownedBy (h : Moves L ok s s' δ) (hs : Coherent L d s)
    (hok : ∀ e, ok e → e.stays) {n : NodeId} {p : ProcId} (hn : s.OwnedBy n p) :
    s'.OwnedBy n p := by
  obtain ⟨es, hes, hev, -⟩ := h
  exact hes.ownedBy hs (fun e he => hok e (hev e he)) hn

theorem solvent_of_dropped {es : List Event} (h : dropped es = []) : Solvent s es := by
  rintro es₁ es₂ rfl c
  rw [dropped_append] at h
  simp [(List.append_eq_nil_iff.mp h).1]

theorem Solvent.append {es es' : List Event} (h : Solvent s es)
    (hes : ∀ c, tally s es s' c = 0) (h' : Solvent s' es') : Solvent s (es ++ es') := by
  intro es₁ es₂ heq c
  rcases List.append_eq_append_iff.mp heq with ⟨mid, rfl, rfl⟩ | ⟨mid, rfl, rfl⟩
  · have h₁ := h' mid es₂ rfl c
    have h₂ := hes c
    rw [tally] at h₂
    rw [dropped_append, held_append, List.count_append, List.count_append]
    omega
  · exact h es₁ mid rfl c

/-- Holding first and dropping afterwards leaves no debt when the books are even
in the end. -/
theorem solvent_of_stages {es es' : List Event} (hes : dropped es = []) (hes' : held es' = [])
    (htally : ∀ c, tally s (es ++ es') s' c = 0) : Solvent s (es ++ es') := by
  intro es₁ es₂ heq c
  rcases List.append_eq_append_iff.mp heq with ⟨mid, rfl, rfl⟩ | ⟨mid, rfl, rfl⟩
  · have h := htally c
    rw [tally, dropped_append, held_append, hes, hes', dropped_append, List.append_nil,
      List.nil_append, List.count_append] at h
    rw [dropped_append, held_append, List.count_append, List.count_append, hes, List.count_nil]
    omega
  · exact solvent_of_dropped hes es₁ mid rfl c

theorem Walk.refl (s : State) : Walk L ok D s s :=
  ⟨[], Trace.nil s, by simp, fun _ => ⟨by simp [tally, held, dropped], solvent_of_dropped rfl⟩⟩

theorem Walk.trans (h : Walk L ok D s s') (h' : Walk L ok D s' s'') : Walk L ok D s s'' := by
  obtain ⟨es, hes, hok, hD⟩ := h
  obtain ⟨es', hes', hok', hD'⟩ := h'
  refine ⟨es ++ es', hes.append hes', ?_, fun hd => ?_⟩
  · intro e he
    rcases List.mem_append.mp he with he | he
    · exact hok e he
    · exact hok' e he
  · obtain ⟨htally, hsolv⟩ := hD hd
    obtain ⟨htally', hsolv'⟩ := hD' hd
    exact ⟨fun c => by rw [tally_append, htally, htally', add_zero], hsolv.append htally hsolv'⟩

theorem Walk.mono (h : Walk L ok D s s') (hok : ∀ e, ok e → ok' e) (hD : D' → D) :
    Walk L ok' D' s s' := by
  obtain ⟨es, hes, hev, hd⟩ := h
  exact ⟨es, hes, fun e he => hok e (hev e he), fun h => hd (hD h)⟩

theorem Walk.coherent (h : Walk L ok D s s') (hs : Coherent L d s)
    (hok : ∀ e, ok e → e.stays) : Coherent L d s' := by
  obtain ⟨es, hes, hev, -⟩ := h
  exact hes.coherent hs fun e he => (hok e (hev e he)).okFor

/-- Two stages, the first of which drops nothing and the second holds nothing. -/
theorem Walk.of_stages {ok₁ ok₂ : Event → Prop} (h₁ : Moves L ok₁ s s' δ)
    (h₂ : Moves L ok₂ s' s'' δ') (hok₁ : ∀ e, ok₁ e → ok e ∧ dropped [e] = [])
    (hok₂ : ∀ e, ok₂ e → ok e ∧ held [e] = []) (hδ : D → ∀ c, δ c + δ' c = 0) :
    Walk L ok D s s'' := by
  obtain ⟨es, hes, hev, htally⟩ := h₁
  obtain ⟨es', hes', hev', htally'⟩ := h₂
  have hdropped : dropped es = [] := by
    refine List.filterMap_eq_nil_iff.mpr fun e he => ?_
    simpa [dropped] using (hok₁ e (hev e he)).2
  have hheld : held es' = [] := by
    refine List.filterMap_eq_nil_iff.mpr fun e he => ?_
    simpa [held] using (hok₂ e (hev' e he)).2
  refine ⟨es ++ es', hes.append hes', ?_, fun hD => ?_⟩
  · intro e he
    rcases List.mem_append.mp he with he | he
    · exact (hok₁ e (hev e he)).1
    · exact (hok₂ e (hev' e he)).1
  · have hzero : ∀ c, tally s (es ++ es') s'' c = 0 := fun c => by
      rw [tally_append, htally, htally', hδ hD]
    exact ⟨hzero, solvent_of_stages hdropped hheld hzero⟩

theorem Moves.single {e : Event} (h : Change L s e s') (he : ok e) (hheld : held [e] = [])
    (hdropped : dropped [e] = []) :
    Moves L ok s s' fun c => (s'.claims c.proc).count c - (s.claims c.proc).count c :=
  ⟨[e], Trace.single h, by simpa using he, fun c => by simp [tally, hheld, hdropped]⟩

theorem Walk.single {e : Event} (h : Change L s e s') (he : ok e) (hheld : held [e] = [])
    (hdropped : dropped [e] = []) (hc : s'.contents = s.contents) : Walk L ok D s s' :=
  ⟨[e], Trace.single h, by simpa using he, fun _ =>
    ⟨fun c => by simp [tally, hheld, hdropped, State.claims, hc], solvent_of_dropped hdropped⟩⟩

theorem Walk.idle (h : Idle L s s') (hok : ok .quiet) : Walk L ok D s s' :=
  Walk.single (Change.idle h) hok rfl rfl h.contents

theorem RefsOnly.contents (h : RefsOnly s s') : s'.contents = s.contents := by
  funext p
  simp only [State.contents, h.area]

theorem Walk.quiet (hr : RefsOnly s s') (h : Change L s .quiet s') (hok : ok .quiet) :
    Walk L ok D s s' :=
  Walk.single h hok rfl rfl hr.contents

theorem Walk.moves (h : Walk L ok True s s') : Moves L ok s s' fun _ => 0 := by
  obtain ⟨es, hes, hok, hD⟩ := h
  exact ⟨es, hes, hok, (hD trivial).1⟩

end Walk

/-- The event changes flags and links, or nothing at all. -/
def Event.isQuiet (e : Event) : Prop := e = .quiet

theorem Idle.quiet {L : Layout} {s s' : State} {D : Prop} (h : Idle L s s') :
    Walk L Event.isQuiet D s s' :=
  Walk.idle h rfl

theorem Event.isQuiet.stays (e : Event) (h : e.isQuiet) : e.stays := by
  rintro p rfl
  cases h

def Event.transacts (p q : ProcId) : Event → Prop
  | .quiet => True
  | .area => True
  | .hold c => c.proc = q
  | .refuse c => c.proc = q
  | .drop c => c.proc = q
  | .newRef r owner => r = q ∧ (owner = some p ∨ owner ≠ some q)
  | _ => False

/-- The events that fill the buffer of a transaction from `p` to `q`. -/
def Event.gathers (p q : ProcId) : Event → Prop
  | .quiet => True
  | .area => True
  | .hold c => c.proc = q
  | .refuse c => c.proc = q
  | .newRef r owner => r = q ∧ (owner = some p ∨ owner ≠ some q)
  | _ => False

def Event.sheds (q : ProcId) : Event → Prop
  | .quiet => True
  | .area => True
  | .drop c => c.proc = q
  | _ => False

theorem Event.gathers.transacts {p q : ProcId} (e : Event) (h : e.gathers p q) :
    e.transacts p q ∧ dropped [e] = [] := by
  cases e <;> first | exact ⟨h, rfl⟩ | exact h.elim

theorem Event.sheds.transacts {p q : ProcId} (e : Event) (h : e.sheds q) :
    e.transacts p q ∧ held [e] = [] := by
  cases e <;> first | exact ⟨h, rfl⟩ | exact h.elim

theorem Event.isQuiet.drops_none {q : ProcId} (e : Event) (h : e.isQuiet) :
    e.sheds q ∧ dropped [e] = [] := by
  cases h
  exact ⟨trivial, rfl⟩

theorem Event.sheds.holds_none {q : ProcId} (e : Event) (h : e.sheds q) :
    e.sheds q ∧ held [e] = [] :=
  ⟨h, (Event.sheds.transacts (p := q) e h).2⟩

theorem Event.gathers.stays {p q : ProcId} (e : Event) (h : e.gathers p q) : e.stays := by
  rintro r rfl
  exact h.elim

theorem Event.sheds.stays {q : ProcId} (e : Event) (h : e.sheds q) : e.stays := by
  rintro r rfl
  exact h.elim

theorem Event.isQuiet.gathers {p q : ProcId} (e : Event) (h : e.isQuiet) : e.gathers p q := by
  cases h
  trivial

theorem Event.isQuiet.sheds {q : ProcId} (e : Event) (h : e.isQuiet) : e.sheds q := by
  cases h
  trivial

theorem Event.transacts.stays {p q : ProcId} (e : Event) (h : e.transacts p q) : e.stays := by
  rintro r rfl
  exact h.elim

theorem Event.translates.gathers {c : TranslateCtx} {e : Event} (h : e.translates c) :
    e.gathers c.proc c.target := by
  cases e <;> first | exact h | exact h.elim

theorem Event.releases.sheds {q : ProcId} {e : Event} (h : e.releases q) : e.sheds q := by
  cases e <;> first | exact h | exact h.elim

section Buffers

variable {L : Layout} {d : Option ProcId} {s s' : State} {p : ProcId} {a : ℕ} {b : Buffer}

theorem AreaOk.deref_of_hasBuffer (h : AreaOk L (s.area p)) (hb : s.HasBuffer p b) :
    derefBuffer s p b.addr = .ok b := by
  obtain ⟨hmem, hfree⟩ := hb
  rcases h with hun | ⟨hsound, -⟩
  · rw [hun] at hmem
    simp [Area.unmapped] at hmem
  · obtain ⟨pre, post, hbs, hcut⟩ := hsound.exists_cut hmem
    refine derefBuffer_eq_ok.mpr ⟨?_, hfree⟩
    rw [hbs]
    exact hcut.findBuffer_eq

theorem hasBuffer_of_deref (hb : derefBuffer s p a = .ok b) : s.HasBuffer p b ∧ b.addr = a := by
  obtain ⟨hfind, hfree⟩ := derefBuffer_eq_ok.mp hb
  exact ⟨⟨List.mem_of_find?_eq_some hfind, hfree⟩, by simpa using List.find?_some hfind⟩

theorem deref_of_contents (h : AreaOk L (s'.area p)) (hc : s'.contents = s.contents)
    (hb : derefBuffer s p a = .ok b) :
    ∃ b', derefBuffer s' p a = .ok b' ∧ b'.content = b.content := by
  obtain ⟨hmem, haddr⟩ := hasBuffer_of_deref hb
  have hin : b.content ∈ s'.contents p := hc ▸ mem_contents.mpr ⟨b, hmem, rfl⟩
  obtain ⟨b', hb', hcontent⟩ := mem_contents.mp hin
  have haddr' : b'.addr = a := (congrArg Prod.fst hcontent).trans haddr
  exact ⟨b', haddr' ▸ h.deref_of_hasBuffer hb', hcontent⟩

theorem newTargetsOwned_of_replace
    {pre post xs ys : List (ℕ × Option NodeId × ℕ × Data × List ℕ)}
    (hs : s.contents p = pre ++ xs ++ post) (hs' : s'.contents p = pre ++ ys ++ post)
    (hother : ∀ q, q ≠ p → s'.contents q = s.contents q)
    (hys : ∀ y ∈ ys, ∀ n, y.2.1 = some n → s.OwnedBy n p) : NewTargetsOwned s s' := by
  intro q c n hc hn
  have hmem : c.content ∈ s'.contents q := mem_contents.mpr ⟨c, hc, rfl⟩
  have hold : c.content ∈ s.contents q → ∃ b₀, s.HasBuffer q b₀ ∧ b₀.targetNode = some n := by
    intro hin
    obtain ⟨b₀, hb₀, hcontent⟩ := mem_contents.mp hin
    exact ⟨b₀, hb₀, (congrArg (fun x => x.2.1) hcontent).trans hn⟩
  by_cases hq : q = p
  · subst hq
    rw [hs', List.append_assoc, List.mem_append, List.mem_append] at hmem
    rcases hmem with hmem | hmem | hmem
    · exact .inl (hold (by rw [hs]; simp [hmem]))
    · exact .inr (hys _ hmem n hn)
    · exact .inl (hold (by rw [hs]; simp [hmem]))
  · rw [hother q hq] at hmem
    exact .inl (hold hmem)

end Buffers

section Send

variable {L : Layout} {d : Option ProcId} {s s' : State} {p : ProcId} {th : ThreadId} {t : TxnId}
  {tg : Target} {tr : TransactionData} {env : TxnEnv}

theorem asyncTarget_walk {n : NodeId} {q q' : Queue} {D : Prop}
    (hrun : asyncTarget s n q = .ok (q', s')) : Walk L Event.isQuiet D s s' := by
  simp only [asyncTarget, except_bind_eq_ok, deref_eq_ok] at hrun
  obtain ⟨nd, hnd, hrun⟩ := hrun
  split at hrun
  · simp only [except_pure_eq_ok, Prod.mk.injEq] at hrun
    exact hrun.2 ▸ Walk.refl s
  · simp only [except_pure_eq_ok, Prod.mk.injEq] at hrun
    obtain ⟨-, rfl⟩ := hrun
    exact Walk.quiet (RefsOnly.setNode hnd rfl)
      (Change.note hnd (NodeMoved.refl _ _ _) (fun _ hmem => hmem) rfl) rfl

theorem commitStacks_walk (hs : Coherent L d s) {reply oneWay : Bool} {q : Queue}
    {parent : Option TxnId} {D : Prop}
    (hrun : commitStacks s th t tg reply oneWay = .ok (q, parent, s')) :
    Walk L Event.isQuiet D s s' ∧ s'.contents = s.contents := by
  have hidle : ∀ {s'}, Idle L s s' → Walk L Event.isQuiet D s s' ∧ s'.contents = s.contents :=
    fun h => ⟨Walk.idle h rfl, h.contents⟩
  simp only [commitStacks] at hrun
  split at hrun
  · split at hrun
    · cases hrun
    · simp only [except_bind_eq_ok, except_pure_eq_ok, Prod.mk.injEq] at hrun
      obtain ⟨s₁, hpop, -, -, rfl⟩ := hrun
      exact hidle (binderPopTransaction_idle hs.grounded hpop)
  · split at hrun
    · simp only [except_bind_eq_ok, deref_eq_ok, except_pure_eq_ok, Prod.mk.injEq] at hrun
      obtain ⟨thr, hth, -, -, rfl⟩ := hrun
      exact hidle (hs.grounded.idle_setThread hth rfl)
    · split at hrun
      · cases hrun
      · simp only [except_bind_eq_ok, except_pure_eq_ok, Prod.mk.injEq] at hrun
        obtain ⟨⟨q', s₁⟩, hasync, -, -, rfl⟩ := hrun
        refine ⟨asyncTarget_walk hasync, ?_⟩
        simp only [asyncTarget, except_bind_eq_ok, deref_eq_ok] at hasync
        obtain ⟨nd, hnd, hasync⟩ := hasync
        split at hasync
        · simp only [except_pure_eq_ok, Prod.mk.injEq] at hasync
          exact hasync.2 ▸ rfl
        · simp only [except_pure_eq_ok, Prod.mk.injEq] at hasync
          exact hasync.2 ▸ rfl

/-- The fields of a buffer as the transaction `t` is queued. -/
def Buffer.filled (t : TxnId) (node : Option NodeId) (data : Data) (offs : List ℕ) (b : Buffer) :
    Buffer :=
  { b with
    allowUserFree := false
    transaction := some t
    targetNode := node
    data := data
    offsets := offs }

theorem keepsBuffer_filled (t : TxnId) (node : Option NodeId) (data : Data) (offs : List ℕ) :
    KeepsBuffer (Buffer.filled t node data offs) :=
  ⟨fun _ => rfl, fun _ => rfl, fun _ => rfl⟩

/-- The buffer of a transaction before it is queued. -/
def IsCleared (s : State) (q : ProcId) (a dataSize : ℕ) : Prop :=
  ∃ b, derefBuffer s q a = .ok b ∧ b.content = (a, none, dataSize, (fun _ => 0), [])

theorem contentClaims_cleared (q : ProcId) (a dataSize : ℕ) :
    contentClaims q (a, none, dataSize, (fun _ => 0), []) = [] := rfl

theorem IsCleared.of_contents {q : ProcId} {a dataSize : ℕ} (h : IsCleared s q a dataSize)
    (harea : AreaOk L (s'.area q)) (hc : s'.contents = s.contents) :
    IsCleared s' q a dataSize := by
  obtain ⟨b, hb, hcontent⟩ := h
  obtain ⟨b', hb', hcontent'⟩ := deref_of_contents harea hc hb
  exact ⟨b', hb', hcontent'.trans hcontent⟩

theorem filled_moves (ok : Event → Prop) (data : Data) (offs : List ℕ) (hs : Coherent L d s)
    {q : ProcId} {a dataSize : ℕ} {node : Option NodeId} (hclear : IsCleared s q a dataSize)
    (hown : ∀ n, node = some n → s.OwnedBy n q) (hok : ok .area) :
    Moves L ok s (s.updateBuffer q a (Buffer.filled t node data offs)) fun c =>
      (bufferClaims q node dataSize data offs).count c := by
  obtain ⟨b, hb, hcontent⟩ := hclear
  have hf := keepsBuffer_filled t node data offs
  obtain ⟨-, pre, post, hpre, hpost⟩ := contents_updateBuffer (hs.areas q) hb hf
  have hother : ∀ r, r ≠ q → (s.updateBuffer q a (Buffer.filled t node data offs)).contents r =
      s.contents r := fun r hr => contents_setArea_of_ne hr
  have hpre' : s.contents q = pre ++ [b.content] ++ post := by simpa using hpre
  have hpost' : (s.updateBuffer q a (Buffer.filled t node data offs)).contents q =
      pre ++ [(b.filled t node data offs).content] ++ post := by simpa using hpost
  have hch : Change L s .area (s.updateBuffer q a (Buffer.filled t node data offs)) := by
    refine Change.area (TablesKept.setArea hs.grounded ((hs.areas q).modifyBuffer a hf)) ?_
    refine newTargetsOwned_of_replace hpre' hpost' hother fun y hy n hn => ?_
    obtain rfl := List.mem_singleton.mp hy
    exact hown n hn
  refine (Moves.single hch hok rfl rfl).congr fun c => ?_
  have hcount := count_claims_replace hpre' hpost' hother c
  have hsize : b.dataSize = dataSize := congrArg (fun x => x.2.2.1) hcontent
  have hclaims : contentClaims q (b.filled t node data offs).content =
      bufferClaims q node dataSize data offs := by rw [← hsize]; rfl
  simp only [List.flatMap_singleton, hcontent, contentClaims_cleared, List.count_nil,
    hclaims] at hcount
  omega

theorem commitTransaction_moves (hs : Coherent L d s) {reply : Bool} {a : ℕ} {data : Data}
    (hclear : IsCleared s tg.proc a tr.dataSize)
    (hown : ∀ n, tg.node = some n → s.OwnedBy n tg.proc)
    (hrun : commitTransaction s p th t tg tr reply env a data = .ok s') :
    Moves L (Event.gathers p tg.proc) s s' fun c =>
      (bufferClaims tg.proc tg.node tr.dataSize data tr.offsetList).count c := by
  simp only [commitTransaction, except_bind_eq_ok, except_pure_eq_ok] at hrun
  obtain ⟨_, _, _, _, ⟨q, parent, s₁⟩, hstacks, rfl⟩ := hrun
  obtain ⟨hw₁, hc₁⟩ := commitStacks_walk (D := True) hs hstacks
  have hs₁ := hw₁.coherent hs Event.isQuiet.stays
  have hidle := hs₁.grounded.idle_setTxn t
    { sender := p
      fromThread := if !reply && !tfOneWay tr.flags then some th else none
      fromParent := parent
      toProc := some tg.proc
      toThread := tg.thread
      toParent := none
      needReply := !reply && !tfOneWay tr.flags
      buffer := some (tg.proc, a)
      code := tr.code
      flags := tr.flags
      senderEuid := env.senderEuid }
  have hs₂ := hs₁.idle hidle
  have hfill := filled_moves (t := t) (Event.gathers p tg.proc) data tr.offsetList hs₂
    (hclear.of_contents (hs₂.areas tg.proc) (hidle.contents.trans hc₁))
    (fun n hn => hidle.toTablesKept.ownedBy
      (hw₁.moves.ownedBy hs Event.isQuiet.stays (hown n hn))) trivial
  have hs₃ := hfill.coherent hs₂ Event.gathers.stays
  have hadd₁ := hs₃.grounded.idle_listAddTail q (w := .transaction t) (by simp)
  have hadd₂ := (hs₃.idle hadd₁).grounded.idle_listAddTail (.thread th)
    (w := .transactionComplete t)
    (by simp)
  have hbefore : Walk L (Event.gathers p tg.proc) True s _ :=
    (hw₁.mono Event.isQuiet.gathers id).trans (Walk.idle hidle trivial)
  have hafter : Walk L (Event.gathers p tg.proc) True _ _ :=
    (Walk.idle hadd₁ trivial).trans (Walk.idle hadd₂ trivial)
  exact ((hbefore.moves.trans hfill).trans hafter.moves).congr fun c => by ring

theorem freeBuf_moves (ok : Event → Prop) (hs : Coherent L d s)
    {q : ProcId} {a : ℕ} {b : Buffer} {ar : Area}
    (hb : derefBuffer s q a = .ok b)
    (hrun : binderFreeBuf L (s.area q) a = .ok ar) (hok : ok .area) :
    Moves L ok s (s.setArea q ar) fun c => - (contentClaims q b.content).count c := by
  obtain ⟨hok', pre, post, hpre, hpost⟩ := contents_freeBuf (hs.areas q) hb hrun
  have hother : ∀ r, r ≠ q → (s.setArea q ar).contents r = s.contents r :=
    fun r hr => contents_setArea_of_ne hr
  have hpre' : s.contents q = pre ++ [b.content] ++ post := by simpa using hpre
  have hpost' : (s.setArea q ar).contents q = pre ++ [] ++ post := by simpa using hpost
  have hch : Change L s .area (s.setArea q ar) :=
    Change.area (TablesKept.setArea hs.grounded hok')
      (newTargetsOwned_of_replace hpre' hpost' hother (by simp))
  refine (Moves.single hch hok rfl rfl).congr fun c => ?_
  have hcount := count_claims_replace hpre' hpost' hother c
  simp only [List.flatMap_singleton, List.flatMap_nil, List.count_nil] at hcount
  omega

theorem Releases.moves {q : ProcId} {cls : List Claim} (h : Releases L q s s' cls) :
    Moves L (Event.sheds q) s s' fun c => cls.count c := by
  obtain ⟨es, hes, hev, rfl⟩ := h.changes
  refine ⟨es, hes, fun e he => (hev e he).sheds, fun c => ?_⟩
  have hheld : held es = [] := by
    refine List.filterMap_eq_nil_iff.mpr fun e he => ?_
    have := hev e he
    cases e <;> first | rfl | exact this.elim
  rw [tally_of_contents es h.refsOnly.contents, hheld]
  simp

theorem Translates.moves {c : TranslateCtx} {cls : List Claim} (h : Translates L c s s' cls) :
    Moves L (Event.gathers c.proc c.target) s s' fun cl => - cls.count cl := by
  obtain ⟨es, hes, hev, rfl⟩ := h.changes
  refine ⟨es, hes, fun e he => (hev e he).gathers, fun cl => ?_⟩
  have hdropped : dropped es = [] := by
    refine List.filterMap_eq_nil_iff.mpr fun e he => ?_
    have := hev e he
    cases e <;> first | rfl | exact this.elim
  rw [tally_of_contents es h.refsOnly.contents, hdropped]
  simp

/-- Unwinding releases what was translated and frees the buffer, which made no
claims yet. -/
theorem unwindBuffer_moves (hs : Coherent L d s) {a failedAt : ℕ} {data : Data}
    (hclear : IsCleared s tg.proc a tr.dataSize)
    (hown : ∀ n, tg.node = some n → s.OwnedBy n tg.proc)
    (hrun : unwindBuffer L s tg tr a data failedAt = .ok s') :
    Moves L (Event.sheds tg.proc) s s' fun c =>
      (bufferClaims tg.proc tg.node tr.dataSize data (tr.offsetList.take failedAt)).count c := by
  simp only [unwindBuffer, except_bind_eq_ok, except_pure_eq_ok] at hrun
  obtain ⟨b, hb, s₁, hrel, ar, hfree, rfl⟩ := hrun
  obtain ⟨b', hb', hcontent⟩ := hclear
  obtain rfl : b = b' := by
    rw [hb'] at hb
    cases hb
    rfl
  have hsize : b.dataSize = tr.dataSize := congrArg (fun x => x.2.2.1) hcontent
  have h₁ := bufferRelease_changes (L := L) (p := tg.proc) hs (b := { b with
    targetNode := tg.node
    data := data
    offsets := tr.offsetList }) hown hrel
  have hs₁ := h₁.coherent hs
  obtain ⟨b₁, hb₁, hcontent₁⟩ :=
    deref_of_contents (hs₁.areas tg.proc) h₁.refsOnly.contents hb
  have h₂ := freeBuf_moves (Event.sheds tg.proc) hs₁ hb₁ hfree trivial
  rw [hcontent₁, hcontent] at h₂
  refine (h₁.moves.trans h₂).congr fun c => ?_
  simp [hsize, contentClaims_cleared]

theorem allocBuf_moves (ok : Event → Prop) (hs : Coherent L d s)
    {q : ProcId} {a dataSize offsetsSize : ℕ}
    {isAsync : Bool} {pages : PageEnv} {ar : Area} (hok : ok .area)
    (hrun : binderAllocBuf L (s.area q) dataSize offsetsSize isAsync pages = .ok (some a, ar)) :
    Moves L ok s ((s.setArea q ar).updateBuffer q a Buffer.cleared) (fun _ => 0) ∧
      IsCleared ((s.setArea q ar).updateBuffer q a Buffer.cleared) q a dataSize := by
  obtain ⟨harea, b, pre, post, hb, hcontent, -, hpre, hpost⟩ :=
    contents_allocBuf (hs.areas q) hrun
  have hsame : (s.setArea q ar).updateBuffer q a Buffer.cleared = s.setArea q
      (((s.setArea q ar).updateBuffer q a Buffer.cleared).area q) := by
    simp [State.updateBuffer, State.setArea]
  have hother : ∀ r, r ≠ q →
      ((s.setArea q ar).updateBuffer q a Buffer.cleared).contents r = s.contents r := by
    intro r hr
    rw [hsame]
    exact contents_setArea_of_ne hr
  have hpre' : s.contents q = pre ++ [] ++ post := by simpa using hpre
  have hpost' : ((s.setArea q ar).updateBuffer q a Buffer.cleared).contents q =
      pre ++ [b.content] ++ post := by simpa using hpost
  have hch : Change L s .area ((s.setArea q ar).updateBuffer q a Buffer.cleared) := by
    refine Change.area ?_ (newTargetsOwned_of_replace hpre' hpost' hother ?_)
    · have hk := TablesKept.setArea (p := q) hs.grounded harea
      rw [← hsame] at hk
      exact hk
    · intro y hy n hn
      obtain rfl := List.mem_singleton.mp hy
      rw [hcontent] at hn
      cases hn
  refine ⟨(Moves.single hch hok rfl rfl).congr fun c => ?_, b, hb, hcontent⟩
  have hcount := count_claims_replace hpre' hpost' hother c
  simp only [List.flatMap_singleton, List.flatMap_nil, List.count_nil, hcontent,
    contentClaims_cleared] at hcount
  omega

theorem holdTarget_changes {c : TranslateCtx} {node : Option NodeId}
    (hown : ∀ n, node = some n → s.OwnedBy n c.target) (hrun : holdTarget s node = .ok s') :
    Translates L c s s' (targetClaim c.target node) := by
  cases node with
  | none =>
      obtain rfl : s = s' := by simpa [holdTarget] using hrun
      exact Translates.refl s
  | some n =>
      simp only [holdTarget] at hrun
      cases hinc : binderIncNode s n true false none with
      | error e =>
          rw [hinc] at hrun
          cases hrun
      | ok x =>
          obtain ⟨ok, s₁⟩ := x
          rw [hinc] at hrun
          cases hrun
          obtain ⟨nd, hnd⟩ : ∃ nd, s.nodes n = some nd := by
            simp only [binderIncNode, except_bind_eq_ok, deref_eq_ok] at hinc
            obtain ⟨nd, hnd, -⟩ := hinc
            exact ⟨nd, hnd⟩
          exact holdNode_changes hnd
            ⟨rfl, (hown n rfl).2 nd hnd, rfl⟩ rfl hinc

theorem sendToTarget_walk (hs : Coherent L d s) {reply : Bool}
    (hth : s.queueOwner (.thread th) = some p)
    (hown : ∀ n, tg.node = some n → s.OwnedBy n tg.proc)
    (hrun : sendToTarget L s p th t tg tr reply env = .ok s') :
    Walk L (Event.transacts p tg.proc) (DisjointObjects tr.offsetList) s s' := by
  simp only [sendToTarget, except_bind_eq_ok] at hrun
  obtain ⟨⟨x, ar⟩, halloc, hrun⟩ := hrun
  cases x with
  | none =>
      simp only at hrun
      rw [allocBuf_none (hs.areas tg.proc) halloc] at hrun
      exact Walk.idle (transactionFailed_idle hs.grounded hrun) trivial
  | some a =>
      simp only [except_bind_eq_ok] at hrun
      obtain ⟨s₂, hhold, acceptFds, _, ⟨y, s₃, data⟩, hfill, hrun⟩ := hrun
      obtain ⟨h₁, hclear₁⟩ :=
        allocBuf_moves (Event.gathers p tg.proc) hs trivial halloc
      have hs₁ := h₁.coherent hs Event.gathers.stays
      have hown₁ := fun n hn => h₁.ownedBy hs Event.gathers.stays (hown n hn)
      have h₂ := holdTarget_changes (L := L) (c := ⟨p, th, tg.proc, tr.dataSize, acceptFds, env⟩)
        hown₁ hhold
      have hs₂ := h₂.coherent hs₁
      have hth₂ : s₂.queueOwner (.thread th) = some p := (h₂.refsOnly.queueOwner _).trans hth
      obtain ⟨done, rest, cls, hoffs, hnone, hsome, h₃⟩ :=
        fillBuffer_changes (c := ⟨p, th, tg.proc, tr.dataSize, acceptFds, env⟩) hs₂ hth₂ hfill
      have h₂₃ := h₂.trans h₃.translates
      have hs₃ := h₂₃.coherent hs₁
      have hclear₃ := hclear₁.of_contents (hs₃.areas tg.proc) h₂₃.refsOnly.contents
      have hown₃ := fun n hn => h₂₃.refsOnly.ownedBy (hown₁ n hn)
      have hbefore := h₁.trans h₂₃.moves
      cases y with
      | none =>
          obtain rfl := hnone rfl
          simp only at hrun
          have h₄ := commitTransaction_moves (p := p) hs₃ hclear₃ hown₃ hrun
          have h₅ : Walk L Event.isQuiet True s' s' := Walk.refl s'
          refine Walk.of_stages (hbefore.trans h₄) h₅.moves Event.gathers.transacts
            (fun e he => Event.sheds.transacts e (he.sheds e)) fun hdis c => ?_
          rw [h₃.claims hdis, bufferClaims, hoffs, List.append_nil]
          ring
      | some k =>
          obtain rfl := hsome k rfl
          simp only [except_bind_eq_ok] at hrun
          obtain ⟨s₄, hunwind, hfail⟩ := hrun
          have h₄ := unwindBuffer_moves hs₃ hclear₃ hown₃ hunwind
          have hs₄ := h₄.coherent hs₃ Event.sheds.stays
          have h₅ : Walk L (Event.sheds tg.proc) True _ _ :=
            Walk.idle (transactionFailed_idle hs₄.grounded hfail) trivial
          refine Walk.of_stages hbefore (h₄.trans h₅.moves) Event.gathers.transacts
            Event.sheds.transacts fun hdis c => ?_
          rw [h₃.claims hdis, bufferClaims, hoffs, List.take_left']
          · ring
          · rfl

end Send

end Driver

end BinderForLinux
