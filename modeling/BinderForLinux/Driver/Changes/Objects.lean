import BinderForLinux.Driver.Changes.Idle

/-!
# The objects of a transaction

The translation loop and the release loop as sequences of changes. Translating
an object takes a count for the claim that the rewritten object makes in the
target process; releasing an object gives back the count for the claim that is
read from its bytes.
-/

namespace BinderForLinux

namespace Driver

open Library

/-! ### Claims read from bytes -/

/-- The claim that the object at `off` makes in a buffer of `p`. -/
def objectClaim (p : ProcId) (dataSize : ℕ) (data : Data) (off : ℕ) : Option Claim :=
  if !validOffset dataSize off then none
  else
    match data.type off with
    | some (.binder strong) => some (.object p (data.binder off) strong)
    | some (.handle strong) => some (.handle p (data.handle off) strong)
    | _ => none

def objectClaims (p : ProcId) (dataSize : ℕ) (data : Data) (offs : List ℕ) : List Claim :=
  offs.filterMap (objectClaim p dataSize data)

def SameOutside (off : ℕ) (data data' : Data) : Prop :=
  ∀ i, i < off ∨ off + objectSize ≤ i → data' i = data i

theorem objectClaim_congr {p : ProcId} {dataSize off : ℕ} {data data' : Data}
    (h : ∀ i, off ≤ i → i < off + objectSize → data' i = data i) :
    objectClaim p dataSize data' off = objectClaim p dataSize data off := by
  have htype : data'.type off = data.type off :=
    congrArg ObjectType.ofCode (getLE_congr fun i h₁ h₂ =>
      h i h₁ (by simp only [objectSize]; omega))
  have hbinder : data'.binder off = data.binder off :=
    getLE_congr fun i h₁ h₂ => h i (by omega) (by simp only [objectSize]; omega)
  have hhandle : data'.handle off = data.handle off :=
    getLE_congr fun i h₁ h₂ => h i (by omega) (by simp only [objectSize]; omega)
  simp only [objectClaim, htype, hbinder, hhandle]

def ObjectsApart (off off' : ℕ) : Prop := off + objectSize ≤ off' ∨ off' + objectSize ≤ off

/-- The objects that a list of offsets names are pairwise disjoint. -/
def DisjointObjects (offs : List ℕ) : Prop := offs.Pairwise ObjectsApart

section Bytes

variable {data : Data} {off : ℕ}

theorem type_setHandle (v : ℕ) : (data.setHandle off v).type off = data.type off :=
  congrArg ObjectType.ofCode (getLE_putLE_of_disjoint (by omega))

theorem handle_setHandle {v : ℕ} (hv : v < 256 ^ 4) : (data.setHandle off v).handle off = v :=
  getLE_putLE_self hv

theorem type_setType (ty : ObjectType) : (data.setType off ty).type off = some ty := by
  unfold Data.type Data.typeCode Data.setType
  rw [getLE_putLE_self ty.code_lt]
  exact ObjectType.ofCode_code ty

theorem type_setBinder (ptr cookie : ℕ) :
    (data.setBinder off ptr cookie).type off = data.type off := by
  unfold Data.type Data.typeCode Data.setBinder
  rw [getLE_putLE_of_disjoint (by omega), getLE_putLE_of_disjoint (by omega)]

theorem binder_setBinder {ptr : ℕ} (cookie : ℕ) (hptr : ptr < 256 ^ 8) :
    (data.setBinder off ptr cookie).binder off = ptr := by
  unfold Data.binder Data.setBinder
  rw [getLE_putLE_of_disjoint (by omega), getLE_putLE_self hptr]

theorem sameOutside_setHandle (v : ℕ) : SameOutside off data (data.setHandle off v) :=
  fun i hi => putLE_outside (by simp only [objectSize] at hi; omega)

theorem sameOutside_setType (ty : ObjectType) : SameOutside off data (data.setType off ty) :=
  fun i hi => putLE_outside (by simp only [objectSize] at hi; omega)

theorem sameOutside_setBinder (ptr cookie : ℕ) :
    SameOutside off data (data.setBinder off ptr cookie) :=
  fun i hi => (putLE_outside (by simp only [objectSize] at hi; omega)).trans
    (putLE_outside (by simp only [objectSize] at hi; omega))

theorem SameOutside.trans {data' data'' : Data} (h : SameOutside off data data')
    (h' : SameOutside off data' data'') : SameOutside off data data'' :=
  fun i hi => (h' i hi).trans (h i hi)

end Bytes

/-! ### Translating -/

def Event.translates (c : TranslateCtx) : Event → Prop
  | .quiet => True
  | .hold cl => cl.proc = c.target
  | .refuse cl => cl.proc = c.target
  | .newRef p owner => p = c.target ∧ (owner = some c.proc ∨ owner ≠ some c.target)
  | _ => False

theorem Event.translates.stays {c : TranslateCtx} {e : Event} (h : e.translates c) :
    e.stays := by
  rintro p rfl
  exact h.elim

/-- The state after a translation that held the claims `cls`. -/
structure Translates (L : Layout) (c : TranslateCtx) (s s' : State) (cls : List Claim) : Prop where
  refsOnly : RefsOnly s s'
  changes : ∃ es, Changes L s es s' ∧ (∀ e ∈ es, e.translates c) ∧ held es = cls

section Translate

variable {L : Layout} {d : Option ProcId} {s s' s'' : State} {c : TranslateCtx} {k off : ℕ}
  {data data' : Data}

theorem Translates.refl (s : State) : Translates L c s s [] :=
  ⟨RefsOnly.refl s, [], Trace.nil s, by simp, rfl⟩

theorem Translates.trans {cls cls' : List Claim} (h : Translates L c s s' cls)
    (h' : Translates L c s' s'' cls') : Translates L c s s'' (cls ++ cls') := by
  obtain ⟨es, hes, hev, rfl⟩ := h.changes
  obtain ⟨es', hes', hev', rfl⟩ := h'.changes
  refine ⟨h.refsOnly.trans h'.refsOnly, es ++ es', hes.append hes', ?_, held_append es es'⟩
  intro e he
  rcases List.mem_append.mp he with he | he
  · exact hev e he
  · exact hev' e he

theorem Translates.coherent {cls : List Claim} (h : Translates L c s s' cls)
    (hs : Coherent L d s) : Coherent L d s' := by
  obtain ⟨es, hes, hev, -⟩ := h.changes
  exact hes.coherent hs fun e he => (hev e he).stays.okFor

theorem Translates.single {e : Event} (hr : RefsOnly s s') (h : Change L s e s')
    (he : e.translates c) : Translates L c s s' (held [e]) :=
  ⟨hr, [e], Trace.single h, by simpa using he, rfl⟩

theorem objectNode_changes (hs : Coherent L d s) {x : Option NodeId}
    (hrun : objectNode c k s data off = .ok (x, s')) :
    Translates L c s s' [] ∧ ∀ n, x = some n → ∃ nd, s'.nodes n = some nd ∧
      nd.proc = some c.proc ∧ nd.ptr = data.binder off := by
  unfold objectNode at hrun
  cases hget : binderGetNode s c.proc (data.binder off) with
  | some n =>
      simp only [hget, Except.ok.injEq, Prod.mk.injEq] at hrun
      obtain ⟨rfl, rfl⟩ := hrun
      refine ⟨Translates.refl s, ?_⟩
      rintro _ ⟨⟩
      exact hs.tables.getNode hget
  | none =>
      by_cases halloc : c.env.newNode k = true
      · simp only [hget, binderNewNode, Option.isSome_none, halloc, Bool.not_true, Bool.or_self,
          Bool.false_eq_true, ↓reduceIte, except_bind_eq_ok, deref_eq_ok, except_pure_eq_ok,
          Prod.mk.injEq] at hrun
        obtain ⟨nd, hnd, rfl, rfl⟩ := hrun
        obtain rfl : Node.fresh c.proc (data.binder off) (data.cookie off) = nd := by
          simpa [addNode, State.setNode] using hnd
        have hnew : Translates L c s (addNode s c.proc (Node.fresh c.proc (data.binder off)
            (data.cookie off))) [] := Translates.single (RefsOnly.addNode s c.proc _)
          (Change.newNode (L := L) hget (getLE_lt data _ 8) (getLE_lt data _ 8)) trivial
        have hset : RefsOnly (addNode s c.proc (Node.fresh c.proc (data.binder off)
            (data.cookie off))) (State.setNode _ s.nextId
              { Node.fresh c.proc (data.binder off) (data.cookie off) with
                acceptFds := (data.flags off).testBit 8 }) := RefsOnly.setNode hnd rfl
        have hnote : Translates L c (addNode s c.proc (Node.fresh c.proc (data.binder off)
            (data.cookie off))) _ [] := Translates.single hset
          (Change.note (L := L) hnd (NodeMoved.refl _ _ _) (fun _ hmem => hmem) rfl) trivial
        refine ⟨hnew.trans hnote, ?_⟩
        rintro _ ⟨⟩
        exact ⟨_, Function.update_self .., rfl, rfl⟩
      · simp only [hget, binderNewNode, halloc, Bool.not_false, Bool.or_true, ↓reduceIte,
          Except.ok.injEq, Prod.mk.injEq] at hrun
        obtain ⟨rfl, rfl⟩ := hrun
        exact ⟨Translates.refl s, by simp⟩

theorem getRefForNode_changes (hs : Coherent L d s) {n : NodeId} {nd : Node} {alloc : Bool}
    {x : Option RefId} (hnd : s.nodes n = some nd)
    (howner : nd.proc = some c.proc ∨ nd.proc ≠ some c.target)
    (hrun : binderGetRefForNode s c.target n alloc = .ok (x, s')) :
    Translates L c s s' [] ∧ ∀ r, x = some r → ∃ rf, s'.refs r = some rf ∧ rf.proc = c.target ∧
      rf.node = n := by
  rcases binderGetRefForNode_eq hrun with ⟨r, hfind, rfl, rfl⟩ | ⟨-, rfl, rfl⟩ |
      ⟨nd', hfind, hdesc, hnd', rfl, rfl⟩
  · refine ⟨Translates.refl _, ?_⟩
    rintro _ ⟨⟩
    exact hs.tables.findRef hfind
  · exact ⟨Translates.refl _, by simp⟩
  · obtain rfl : nd = nd' := by simpa [hnd] using hnd'
    refine ⟨Translates.single (RefsOnly.addRef s _ hnd) (Change.newRef hnd hfind hdesc)
      ⟨rfl, howner⟩, ?_⟩
    rintro _ ⟨⟩
    exact ⟨_, hs.tables.addRef_refs.mpr (.inl ⟨rfl, rfl⟩), rfl, rfl⟩

theorem incRef_changes (hs : Coherent L d s) {r : RefId} {rf : Ref} {nd : Node}
    {strong ok : Bool} {target : Option Queue} (hrf : s.refs r = some rf)
    (hproc : rf.proc = c.target) (hnd : s.nodes rf.node = some nd)
    (hinc : binderIncRef s r strong target = .ok (ok, s'))
    (htarget : ∀ q, target = some q → ∃ p, nd.proc = some p ∧ s.queueOwner q = some p) :
    Translates L c s s' [.handle c.target rf.desc strong] := by
  have hch := Change.holdRef (L := L) hrf hnd hinc htarget
  have hr := RefsOnly.incRef hs.tables hrf hinc
  rw [hproc] at hch
  cases ok with
  | true => exact Translates.single hr hch rfl
  | false => exact Translates.single hr hch rfl

/-- What the translation of one object leaves: on success the rewritten object
makes the claim that was counted, on failure the object is as it was. -/
structure TranslatesObject (L : Layout) (c : TranslateCtx) (s : State) (data : Data) (off : ℕ)
    (ok : Bool) (s' : State) (data' : Data) : Prop where
  translates : Translates L c s s'
    (if ok then (objectClaim c.target c.dataSize data' off).toList else [])
  outside : SameOutside off data data'

theorem TranslatesObject.failed {cls : List Claim} (h : Translates L c s s' cls)
    (hcls : cls = []) : TranslatesObject L c s data off false s' data :=
  ⟨hcls ▸ h, fun _ _ => rfl⟩

theorem translateBinder_changes (hs : Coherent L d s)
    (hth : s.queueOwner (.thread c.thread) = some c.proc)
    (hvalid : validOffset c.dataSize off = true) {strong ok : Bool}
    (hrun : translateBinder c k s data off strong = .ok (ok, s', data')) :
    TranslatesObject L c s data off ok s' data' := by
  simp only [translateBinder, except_bind_eq_ok] at hrun
  obtain ⟨⟨x, s₁⟩, hnode, hrun⟩ := hrun
  obtain ⟨h₁, hx⟩ := objectNode_changes (L := L) hs hnode
  have hs₁ := h₁.coherent hs
  cases x with
  | none =>
      simp only [except_pure_eq_ok, Prod.mk.injEq] at hrun
      obtain ⟨rfl, rfl, rfl⟩ := hrun
      exact .failed h₁ rfl
  | some n =>
      obtain ⟨nd, hnd, hproc, hptr⟩ := hx n rfl
      simp only [except_bind_eq_ok, deref_eq_ok] at hrun
      obtain ⟨nd', hnd', hrun⟩ := hrun
      obtain rfl : nd = nd' := by simpa [hnd] using hnd'
      split at hrun
      · simp only [except_pure_eq_ok, Prod.mk.injEq] at hrun
        obtain ⟨rfl, rfl, rfl⟩ := hrun
        exact .failed h₁ rfl
      split at hrun
      · simp only [except_pure_eq_ok, Prod.mk.injEq] at hrun
        obtain ⟨rfl, rfl, rfl⟩ := hrun
        exact .failed h₁ rfl
      simp only [except_bind_eq_ok] at hrun
      obtain ⟨⟨y, s₂⟩, href, hrun⟩ := hrun
      obtain ⟨h₂, hy⟩ := getRefForNode_changes (L := L) (c := c) hs₁ hnd (.inl hproc) href
      have hs₂ := h₂.coherent hs₁
      cases y with
      | none =>
          simp only [except_pure_eq_ok, Prod.mk.injEq] at hrun
          obtain ⟨rfl, rfl, rfl⟩ := hrun
          exact .failed (h₁.trans h₂) rfl
      | some r =>
          obtain ⟨rf, hrf, hrproc, hrnode⟩ := hy r rfl
          simp only [except_bind_eq_ok, deref_eq_ok] at hrun
          obtain ⟨rf', hrf', ⟨inc, s₃⟩, hinc, hrun⟩ := hrun
          obtain rfl : rf = rf' := by simpa [hrf] using hrf'
          simp only [except_pure_eq_ok, Prod.mk.injEq] at hrun
          obtain ⟨rfl, rfl, rfl⟩ := hrun
          obtain ⟨nd₂, hnd₂⟩ := hs₂.tables.ref_node hrf
          have howner : nd₂.proc = some c.proc := by
            obtain ⟨nd₁, hnd₁, hp, -⟩ := h₂.refsOnly.nodes (hs₁.tables.node_lt hnd)
              (hrnode ▸ hnd₂)
            obtain rfl : nd = nd₁ := by simpa [hnd] using hnd₁
            exact hp.trans hproc
          have h₃ := incRef_changes (L := L) (c := c) hs₂ hrf hrproc hnd₂ hinc (by
            rintro _ ⟨⟩
            exact ⟨c.proc, howner, by
              rw [h₂.refsOnly.queueOwner, h₁.refsOnly.queueOwner]; exact hth⟩)
          have hclaim : objectClaim c.target c.dataSize
              ((data.setType off (.handle strong)).setHandle off rf.desc) off =
                some (.handle c.target rf.desc strong) := by
            simp only [objectClaim, hvalid, Bool.not_true, Bool.false_eq_true, ↓reduceIte]
            rw [type_setHandle, type_setType, handle_setHandle (hs₂.tables.desc_lt hrf)]
          refine ⟨?_, (sameOutside_setType _).trans (sameOutside_setHandle _)⟩
          simpa [hclaim] using (h₁.trans h₂).trans h₃

theorem holdNode_changes {n : NodeId} {nd : Node} {strong ok : Bool}
    {cl : Claim} (hnd : s.nodes n = some nd) (hcl : cl.On n nd strong)
    (hproc : cl.proc = c.target) (hrun : binderIncNode s n strong false none = .ok (ok, s')) :
    Translates L c s s' [cl] := by
  simp only [binderIncNode, except_bind_eq_ok, deref_eq_ok, except_pure_eq_ok] at hrun
  obtain ⟨nd', hnd', hrun⟩ := hrun
  obtain rfl : nd = nd' := by simpa [hnd] using hnd'
  have hs' : s' = s.setNode n (nd.inc strong false) := by
    cases strong with
    | true =>
        simp only [incNode] at hrun
        simpa using (congrArg Prod.snd hrun).symm
    | false =>
        simp only [incNode, Bool.false_eq_true, ↓reduceIte] at hrun
        split at hrun <;> exact (congrArg Prod.snd hrun).symm
  subst hs'
  exact Translates.single (RefsOnly.setNode hnd (by simp)) (Change.hold hnd hcl) hproc

theorem translateHandle_changes (hs : Coherent L d s)
    (hvalid : validOffset c.dataSize off = true) {strong ok : Bool}
    (htype : data.type off = some (.handle strong))
    (hrun : translateHandle c k s data off strong = .ok (ok, s', data')) :
    TranslatesObject L c s data off ok s' data' := by
  simp only [translateHandle] at hrun
  cases hget : binderGetRef s c.proc (data.handle off) with
  | none =>
      simp only [hget, except_pure_eq_ok, Prod.mk.injEq] at hrun
      obtain ⟨rfl, rfl, rfl⟩ := hrun
      exact .failed (Translates.refl _) rfl
  | some r =>
      simp only [hget] at hrun
      split at hrun
      · simp only [except_pure_eq_ok, Prod.mk.injEq] at hrun
        obtain ⟨rfl, rfl, rfl⟩ := hrun
        exact .failed (Translates.refl _) rfl
      simp only [except_bind_eq_ok, deref_eq_ok] at hrun
      obtain ⟨rf, hrf, nd, hnd, hrun⟩ := hrun
      split at hrun
      · rename_i howner
        simp only [except_bind_eq_ok, except_pure_eq_ok, Prod.mk.injEq] at hrun
        obtain ⟨⟨inc, s₁⟩, hinc, rfl, rfl, rfl⟩ := hrun
        have h₁ : Translates L c s s₁ [.object c.target nd.ptr strong] :=
          holdNode_changes hnd ⟨howner, rfl, rfl⟩ rfl hinc
        have hclaim : objectClaim c.target c.dataSize
            ((data.setType off (.binder strong)).setBinder off nd.ptr nd.cookie) off =
              some (.object c.target nd.ptr strong) := by
          simp only [objectClaim, hvalid, Bool.not_true, Bool.false_eq_true, ↓reduceIte]
          rw [type_setBinder, type_setType, binder_setBinder _ (hs.tables.ptr_lt hnd).1]
        refine ⟨?_, (sameOutside_setType _).trans (sameOutside_setBinder _ _)⟩
        simpa [hclaim] using h₁
      · rename_i howner
        simp only [except_bind_eq_ok] at hrun
        obtain ⟨⟨y, s₁⟩, href, hrun⟩ := hrun
        obtain ⟨h₁, hy⟩ := getRefForNode_changes (L := L) (c := c) hs hnd (.inr howner) href
        have hs₁ := h₁.coherent hs
        cases y with
        | none =>
            simp only [except_pure_eq_ok, Prod.mk.injEq] at hrun
            obtain ⟨rfl, rfl, rfl⟩ := hrun
            exact .failed h₁ rfl
        | some r' =>
            obtain ⟨rf₁, hrf₁, hrproc, -⟩ := hy r' rfl
            simp only [except_bind_eq_ok, deref_eq_ok] at hrun
            obtain ⟨rf', hrf', ⟨inc, s₂⟩, hinc, hrun⟩ := hrun
            obtain rfl : rf₁ = rf' := by simpa [hrf₁] using hrf'
            simp only [except_pure_eq_ok, Prod.mk.injEq] at hrun
            obtain ⟨rfl, rfl, rfl⟩ := hrun
            obtain ⟨nd₁, hnd₁⟩ := hs₁.tables.ref_node hrf₁
            have h₂ := incRef_changes (L := L) (c := c) hs₁ hrf₁ hrproc hnd₁ hinc (by simp)
            have hclaim : objectClaim c.target c.dataSize (data.setHandle off rf₁.desc) off =
                some (.handle c.target rf₁.desc strong) := by
              simp only [objectClaim, hvalid, Bool.not_true, Bool.false_eq_true, ↓reduceIte]
              rw [type_setHandle, htype, handle_setHandle (hs₁.tables.desc_lt hrf₁)]
            refine ⟨?_, sameOutside_setHandle _⟩
            simpa [hclaim] using h₁.trans h₂

theorem taskFiles_changes (hs : Coherent L d s) (files : ProcId → Option (ℕ → Option File)) :
    Translates L c s { s with files := files } [] :=
  Translates.single (e := .quiet)
    ⟨le_rfl, rfl, rfl, rfl, rfl, rfl, fun _ h => ⟨_, h, rfl, rfl, rfl⟩, fun _ _ => Iff.rfl⟩
    (Change.idle (hs.grounded.idle_misc le_rfl fun _ _ h => h)) trivial

theorem translateFd_changes (hs : Coherent L d s) {ok : Bool}
    (htype : data.type off = some .fd) (hrun : translateFd c k s data off = (ok, s', data')) :
    TranslatesObject L c s data off ok s' data' := by
  unfold translateFd at hrun
  split at hrun
  · cases hrun
    exact .failed (Translates.refl _) rfl
  · split at hrun
    · cases hrun
      exact .failed (Translates.refl _) rfl
    · split at hrun
      · cases hrun
        exact .failed (Translates.refl _) rfl
      · split at hrun
        · cases hrun
          exact .failed (Translates.refl _) rfl
        · rename_i fd tbl hfd
          cases hrun
          have hclaim : objectClaim c.target c.dataSize (data.setHandle off fd) off = none := by
            simp [objectClaim, type_setHandle, htype]
          refine ⟨?_, sameOutside_setHandle _⟩
          simpa [hclaim] using taskFiles_changes hs _

theorem translateObject_changes (hs : Coherent L d s)
    (hth : s.queueOwner (.thread c.thread) = some c.proc) {ok : Bool}
    (hrun : translateObject c k s data off = .ok (ok, s', data')) :
    TranslatesObject L c s data off ok s' data' := by
  unfold translateObject at hrun
  split at hrun
  · simp only [Except.ok.injEq, Prod.mk.injEq] at hrun
    obtain ⟨rfl, rfl, rfl⟩ := hrun
    exact .failed (Translates.refl _) rfl
  · rename_i hvalid
    have hvalid : validOffset c.dataSize off = true := by simpa using hvalid
    split at hrun
    · exact translateBinder_changes hs hth hvalid hrun
    · rename_i strong htype
      exact translateHandle_changes hs hvalid htype hrun
    · rename_i htype
      simp only [Except.ok.injEq] at hrun
      exact translateFd_changes hs htype hrun
    · simp only [Except.ok.injEq, Prod.mk.injEq] at hrun
      obtain ⟨rfl, rfl, rfl⟩ := hrun
      exact .failed (Translates.refl _) rfl

/-- What the translation loop leaves: the objects in `done` are translated. -/
structure TranslatesObjects (L : Layout) (c : TranslateCtx) (s : State) (data : Data)
    (offs done : List ℕ) (s' : State) (data' : Data) (cls : List Claim) : Prop where
  translates : Translates L c s s' cls
  outside : ∀ i, (∀ off ∈ offs, i < off ∨ off + objectSize ≤ i) → data' i = data i
  claims : DisjointObjects offs → cls = objectClaims c.target c.dataSize data' done

theorem translateObjects_changes {offs : List ℕ} (hs : Coherent L d s)
    (hth : s.queueOwner (.thread c.thread) = some c.proc) {x : Option ℕ}
    (hrun : translateObjects c k s data offs = .ok (x, s', data')) :
    ∃ done rest cls, offs = done ++ rest ∧ (x = none → rest = []) ∧
      (∀ j, x = some j → j = k + done.length) ∧
      TranslatesObjects L c s data offs done s' data' cls := by
  induction offs generalizing k s data with
  | nil =>
      simp only [translateObjects, Except.ok.injEq, Prod.mk.injEq] at hrun
      obtain ⟨rfl, rfl, rfl⟩ := hrun
      exact ⟨[], [], [], rfl, fun _ => rfl, by simp, Translates.refl _, fun _ _ => rfl,
        fun _ => rfl⟩
  | cons off offs ih =>
      simp only [translateObjects, except_bind_eq_ok] at hrun
      obtain ⟨⟨ok, s₁, data₁⟩, hobj, hrun⟩ := hrun
      have h₁ := translateObject_changes hs hth hobj
      cases ok with
      | false =>
          simp only [Bool.false_eq_true, ↓reduceIte, except_pure_eq_ok, Prod.mk.injEq] at hrun
          obtain ⟨rfl, rfl, rfl⟩ := hrun
          refine ⟨[], off :: offs, [], rfl, by simp, ?_, h₁.translates, ?_, fun _ => rfl⟩
          · rintro _ ⟨⟩
            rfl
          · exact fun i hi => h₁.outside i (hi off (by simp))
      | true =>
          simp only [↓reduceIte] at hrun
          obtain ⟨done, rest, cls, rfl, hnone, hsome, h₂⟩ := ih (h₁.translates.coherent hs)
            ((h₁.translates.refsOnly.queueOwner _).trans hth) hrun
          refine ⟨off :: done, rest, _, rfl, hnone, ?_, h₁.translates.trans h₂.translates, ?_, ?_⟩
          · intro j hj
            rw [hsome j hj, List.length_cons]
            omega
          · intro i hi
            rw [h₂.outside i fun o ho => hi o (by simp [ho])]
            exact h₁.outside i (hi off (by simp))
          · intro hdis
            obtain ⟨happart, hdis⟩ := List.pairwise_cons.mp hdis
            -- the later objects leave the bytes of this one alone
            have hclaim : objectClaim c.target c.dataSize data' off =
                objectClaim c.target c.dataSize data₁ off := by
              refine objectClaim_congr fun i h₁ h₂' => h₂.outside i fun o ho => ?_
              have := happart o ho
              unfold ObjectsApart at this
              omega
            rw [h₂.claims hdis, objectClaims, objectClaims, List.filterMap_cons, hclaim]
            cases objectClaim c.target c.dataSize data₁ off <;> rfl

theorem fillBuffer_changes {tr : TransactionData} (hs : Coherent L d s)
    (hth : s.queueOwner (.thread c.thread) = some c.proc) {x : Option ℕ}
    (hrun : fillBuffer c s tr = .ok (x, s', data')) :
    ∃ done rest cls, tr.offsetList = done ++ rest ∧ (x = none → rest = []) ∧
      (∀ j, x = some j → j = done.length) ∧
      TranslatesObjects L c s tr.data tr.offsetList done s' data' cls := by
  unfold fillBuffer at hrun
  split at hrun
  · simp only [Except.ok.injEq, Prod.mk.injEq] at hrun
    obtain ⟨rfl, rfl, rfl⟩ := hrun
    refine ⟨[], tr.offsetList, [], rfl, by simp, ?_, Translates.refl _, fun _ _ => rfl,
      fun _ => rfl⟩
    rintro _ ⟨⟩
    rfl
  · obtain ⟨done, rest, cls, hoffs, hnone, hsome, h⟩ := translateObjects_changes hs hth hrun
    exact ⟨done, rest, cls, hoffs, hnone, fun j hj => by simpa using hsome j hj, h⟩

end Translate

/-! ### Releasing -/

/-- The events of releasing objects in a buffer of `p`. -/
def Event.releases (p : ProcId) : Event → Prop
  | .quiet => True
  | .drop c => c.proc = p
  | _ => False

/-- The state after the claims `cls` of `p` were given back. -/
structure Releases (L : Layout) (p : ProcId) (s s' : State) (cls : List Claim) : Prop where
  refsOnly : RefsOnly s s'
  changes : ∃ es, Changes L s es s' ∧ (∀ e ∈ es, e.releases p) ∧ dropped es = cls

section Release

variable {L : Layout} {d : Option ProcId} {s s' s'' : State} {p : ProcId} {dataSize off : ℕ}
  {data : Data} {failed : Bool}

theorem Releases.refl (s : State) : Releases L p s s [] :=
  ⟨RefsOnly.refl s, [], Trace.nil s, by simp, rfl⟩

theorem Releases.trans {cls cls' : List Claim} (h : Releases L p s s' cls)
    (h' : Releases L p s' s'' cls') : Releases L p s s'' (cls ++ cls') := by
  obtain ⟨es, hes, hev, rfl⟩ := h.changes
  obtain ⟨es', hes', hev', rfl⟩ := h'.changes
  refine ⟨h.refsOnly.trans h'.refsOnly, es ++ es', hes.append hes', ?_, dropped_append es es'⟩
  intro e he
  rcases List.mem_append.mp he with he | he
  · exact hev e he
  · exact hev' e he

theorem Event.releases.stays {e : Event} (h : e.releases p) : e.stays := by
  rintro q rfl
  exact h.elim

theorem Releases.coherent {cls : List Claim} (h : Releases L p s s' cls) (hs : Coherent L d s) :
    Coherent L d s' := by
  obtain ⟨es, hes, hev, -⟩ := h.changes
  exact hes.coherent hs fun e he => (hev e he).stays.okFor

theorem Releases.single {e : Event} (hr : RefsOnly s s') (h : Change L s e s')
    (he : e.releases p) : Releases L p s s' (dropped [e]) :=
  ⟨hr, [e], Trace.single h, by simpa using he, rfl⟩

theorem releaseObject_changes (hs : Coherent L d s)
    (hrun : releaseObject s p dataSize data failed off = .ok s') :
    Releases L p s s' (objectClaim p dataSize data off).toList := by
  unfold releaseObject at hrun
  unfold objectClaim
  split at hrun
  · rename_i hvalid
    obtain rfl : s = s' := by simpa using hrun
    simpa [hvalid] using Releases.refl s
  · rename_i hvalid
    simp only [hvalid]
    split at hrun
    · rename_i strong htype
      simp only [htype]
      cases hget : binderGetNode s p (data.binder off) with
      | none =>
          simp only [hget, Except.ok.injEq] at hrun
          subst hrun
          exact Releases.single (e := .drop (.object p (data.binder off) strong))
            (RefsOnly.refl _) (Change.lostObject hget) rfl
      | some n =>
          simp only [hget, binderDecNode, except_bind_eq_ok, deref_eq_ok,
            except_pure_eq_ok] at hrun
          obtain ⟨nd, hnd, rfl⟩ := hrun
          obtain ⟨nd', hnd', hproc, hptr⟩ := hs.tables.getNode hget
          obtain rfl : nd = nd' := by simpa [hnd] using hnd'
          exact Releases.single (e := .drop (.object p (data.binder off) strong))
            (RefsOnly.decNode hnd strong) (Change.drop hnd ⟨hproc, hptr, rfl⟩) rfl
    · rename_i strong htype
      simp only [htype]
      cases hget : binderGetRef s p (data.handle off) with
      | none =>
          simp only [hget, Except.ok.injEq] at hrun
          subst hrun
          exact Releases.single (e := .drop (.handle p (data.handle off) strong))
            (RefsOnly.refl _) (Change.lostHandle hget) rfl
      | some r =>
          simp only [hget] at hrun
          obtain ⟨rf, hrf, hproc, hdesc⟩ := hs.tables.getRef hget
          have hch := Change.dropRef (L := L) hrf hrun
          rw [hproc, hdesc] at hch
          exact Releases.single (RefsOnly.decRef hs.tables hrf hrun) hch rfl
    · rename_i htype
      simp only [htype, Except.ok.injEq] at hrun ⊢
      subst hrun
      split
      · unfold taskCloseFd
        split
        · exact Releases.refl s
        · exact Releases.single (e := .quiet)
            ⟨le_rfl, rfl, rfl, rfl, rfl, rfl, fun _ h => ⟨_, h, rfl, rfl, rfl⟩,
              fun _ _ => Iff.rfl⟩
            (Change.idle (hs.grounded.idle_misc le_rfl fun _ _ h => h)) trivial
      · exact Releases.refl s
    · rename_i htype
      simp only [htype, Except.ok.injEq] at hrun ⊢
      subst hrun
      exact Releases.refl s

theorem releaseObjects_changes {offs : List ℕ} (hs : Coherent L d s)
    (hrun : releaseObjects s p dataSize data failed offs = .ok s') :
    Releases L p s s' (objectClaims p dataSize data offs) := by
  induction offs generalizing s with
  | nil =>
      simp only [releaseObjects, Except.ok.injEq] at hrun
      subst hrun
      exact Releases.refl s
  | cons off offs ih =>
      simp only [releaseObjects, except_bind_eq_ok] at hrun
      obtain ⟨s₁, hobj, hrun⟩ := hrun
      have h₁ := releaseObject_changes (L := L) hs hobj
      have h := h₁.trans (ih (h₁.coherent hs) hrun)
      have hclaims : objectClaims p dataSize data (off :: offs) =
          (objectClaim p dataSize data off).toList ++ objectClaims p dataSize data offs := by
        rw [objectClaims, objectClaims, List.filterMap_cons]
        cases objectClaim p dataSize data off <;> rfl
      rw [hclaims]
      exact h

/-- The claim that a buffer of `p` makes on its target node. -/
def targetClaim (p : ProcId) (node : Option NodeId) : List Claim :=
  (node.map (Claim.target p)).toList

theorem releaseTarget_changes {node : Option NodeId}
    (hown : ∀ n, node = some n → s.OwnedBy n p) (hrun : releaseTarget s node = .ok s') :
    Releases L p s s' (targetClaim p node) := by
  cases node with
  | none =>
      obtain rfl : s = s' := by simpa [releaseTarget] using hrun
      exact Releases.refl s
  | some n =>
      simp only [releaseTarget, binderDecNode, except_bind_eq_ok, deref_eq_ok,
        except_pure_eq_ok] at hrun
      obtain ⟨nd, hnd, rfl⟩ := hrun
      exact Releases.single (e := .drop (.target p n)) (RefsOnly.decNode hnd true)
        (Change.drop hnd ⟨rfl, (hown n rfl).2 nd hnd, rfl⟩) rfl

def bufferClaims (p : ProcId) (node : Option NodeId) (dataSize : ℕ) (data : Data)
    (offs : List ℕ) : List Claim :=
  targetClaim p node ++ objectClaims p dataSize data offs

theorem bufferRelease_changes (hs : Coherent L d s) {b : Buffer} {failedAt : Option ℕ}
    (hown : ∀ n, b.targetNode = some n → s.OwnedBy n p)
    (hrun : binderTransactionBufferRelease s p b failedAt = .ok s') :
    Releases L p s s' (bufferClaims p b.targetNode b.dataSize b.data
      (b.offsets.take (failedAt.getD b.offsets.length))) := by
  simp only [binderTransactionBufferRelease, except_bind_eq_ok] at hrun
  obtain ⟨s₁, htarget, hrun⟩ := hrun
  have h₁ := releaseTarget_changes (L := L) hown htarget
  exact h₁.trans (releaseObjects_changes (h₁.coherent hs) hrun)

end Release

end Driver

end BinderForLinux
