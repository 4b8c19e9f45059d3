import BinderForLinux.TextOutput.Outputs
import BinderForLinux.TextOutput.Print
import Mathlib.Data.List.Nodup

/-!
# Nothing is lost and nothing added

Every output has written and buffered what was printed on it. The indices of the outputs are told
apart by the list of those that are free; the state at an index is the output's own as long as it
is found by its sequence number, or nothing is in it that would be missed.
-/

namespace BinderForLinux

namespace TextOutput

open Library State

variable {s : State} {r : Run} {id : ℕ} {o : Output} {t : Text}

/-! ### Indices -/

/-- The free indices, linked through the vector. -/
def Chained (bufs : List ℤ) : ℤ → List ℕ → Prop
  | next, [] => next < 0
  | next, i :: free => next = i ∧ i < bufs.length ∧ Chained bufs (bufs.getD i (-1)) free

theorem Chained.set {bufs : List ℤ} {next v : ℤ} {free : List ℕ} {i : ℕ}
    (h : Chained bufs next free) (hi : i ∉ free) : Chained (bufs.set i v) next free := by
  induction free generalizing next with
  | nil => exact h
  | cons j free ih =>
      obtain ⟨hne, hfree⟩ : i ≠ j ∧ i ∉ free := by rwa [List.mem_cons, not_or] at hi
      obtain ⟨hnext, hlt, hrest⟩ := h
      refine ⟨hnext, by rwa [List.length_set], ?_⟩
      rw [List.getD_eq_getElem?_getD, List.getElem?_set_ne hne, ← List.getD_eq_getElem?_getD]
      exact ih hrest hfree

/-- Outputs have indices of their own. -/
structure Indexed (s : State) (free : List ℕ) : Prop where
  chained : Chained s.gTextBuffers s.gFreeBufferIndex free
  nodup : free.Nodup
  used : ∀ id o, s.outputs id = some o → o.index ∉ free ∧ o.index < s.gTextBuffers.length
  apart : ∀ id id' o o', s.outputs id = some o → s.outputs id' = some o' → o.index = o'.index →
    id = id'

theorem Indexed.alloc {free : List ℕ} (h : Indexed s free) : ∃ free',
    Indexed s.allocBufferIndex.1 free' ∧ s.allocBufferIndex.2 ∉ free' ∧
      s.allocBufferIndex.2 < s.allocBufferIndex.1.gTextBuffers.length ∧
      ∀ id o, s.outputs id = some o → o.index ≠ s.allocBufferIndex.2 := by
  have hchained := h.chained
  unfold allocBufferIndex
  cases free with
  | nil =>
      have hneg : ¬ 0 ≤ s.gFreeBufferIndex := Int.not_le.mpr hchained
      rw [if_neg hneg]
      refine ⟨[], ⟨hchained, List.nodup_nil, fun id o ho => ⟨List.not_mem_nil, ?_⟩, h.apart⟩,
        List.not_mem_nil, ?_, fun id o ho => ?_⟩
      · have := (h.used id o ho).2
        dsimp only
        rw [List.length_append]
        omega
      · dsimp only
        rw [List.length_append]
        exact Nat.lt_succ_self _
      · exact Nat.ne_of_lt (h.used id o ho).2
  | cons i free =>
      obtain ⟨hnext, hlt, hrest⟩ := hchained
      obtain ⟨hi, hnodup⟩ := List.nodup_cons.mp h.nodup
      rw [hnext, if_pos (Int.natCast_nonneg i)]
      dsimp only
      rw [Int.toNat_natCast]
      refine ⟨free, ⟨hrest.set hi, hnodup, fun id o ho => ?_, h.apart⟩, hi, ?_, fun id o ho => ?_⟩
      · obtain ⟨hused, hlen⟩ := h.used id o ho
        refine ⟨fun hmem => hused (List.mem_cons_of_mem i hmem), ?_⟩
        dsimp only
        rwa [List.length_set]
      · rwa [List.length_set]
      · exact fun heq => (h.used id o ho).1 (heq ▸ List.mem_cons_self)

theorem Indexed.destroy {free : List ℕ} (h : Indexed s free) (ho : s.outputs id = some o) :
    Indexed (s.destroy id) (o.index :: free) := by
  obtain ⟨hfree, hlt⟩ := h.used id o ho
  have hother (id' : ℕ) (o' : Output) (ho' : (s.destroy id).outputs id' = some o') :
      id' ≠ id ∧ s.outputs id' = some o' := by
    unfold State.destroy at ho'
    rw [ho] at ho'
    dsimp only at ho'
    by_cases hid : id' = id
    · rw [hid, Function.update_self] at ho'
      cases ho'
    · rw [Function.update_of_ne hid] at ho'
      exact ⟨hid, ho'⟩
  have hbufs : (s.destroy id).gTextBuffers = s.gTextBuffers.set o.index s.gFreeBufferIndex := by
    unfold State.destroy
    rw [ho]
    rfl
  have hnext : (s.destroy id).gFreeBufferIndex = o.index := by
    unfold State.destroy
    rw [ho]
    rfl
  refine ⟨?_, List.nodup_cons.mpr ⟨hfree, h.nodup⟩, fun id' o' ho' => ?_,
    fun id' id'' o' o'' ho' ho'' => h.apart id' id'' o' o'' (hother id' o' ho').2
      (hother id'' o'' ho'').2⟩
  · rw [hbufs, hnext]
    refine ⟨rfl, by rwa [List.length_set], ?_⟩
    rw [List.getD_eq_getElem?_getD, List.getElem?_set_self hlt, Option.getD_some]
    exact h.chained.set hfree
  · obtain ⟨hne, hold⟩ := hother id' o' ho'
    obtain ⟨hused, hlen⟩ := h.used id' o' hold
    refine ⟨fun hmem => ?_, by rwa [hbufs, List.length_set]⟩
    rcases List.mem_cons.mp hmem with heq | hmem
    · exact hne (h.apart id' id o' o hold ho heq)
    · exact hused hmem

theorem Indexed.update {free : List ℕ} {s' : State} {o' : Output} (h : Indexed s free)
    (ho : s.outputs id = some o) (hindex : o'.index = o.index)
    (hfree : s'.gFreeBufferIndex = s.gFreeBufferIndex) (hbufs : s'.gTextBuffers = s.gTextBuffers)
    (houtputs : s'.outputs = Function.update s.outputs id (some o')) : Indexed s' free := by
  have hold (id' : ℕ) (p : Output) (hp : s'.outputs id' = some p) :
      ∃ q, s.outputs id' = some q ∧ q.index = p.index := by
    rw [houtputs] at hp
    by_cases hid : id' = id
    · rw [hid, Function.update_self] at hp
      cases hp
      exact ⟨o, hid ▸ ho, hindex.symm⟩
    · rw [Function.update_of_ne hid] at hp
      exact ⟨p, hp, rfl⟩
  refine ⟨?_, h.nodup, fun id' p hp => ?_, fun id' id'' p p' hp hp' heq => ?_⟩
  · rw [hfree, hbufs]
    exact h.chained
  · obtain ⟨q, hq, hidx⟩ := hold id' p hp
    rw [hbufs, ← hidx]
    exact h.used id' q hq
  · obtain ⟨q, hq, hidx⟩ := hold id' p hp
    obtain ⟨q', hq', hidx'⟩ := hold id'' p' hp'
    exact h.apart id' id'' q q' hq hq' (by rw [hidx, hidx', heq])

/-! ### Buffers of the thread -/

/-- What the output has written, and its buffer. A state with another sequence number will not be
found again. -/
structure Held (s : State) (id : ℕ) (o : Output) (t : Text) : Prop where
  holds : Holds (s.current id o) o.written t
  lost : o.multithreaded = true → (s.current id o).seq ≠ o.seq → (s.current id o).atFront = true →
    (s.current id o).buffer = []

/-- The state at the index is the output's own and found as such, or nothing in it is missed; the
state of another output is not found. -/
def Found (s : State) (id : ℕ) (o : Output) : Prop :=
  o.multithreaded = true → ∀ b, threadState s.states o.index = some b →
    if b.owner = id then b.seq = o.seq ∨ b.atFront = true ∧ b.indent = 0 else b.seq ≠ o.seq

theorem Holds.renew {b : BufferState} {out : Written} {seq : ℤ} {owner : ℕ} (h : Holds b out t)
    (hfront : b.atFront = true) (hindent : b.indent = 0) (hempty : b.buffer = []) :
    Holds (.new seq owner) out t := by
  have htext := h.text
  rw [hempty] at htext
  exact ⟨htext, hfront.symm.trans h.front, hindent.symm.trans h.indent,
    ⟨Int.le_refl 0, Int.le_refl 0⟩, h.complete, h.inside, fun _ _ => rfl, Nat.le_refl 0,
    Nat.two_pow_pos 63⟩

/-- The buffer that a call gets. -/
structure Got (s : State) (id : ℕ) (o : Output) (t : Text)
    (r : List (Option BufferState) × BufferState) : Prop where
  holds : Holds r.2 o.written t
  /-- A state that will not be found again was just made. -/
  lost : o.multithreaded = true → r.2.seq ≠ o.seq → r.2.bundle = 0 ∧ r.2.buffer = []
  owner : o.multithreaded = true → r.2.owner = id ∧ o.index < r.1.length
  other : ∀ j, j ≠ o.index → threadState r.1 j = threadState s.states j

theorem threadState_set {states : List (Option BufferState)} {i j : ℕ} {b : Option BufferState}
    (hne : j ≠ i) : threadState (states.set i b) j = threadState states j := by
  unfold threadState
  rw [List.getD_eq_getElem?_getD, List.getElem?_set_ne hne.symm, ← List.getD_eq_getElem?_getD]

theorem threadState_set_self {states : List (Option BufferState)} {i : ℕ}
    {b : Option BufferState} (hlt : i < states.length) : threadState (states.set i b) i = b := by
  unfold threadState
  rw [List.getD_eq_getElem?_getD, List.getElem?_set_self hlt, Option.getD_some]

theorem threadState_fill (states : List (Option BufferState)) (n j : ℕ) :
    threadState (states ++ List.replicate n none) j = threadState states j := by
  unfold threadState
  simp only [List.getD_eq_getElem?_getD]
  by_cases hj : j < states.length
  · rw [List.getElem?_append_left hj]
  · rw [List.getElem?_append_right (Nat.not_lt.mp hj), List.getElem?_eq_none (Nat.not_lt.mp hj),
      List.getElem?_replicate]
    split <;> rfl

theorem Held.got (h : Held s id o t) (hfound : Found s id o) : Got s id o t (s.getBuffer id o) := by
  have hholds := h.holds
  have hlost := h.lost
  unfold State.current at hholds hlost
  unfold State.getBuffer
  by_cases hm : o.multithreaded = true
  · rw [if_pos hm] at hholds hlost ⊢
    dsimp only
    have hlt : o.index < (s.states ++
        List.replicate (o.index + 1 - s.states.length) none).length := by
      rw [List.length_append, List.length_replicate]
      omega
    have hother (j : ℕ) (hj : j ≠ o.index) (b : Option BufferState) :
        threadState ((s.states ++ List.replicate (o.index + 1 - s.states.length) none).set
          o.index b) j = threadState s.states j := by
      rw [threadState_set hj, threadState_fill]
    -- A new state, wherever what there is need not be kept.
    have hnew (hholds : Holds (.new (int32 o.index) id) o.written t) : Got s id o t
        ((s.states ++ List.replicate (o.index + 1 - s.states.length) none).set o.index
          (some (.new (int32 o.index) id)), .new (int32 o.index) id) :=
      ⟨hholds, fun _ _ => ⟨rfl, rfl⟩, fun _ => ⟨rfl, by rwa [List.length_set]⟩,
        fun j hj => hother j hj _⟩
    rw [threadState_fill]
    cases hstate : threadState s.states o.index with
    | none =>
        rw [hstate] at hholds
        exact hnew hholds
    | some b =>
        rw [hstate] at hholds hlost
        dsimp only at hholds hlost ⊢
        have hb := hfound hm b hstate
        by_cases howner : b.owner = id
        · rw [if_pos howner] at hholds hlost hb
          by_cases hseq : b.seq = o.seq
          · rw [if_pos hseq]
            exact ⟨hholds, fun _ hne => absurd hseq hne, fun _ => ⟨howner, hlt⟩,
              fun j _ => threadState_fill _ _ j⟩
          · rw [if_neg hseq]
            obtain ⟨hfront, hindent⟩ := hb.resolve_left hseq
            exact hnew (hholds.renew hfront hindent (hlost hm hseq hfront))
        · rw [if_neg howner] at hholds hb
          rw [if_neg hb]
          exact hnew hholds
  · rw [if_neg hm] at hholds ⊢
    exact ⟨hholds, fun h => absurd h hm, fun h => absurd h hm, fun _ _ => rfl⟩

/-! ### Calls -/

/-- What holds in every state of a run. -/
structure Sound (r : Run) : Prop where
  indexed : ∃ free, Indexed r.code free
  made : ∀ id o, r.code.outputs id = some o → id < r.code.gSequence
  owners : ∀ j b, threadState r.code.states j = some b → b.owner < r.code.gSequence
  fresh : ∀ id, r.code.gSequence ≤ id → r.texts id = ⟨[], 0⟩
  held : ∀ id o, r.code.outputs id = some o → Held r.code id o (r.texts id)

theorem current_congr {s' : State}
    (h : threadState s'.states o.index = threadState s.states o.index) :
    s'.current id o = s.current id o := by
  unfold State.current
  rw [h]

theorem Held.congr {s' : State} (hheld : Held s id o t)
    (h : threadState s'.states o.index = threadState s.states o.index) : Held s' id o t := by
  obtain ⟨hholds, hlost⟩ := hheld
  rw [← current_congr h] at hholds hlost
  exact ⟨hholds, hlost⟩

theorem Sound.update {s' : State} (o' : Output) (h : Sound r) (ho : r.code.outputs id = some o)
    (hindex : o'.index = o.index) (hseq : s'.gSequence = r.code.gSequence)
    (hfree : s'.gFreeBufferIndex = r.code.gFreeBufferIndex)
    (hbufs : s'.gTextBuffers = r.code.gTextBuffers)
    (houtputs : s'.outputs = Function.update r.code.outputs id (some o'))
    (hother : ∀ j, j ≠ o.index → threadState s'.states j = threadState r.code.states j)
    (howner : ∀ b, threadState s'.states o.index = some b → b.owner < r.code.gSequence)
    (hheld : Held s' id o' t) : Sound ⟨s', Function.update r.texts id t⟩ := by
  obtain ⟨free, hindexed⟩ := h.indexed
  refine ⟨⟨free, hindexed.update ho hindex hfree hbufs houtputs⟩, fun id' p hp => ?_,
    fun j b hb => ?_, fun id' hid' => ?_, fun id' p hp => ?_⟩
  · dsimp only at hp ⊢
    rw [houtputs] at hp
    rw [hseq]
    by_cases hid : id' = id
    · exact hid ▸ h.made id o ho
    · rw [Function.update_of_ne hid] at hp
      exact h.made id' p hp
  · dsimp only at hb ⊢
    rw [hseq]
    by_cases hj : j = o.index
    · exact howner b (hj ▸ hb)
    · exact h.owners j b (hother j hj ▸ hb)
  · dsimp only at hid' ⊢
    rw [hseq] at hid'
    have := h.made id o ho
    rw [Function.update_of_ne (by omega)]
    exact h.fresh id' hid'
  · dsimp only at hp ⊢
    rw [houtputs] at hp
    by_cases hid : id' = id
    · subst hid
      rw [Function.update_self] at hp ⊢
      cases hp
      exact hheld
    · rw [Function.update_of_ne hid] at hp ⊢
      refine (h.held id' p hp).congr (hother p.index fun heq => ?_)
      exact hid (hindexed.apart id' id p o hp ho heq)

/-- What a call leaves of a buffer. -/
structure Acts (b b' : BufferState) : Prop where
  seq : b'.seq = b.seq
  owner : b'.owner = b.owner
  clean : b.bundle = 0 → b.buffer = [] → b'.atFront = true → b'.buffer = []

theorem Sound.call {f : BufferState → Written → Except Fault (BufferState × Written)}
    {b' : BufferState} {out' : Written} (h : Sound r) (ho : r.code.outputs id = some o)
    (hgot : Got r.code id o (r.texts id) (r.code.getBuffer id o))
    (hf : f (r.code.getBuffer id o).2 o.written = .ok (b', out')) (hholds : Holds b' out' t)
    (hacts : Acts (r.code.getBuffer id o).2 b') :
    ∃ s', r.code.withBuffer id f = .ok s' ∧ Sound ⟨s', Function.update r.texts id t⟩ := by
  unfold State.withBuffer
  rw [ho]
  dsimp only
  rw [hf]
  dsimp only
  by_cases hm : o.multithreaded = true
  · rw [if_pos hm]
    obtain ⟨howner, hlt⟩ := hgot.owner hm
    have hself : threadState ((r.code.getBuffer id o).1.set o.index (some b')) o.index =
        some b' := threadState_set_self hlt
    refine ⟨_, rfl, h.update { o with written := out' } ho rfl rfl rfl rfl rfl (fun j hj => ?_)
      (fun b hb => ?_) ?_⟩
    · exact (threadState_set hj).trans (hgot.other j hj)
    · cases hself.symm.trans hb
      rw [hacts.owner, howner]
      exact h.made id o ho
    · have hcurrent (s : State) (hs : s.states = (r.code.getBuffer id o).1.set o.index (some b')) :
          s.current id { o with written := out' } = b' := by
        unfold State.current
        rw [if_pos hm, hs, hself]
        exact if_pos (hacts.owner.trans howner)
      constructor
      · rw [hcurrent _ rfl]
        exact hholds
      · rw [hcurrent _ rfl]
        intro _ hseq hfront
        obtain ⟨hbundle, hempty⟩ := hgot.lost hm (hacts.seq ▸ hseq)
        exact hacts.clean hbundle hempty hfront
  · rw [if_neg hm]
    refine ⟨_, rfl, h.update { o with globalState := b', written := out' } ho rfl rfl rfl rfl rfl
      (fun j hj => rfl) (fun b hb => h.owners o.index b hb) ?_⟩
    have hcurrent (s : State) :
        s.current id { o with globalState := b', written := out' } = b' := if_neg hm
    constructor
    · rw [hcurrent]
      exact hholds
    · exact fun hm' => absurd hm' hm

/-! ### Runs -/

/-- Outputs that are there, and nothing that makes the code go wrong: an index that is an
`int32_t`, a state that is found, a text that can be printed, and counters that do not overflow. -/
def Op.Fine (s : State) : Op → Prop
  | .create _ => s.allocBufferIndex.2 < 2 ^ 31
  | .destroy id => ∃ o, s.outputs id = some o
  | .print id txt _ => ∃ o, s.outputs id = some o ∧ Found s id o ∧ txt.length < 2 ^ 63 ∧
      Prints (s.getBuffer id o).2 txt
  | .moveIndent id delta => ∃ o, s.outputs id = some o ∧ Found s id o ∧ -2 ^ 31 ≤ delta ∧
      (s.getBuffer id o).2.indent + delta < 2 ^ 31
  | .pushBundle id => ∃ o, s.outputs id = some o ∧ Found s id o ∧
      (s.getBuffer id o).2.bundle + 1 < 2 ^ 31
  | .popBundle id => ∃ o, s.outputs id = some o ∧ Found s id o

theorem Sound.create (h : Sound r) (multithreaded : Bool) :
    Sound ⟨r.code.create multithreaded, r.texts⟩ := by
  obtain ⟨free, hindexed⟩ := h.indexed
  obtain ⟨free', hindexed', hnot, hlt, hne⟩ := hindexed.alloc
  have halloc : r.code.allocBufferIndex.1.outputs = r.code.outputs ∧
      r.code.allocBufferIndex.1.states = r.code.states := by
    unfold allocBufferIndex
    split <;> exact ⟨rfl, rfl⟩
  have houtputs : (r.code.create multithreaded).outputs = Function.update r.code.outputs
      r.code.gSequence (some ⟨multithreaded, int32 r.code.gSequence, r.code.allocBufferIndex.2,
        .new (int32 r.code.gSequence) r.code.gSequence, ⟨[], 0⟩⟩) := rfl
  have hstates : (r.code.create multithreaded).states = r.code.states := halloc.2
  have hseq : (r.code.create multithreaded).gSequence = r.code.gSequence + 1 := rfl
  have hcases (id : ℕ) (o : Output) (ho : (r.code.create multithreaded).outputs id = some o) :
      (id = r.code.gSequence ∧ o = ⟨multithreaded, int32 r.code.gSequence,
        r.code.allocBufferIndex.2, .new (int32 r.code.gSequence) r.code.gSequence, ⟨[], 0⟩⟩) ∨
      id ≠ r.code.gSequence ∧ r.code.outputs id = some o := by
    rw [houtputs] at ho
    by_cases hid : id = r.code.gSequence
    · rw [hid, Function.update_self] at ho
      cases ho
      exact .inl ⟨hid, rfl⟩
    · rw [Function.update_of_ne hid] at ho
      exact .inr ⟨hid, ho⟩
  refine ⟨⟨free', hindexed'.chained, hindexed'.nodup, fun id o ho => ?_,
    fun id id' o o' ho ho' heq => ?_⟩, fun id o ho => ?_, fun j b hb => ?_, fun id hid => ?_,
    fun id o ho => ?_⟩
  · rcases hcases id o ho with ⟨-, rfl⟩ | ⟨-, hold⟩
    · exact ⟨hnot, hlt⟩
    · exact hindexed'.used id o (by rwa [halloc.1])
  · rcases hcases id o ho with ⟨hid, rfl⟩ | ⟨-, hold⟩ <;>
      rcases hcases id' o' ho' with ⟨hid', rfl⟩ | ⟨-, hold'⟩
    · rw [hid, hid']
    · exact absurd heq.symm (hne id' o' hold')
    · exact absurd heq (hne id o hold)
    · exact hindexed.apart id id' o o' hold hold' heq
  · dsimp only
    rw [hseq]
    rcases hcases id o ho with ⟨rfl, -⟩ | ⟨-, hold⟩
    · exact Nat.lt_succ_self _
    · exact Nat.lt_succ_of_lt (h.made id o hold)
  · dsimp only at hb ⊢
    rw [hstates] at hb
    rw [hseq]
    exact Nat.lt_succ_of_lt (h.owners j b hb)
  · dsimp only at hid ⊢
    rw [hseq] at hid
    exact h.fresh id (by omega)
  · dsimp only at ho ⊢
    rcases hcases id o ho with ⟨rfl, rfl⟩ | ⟨-, hold⟩
    · have hcurrent : ∃ seq, (r.code.create multithreaded).current r.code.gSequence
          ⟨multithreaded, int32 r.code.gSequence, r.code.allocBufferIndex.2,
            .new (int32 r.code.gSequence) r.code.gSequence, ⟨[], 0⟩⟩ =
          .new seq r.code.gSequence := by
        unfold State.current
        rw [hstates]
        dsimp only
        split
        · cases hstate : threadState r.code.states r.code.allocBufferIndex.2 with
          | none => exact ⟨_, rfl⟩
          | some b =>
              have := h.owners _ b hstate
              dsimp only
              rw [if_neg (Nat.ne_of_lt this)]
              exact ⟨_, rfl⟩
        · exact ⟨_, rfl⟩
      obtain ⟨seq, hcurrent⟩ := hcurrent
      constructor
      · rw [hcurrent, h.fresh _ (Nat.le_refl _)]
        exact .new
      · rw [hcurrent]
        exact fun _ _ _ => rfl
    · exact (h.held id o hold).congr (by rw [hstates])

theorem Sound.destroy (h : Sound r) (ho : r.code.outputs id = some o) :
    Sound ⟨r.code.destroy id, r.texts⟩ := by
  obtain ⟨free, hindexed⟩ := h.indexed
  have hdestroy : (r.code.destroy id).outputs = Function.update r.code.outputs id none ∧
      (r.code.destroy id).states = r.code.states ∧
      (r.code.destroy id).gSequence = r.code.gSequence := by
    unfold State.destroy
    rw [ho]
    exact ⟨rfl, rfl, rfl⟩
  obtain ⟨houtputs, hstates, hseq⟩ := hdestroy
  have hold (id' : ℕ) (o' : Output) (ho' : (r.code.destroy id).outputs id' = some o') :
      r.code.outputs id' = some o' := by
    rw [houtputs] at ho'
    by_cases hid : id' = id
    · rw [hid, Function.update_self] at ho'
      cases ho'
    · rwa [Function.update_of_ne hid] at ho'
  refine ⟨⟨_, hindexed.destroy ho⟩, fun id' o' ho' => ?_, fun j b hb => ?_, fun id' hid' => ?_,
    fun id' o' ho' => (h.held id' o' (hold id' o' ho')).congr (by rw [hstates])⟩
  · exact hseq ▸ h.made id' o' (hold id' o' ho')
  · exact hseq ▸ h.owners j b (hstates ▸ hb)
  · exact h.fresh id' (hseq ▸ hid')

theorem withBuffer_error {f : BufferState → Written → Except Fault (BufferState × Written)}
    {e : Fault} (ho : s.outputs id = some o) (hf : f (s.getBuffer id o).2 o.written = .error e) :
    s.withBuffer id f = .error e := by
  unfold State.withBuffer
  rw [ho]
  dsimp only
  rw [hf]

theorem Sound.keeps {f : BufferState → Written → Except Fault (BufferState × Written)}
    {b' : BufferState} {out' : Written} (h : Sound r) (ho : r.code.outputs id = some o)
    (hgot : Got r.code id o (r.texts id) (r.code.getBuffer id o))
    (hf : f (r.code.getBuffer id o).2 o.written = .ok (b', out'))
    (hholds : Holds b' out' (r.texts id)) (hacts : Acts (r.code.getBuffer id o).2 b') :
    ∃ s', r.code.withBuffer id f = .ok s' ∧ Sound ⟨s', r.texts⟩ := by
  obtain ⟨s', heq, hsound⟩ := h.call ho hgot hf hholds hacts
  rw [Function.update_eq_self] at hsound
  exact ⟨s', heq, hsound⟩

theorem acts_popBundle (b : BufferState) (out : Written) : Acts b (popBundle b out).1 := by
  unfold popBundle
  dsimp only
  generalize (if int32 (b.bundle - 1) < 0 then 0 else int32 (b.bundle - 1)) = bundle
  split
  · exact ⟨rfl, rfl, fun _ _ _ => rfl⟩
  · exact ⟨rfl, rfl, fun _ hempty _ => hempty⟩

theorem Sound.step {op : Op} (h : Sound r) (hfine : op.Fine r.code) :
    r.step op = .error .noMemory ∨ ∃ r', r.step op = .ok r' ∧ Sound r' := by
  have hok {s' : State} (heq : r.code.step op = .ok s') (hsound : Sound ⟨s', r.printed op⟩) :
      ∃ r', r.step op = .ok r' ∧ Sound r' := by
    refine ⟨⟨s', r.printed op⟩, ?_, hsound⟩
    unfold Run.step
    rw [heq]
  cases op with
  | create multithreaded => exact .inr (hok rfl (h.create multithreaded))
  | destroy id =>
      obtain ⟨o, ho⟩ := hfine
      exact .inr (hok rfl (h.destroy ho))
  | print id txt behind =>
      obtain ⟨o, ho, hfound, hlen, hprints⟩ := hfine
      have hgot := (h.held id o ho).got hfound
      have hspec : Adds _ _ (TextOutput.print txt behind (r.code.getBuffer id o).2 o.written) :=
        printLoop_spec hgot.holds hprints.shallow (fun _ => hprints) hlen (Nat.le_refl _)
      rcases hspec with hfail | ⟨b', out', heq, hholds, hkept⟩
      · refine .inl ?_
        have hstep : r.code.step (.print id txt behind) = .error .noMemory :=
          withBuffer_error ho hfail
        unfold Run.step
        rw [hstep]
      · have hacts : Acts (r.code.getBuffer id o).2 b' :=
          ⟨hkept.seq, hkept.owner, fun hbundle _ => hholds.flushed (hkept.bundle.trans hbundle)⟩
        obtain ⟨s', heq', hsound⟩ := h.call ho hgot heq hholds hacts
        exact .inr (hok heq' hsound)
  | moveIndent id delta =>
      obtain ⟨o, ho, hfound, hint, hlt⟩ := hfine
      have hgot := (h.held id o ho).got hfound
      obtain ⟨s', heq, hsound⟩ := h.call
        (f := fun b out => .ok (TextOutput.moveIndent delta b, out)) ho hgot rfl
        (hgot.holds.moveIndent hint hlt) ⟨rfl, rfl, fun _ hempty _ => hempty⟩
      exact .inr (hok heq hsound)
  | pushBundle id =>
      obtain ⟨o, ho, hfound, hlt⟩ := hfine
      have hgot := (h.held id o ho).got hfound
      obtain ⟨s', heq, hsound⟩ := h.keeps
        (f := fun b out => .ok (TextOutput.pushBundle b, out)) ho hgot rfl
        (hgot.holds.pushBundle hlt) ⟨rfl, rfl, fun _ hempty _ => hempty⟩
      exact .inr (hok heq hsound)
  | popBundle id =>
      obtain ⟨o, ho, hfound⟩ := hfine
      have hgot := (h.held id o ho).got hfound
      obtain ⟨s', heq, hsound⟩ := h.keeps
        (f := fun b out => .ok (TextOutput.popBundle b out)) ho hgot rfl hgot.holds.popBundle
        (acts_popBundle _ _)
      exact .inr (hok heq hsound)

theorem sound_init : Sound .init := by
  refine ⟨⟨[], ⟨(by decide : (-1 : ℤ) < 0), List.nodup_nil, ?_, ?_⟩⟩, ?_, ?_, fun _ _ => rfl, ?_⟩
  · exact fun _ _ ho => by cases ho
  · exact fun _ _ _ _ ho => by cases ho
  · exact fun _ _ ho => by cases ho
  · exact fun _ _ hb => by cases hb
  · exact fun _ _ ho => by cases ho

theorem sound_of_reach
    (h : Reach Run.step (fun r op => op.Fine r.code) .init r) : Sound r :=
  h.invariant sound_init fun r op r' hsound hfine hstep => by
    rcases hsound.step hfine with hfail | ⟨r'', heq, hsound'⟩
    · rw [hfail] at hstep
      cases hstep
    · cases heq.symm.trans hstep
      exact hsound'

/-- Nothing is lost and nothing added. -/
structure Faithful (r : Run) : Prop where
  /-- What was written and is buffered is what was printed, with its indentation. -/
  text : ∀ id o, r.code.outputs id = some o →
    o.written.lines.flatten ++ (r.code.current id o).buffer = (r.texts id).text
  complete : ∀ id o, r.code.outputs id = some o →
    ∀ line ∈ o.written.lines, line.getLast? = some newline
  /-- No byte was written that is not the caller's. -/
  inside : ∀ id o, r.code.outputs id = some o → o.written.outside = 0
  /-- Calls access nothing outside of arrays. -/
  returns : ∀ op, op.Fine r.code → r.step op ≠ .error .outside
  /-- The fast path writes and leaves in the buffer what the loop does without it. -/
  direct : ∀ id o txt behind b₁ b₂ out₁ out₂, r.code.outputs id = some o →
    Op.Fine r.code (.print id txt behind) →
    printLoop true behind txt.length txt (r.code.getBuffer id o).2 o.written = .ok (b₁, out₁) →
    printLoop false behind txt.length txt (r.code.getBuffer id o).2 o.written = .ok (b₂, out₂) →
    out₁.lines.flatten = out₂.lines.flatten ∧ b₁.buffer = b₂.buffer

/-- In every run, with outputs made and destroyed in any order, in which states are found, texts
can be printed and counters do not overflow. -/
theorem nothing_lost_or_added (h : Reach Run.step (fun r op => op.Fine r.code) .init r) :
    Faithful r := by
  have hsound := sound_of_reach h
  refine ⟨fun id o ho => (hsound.held id o ho).holds.text,
    fun id o ho => (hsound.held id o ho).holds.complete,
    fun id o ho => (hsound.held id o ho).holds.inside, fun op hfine hstep => ?_,
    fun id o txt behind b₁ b₂ out₁ out₂ ho hfine hfast hslow => ?_⟩
  · rcases hsound.step hfine with hfail | ⟨r', heq, -⟩
    · rw [hfail] at hstep
      cases hstep
    · rw [heq] at hstep
      cases hstep
  · obtain ⟨o', ho', hfound, hlen, hprints⟩ := hfine
    cases ho.symm.trans ho'
    have hgot := (hsound.held id o ho).got hfound
    exact printLoop_fast hgot.holds hprints hlen (Nat.le_refl _) hfast hslow

/-- Two lines that are written at once, and the beginning of a third. -/
theorem nothing_lost_or_added_lines : ∃ r, Reach Run.step (fun r op => op.Fine r.code) .init r ∧
    (r.code.outputs 0).map (fun o => o.written.lines) = some [[97, 10, 98, 10]] ∧ Faithful r := by
  obtain ⟨r₁, hr₁, hone⟩ : ∃ r₁, Run.step .init (.create true) = .ok r₁ ∧
      r₁ = ⟨State.init.create true, fun _ => ⟨[], 0⟩⟩ := ⟨_, rfl, rfl⟩
  have hreach : Reach Run.step (fun r op => op.Fine r.code) .init r₁ :=
    .tail (a := .create true) .refl (show State.init.allocBufferIndex.2 < 2 ^ 31 by decide) hr₁
  have hfine : Op.Fine r₁.code (.print 0 [97, 10, 98, 10, 99] 0) := by
    rw [hone]
    refine ⟨_, rfl, fun _ b hb => ?_, by decide, .inl (by decide), .inr (.inr fun _ => ?_)⟩
    · cases hb
    · decide
  obtain ⟨r₂, hr₂, hlines⟩ : ∃ r₂, r₁.step (.print 0 [97, 10, 98, 10, 99] 0) = .ok r₂ ∧
      (r₂.code.outputs 0).map (fun o => o.written.lines) = some [[97, 10, 98, 10]] := by
    rw [hone]
    exact ⟨_, rfl, rfl⟩
  have hreach' := hreach.tail hfine hr₂
  exact ⟨r₂, hreach', hlines, nothing_lost_or_added hreach'⟩

/-- With a single line the byte behind it is written too. An output whose index was used before
loses what is buffered. -/
theorem line_writesMore :
    (∃ r o, Reach Run.step (fun _ _ => True) .init r ∧ r.code.outputs 0 = some o ∧
      o.written.lines = [[97, 10, 0]] ∧ (r.texts 0).text = [97, 10] ∧ ¬ Faithful r) ∧
    ∃ r o, Reach Run.step (fun _ _ => True) .init r ∧ r.code.outputs 1 = some o ∧
      o.written.lines = [] ∧ (r.code.current 1 o).buffer = [98] ∧
        (r.texts 1).text = [97, 98] ∧ ¬ Faithful r := by
  constructor
  · obtain ⟨r, hr, o, ho, hlines, htext⟩ : ∃ r,
        runActions Run.step .init [.create false, .print 0 [97, 10] 0] = .ok r ∧
          ∃ o, r.code.outputs 0 = some o ∧ o.written.lines = [[97, 10, 0]] ∧
            (r.texts 0).text = [97, 10] := ⟨_, rfl, _, rfl, rfl, rfl⟩
    refine ⟨r, o, reach_of_runActions hr, ho, hlines, htext, fun hfaithful => ?_⟩
    have hcomplete := hfaithful.complete 0 o ho [97, 10, 0] (by rw [hlines]; simp)
    revert hcomplete
    decide
  · obtain ⟨r, hr, o, ho, hlines, hbuffer, htext⟩ : ∃ r,
        runActions Run.step .init [.create false, .destroy 0, .create true, .print 1 [97] 0,
          .print 1 [98] 0] = .ok r ∧ ∃ o, r.code.outputs 1 = some o ∧ o.written.lines = [] ∧
            (r.code.current 1 o).buffer = [98] ∧ (r.texts 1).text = [97, 98] :=
      ⟨_, rfl, _, rfl, rfl, rfl, rfl⟩
    refine ⟨r, o, reach_of_runActions hr, ho, hlines, hbuffer, htext, fun hfaithful => ?_⟩
    have hall := hfaithful.text 1 o ho
    rw [hlines, hbuffer, htext] at hall
    revert hall
    decide

end TextOutput

end BinderForLinux
