import BinderForLinux.Driver.Return

/-!
# Errors that wait to be read

A thread has two slots for errors, and `binder_thread_read` writes the second before the first.
When only the second fits exactly, the read ends before its slot is cleared.
-/

namespace BinderForLinux

namespace Driver

open Library

section Pending

variable {L : Layout} {s s' : State} {p : ProcId} {th : ThreadId} {thr : Thread}
variable {size ptr consumed : ℕ} {out : List ReturnCommand}

/-! ### The slots -/

def Thread.slots (thr : Thread) :
    ReturnError × ReturnError × Option ReadFrame × List ReturnCommand :=
  (thr.returnError, thr.returnError2, thr.read, thr.readBuffer)

def SlotsKept (s s' : State) : Prop :=
  ∀ th, (s'.threads th).map Thread.slots = (s.threads th).map Thread.slots

theorem SlotsKept.of_eq (h : s'.threads = s.threads) : SlotsKept s s' := fun th => by rw [h]

theorem SlotsKept.trans {s'' : State} (h : SlotsKept s s') (h' : SlotsKept s' s'') :
    SlotsKept s s'' := fun th => (h' th).trans (h th)

theorem SlotsKept.setThread (hthr : s.threads th = some thr) {thr' : Thread}
    (hslots : thr'.slots = thr.slots) : SlotsKept s (s.setThread th thr') := by
  intro th'
  by_cases hth : th' = th
  · subst hth
    simp [State.setThread, hthr, hslots]
  · simp [State.setThread, Function.update_of_ne hth]

theorem SlotsKept.exists_thread (h : SlotsKept s s') (hthr : s.threads th = some thr) :
    ∃ thr', s'.threads th = some thr' ∧ thr'.slots = thr.slots := by
  have hmap := h th
  rw [hthr] at hmap
  exact Option.map_eq_some_iff.mp hmap

theorem detachBuffer_slots {buffer : Option (ProcId × ℕ)}
    (hrun : detachBuffer s buffer = .ok s') : SlotsKept s s' := by
  rcases buffer with _ | ⟨p, a⟩
  · cases hrun
    exact .of_eq rfl
  · simp only [detachBuffer, except_bind_eq_ok, except_pure_eq_ok] at hrun
    obtain ⟨_, _, rfl⟩ := hrun
    exact .of_eq rfl

theorem freeTxn_slots {t : TxnId} (hrun : freeTxn s t = .ok s') : SlotsKept s s' := by
  simp only [freeTxn, except_bind_eq_ok, except_pure_eq_ok] at hrun
  obtain ⟨tx, _, s₁, hdetach, rfl⟩ := hrun
  exact (detachBuffer_slots hdetach).trans (.of_eq rfl)

theorem unlinkNode_slots (s : State) (n : NodeId) (nd : Node) :
    SlotsKept s (unlinkNode s n nd) := by
  unfold unlinkNode
  split <;> exact .of_eq rfl

theorem freeNode_slots (s : State) (n : NodeId) (nd : Node) : SlotsKept s (freeNode s n nd) := by
  unfold freeNode unlinkNode
  split <;> split <;> exact .of_eq rfl

theorem readItem_slots {q : Queue} {w : Work} {writable : ℕ → Bool}
    {x : Option (ℕ × List ReturnCommand)}
    (hrun : readItem L s p th q w ptr writable = .ok (x, s')) : SlotsKept s s' := by
  cases w with
  | transactionComplete t =>
      simp only [readItem, Except.ok.injEq] at hrun
      split at hrun
      · cases hrun
        exact .of_eq rfl
      · cases hrun
        exact .of_eq rfl
  | node n =>
      simp only [readItem, readNode, except_bind_eq_ok] at hrun
      obtain ⟨nd, -, hrun⟩ := hrun
      split at hrun
      · split at hrun
        · simp only [except_pure_eq_ok, Prod.mk.injEq] at hrun
          exact hrun.2 ▸ .of_eq rfl
        · simp only [except_pure_eq_ok, Prod.mk.injEq] at hrun
          exact hrun.2 ▸ .of_eq rfl
      · split at hrun
        · simp only [except_pure_eq_ok, Prod.mk.injEq] at hrun
          exact hrun.2 ▸ unlinkNode_slots s n nd
        · simp only [except_pure_eq_ok, Prod.mk.injEq] at hrun
          exact hrun.2 ▸ freeNode_slots s n _
  | death i =>
      simp only [readItem] at hrun
      cases hdeath : readDeath s p q i ptr writable with
      | error f => simp [hdeath, Except.map] at hrun
      | ok y =>
          simp only [hdeath, Except.map, Except.ok.injEq, Prod.mk.injEq] at hrun
          obtain ⟨-, rfl⟩ := hrun
          simp only [readDeath, except_bind_eq_ok] at hdeath
          obtain ⟨de, -, hdeath⟩ := hdeath
          split at hdeath
          · simp only [except_pure_eq_ok] at hdeath
            exact hdeath ▸ .of_eq rfl
          · split at hdeath
            · simp only [except_pure_eq_ok] at hdeath
              exact hdeath ▸ .of_eq rfl
            · simp only [except_pure_eq_ok] at hdeath
              exact hdeath ▸ .of_eq rfl
  | transaction t =>
      simp only [readItem, readTransaction, except_bind_eq_ok, deref_eq_ok] at hrun
      obtain ⟨tx, -, hrun⟩ := hrun
      split at hrun
      · cases hrun
      · rename_i bp a _
        simp only [except_bind_eq_ok] at hrun
        obtain ⟨b, -, tr, -, hrun⟩ := hrun
        split at hrun
        · simp only [except_pure_eq_ok, Prod.mk.injEq] at hrun
          exact hrun.2 ▸ .of_eq rfl
        · have h₁ : SlotsKept s ((s.listDel q (.transaction t)).updateBuffer bp a
              fun b => { b with allowUserFree := true }) := .of_eq rfl
          split at hrun
          · simp only [except_bind_eq_ok, deref_eq_ok, except_pure_eq_ok, Prod.mk.injEq] at hrun
            obtain ⟨thr, hthr, -, rfl⟩ := hrun
            have h₂ : SlotsKept s (State.setThread _ th { thr with transactionStack := some t }) :=
              h₁.trans (.setThread hthr rfl)
            exact h₂.trans (.of_eq rfl)
          · simp only [except_bind_eq_ok, except_pure_eq_ok, Prod.mk.injEq] at hrun
            obtain ⟨s₁, hfree, -, rfl⟩ := hrun
            exact h₁.trans (freeTxn_slots hfree)

/-! ### Codes in a buffer -/

def errorsIn (out : List ReturnCommand) : List ReturnError := out.filterMap fun c =>
  match c with
  | .errorCode e => some e
  | _ => none

theorem errorsIn_append (out out' : List ReturnCommand) :
    errorsIn (out ++ out') = errorsIn out ++ errorsIn out' := List.filterMap_append

theorem readItem_errors {q : Queue} {w : Work} {writable : ℕ → Bool} {ptr' : ℕ}
    {cmds : List ReturnCommand}
    (hrun : readItem L s p th q w ptr writable = .ok (some (ptr', cmds), s')) :
    errorsIn cmds = [] ∧ ptr ≤ ptr' := by
  obtain ⟨hptr, hcmds⟩ := readItem_returns hrun
  refine ⟨List.filterMap_eq_nil_iff.mpr fun c hc => ?_, by omega⟩
  cases c with
  | errorCode e => exact absurd rfl ((hcmds _ hc).1 e)
  | _ => rfl

theorem readLoop_slots {wait : Bool} {writable : ℕ → Bool} {fuel : ℕ} {x : ReadResult}
    (hout : errorsIn out = [])
    (hrun : readLoop L p th size wait writable fuel s ptr out = .ok (x, s')) :
    SlotsKept s s' ∧ ∀ ptr' out', x = .done ptr' out' ∨ x = .retry ptr' out' →
      errorsIn out' = [] ∧ ptr ≤ ptr' := by
  induction fuel generalizing s ptr out with
  | zero => cases hrun
  | succ fuel ih =>
      obtain ⟨thr, -, hcases⟩ := readLoop_cases hrun
      rcases hcases with ⟨-, rfl, rfl⟩ | ⟨q, w, -, ⟨-, rfl, rfl⟩ | ⟨-, ⟨hitem, rfl⟩ |
        ⟨ptr₁, cmds, s₁, hitem, hend⟩⟩⟩
      · refine ⟨.of_eq rfl, fun ptr' out' hx => ?_⟩
        split at hx
        · obtain ⟨rfl, rfl⟩ : ptr = ptr' ∧ out = out' := by simpa using hx
          exact ⟨hout, le_rfl⟩
        · obtain ⟨rfl, rfl⟩ : ptr = ptr' ∧ out = out' := by simpa using hx
          exact ⟨hout, le_rfl⟩
      · refine ⟨.of_eq rfl, fun ptr' out' hx => ?_⟩
        obtain ⟨rfl, rfl⟩ : ptr = ptr' ∧ out = out' := by simpa using hx
        exact ⟨hout, le_rfl⟩
      · exact ⟨readItem_slots hitem, by simp⟩
      · obtain ⟨hcmds, hptr⟩ := readItem_errors hitem
        have hout₁ : errorsIn (out ++ cmds) = [] := by rw [errorsIn_append, hout, hcmds]; rfl
        rcases hend with ⟨-, rfl, rfl⟩ | ⟨-, hrest⟩
        · refine ⟨readItem_slots hitem, fun ptr' out' hx => ?_⟩
          obtain ⟨rfl, rfl⟩ : ptr₁ = ptr' ∧ out ++ cmds = out' := by simpa using hx
          exact ⟨hout₁, hptr⟩
        · obtain ⟨hslots, hcodes⟩ := ih hout₁ hrest
          refine ⟨(readItem_slots hitem).trans hslots, fun ptr' out' hx => ?_⟩
          obtain ⟨hout', hptr'⟩ := hcodes ptr' out' hx
          exact ⟨hout', le_trans hptr hptr'⟩

/-! ### A read -/

def allWritable : ℕ → Bool := fun _ => true

/-- The codes in the user's buffer, the codes that are still held, and the read. -/
def Codes (s : State) (th : ThreadId) (written : List ReturnError) (e e₂ : ReturnError)
    (read : Option ReadFrame) : Prop :=
  ∃ thr, s.threads th = some thr ∧ errorsIn thr.readBuffer = written ∧
    thr.returnError = e ∧ thr.returnError2 = e₂ ∧ thr.read = read

theorem Codes.of_slots {written : List ReturnError} {e e₂ : ReturnError}
    {read : Option ReadFrame} (h : Codes s th written e e₂ read) (hslots : SlotsKept s s') :
    Codes s' th written e e₂ read := by
  obtain ⟨thr, hthr, hw, he, he₂, hread⟩ := h
  obtain ⟨thr', hthr', hsame⟩ := hslots.exists_thread hthr
  simp only [Thread.slots, Prod.mk.injEq] at hsame
  obtain ⟨h₁, h₂, h₃, h₄⟩ := hsame
  exact ⟨thr', hthr', by rw [h₄, hw], h₁.trans he, h₂.trans he₂, h₃.trans hread⟩

theorem ioctlReturn_slots (hrun : ioctlReturn s th = .ok s') : SlotsKept s s' := by
  simp only [ioctlReturn, except_bind_eq_ok, deref_eq_ok, except_pure_eq_ok] at hrun
  obtain ⟨thr, hthr, rfl⟩ := hrun
  exact .setThread hthr rfl

theorem readDone_codes {written : List ReturnError} {e e₂ : ReturnError}
    {read : Option ReadFrame} (h : Codes s th written e e₂ read)
    (hrun : readDone s p th out allWritable = .ok s') :
    Codes s' th (errorsIn out) e e₂ read := by
  obtain ⟨thr, hthr, -, he, he₂, hread⟩ := h
  simp only [readDone, except_bind_eq_ok, deref_eq_ok] at hrun
  obtain ⟨thr₁, hthr₁, pr, -, hrun⟩ := hrun
  obtain rfl : thr = thr₁ := Option.some.inj (hthr.symm.trans hthr₁)
  refine Codes.of_slots ?_ (ioctlReturn_slots hrun)
  refine ⟨_, Function.update_self .., ?_, he, he₂, hread⟩
  split
  · rfl
  · rfl

/-- What a read that begins at `ptr` does with the two codes: those it writes, and those it
leaves. -/
def readCodes (e e₂ : ReturnError) (size ptr : ℕ) :
    List ReturnError × ReturnError × ReturnError :=
  if e ≠ .ok ∧ ptr < size then
    if e₂ ≠ .ok then
      if ptr + 4 = size then ([e₂], e, e₂) else ([e₂, e], .ok, .ok)
    else ([e], .ok, e₂)
  else ([], e, e₂)

/-- A read that waits has written no code, and did not find one that it could write. -/
def Waiting (e : ReturnError) (read : Option ReadFrame) : Prop :=
  ∀ f, read = some f → errorsIn f.out = [] ∧ (e = .ok ∨ f.size ≤ f.ptr)

theorem waiting_none (e : ReturnError) : Waiting e none := nofun

/-- What is in the buffer, and what is held, after a read has come to its end or to a wait. -/
def After (s : State) (th : ThreadId) (r : List ReturnError × ReturnError × ReturnError) : Prop :=
  ∃ read, Codes s th r.1 r.2.1 r.2.2 read ∧ Waiting r.2.1 read

theorem readRetry_codes {e e₂ : ReturnError} (h : Codes s th [] e e₂ none)
    (hout : errorsIn out = []) (hrun : readRetry s p th size ptr out allWritable = .ok s') :
    After s' th (readCodes e e₂ size ptr) := by
  obtain ⟨thr, hthr, hw, rfl, rfl, hread⟩ := h
  simp only [readRetry, except_bind_eq_ok, deref_eq_ok, allWritable, Bool.not_true,
    Bool.false_eq_true, ↓reduceIte] at hrun
  obtain ⟨thr₁, hthr₁, hrun⟩ := hrun
  obtain rfl : thr = thr₁ := Option.some.inj (hthr.symm.trans hthr₁)
  unfold readCodes
  have hset (e e₂ : ReturnError) :
      Codes (s.setThread th { thr with returnError := e, returnError2 := e₂ }) th [] e e₂ none :=
    ⟨_, Function.update_self .., hw, rfl, rfl, hread⟩
  split at hrun
  · rename_i hcond
    rw [if_pos hcond]
    split at hrun
    · rename_i htwo
      rw [if_pos htwo]
      split at hrun
      · rename_i hlast
        rw [if_pos hlast]
        have hdone := readDone_codes ⟨thr, hthr, hw, rfl, rfl, hread⟩ hrun
        rw [errorsIn_append, hout] at hdone
        exact ⟨none, hdone, waiting_none _⟩
      · rename_i hlast
        rw [if_neg hlast]
        simp only [State.setThread, Function.update_idem] at hrun
        have hdone := readDone_codes (hset .ok .ok) hrun
        rw [errorsIn_append, hout] at hdone
        exact ⟨none, hdone, waiting_none _⟩
    · rename_i hone
      rw [if_neg hone]
      have hdone := readDone_codes (hset .ok thr.returnError2) hrun
      rw [errorsIn_append, hout] at hdone
      exact ⟨none, hdone, waiting_none _⟩
  · rename_i hcond
    rw [if_neg hcond]
    simp only [except_bind_eq_ok, except_pure_eq_ok] at hrun
    obtain ⟨pr, -, rfl⟩ := hrun
    refine ⟨_, ⟨_, Function.update_self .., hw, rfl, rfl, rfl⟩, fun f hf => ?_⟩
    obtain rfl := Option.some.inj hf
    refine ⟨hout, ?_⟩
    by_contra hno
    obtain ⟨he, hle⟩ := not_or.mp hno
    exact hcond ⟨he, not_le.mp hle⟩

def readStart (consumed : ℕ) : ℕ := if consumed = 0 then 4 else consumed

theorem binderThreadRead_codes {e e₂ : ReturnError} (h : Codes s th [] e e₂ none)
    (hrun : binderThreadRead s p th size consumed allWritable = .ok s') :
    After s' th (readCodes e e₂ size (readStart consumed)) := by
  unfold binderThreadRead at hrun
  unfold readStart
  split at hrun
  · rename_i hzero
    rw [if_pos hzero]
    exact readRetry_codes h rfl hrun
  · rename_i hpos
    rw [if_neg hpos]
    exact readRetry_codes h rfl hrun

theorem readResume_codes {e e₂ : ReturnError} {read : Option ReadFrame} {interrupted : Bool}
    (h : Codes s th [] e e₂ read) (hwait : Waiting e read)
    (hrun : readResume L s p th interrupted allWritable = .ok s') :
    After s' th ([], e, e₂) := by
  obtain ⟨thr, hthr, hw, rfl, rfl, rfl⟩ := h
  simp only [readResume, except_bind_eq_ok, deref_eq_ok] at hrun
  obtain ⟨thr₁, hthr₁, hrun⟩ := hrun
  obtain rfl : thr = thr₁ := Option.some.inj (hthr.symm.trans hthr₁)
  cases hread : thr.read with
  | none =>
      simp only [hread, except_pure_eq_ok] at hrun
      subst hrun
      exact ⟨none, ⟨thr, hthr, hw, rfl, rfl, hread⟩, waiting_none _⟩
  | some f =>
      obtain ⟨hout, hfull⟩ := hwait f hread
      simp only [hread, except_bind_eq_ok] at hrun
      obtain ⟨pr, -, hrun⟩ := hrun
      have hwoken (s₁ : State) : Codes (s₁.setThread th
          { thr with read := none, looper := { thr.looper with waiting := false } }) th []
            thr.returnError thr.returnError2 none :=
        ⟨_, Function.update_self .., hw, rfl, rfl, rfl⟩
      split at hrun
      · exact ⟨none, (hwoken _).of_slots (ioctlReturn_slots hrun), waiting_none _⟩
      · simp only [except_bind_eq_ok] at hrun
        obtain ⟨⟨x, s₁⟩, hloop, hrun⟩ := hrun
        obtain ⟨hslots, hcodes⟩ := readLoop_slots hout hloop
        have hcodes₁ := (hwoken _).of_slots hslots
        cases x with
        | done ptr' out' =>
            have hdone := readDone_codes hcodes₁ hrun
            rw [(hcodes ptr' out' (.inl rfl)).1] at hdone
            exact ⟨none, hdone, waiting_none _⟩
        | fault => exact ⟨none, hcodes₁.of_slots (ioctlReturn_slots hrun), waiting_none _⟩
        | retry ptr' out' =>
            obtain ⟨hout', hptr⟩ := hcodes ptr' out' (.inr rfl)
            have hretry := readRetry_codes hcodes₁ hout' hrun
            have hnone : readCodes thr.returnError thr.returnError2 f.size ptr' =
                ([], thr.returnError, thr.returnError2) := by
              refine if_neg fun hcond => ?_
              rcases hfull with he | hle
              · exact hcond.1 he
              · have := hcond.2
                omega
            rwa [hnone] at hretry

/-! ### Sequences of reads -/

/-- The codes in the order in which they are to be read. -/
def heldCodes (e e₂ : ReturnError) : List ReturnError := [e₂, e].filter (· ≠ .ok)

/-- The second code is written, and there is no room for the first. -/
def cutsShort (e e₂ : ReturnError) (size ptr : ℕ) : Bool :=
  e ≠ .ok && e₂ ≠ .ok && ptr + 4 = size

/-- A code is held only in the second slot, which is never read alone. -/
def Stranded (e e₂ : ReturnError) : Prop := e = .ok ∧ e₂ ≠ .ok

theorem readCodes_length (e e₂ : ReturnError) (size ptr : ℕ) :
    (readCodes e e₂ size ptr).1.length +
        (heldCodes (readCodes e e₂ size ptr).2.1 (readCodes e e₂ size ptr).2.2).length =
      (heldCodes e e₂).length + if cutsShort e e₂ size ptr then 1 else 0 := by
  by_cases hcut : ptr + 4 = size
  · have hlt : ptr < size := by omega
    cases e <;> cases e₂ <;> simp [readCodes, heldCodes, cutsShort, hcut, hlt]
  · by_cases hlt : ptr < size
    · cases e <;> cases e₂ <;> simp [readCodes, heldCodes, cutsShort, hcut, hlt]
    · cases e <;> cases e₂ <;> simp [readCodes, heldCodes, cutsShort, hcut, hlt]

theorem readCodes_books {e e₂ : ReturnError} (hcut : cutsShort e e₂ size ptr = false) :
    (readCodes e e₂ size ptr).1 ++
        heldCodes (readCodes e e₂ size ptr).2.1 (readCodes e e₂ size ptr).2.2 =
      heldCodes e e₂ := by
  by_cases hlt : ptr < size
  · by_cases hlast : ptr + 4 = size
    · cases e <;> cases e₂ <;> simp_all [readCodes, heldCodes, cutsShort]
    · cases e <;> cases e₂ <;> simp [readCodes, heldCodes, hlt, hlast]
  · cases e <;> cases e₂ <;> simp [readCodes, heldCodes, hlt]

theorem readCodes_stranded (e e₂ : ReturnError) (size ptr : ℕ) :
    Stranded (readCodes e e₂ size ptr).2.1 (readCodes e e₂ size ptr).2.2 ↔ Stranded e e₂ := by
  unfold readCodes
  split
  · rename_i hcond
    split
    · split
      · exact Iff.rfl
      · exact iff_of_false (fun h => h.2 rfl) fun h => hcond.1 h.1
    · rename_i hone
      exact iff_of_false (fun h => hone h.2) fun h => hcond.1 h.1
  · exact Iff.rfl

theorem readCodes_roomy {e e₂ : ReturnError} (hroom : ptr + 8 ≤ size) (hs : ¬ Stranded e e₂) :
    heldCodes (readCodes e e₂ size ptr).2.1 (readCodes e e₂ size ptr).2.2 = [] := by
  unfold readCodes
  split
  · split
    · rw [if_neg (by omega)]
      rfl
    · rename_i hone
      rw [not_not.mp hone]
      rfl
  · rename_i hcond
    have he : e = .ok := by
      by_contra hne
      exact hcond ⟨hne, by omega⟩
    have he₂ : e₂ = .ok := by
      by_contra hne
      exact hs ⟨he, hne⟩
    rw [he, he₂]
    rfl

/-- What concerns a thread that reads: a call, its end after a wait, or a step of others. -/
inductive ReadEvent
  | read (size consumed : ℕ)
  | resume (interrupted : Bool)
  | others (s : State)

/-- The driver, with the codes that were written to a thread. Counted are the reads that had no
room for the first code behind the second, and those that had room for both. -/
structure Delivery where
  state : State
  written : List ReturnError
  cut : ℕ
  roomy : ℕ

def emptied (s : State) (th : ThreadId) (thr : Thread) : State :=
  s.setThread th { thr with readBuffer := [] }

def bufferCodes (s : State) (th : ThreadId) : List ReturnError :=
  (s.threads th).elim [] fun thr => errorsIn thr.readBuffer

def deliveryStep (L : Layout) (th : ThreadId) (d : Delivery) : ReadEvent → Except Fault Delivery
  | .read size consumed => do
      let thr ← deref d.state.threads th
      let s ← binderThreadRead (emptied d.state th thr) thr.proc th size consumed allWritable
      return {
        state := s
        written := d.written ++ bufferCodes s th
        cut := d.cut +
          if cutsShort thr.returnError thr.returnError2 size (readStart consumed) then 1 else 0
        roomy := d.roomy + if readStart consumed + 8 ≤ size then 1 else 0 }
  | .resume interrupted => do
      let thr ← deref d.state.threads th
      let s ← readResume L (emptied d.state th thr) thr.proc th interrupted allWritable
      return { d with state := s, written := d.written ++ bufferCodes s th }
  | .others s => .ok { d with state := s }

def Thread.pendings (thr : Thread) : ReturnError × ReturnError × Option ReadFrame :=
  (thr.returnError, thr.returnError2, thr.read)

/-- A thread makes one read at a time, and the others raise no error for it. -/
def ReadEvent.Admitted (th : ThreadId) (d : Delivery) : ReadEvent → Prop
  | .read _ _ => ∀ thr, d.state.threads th = some thr → thr.read = none
  | .resume _ => True
  | .others s => (s.threads th).map Thread.pendings = (d.state.threads th).map Thread.pendings

/-- The books of a delivery that began with these codes. -/
structure Delivered (th : ThreadId) (e₀ e₂₀ : ReturnError) (d : Delivery) (e e₂ : ReturnError) :
    Prop where
  held : ∃ thr, d.state.threads th = some thr ∧ thr.returnError = e ∧ thr.returnError2 = e₂ ∧
    Waiting e thr.read
  length : d.written.length + (heldCodes e e₂).length = (heldCodes e₀ e₂₀).length + d.cut
  books : d.cut = 0 → d.written ++ heldCodes e e₂ = heldCodes e₀ e₂₀
  stranded : Stranded e e₂ ↔ Stranded e₀ e₂₀
  roomy : 0 < d.roomy → ¬ Stranded e e₂ → heldCodes e e₂ = []

theorem codes_emptied (s : State) (th : ThreadId) (thr : Thread) :
    Codes (emptied s th thr) th [] thr.returnError thr.returnError2 thr.read :=
  ⟨_, Function.update_self .., rfl, rfl, rfl, rfl⟩

theorem Codes.bufferCodes_eq {written : List ReturnError} {e e₂ : ReturnError}
    {read : Option ReadFrame} (h : Codes s th written e e₂ read) : bufferCodes s th = written := by
  obtain ⟨thr, hthr, hw, -⟩ := h
  simp only [bufferCodes, hthr, Option.elim_some, hw]

variable {e₀ e₂₀ e e₂ : ReturnError} {d d' : Delivery}

theorem Delivered.step (h : Delivered th e₀ e₂₀ d e e₂) {a : ReadEvent}
    (hadm : a.Admitted th d) (hstep : deliveryStep L th d a = .ok d') :
    ∃ e' e₂', Delivered th e₀ e₂₀ d' e' e₂' := by
  obtain ⟨thr, hthr, rfl, rfl, hwait⟩ := h.held
  cases a with
  | read size consumed =>
      simp only [deliveryStep, except_bind_eq_ok, deref_eq_ok, except_pure_eq_ok] at hstep
      obtain ⟨thr₁, hthr₁, s, hrun, rfl⟩ := hstep
      obtain rfl : thr = thr₁ := Option.some.inj (hthr.symm.trans hthr₁)
      have hcodes := codes_emptied d.state th thr
      rw [hadm thr hthr] at hcodes
      obtain ⟨read, hafter, hwait'⟩ := binderThreadRead_codes hcodes hrun
      have hlength := readCodes_length thr.returnError thr.returnError2 size (readStart consumed)
      have hold := h.length
      refine ⟨(readCodes thr.returnError thr.returnError2 size (readStart consumed)).2.1,
        (readCodes thr.returnError thr.returnError2 size (readStart consumed)).2.2,
        ?_, ?_, fun hcut => ?_, ?_, fun hroomy hs => ?_⟩
      · obtain ⟨thr', hthr', -, he, he₂, hread⟩ := hafter
        exact ⟨thr', hthr', he, he₂, hread ▸ hwait'⟩
      · dsimp only
        rw [hafter.bufferCodes_eq, List.length_append]
        omega
      · dsimp only at hcut ⊢
        obtain ⟨hzero, hshort⟩ := Nat.add_eq_zero_iff.mp hcut
        have hshort' : cutsShort thr.returnError thr.returnError2 size (readStart consumed) =
            false := by
          by_contra hne
          rw [if_pos (by simpa using hne)] at hshort
          cases hshort
        rw [hafter.bufferCodes_eq, List.append_assoc, readCodes_books hshort', h.books hzero]
      · rw [readCodes_stranded]
        exact h.stranded
      · rw [readCodes_stranded] at hs
        dsimp only at hroomy
        by_cases hroom : readStart consumed + 8 ≤ size
        · exact readCodes_roomy hroom hs
        · rw [if_neg hroom] at hroomy
          have hnil := h.roomy hroomy hs
          rw [hnil, List.length_nil, Nat.zero_add] at hlength
          by_contra hne
          have hpos := List.length_pos_iff.mpr hne
          have hshort : cutsShort thr.returnError thr.returnError2 size (readStart consumed) =
              false := by
            by_contra hcut
            simp only [cutsShort, Bool.not_eq_false, Bool.and_eq_true, decide_eq_true_eq] at hcut
            have he := hcut.1.2
            simp [heldCodes, he] at hnil
          rw [hshort] at hlength
          simp only [Bool.false_eq_true, if_false] at hlength
          omega
  | resume interrupted =>
      simp only [deliveryStep, except_bind_eq_ok, deref_eq_ok, except_pure_eq_ok] at hstep
      obtain ⟨thr₁, hthr₁, s, hrun, rfl⟩ := hstep
      obtain rfl : thr = thr₁ := Option.some.inj (hthr.symm.trans hthr₁)
      obtain ⟨read, hafter, hwait'⟩ :=
        readResume_codes (codes_emptied d.state th thr) hwait hrun
      refine ⟨thr.returnError, thr.returnError2, ?_, ?_, fun hcut => ?_, h.stranded, h.roomy⟩
      · obtain ⟨thr', hthr', -, he, he₂, hread⟩ := hafter
        exact ⟨thr', hthr', he, he₂, hread ▸ hwait'⟩
      · dsimp only
        rw [hafter.bufferCodes_eq, List.append_nil]
        exact h.length
      · dsimp only
        rw [hafter.bufferCodes_eq, List.append_nil]
        exact h.books hcut
  | others s =>
      simp only [deliveryStep, Except.ok.injEq] at hstep
      subst hstep
      have hmap : (s.threads th).map Thread.pendings =
          (d.state.threads th).map Thread.pendings := hadm
      rw [hthr] at hmap
      obtain ⟨thr', hthr', hsame⟩ := Option.map_eq_some_iff.mp hmap
      simp only [Thread.pendings, Prod.mk.injEq] at hsame
      obtain ⟨he, he₂, hread⟩ := hsame
      exact ⟨_, _, ⟨thr', hthr', he, he₂, hread ▸ hwait⟩, h.length, h.books, h.stranded, h.roomy⟩

theorem delivered_of_reach {s₀ : State} {thr₀ : Thread} (hthr₀ : s₀.threads th = some thr₀)
    (hread : thr₀.read = none)
    (hreach : Reach (deliveryStep L th) (ReadEvent.Admitted th) ⟨s₀, [], 0, 0⟩ d) :
    ∃ e e₂, Delivered th thr₀.returnError thr₀.returnError2 d e e₂ := by
  refine hreach.invariant
    (I := fun d => ∃ e e₂, Delivered th thr₀.returnError thr₀.returnError2 d e e₂)
    ⟨_, _, ⟨thr₀, hthr₀, rfl, rfl, hread ▸ waiting_none _⟩, Nat.zero_add _, fun _ => rfl, Iff.rfl,
      fun h => absurd h (Nat.lt_irrefl 0)⟩ ?_
  rintro d a d' ⟨e, e₂, h⟩ hadm hstep
  exact h.step hadm hstep

/-- A thread whose reply failed, and then its own call. -/
def pendingState : State :=
  { State.init with
    nextId := 2
    procs := Function.update (fun _ => none) 0 (some
      { pid := 7, maxThreads := 0, requestedThreads := 0, requestedThreadsStarted := 0,
        readyThreads := 0, deferredPutFiles := false, deferredFlush := false,
        deferredRelease := false })
    threads := Function.update (fun _ => none) 1 (some
      { proc := 0, pid := 8,
        looper := { registered := false, entered := true, exited := false, invalid := false,
                    waiting := false, needReturn := false },
        transactionStack := none, returnError := .deadReply,
        returnError2 := .transactionComplete, read := none, readBuffer := [] })
    threadsOf := Function.update (fun _ => []) 0 [1] }

end Pending

end Driver

end BinderForLinux
