import BinderForLinux.Library.History
import BinderForLinux.Library.SortedList
import BinderForLinux.Looper.Poll
import Mathlib.Data.Prod.Lex
import Mathlib.Data.Set.Insert

/-!
# Messages in their turn

Whatever the threads do and in whatever order, a looper hands over the messages in the order of
their times, those of one time in the order in which they were sent, each once, none early, and no
turn of its loop over the messages ends while one is due.
-/

namespace BinderForLinux

namespace Looper

open Library

variable {s s' : State} {a : Act} {e : MessageEnvelope} {q : List MessageEnvelope} {handler : ℕ}
  {what : Option ℤ}

/-! ### The order of the queue -/

/-- Messages go by their times, and those of one time by the order in which they were sent. -/
def MessageEnvelope.key (e : MessageEnvelope) : ℤ ×ₗ ℕ := toLex (e.uptime, e.number)

theorem MessageEnvelope.key_lt {e e' : MessageEnvelope} : e.key < e'.key ↔
    e.uptime < e'.uptime ∨ e.uptime = e'.uptime ∧ e.number < e'.number :=
  Prod.Lex.toLex_lt_toLex

theorem MessageEnvelope.uptime_le {e e' : MessageEnvelope} (h : e.key ≤ e'.key) :
    e.uptime ≤ e'.uptime := by
  rcases Prod.Lex.toLex_le_toLex.mp h with h | h
  · exact h.le
  · exact h.1.le

theorem position_le_length (uptime : ℤ) (q : List MessageEnvelope) :
    position uptime q ≤ q.length := by
  induction q with
  | nil => exact le_rfl
  | cons x q ih =>
      unfold position
      split
      · exact Nat.succ_le_succ ih
      · exact Nat.zero_le _

theorem mem_insertIdx_position {x : MessageEnvelope} :
    x ∈ q.insertIdx (position e.uptime q) e ↔ x = e ∨ x ∈ q :=
  List.mem_insertIdx (position_le_length e.uptime q)

theorem ascending_insertIdx (h : Ascending MessageEnvelope.key q)
    (hnew : ∀ x ∈ q, x.number < e.number) :
    Ascending MessageEnvelope.key (q.insertIdx (position e.uptime q) e) := by
  induction q with
  | nil => exact List.pairwise_singleton _ _
  | cons x q ih =>
      obtain ⟨hx, hq⟩ := ascending_cons.mp h
      unfold position
      split
      · rename_i hle
        rw [List.insertIdx_succ_cons]
        refine ascending_cons.mpr ⟨fun y hy => ?_, ih hq fun y hy =>
          hnew y (List.mem_cons_of_mem _ hy)⟩
        rcases mem_insertIdx_position.mp hy with rfl | hy
        · refine MessageEnvelope.key_lt.mpr ?_
          rcases hle.lt_or_eq with hlt | heq
          · exact .inl hlt
          · exact .inr ⟨heq, hnew x List.mem_cons_self⟩
        · exact hx y hy
      · rename_i hlt
        have hex : e.key < x.key := MessageEnvelope.key_lt.mpr (.inl (not_le.mp hlt))
        rw [List.insertIdx_zero]
        refine ascending_cons.mpr ⟨fun y hy => ?_, h⟩
        rcases List.mem_cons.mp hy with rfl | hy
        · exact hex
        · exact hex.trans (hx y hy)

theorem removeFrom_eq {i : ℕ} (hi : i ≤ q.length) : removeFrom handler what i q =
    (q.take i).filter (fun e => !e.isFor handler what) ++ q.drop i := by
  induction i generalizing q with
  | zero => simp [removeFrom]
  | succ i ih =>
      have hget : q[i]? = some q[i] := List.getElem?_eq_getElem hi
      have htake : q.take (i + 1) = q.take i ++ [q[i]] := by
        rw [List.take_add_one, hget, Option.toList_some]
      unfold removeFrom
      rw [hget, htake, List.filter_append]
      cases hfor : q[i].isFor handler what with
      | true =>
          have hlen : i ≤ (q.eraseIdx i).length := by
            rw [List.length_eraseIdx_of_lt hi]
            omega
          dsimp only
          rw [if_pos hfor, ih hlen, List.eraseIdx_eq_take_drop_succ]
          simp [hfor, Nat.min_eq_left (Nat.le_of_lt hi)]
      | false =>
          dsimp only
          rw [if_neg (by simp [hfor]), ih (Nat.le_of_lt hi), List.drop_eq_getElem_cons hi]
          simp [hfor]

theorem removeMessages_eq :
    removeMessages handler what q = q.filter fun e => !e.isFor handler what := by
  unfold removeMessages
  rw [removeFrom_eq le_rfl, List.take_length, List.drop_length, List.append_nil]

/-! ### The log -/

inductive Obs
  | sent (e : MessageEnvelope)
  | removed (handler : ℕ) (what : Option ℤ)
  | polled
  | delivered (e : MessageEnvelope) (now : ℤ)
  | scanned (now : ℤ)
  | invoked
  | finished (result : PollResult)

/-- What a step is seen to do: `scanned` is the end of the loop over the messages. -/
def observe (s : State) : Act → Option Obs
  | .sendMessageAtTime _ uptime handler what => some (.sent ⟨s.sent, uptime, handler, what⟩)
  | .removeMessages _ handler what => some (.removed handler what)
  | .pollInner _ => some .polled
  | .scan =>
      match s.mMessageEnvelopes with
      | [] => some (.scanned s.time)
      | e :: _ => if e.uptime ≤ s.time then some (.delivered e s.time) else some (.scanned s.time)
  | .invoked => some .invoked
  | .finish =>
      match s.pc with
      | .responding result => some (.finished result)
      | _ => none
  | _ => none

def loggedStep (x : State × List Obs) (a : Act) : Except Unit (State × List Obs) :=
  (step x.1 a).map fun s => (s, x.2 ++ (observe x.1 a).toList)

/-- The messages that are to be handed over, when those of `w` were before. -/
def Obs.after (w : Set MessageEnvelope) : Obs → Set MessageEnvelope
  | .sent e => insert e w
  | .removed handler what => {e ∈ w | e.isFor handler what = false}
  | .delivered e _ => w \ {e}
  | _ => w

/-- The messages that were sent and neither removed nor handed over. -/
def pendingAfter (h : List Obs) : Set MessageEnvelope := h.foldl Obs.after ∅

def Obs.message : Obs → Option MessageEnvelope
  | .delivered e _ => some e
  | _ => none

def handedOver (h : List Obs) : List MessageEnvelope := h.filterMap Obs.message

/-- Whether something of the program was called. -/
def Obs.isCall : Obs → Bool
  | .delivered _ _ | .invoked => true
  | _ => false

def Called (h : List Obs) : Prop := Since (fun _ o => o.isCall = true) (fun o => o = .polled) h

/-- What is right after the log `h`: every message is another one, the one that is handed over
is due and the first of those that are to be, none of them is due when the loop ends, and
`POLL_CALLBACK` is the result of a poll in which something was called. -/
def Obs.Right (h : List Obs) : Obs → Prop
  | .sent e => ∀ e', .sent e' ∈ h → e'.number < e.number
  | .delivered e now => e ∈ pendingAfter h ∧ e.uptime ≤ now ∧ ∀ e' ∈ pendingAfter h, e.key ≤ e'.key
  | .scanned now => ∀ e ∈ pendingAfter h, now < e.uptime
  | .finished result => result = .callback ↔ Called h
  | _ => True

variable {h : List Obs} {o : Obs}

theorem pendingAfter_concat : pendingAfter (h ++ [o]) = o.after (pendingAfter h) := by
  simp [pendingAfter]

theorem handedOver_concat : handedOver (h ++ [o]) = handedOver h ++ o.message.toList := by
  unfold handedOver
  rw [List.filterMap_append]
  cases ho : o.message <;> simp [ho]

theorem called_concat : Called (h ++ [o]) ↔ o.isCall = true ∨ Called h ∧ o ≠ .polled :=
  since_concat

/-! ### What a step does to the queue -/

def Moves (s s' : State) : Option Obs → Prop
  | some (.sent e) => e.number = s.sent ∧ s'.sent = s.sent + 1 ∧
      s'.mMessageEnvelopes = s.mMessageEnvelopes.insertIdx (position e.uptime s.mMessageEnvelopes) e
  | some (.removed handler what) => s'.sent = s.sent ∧
      s'.mMessageEnvelopes = removeMessages handler what s.mMessageEnvelopes
  | some (.delivered e now) => s'.sent = s.sent ∧ e.uptime ≤ now ∧
      s.mMessageEnvelopes = e :: s'.mMessageEnvelopes
  | some (.scanned now) => s'.sent = s.sent ∧ s'.mMessageEnvelopes = s.mMessageEnvelopes ∧
      ∀ e ∈ s.mMessageEnvelopes.head?, now < e.uptime
  | _ => s'.sent = s.sent ∧ s'.mMessageEnvelopes = s.mMessageEnvelopes

theorem sendMessageAtTime_moves (s : State) (own : Bool) (uptime : ℤ) (handler : ℕ) (what : ℤ) :
    Moves s (s.sendMessageAtTime own uptime handler what)
      (some (.sent ⟨s.sent, uptime, handler, what⟩)) := by
  simp only [Moves, State.sendMessageAtTime]
  split
  · simp
  · split
    · cases own <;> simp
    · simp

theorem scan_moves (s : State) (result : PollResult) :
    Moves s (s.scan result) (observe s .scan) := by
  simp only [observe, State.scan]
  cases hq : s.mMessageEnvelopes with
  | nil => simp [Moves, hq]
  | cons e q =>
      by_cases hdue : e.uptime ≤ s.time
      · simp [Moves, hdue, hq]
      · simp only [hdue, ↓reduceIte, Moves, hq, List.head?_cons, Option.mem_some_iff,
          forall_eq', true_and]
        exact not_le.mp hdue

theorem step_moves (h : step s a = .ok s') : Moves s s' (observe s a) := by
  cases a with
  | sendMessageAtTime own uptime handler what =>
      obtain ⟨-, rfl⟩ := sendMessageAtTime_ok h
      exact sendMessageAtTime_moves s own uptime handler what
  | scan =>
      obtain ⟨result, -, rfl⟩ := scan_ok h
      exact scan_moves s result
  | wake own =>
      cases own <;> simp only [step] at h <;> split at h <;> cases h <;> exact ⟨rfl, rfl⟩
  | finish =>
      obtain ⟨result, hpc, rfl⟩ := finish_ok h
      simp [observe, hpc, Moves]
  | _ =>
      simp only [step] at h
      repeat' split at h
      all_goals cases h <;> exact ⟨rfl, rfl⟩

/-! ### Whole runs -/

/-- The queue is what the log leaves, in order, and every message that was handed over is gone. -/
structure InTurn (s : State) (h : List Obs) : Prop where
  queue : ∀ e, e ∈ s.mMessageEnvelopes ↔ e ∈ pendingAfter h
  ascending : Ascending MessageEnvelope.key s.mMessageEnvelopes
  numbered : ∀ e, .sent e ∈ h → e.number < s.sent
  pending_sent : ∀ e ∈ pendingAfter h, .sent e ∈ h
  gone : ∀ e ∈ handedOver h, .sent e ∈ h ∧ e ∉ pendingAfter h
  once : (handedOver h).Nodup

theorem InTurn.init (time : ℤ) : InTurn (State.init time) [] where
  queue := fun e => by simp [State.init, pendingAfter]
  ascending := Ascending.nil
  numbered := fun e he => by simp at he
  pending_sent := fun e he => by simp [pendingAfter] at he
  gone := fun e he => by simp [handedOver] at he
  once := List.nodup_nil

namespace InTurn

variable (hi : InTurn s h)
include hi

theorem still (hsent : s'.sent = s.sent) (hqueue : s'.mMessageEnvelopes = s.mMessageEnvelopes)
    {os : List Obs} (hpending : pendingAfter (h ++ os) = pendingAfter h)
    (hnew : ∀ e, .sent e ∉ os) (hover : handedOver (h ++ os) = handedOver h) :
    InTurn s' (h ++ os) where
  queue := fun e => by rw [hqueue, hpending]; exact hi.queue e
  ascending := hqueue ▸ hi.ascending
  numbered := fun e he => by
    rw [hsent]
    exact hi.numbered e ((List.mem_append.mp he).resolve_right (hnew e))
  pending_sent := fun e he => List.mem_append_left _ (hi.pending_sent e (hpending ▸ he))
  gone := fun e he => by
    rw [hover] at he
    rw [hpending]
    exact ⟨List.mem_append_left _ (hi.gone e he).1, (hi.gone e he).2⟩
  once := hover ▸ hi.once

theorem sent_new (hnumber : e.number = s.sent) : .sent e ∉ h :=
  fun he => (hi.numbered e he).ne hnumber

theorem sendMessage (hm : Moves s s' (some (.sent e))) : InTurn s' (h ++ [.sent e]) := by
  obtain ⟨hnumber, hsent, hqueue⟩ := hm
  have hover : handedOver (h ++ [.sent e]) = handedOver h :=
    handedOver_concat.trans (List.append_nil _)
  refine ⟨fun x => ?_, ?_, fun x hx => ?_, fun x hx => ?_, fun x hx => ?_, ?_⟩
  · rw [hqueue, mem_insertIdx_position, hi.queue x, pendingAfter_concat]
    rfl
  · rw [hqueue]
    exact ascending_insertIdx hi.ascending fun x hx => by
      rw [hnumber]
      exact hi.numbered x (hi.pending_sent x ((hi.queue x).mp hx))
  · rw [hsent]
    rcases List.mem_append.mp hx with hx | hx
    · exact (hi.numbered x hx).trans (Nat.lt_succ_self _)
    · obtain rfl : x = e := by simpa using hx
      omega
  · rw [pendingAfter_concat] at hx
    rcases hx with rfl | hx
    · simp
    · exact List.mem_append_left _ (hi.pending_sent x hx)
  · obtain ⟨hold, hgone⟩ := hi.gone x (hover ▸ hx)
    rw [pendingAfter_concat]
    refine ⟨List.mem_append_left _ hold, ?_⟩
    rintro (rfl | hpending)
    · exact hi.sent_new hnumber hold
    · exact hgone hpending
  · exact hover ▸ hi.once

theorem remove (hm : Moves s s' (some (.removed handler what))) :
    InTurn s' (h ++ [.removed handler what]) := by
  obtain ⟨hsent, hqueue⟩ := hm
  rw [removeMessages_eq] at hqueue
  have hpending : pendingAfter (h ++ [.removed handler what]) =
      {e ∈ pendingAfter h | e.isFor handler what = false} := pendingAfter_concat
  have hover : handedOver (h ++ [.removed handler what]) = handedOver h :=
    handedOver_concat.trans (List.append_nil _)
  refine ⟨fun x => ?_, hqueue ▸ hi.ascending.filter _, fun x hx => ?_, fun x hx => ?_,
    fun x hx => ?_, ?_⟩
  · rw [hqueue, List.mem_filter, hi.queue x, hpending, Bool.not_eq_true']
    rfl
  · rw [hsent]
    exact hi.numbered x (by simpa using hx)
  · exact List.mem_append_left _ (hi.pending_sent x (hpending ▸ hx).1)
  · obtain ⟨hold, hgone⟩ := hi.gone x (hover ▸ hx)
    exact ⟨List.mem_append_left _ hold, fun hx => hgone (hpending ▸ hx).1⟩
  · exact hover ▸ hi.once

theorem deliver {now : ℤ} (hm : Moves s s' (some (.delivered e now))) :
    InTurn s' (h ++ [.delivered e now]) := by
  obtain ⟨hsent, -, hqueue⟩ := hm
  have hpending : pendingAfter (h ++ [.delivered e now]) = pendingAfter h \ {e} :=
    pendingAfter_concat
  have hmem (x : MessageEnvelope) : x ∈ e :: s'.mMessageEnvelopes ↔ x ∈ pendingAfter h :=
    hqueue ▸ hi.queue x
  obtain ⟨hfirst, hrest⟩ := ascending_cons.mp (hqueue ▸ hi.ascending)
  have he : e ∈ pendingAfter h := (hmem e).mp List.mem_cons_self
  have hover : handedOver (h ++ [.delivered e now]) = handedOver h ++ [e] := handedOver_concat
  refine ⟨fun x => ?_, hrest, fun x hx => ?_, fun x hx => ?_, fun x hx => ?_, ?_⟩
  · rw [hpending, Set.mem_sdiff, ← hmem, List.mem_cons, Set.mem_singleton_iff]
    exact ⟨fun hx => ⟨.inr hx, fun heq => (hfirst x hx).ne (heq ▸ rfl)⟩,
      fun hx => hx.1.resolve_left hx.2⟩
  · rw [hsent]
    exact hi.numbered x (by simpa using hx)
  · exact List.mem_append_left _ (hi.pending_sent x (hpending ▸ hx).1)
  · rw [hpending]
    rcases List.mem_append.mp (hover ▸ hx) with hx | hx
    · exact ⟨List.mem_append_left _ (hi.gone x hx).1, fun hx' => (hi.gone x hx).2 hx'.1⟩
    · obtain rfl := List.mem_singleton.mp hx
      exact ⟨List.mem_append_left _ (hi.pending_sent x he), fun hx' => hx'.2 rfl⟩
  · rw [hover]
    exact List.nodup_append.mpr ⟨hi.once, List.pairwise_singleton _ e, fun x hx y hy heq =>
      (hi.gone x hx).2 (heq ▸ List.mem_singleton.mp hy ▸ he)⟩

theorem moves {o : Option Obs} (hm : Moves s s' o) : InTurn s' (h ++ o.toList) := by
  cases o with
  | none => exact hi.still hm.1 hm.2 (by simp) (by simp) (by simp)
  | some o =>
      cases o with
      | sent e => exact hi.sendMessage hm
      | removed handler what => exact hi.remove hm
      | delivered e now => exact hi.deliver hm
      | scanned now =>
          exact hi.still hm.1 hm.2.1 pendingAfter_concat (by simp)
            (handedOver_concat.trans (List.append_nil _))
      | _ =>
          exact hi.still hm.1 hm.2 pendingAfter_concat (by simp)
            (handedOver_concat.trans (List.append_nil _))

end InTurn

def ResultFor (h : List Obs) : Pc → Prop
  | .idle => True
  | .polling _ _ _ | .waiting _ _ _ _ => ¬ Called h
  | .scanning result | .responding result => result = .callback ↔ Called h
  | .handling _ => Called h

theorem resultFor_concat {pc : Pc} (hcall : o.isCall = false) (hpolled : o ≠ .polled)
    (hr : ResultFor h pc) : ResultFor (h ++ [o]) pc := by
  have hiff : Called (h ++ [o]) ↔ Called h := by
    simp [called_concat, hcall, hpolled]
  cases pc with
  | idle => trivial
  | _ => simpa only [ResultFor, hiff] using hr

theorem sendMessageAtTime_pc (s : State) (own : Bool) (uptime : ℤ) (handler : ℕ) (what : ℤ) :
    (s.sendMessageAtTime own uptime handler what).pc = s.pc := by
  simp only [State.sendMessageAtTime]
  repeat' split
  all_goals rfl

theorem step_result (hr : ResultFor h s.pc) (hstep : step s a = .ok s') :
    ResultFor (h ++ (observe s a).toList) s'.pc := by
  cases a with
  | sendMessageAtTime own uptime handler what =>
      obtain ⟨-, rfl⟩ := sendMessageAtTime_ok hstep
      rw [sendMessageAtTime_pc]
      exact resultFor_concat rfl (by simp) hr
  | removeMessages own handler what =>
      obtain rfl := removeMessages_ok hstep
      exact resultFor_concat rfl (by simp) hr
  | pollInner timeoutMillis =>
      simp only [step] at hstep
      split at hstep <;> cases hstep
      simp [observe, ResultFor, called_concat, Obs.isCall]
  | epollWait =>
      obtain ⟨given, asked, timeout, hpc, rfl⟩ := epollWait_ok hstep
      have hnot : ¬ Called h := by rw [hpc] at hr; exact hr
      simpa [observe, ResultFor] using hnot
  | epollReturn ret =>
      obtain ⟨given, asked, start, timeout, hpc, rfl⟩ := epollReturn_ok hstep
      have hnot : ¬ Called h := by rw [hpc] at hr; exact hr
      have hresult : ret.result ≠ .callback := by cases ret <;> simp [Returned.result]
      simp [observe, State.returned, ResultFor, hnot, hresult]
  | scan =>
      obtain ⟨result, hpc, rfl⟩ := scan_ok hstep
      have hiff : result = .callback ↔ Called h := by rw [hpc] at hr; exact hr
      simp only [observe, State.scan]
      cases hq : s.mMessageEnvelopes with
      | nil => simpa [ResultFor, called_concat, Obs.isCall] using hiff
      | cons e q =>
          by_cases hdue : e.uptime ≤ s.time
          · simp [hdue, ResultFor, called_concat, Obs.isCall]
          · simpa [hdue, ResultFor, called_concat, Obs.isCall] using hiff
  | handled =>
      obtain ⟨e, hpc, -, rfl⟩ := handled_ok hstep
      have hcalled : Called h := by rw [hpc] at hr; exact hr
      simpa [observe, ResultFor] using hcalled
  | invoked =>
      obtain ⟨result, -, rfl⟩ := invoked_ok hstep
      simp [observe, ResultFor, called_concat, Obs.isCall]
  | finish =>
      obtain ⟨result, -, rfl⟩ := finish_ok hstep
      trivial
  | wake own =>
      cases own <;> simp only [step] at hstep <;> split at hstep <;> cases hstep <;>
        simpa [observe, State.wake] using hr
  | _ =>
      simp only [step, Except.ok.injEq] at hstep
      subst hstep
      simpa [observe, State.wake] using hr

theorem observe_finished {result : PollResult} (ha : observe s a = some (.finished result)) :
    s.pc = .responding result := by
  cases a with
  | finish =>
      simp only [observe] at ha
      split at ha
      · rename_i hpc
        cases ha
        exact hpc
      · cases ha
  | scan =>
      simp only [observe] at ha
      repeat' split at ha
      all_goals cases ha
  | _ => cases ha

theorem step_right (hi : InTurn s h) (hr : ResultFor h s.pc) (hstep : step s a = .ok s')
    (ho : observe s a = some o) : o.Right h := by
  have hm := step_moves hstep
  rw [ho] at hm
  cases o with
  | sent e => exact fun e' he' => hm.1 ▸ hi.numbered e' he'
  | delivered e now =>
      obtain ⟨-, hdue, hqueue⟩ := hm
      obtain ⟨hfirst, -⟩ := ascending_cons.mp (hqueue ▸ hi.ascending)
      have hmem (x : MessageEnvelope) : x ∈ e :: s'.mMessageEnvelopes ↔ x ∈ pendingAfter h :=
        hqueue ▸ hi.queue x
      refine ⟨(hmem e).mp List.mem_cons_self, hdue, fun x hx => ?_⟩
      rcases List.mem_cons.mp ((hmem x).mpr hx) with rfl | hx
      · exact le_rfl
      · exact (hfirst x hx).le
  | scanned now =>
      intro x hx
      have hx := (hi.queue x).mpr hx
      cases hhead : s.mMessageEnvelopes.head? with
      | none => exact absurd (List.head?_eq_none_iff.mp hhead ▸ hx) List.not_mem_nil
      | some e =>
          exact (hm.2.2 e hhead).trans_le
            (MessageEnvelope.uptime_le (hi.ascending.head_le hhead hx))
  | finished result =>
      rw [observe_finished ho] at hr
      exact hr
  | _ => trivial

theorem turns_of_reach {time : ℤ}
    (hreach : Reach loggedStep (fun _ _ => True) (State.init time, []) (s, h)) :
    InTurn s h ∧ ResultFor h s.pc ∧ Throughout Obs.Right h := by
  have hinit : ResultFor [] (State.init time).pc := trivial
  refine hreach.invariant (I := fun x => InTurn x.1 x.2 ∧ ResultFor x.2 x.1.pc ∧
    Throughout Obs.Right x.2) ⟨InTurn.init time, hinit, throughout_nil⟩ ?_
  rintro ⟨s, h⟩ a x ⟨hi, hr, hright⟩ - hlogged
  obtain ⟨s', hstep, rfl⟩ := except_map_eq_ok.mp hlogged
  refine ⟨hi.moves (step_moves hstep), step_result hr hstep, ?_⟩
  dsimp only
  cases ho : observe s a with
  | none => simpa using hright
  | some o => exact throughout_concat.mpr ⟨hright, step_right hi hr hstep ho⟩

/-- Over every order of the steps of all threads: each message is handed over once at most, when
it is due and first in order among those that were sent and not removed; when the loop over the
messages ends none of them is due; the queue has them all, in order; and a poll reports
`POLL_CALLBACK` when it has called something. -/
theorem messages_in_turn {time : ℤ}
    (hreach : Reach loggedStep (fun _ _ => True) (State.init time, []) (s, h)) :
    Throughout Obs.Right h ∧ (handedOver h).Nodup ∧
      (∀ e, e ∈ s.mMessageEnvelopes ↔ e ∈ pendingAfter h) ∧
      Ascending MessageEnvelope.key s.mMessageEnvelopes := by
  obtain ⟨hi, -, hright⟩ := turns_of_reach hreach
  exact ⟨hright, hi.once, hi.queue, hi.ascending⟩

/-- A message that is sent while another one is handled, for an earlier time. -/
def sentMeanwhile : List Act :=
  [.sendMessageAtTime false 10 1 0, .wake false, .pollInner (-1), .epollWait,
    .epollReturn (.events true), .tick 20, .scan, .sendMessageAtTime false 30 1 1,
    .sendMessageAtTime true 5 2 0, .handled, .scan, .handled, .scan, .finish]

theorem messages_in_turn_meanwhile : ∃ s h,
    runChecked loggedStep (fun _ _ => True) (State.init 0, []) sentMeanwhile = some (s, h) ∧
      s.mMessageEnvelopes = [⟨1, 30, 1, 1⟩] ∧ handedOver h = [⟨0, 10, 1, 0⟩, ⟨2, 5, 2, 0⟩] ∧
      (handedOver h).Nodup ∧ pendingAfter h = {⟨1, 30, 1, 1⟩} := by
  obtain ⟨⟨s, h⟩, hrun, hs⟩ := Option.map_eq_some_iff.mp
    (show (runChecked loggedStep (fun _ _ => True) (State.init 0, []) sentMeanwhile).map
      (fun x => (x.1.mMessageEnvelopes, handedOver x.2)) =
        some ([⟨1, 30, 1, 1⟩], [⟨0, 10, 1, 0⟩, ⟨2, 5, 2, 0⟩]) by decide +kernel)
  simp only [Prod.mk.injEq] at hs
  obtain ⟨-, hnodup, hqueue, -⟩ := messages_in_turn (reach_of_runChecked hrun)
  refine ⟨s, h, hrun, hs.1, hs.2, hnodup, Set.ext fun e => ?_⟩
  rw [← hqueue, hs.1, List.mem_singleton, Set.mem_singleton_iff]

end Looper

end BinderForLinux
