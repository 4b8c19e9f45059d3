import BinderForLinux.Looper.Messages

/-!
# No wake-up is lost

A thread that enters a message at the head of the queue wakes the looper after it has released the
lock, and does not do so while a message is handled. Still the looper never sleeps past the head of
its queue, unless that is so far away that `toMillisecondTimeoutDelay` has no timeout for it.
-/

namespace BinderForLinux

namespace Looper

open Library

variable {s s' : State} {a : Act} {e : MessageEnvelope} {now uptime given asked start timeout : ℤ}

/-! ### The timeout -/

def TooFar (now uptime : ℤ) : Prop := uptime = LLONG_MAX ∨ (INT_MAX - 1) * 1000000 < uptime - now

theorem toMillisecondTimeoutDelay_neg :
    toMillisecondTimeoutDelay now uptime < 0 ↔ (INT_MAX - 1) * 1000000 < uptime - now := by
  unfold toMillisecondTimeoutDelay INT_MAX
  dsimp only
  split
  · split <;> omega
  · omega

theorem toMillisecondTimeoutDelay_lt :
    toMillisecondTimeoutDelay now uptime * 1000000 < max (uptime - now) 0 + 1000000 := by
  unfold toMillisecondTimeoutDelay INT_MAX
  dsimp only
  split
  · split <;> omega
  · omega

theorem adjustTimeout_neg :
    adjustTimeout given now uptime < 0 ↔ given < 0 ∧ TooFar now uptime := by
  have hneg : toMillisecondTimeoutDelay now uptime < 0 ↔
      (INT_MAX - 1) * 1000000 < uptime - now := toMillisecondTimeoutDelay_neg
  unfold adjustTimeout TooFar
  dsimp only
  split
  · rename_i hset
    split <;> simp only [hset.2, false_or] <;> omega
  · rename_i hset
    by_cases hmax : uptime = LLONG_MAX
    · simp only [hmax, true_or, and_true]
    · simp only [hmax, false_or]
      omega

theorem adjustTimeout_lt (hnear : ¬ TooFar now uptime) : 0 ≤ adjustTimeout given now uptime ∧
    adjustTimeout given now uptime * 1000000 < max (uptime - now) 0 + 1000000 := by
  have hneg : toMillisecondTimeoutDelay now uptime < 0 ↔
      (INT_MAX - 1) * 1000000 < uptime - now := toMillisecondTimeoutDelay_neg
  have hlt : toMillisecondTimeoutDelay now uptime * 1000000 < max (uptime - now) 0 + 1000000 :=
    toMillisecondTimeoutDelay_lt
  obtain ⟨hmax, hfar⟩ := not_or.mp hnear
  unfold adjustTimeout
  dsimp only
  split
  · split <;> omega
  · omega

/-! ### The invariant -/

/-- Something wakes the looper, or is about to. -/
def Coming (s : State) : Prop := 0 < s.wakeEvent ∨ 0 < s.wakers ∨ s.ownWake = true

/-- Whether the loop over the messages is not under way. -/
def Pc.isSettled : Pc → Bool
  | .scanning _ | .handling _ => false
  | _ => true

def Timed (next : ℤ) : Pc → Prop
  | .polling given asked timeout => timeout = adjustTimeout given asked next
  | .waiting given asked start timeout =>
      timeout = adjustTimeout given asked next ∧ asked ≤ start
  | _ => True

/-- Outside the loop over the messages, the time that was noted is not after that of the head, or
else a wake-up is to come. -/
structure Awake (s : State) : Prop where
  own : s.ownWake = true → s.pc.isOutside = true
  sending : s.mSendingMessage = true → ∃ e, s.pc = .handling e
  asked : ∀ given asked timeout, s.pc = .polling given asked timeout → asked ≤ s.time
  timed : Timed s.mNextMessageUptime s.pc
  head : s.pc.isSettled = true → ∀ e ∈ s.mMessageEnvelopes.head?,
    s.mNextMessageUptime ≤ e.uptime ∨ Coming s

theorem Awake.init (time : ℤ) : Awake (State.init time) where
  own := fun h => by cases h
  sending := fun h => by cases h
  asked := fun _ _ _ h => by cases h
  timed := trivial
  head := fun _ e he => by cases he

theorem wake_pos (s : State) : 0 < s.wake.wakeEvent := by
  unfold State.wake
  dsimp only
  omega

theorem head?_insertIdx_position {q : List MessageEnvelope} (h : position e.uptime q ≠ 0) :
    (q.insertIdx (position e.uptime q) e).head? = q.head? := by
  cases q with
  | nil => exact absurd rfl h
  | cons x q =>
      unfold position at h ⊢
      split at h
      · rename_i hle
        rw [if_pos hle, List.insertIdx_succ_cons]
        rfl
      · exact absurd rfl h

namespace Awake

variable (hi : Awake s)
include hi

theorem wake {wakers : ℕ} {ownWake : Bool} (hown : ownWake = true → s.ownWake = true) :
    Awake { s.wake with wakers := wakers, ownWake := ownWake } where
  own := fun h => hi.own (hown h)
  sending := hi.sending
  asked := hi.asked
  timed := hi.timed
  head := fun _ _ _ => .inr (.inl (wake_pos s))

/-- The lock is taken by other threads at any time outside the loop, and by that of the looper in
the code of the program only. -/
theorem sendMessageAtTime {own : Bool} {handler : ℕ} {what : ℤ}
    (hcall : s.canCall own = true) :
    Awake (s.sendMessageAtTime own uptime handler what) := by
  simp only [State.sendMessageAtTime]
  split
  · rename_i hsending
    obtain ⟨e, hpc⟩ := hi.sending hsending
    exact ⟨hi.own, hi.sending, hi.asked, hi.timed, fun hsettled => by
      rw [show s.pc = .handling e from hpc] at hsettled
      cases hsettled⟩
  · split
    · cases own with
      | true =>
          have hout : s.pc.isOutside = true := (Bool.and_eq_true _ _ ▸ hcall).1
          exact ⟨fun _ => hout, hi.sending, hi.asked, hi.timed,
            fun _ _ _ => .inr (.inr (.inr rfl))⟩
      | false =>
          exact ⟨hi.own, hi.sending, hi.asked, hi.timed,
            fun _ _ _ => .inr (.inr (.inl (Nat.succ_pos _)))⟩
    · rename_i hbehind
      refine ⟨hi.own, hi.sending, hi.asked, hi.timed, fun hsettled e he => ?_⟩
      exact hi.head hsettled e (head?_insertIdx_position (e := ⟨_, uptime, _, _⟩) hbehind ▸ he)

theorem removeMessages {handler : ℕ} {what : Option ℤ}
    (hq : Ascending MessageEnvelope.key s.mMessageEnvelopes) :
    Awake { s with mMessageEnvelopes := removeMessages handler what s.mMessageEnvelopes } := by
  refine ⟨hi.own, hi.sending, hi.asked, hi.timed, fun hsettled e he => ?_⟩
  have hmem : e ∈ s.mMessageEnvelopes := by
    have he := List.mem_of_mem_head? he
    rw [removeMessages_eq] at he
    exact (List.mem_filter.mp he).1
  cases hhead : s.mMessageEnvelopes.head? with
  | none => exact absurd (List.head?_eq_none_iff.mp hhead ▸ hmem) List.not_mem_nil
  | some x =>
      exact (hi.head hsettled x hhead).imp_left fun hle =>
        hle.trans (MessageEnvelope.uptime_le (hq.head_le hhead hmem))

theorem not_own {pc : Pc} (hpc : s.pc = pc) (hin : pc.isOutside = false) : s.ownWake ≠ true :=
  fun hown => by rw [← hpc, hi.own hown] at hin; cases hin

theorem not_sending {pc : Pc} (hpc : s.pc = pc) (hnot : ∀ e, pc ≠ .handling e) :
    s.mSendingMessage ≠ true :=
  fun hsending => (hi.sending hsending).elim fun e he => hnot e (hpc.symm.trans he)

theorem outside {pc pc' : Pc} (hpc : s.pc = pc) (hnot : ∀ e, pc ≠ .handling e)
    (hsettled : pc.isSettled = true) (hout : pc'.isOutside = true) :
    Awake { s with pc := pc' } where
  own := fun _ => hout
  sending := fun h => absurd h (hi.not_sending hpc hnot)
  asked := fun given asked timeout h => by
    rw [show pc' = _ from h] at hout
    cases hout
  timed := by
    cases pc' with
    | polling => cases hout
    | waiting => cases hout
    | _ => trivial
  head := fun _ => hi.head (hpc ▸ hsettled)

theorem scan {result : PollResult} (hpc : s.pc = .scanning result) : Awake (s.scan result) := by
  have hown := hi.not_own hpc rfl
  have hsending := hi.not_sending hpc fun e he => by cases he
  unfold State.scan
  split
  · rename_i hnil
    exact ⟨fun h => absurd h hown, fun h => absurd h hsending, fun _ _ _ h => (by cases h), trivial,
      fun _ e he => by simp [hnil] at he⟩
  · rename_i x q hcons
    split
    · exact ⟨fun _ => rfl, fun _ => ⟨x, rfl⟩, fun _ _ _ h => (by cases h), trivial,
        fun h => by cases h⟩
    · exact ⟨fun h => absurd h hown, fun h => absurd h hsending, fun _ _ _ h => (by cases h),
        trivial, fun _ e he => by simp [hcons] at he; simp [he]⟩

theorem step (hq : Ascending MessageEnvelope.key s.mMessageEnvelopes)
    (hstep : Looper.step s a = .ok s') : Awake s' := by
  cases a with
  | tick nanos =>
      cases hstep
      exact ⟨hi.own, hi.sending, fun g t o h => (hi.asked g t o h).trans
        (Int.le_add_of_nonneg_right (Int.natCast_nonneg nanos)), hi.timed,
        hi.head⟩
  | wakeUp =>
      cases hstep
      exact hi.wake id
  | sendMessageAtTime own uptime handler what =>
      obtain ⟨hcall, rfl⟩ := sendMessageAtTime_ok hstep
      exact hi.sendMessageAtTime hcall
  | wake own =>
      cases own <;> simp only [Looper.step] at hstep <;> split at hstep <;> cases hstep
      · exact hi.wake id
      · exact hi.wake fun h => by cases h
  | removeMessages own handler what =>
      obtain rfl := removeMessages_ok hstep
      exact hi.removeMessages hq
  | pollInner timeoutMillis =>
      simp only [Looper.step] at hstep
      split at hstep <;> cases hstep
      rename_i hidle
      obtain ⟨hpc, hown⟩ := hidle
      have hsending := hi.not_sending hpc fun e he => by cases he
      exact ⟨fun h => by simp [hown] at h, fun h => absurd h hsending,
        fun _ _ _ h => by cases h; exact le_rfl, rfl, fun _ => hi.head (hpc ▸ rfl)⟩
  | epollWait =>
      obtain ⟨given, asked, timeout, hpc, rfl⟩ := epollWait_ok hstep
      have hown := hi.not_own hpc rfl
      have hsending := hi.not_sending hpc fun e he => by cases he
      have htimed : timeout = adjustTimeout given asked s.mNextMessageUptime := by
        have htimed := hi.timed
        rwa [hpc] at htimed
      exact ⟨fun h => absurd h hown, fun h => absurd h hsending, fun _ _ _ h => (by cases h),
        ⟨htimed, hi.asked _ _ _ hpc⟩, fun _ => hi.head (hpc ▸ rfl)⟩
  | epollReturn ret =>
      obtain ⟨given, asked, start, timeout, hpc, rfl⟩ := epollReturn_ok hstep
      have hown := hi.not_own hpc rfl
      have hsending := hi.not_sending hpc fun e he => by cases he
      exact ⟨fun h => absurd h hown, fun h => absurd h hsending, fun _ _ _ h => (by cases h),
        trivial, fun h => by cases h⟩
  | scan =>
      obtain ⟨result, hpc, rfl⟩ := scan_ok hstep
      exact hi.scan hpc
  | handled =>
      obtain ⟨e, -, hown, rfl⟩ := handled_ok hstep
      exact ⟨fun h => absurd h hown, fun h => (by cases h), fun _ _ _ h => (by cases h), trivial,
        fun h => by cases h⟩
  | invoked =>
      obtain ⟨result, hpc, rfl⟩ := invoked_ok hstep
      exact hi.outside hpc (by simp) rfl rfl
  | finish =>
      obtain ⟨result, hpc, rfl⟩ := finish_ok hstep
      exact hi.outside hpc (by simp) rfl rfl

end Awake

/-! ### Whole runs -/

/-- Over every order of the steps of all threads: while the looper sleeps with a message at the head
of its queue, the wake event is written or a thread is about to write it, or the sleep ends less
than a millisecond after the message is due, counted from the reading of the clock, or the
message is too far away for a timeout. The sleep has no end only if it was to have none and the
time that the looper noted is too far away. -/
theorem waits_for_head {time : ℤ} {h : List Obs}
    (hreach : Reach loggedStep (fun _ _ => True) (State.init time, []) (s, h))
    (hpc : s.pc = .waiting given asked start timeout) :
    (∀ e ∈ s.mMessageEnvelopes.head?, 0 < s.wakeEvent ∨ 0 < s.wakers ∨
      0 ≤ timeout ∧ timeout * 1000000 < max (e.uptime - asked) 0 + 1000000 ∨
      LLONG_MAX ≤ e.uptime ∨ (INT_MAX - 1) * 1000000 < e.uptime - asked) ∧
    asked ≤ start ∧ (timeout < 0 ↔ given < 0 ∧ TooFar asked s.mNextMessageUptime) := by
  have hi : Awake s := by
    refine (hreach.invariant (I := fun x => Awake x.1 ∧ InTurn x.1 x.2)
      ⟨Awake.init time, InTurn.init time⟩ ?_).1
    rintro ⟨s, h⟩ a x ⟨hi, hturn⟩ - hlogged
    obtain ⟨s', hstep, rfl⟩ := except_map_eq_ok.mp hlogged
    exact ⟨hi.step hturn.ascending hstep, hturn.moves (step_moves hstep)⟩
  obtain ⟨rfl, hasked⟩ : timeout = adjustTimeout given asked s.mNextMessageUptime ∧
      asked ≤ start := by
    have htimed := hi.timed
    rwa [hpc] at htimed
  refine ⟨fun e he => ?_, hasked, adjustTimeout_neg⟩
  rcases hi.head (hpc ▸ rfl) e he with hle | hevent | hwakers | hown
  · by_cases hfar : TooFar asked s.mNextMessageUptime
    · refine .inr (.inr (.inr ?_))
      unfold TooFar at hfar
      omega
    · obtain ⟨hpos, hlt⟩ : 0 ≤ adjustTimeout given asked s.mNextMessageUptime ∧ _ :=
        adjustTimeout_lt hfar
      exact .inr (.inr (.inl ⟨hpos, by omega⟩))
  · exact .inl hevent
  · exact .inr (.inl hwakers)
  · exact absurd hown (hi.not_own hpc rfl)

def sentAsleep : List Act :=
  [.sendMessageAtTime false 2500000 1 0, .wake false, .pollInner (-1), .epollWait,
    .epollReturn (.events true), .scan, .finish, .pollInner (-1), .tick 100, .epollWait]

theorem waits_for_head_asleep : ∃ s h,
    runChecked loggedStep (fun _ _ => True) (State.init 0, []) sentAsleep = some (s, h) ∧
      s.pc = .waiting (-1) 0 100 3 ∧ s.wakeEvent = 0 ∧ s.wakers = 0 ∧
      (∀ e ∈ s.mMessageEnvelopes.head?, e.uptime = 2500000) ∧
      ¬ TooFar 0 s.mNextMessageUptime := by
  obtain ⟨⟨s, h⟩, hrun, hs⟩ := Option.map_eq_some_iff.mp
    (show (runChecked loggedStep (fun _ _ => True) (State.init 0, []) sentAsleep).map
      (fun x => (x.1.pc, x.1.wakeEvent, x.1.wakers, x.1.mMessageEnvelopes)) =
        some (.waiting (-1) 0 100 3, 0, 0, [⟨0, 2500000, 1, 0⟩]) by decide +kernel)
  simp only [Prod.mk.injEq] at hs
  obtain ⟨hpc, hevent, hwakers, hqueue⟩ := hs
  obtain ⟨-, -, hends⟩ := waits_for_head (reach_of_runChecked hrun) hpc
  refine ⟨s, h, hrun, hpc, hevent, hwakers, ?_, fun hfar => ?_⟩
  · simp [hqueue]
  · exact absurd (hends.mpr ⟨by decide, hfar⟩) (by decide)

end Looper

end BinderForLinux
