import BinderForLinux.Driver.Wire
import BinderForLinux.Driver.Parts

/-!
# Splitting a stream of commands

A stream of complete commands may be handed to `binder_thread_write` in one call or
in several, cut between commands. A call that comes to an end early, because a
command cannot be read or the thread has an error code, leaves the rest of the stream
to the calls after it, which resume where it stopped.
-/

namespace BinderForLinux

namespace Driver

open Library

/-! ### Complete commands -/

/-- A word that is no command, or a command that the driver does not implement. -/
def refusedWord (w : UInt32) : Prop :=
  bcKind w.toNat = none ∨ bcKind w.toNat = some .attemptAcquire ∨
    bcKind w.toNat = some .acquireResult

/-- A complete command: one that the driver executes, or a word that it refuses with what
follows it. -/
inductive StreamCommand
  | known (c : WireCommand)
  | refused (w : UInt32) (rest : List UInt8) (h : refusedWord w)

def StreamCommand.bytes : StreamCommand → List UInt8
  | .known c => c.bytes
  | .refused w rest _ => bytesLE 4 w.toNat ++ rest

def commandBytes (cs : List StreamCommand) : List UInt8 := cs.flatMap StreamCommand.bytes

/-- One call of `binder_thread_write`: what the caller has in memory, and the size of its
buffer. -/
structure WriteCall where
  memory : UserMemory
  size : ℕ

/-- Calls one after another, each from where the one before it came to. -/
def writeCalls {D : Type} (K : Kernel D) (calls : List WriteCall) (x : D × ℕ) : D × ℕ :=
  calls.foldl (fun x call => (threadWrite K call.memory call.size x.1 x.2).2) x

/-- The commands that are read from `a` on, up to `b`. -/
inductive ReadsTo (m : UserMemory) : ℕ → List WireCommand → ℕ → Prop
  | nil {a : ℕ} : ReadsTo m a [] a
  | cons {a b e : ℕ} {c : WireCommand} {cs : List WireCommand}
      (hread : readCommand m a = .ok (c, b)) (hrest : ReadsTo m b cs e) : ReadsTo m a (c :: cs) e

section Reading

variable {m m' : UserMemory} {ptr a b n : ℕ} {c : WireCommand}

@[simp] theorem commandBytes_nil : commandBytes [] = [] := rfl

@[simp] theorem commandBytes_cons (c : StreamCommand) (cs : List StreamCommand) :
    commandBytes (c :: cs) = c.bytes ++ commandBytes cs := rfl

@[simp] theorem commandBytes_append (cs ds : List StreamCommand) :
    commandBytes (cs ++ ds) = commandBytes cs ++ commandBytes ds := by
  simp [commandBytes]

/-! ### What reading a command depends on -/

def Agree (m m' : UserMemory) (ptr n : ℕ) : Prop := ∀ i, ptr ≤ i → i < ptr + n → m' i = m i

theorem Agree.mono {k : ℕ} (h : Agree m m' ptr n) (hk : k ≤ n) : Agree m m' ptr k :=
  fun i hlo hhi => h i hlo (hhi.trans_le (Nat.add_le_add_left hk ptr))

theorem Agree.shift {k l : ℕ} (h : Agree m m' ptr n) (hl : k + l ≤ n) : Agree m m' (ptr + k) l :=
  fun i hlo hhi => h i (by omega) (by omega)

theorem fetchLE_agree (h : Agree m m' ptr n) : fetchLE m' ptr n = fetchLE m ptr n := by
  induction n generalizing ptr with
  | zero => rfl
  | succ n ih =>
      have htail : fetchLE m' (ptr + 1) n = fetchLE m (ptr + 1) n := ih (h.shift (by omega))
      simp only [fetchLE, htail, h ptr le_rfl (by omega)]

theorem getUser_agree (h : Agree m m' ptr n) : getUser m' ptr n = getUser m ptr n := by
  rw [getUser, fetchLE_agree h, getUser]

theorem getUser32_agree (h : Agree m m' ptr 4) : getUser32 m' ptr = getUser32 m ptr := by
  rw [getUser32, getUser_agree h, getUser32]

theorem getUser64_agree (h : Agree m m' ptr 8) : getUser64 m' ptr = getUser64 m ptr := by
  rw [getUser64, getUser_agree h, getUser64]

theorem getTransaction_agree (h : Agree m m' ptr 64) :
    getTransaction m' ptr = getTransaction m ptr := by
  have h₀ : Agree m m' ptr 8 := h.mono (by omega)
  have h₈ : ∀ k, k + 8 ≤ 64 → getUser64 m' (ptr + k) = getUser64 m (ptr + k) := fun k hk =>
    getUser64_agree (h.shift hk)
  have h₄ : ∀ k, k + 4 ≤ 64 → getUser32 m' (ptr + k) = getUser32 m (ptr + k) := fun k hk =>
    getUser32_agree (h.shift hk)
  rw [getTransaction, getUser64_agree h₀, h₈ 8 (by omega), h₄ 16 (by omega), h₄ 20 (by omega),
    h₄ 24 (by omega), h₄ 28 (by omega), h₈ 32 (by omega), h₈ 40 (by omega), h₈ 48 (by omega),
    h₈ 56 (by omega), getTransaction]

theorem readArgs_agree (c : WireCommand) (h : Agree m m' ptr c.args.length) :
    readArgs m' ptr c.kind = readArgs m ptr c.kind := by
  cases c with
  | increfs target | acquire target | release target | decrefs target =>
      have h₄ : Agree m m' ptr 4 := by simpa [WireCommand.args] using h
      simp only [WireCommand.kind, readArgs, targetArgs, getUser32_agree h₄]
  | freeBuffer x | deadBinderDone x =>
      have h₈ : Agree m m' ptr 8 := by simpa [WireCommand.args] using h
      simp only [WireCommand.kind, readArgs, pointerArgs, getUser64_agree h₈]
  | increfsDone x cookie | acquireDone x cookie =>
      have h₁₆ : Agree m m' ptr 16 := by simpa [WireCommand.args] using h
      simp only [WireCommand.kind, readArgs, pointerCookieArgs,
        getUser64_agree (h₁₆.mono (by omega : 8 ≤ 16)),
        getUser64_agree (h₁₆.shift (by omega : 8 + 8 ≤ 16))]
  | requestDeathNotification target cookie | clearDeathNotification target cookie =>
      have h₁₂ : Agree m m' ptr 12 := by simpa [WireCommand.args] using h
      simp only [WireCommand.kind, readArgs, targetCookieArgs,
        getUser32_agree (h₁₂.mono (by omega : 4 ≤ 12)),
        getUser64_agree (h₁₂.shift (by omega : 4 + 8 ≤ 12))]
  | transaction tr | reply tr =>
      have h₆₄ : Agree m m' ptr 64 := by
        simpa [WireCommand.args, RawTransaction.bytes] using h
      simp only [WireCommand.kind, readArgs, transactionArgs, getTransaction_agree h₆₄]
  | registerLooper | enterLooper | exitLooper => rfl

/-- A word that the driver refuses ends in an error wherever it can be read. -/
theorem readCommand_refused {w : UInt32} {rest : List UInt8} (hw : refusedWord w)
    (h : MayHold m ptr (bytesLE 4 w.toNat ++ rest)) : ∃ e, readCommand m ptr = .error e := by
  rcases getUser_reads (mayHold_append.mp h).1 w.toNat_lt with hok | herr
  · refine ⟨.einval, ?_⟩
    rcases hw with hnone | hatt | hacq
    · simp [readCommand, hok, hnone, bind, Except.bind]
    · simp [readCommand, hok, hatt, readArgs, bind, Except.bind]
    · simp [readCommand, hok, hacq, readArgs, bind, Except.bind]
  · exact ⟨.efault, by simp [readCommand, herr, bind, Except.bind]⟩

theorem readCommand_agree (c : StreamCommand) (hm : MayHold m ptr c.bytes)
    (h : Agree m m' ptr c.bytes.length) : readCommand m' ptr = readCommand m ptr := by
  cases c with
  | known c =>
      obtain ⟨hword, -⟩ := mayHold_append.mp hm
      have hlen : c.bytes.length = 4 + c.args.length := by simp [WireCommand.bytes]
      have hget : getUser m' ptr 4 = getUser m ptr 4 :=
        getUser_agree (h.mono (hlen ▸ Nat.le_add_right 4 _))
      rw [readCommand, hget, readCommand]
      rcases getUser_reads hword c.kind.word_lt with hok | herr
      · have hargs := readArgs_agree c
          (h.shift (k := 4) (l := c.args.length) (by simp [StreamCommand.bytes, hlen]))
        simp [hok, bcKind_word, bind, Except.bind, hargs]
      · simp [herr, bind, Except.bind]
  | refused w rest hw =>
      obtain ⟨hword, -⟩ := mayHold_append.mp hm
      have hget : getUser m' ptr 4 = getUser m ptr 4 :=
        getUser_agree (h.mono (by simp [StreamCommand.bytes]))
      rw [readCommand, hget, readCommand]
      rcases getUser_reads hword w.toNat_lt with hok | herr
      · rcases hw with hnone | hatt | hacq
        · simp [hok, hnone, bind, Except.bind]
        · simp [hok, hatt, readArgs, bind, Except.bind]
        · simp [hok, hacq, readArgs, bind, Except.bind]
      · simp [herr, bind, Except.bind]

theorem readCommand_end {s : StreamCommand} (hm : MayHold m ptr s.bytes)
    (hread : readCommand m ptr = .ok (c, b)) : b = ptr + s.bytes.length := by
  cases s with
  | known c' =>
      rcases readCommand_reads hm with hok | herr
      · rw [hok] at hread
        exact (Prod.mk.inj (Except.ok.inj hread)).2.symm
      · rw [herr] at hread
        cases hread
  | refused w rest hw =>
      obtain ⟨e, herr⟩ := readCommand_refused hw hm
      rw [herr] at hread
      cases hread

theorem readArgs_le {k : BcKind} (hread : readArgs m ptr k = .ok (c, b)) : ptr ≤ b := by
  cases k <;>
    simp only [readArgs, targetArgs, pointerArgs, pointerCookieArgs, targetCookieArgs,
      transactionArgs, except_bind_eq_ok, except_pure_eq_ok, Prod.mk.injEq, Except.ok.injEq,
      reduceCtorEq] at hread
  case registerLooper | enterLooper | exitLooper => exact hread.2.le
  case increfsDone | acquireDone | requestDeathNotification | clearDeathNotification =>
    obtain ⟨_, -, _, -, -, rfl⟩ := hread
    omega
  all_goals
    obtain ⟨_, -, -, rfl⟩ := hread
    omega

theorem readCommand_lt (hread : readCommand m ptr = .ok (c, b)) : ptr < b := by
  simp only [readCommand, except_bind_eq_ok] at hread
  obtain ⟨cmd, -, hread⟩ := hread
  split at hread
  · have := readArgs_le hread
    omega
  · cases hread

end Reading

/-! ### The loop, call by call -/

section Loop

variable {D : Type} {K : Kernel D} {m m' : UserMemory} {size k a b : ℕ} {d d' : D}
  {c : WireCommand} {e : WriteError}

theorem writeLoop_fuel {fuel fuel' : ℕ} (h : size - a ≤ fuel) (h' : size - a ≤ fuel') :
    writeLoop K m size fuel d a = writeLoop K m size fuel' d a := by
  induction fuel generalizing fuel' d a with
  | zero =>
      have hno : ¬ a < size := by omega
      cases fuel' with
      | zero => rfl
      | succ fuel' => simp [writeLoop, hno]
  | succ fuel ih =>
      cases fuel' with
      | zero =>
          have hno : ¬ a < size := by omega
          simp [writeLoop, hno]
      | succ fuel' =>
          by_cases hgo : a < size ∧ K.stopped d = false
          · simp only [writeLoop, hgo, and_self, ↓reduceIte]
            cases hread : readCommand m a with
            | error e => rfl
            | ok x =>
                have hlt : a < x.2 := readCommand_lt hread
                exact ih (by omega) (by omega)
          · simp [writeLoop, hgo]

theorem threadWrite_stop (h : ¬ (a < size ∧ K.stopped d = false)) :
    threadWrite K m size d a = (none, d, a) := by
  rw [threadWrite]
  cases size - a with
  | zero => rfl
  | succ n => simp [writeLoop, h]

theorem threadWrite_error (h : a < size ∧ K.stopped d = false)
    (hread : readCommand m a = .error e) :
    threadWrite K m size d a = (some e, d, a) := by
  obtain ⟨n, hn⟩ : ∃ n, size - a = n + 1 := ⟨size - a - 1, by omega⟩
  rw [threadWrite, hn]
  simp [writeLoop, h, hread]

theorem threadWrite_step (h : a < size ∧ K.stopped d = false)
    (hread : readCommand m a = .ok (c, b)) :
    threadWrite K m size d a = threadWrite K m size (K.exec d c) b := by
  obtain ⟨n, hn⟩ : ∃ n, size - a = n + 1 := ⟨size - a - 1, by omega⟩
  have hlt : a < b := readCommand_lt hread
  rw [threadWrite, hn]
  simp only [writeLoop, h, and_self, ↓reduceIte, hread]
  exact writeLoop_fuel (by omega) le_rfl

/-- A call that comes to an error has executed the commands before it, and nothing of the command
that it could not read. -/
theorem threadWrite_failed (hrun : threadWrite K m size d a = (some e, d', b)) :
    ∃ cs, ReadsTo m a cs b ∧ d' = cs.foldl K.exec d ∧ b < size ∧ readCommand m b = .error e := by
  induction hn : size - a using Nat.strong_induction_on generalizing d a with
  | _ n ih =>
      by_cases hgo : a < size ∧ K.stopped d = false
      · cases hread : readCommand m a with
        | error e' =>
            rw [threadWrite_error hgo hread] at hrun
            obtain ⟨rfl, rfl, rfl⟩ : e' = e ∧ d = d' ∧ a = b := by simpa using hrun
            exact ⟨[], .nil, rfl, hgo.1, hread⟩
        | ok x =>
            obtain ⟨c, a'⟩ := x
            have hlt : a < a' := readCommand_lt hread
            rw [threadWrite_step hgo hread] at hrun
            obtain ⟨cs, hreads, rfl, hb, herr⟩ := ih (size - a') (by omega) hrun rfl
            exact ⟨c :: cs, .cons hread hreads, rfl, hb, herr⟩
      · rw [threadWrite_stop hgo] at hrun
        cases hrun

/-- A call on a part of the buffer and then one on the whole of it do what one call does. -/
theorem threadWrite_resume (hk : k ≤ size) :
    threadWrite K m size (threadWrite K m k d a).2.1 (threadWrite K m k d a).2.2 =
      threadWrite K m size d a := by
  induction hn : size - a using Nat.strong_induction_on generalizing d a with
  | _ n ih =>
      by_cases hgo : a < k ∧ K.stopped d = false
      · have hgo' : a < size ∧ K.stopped d = false := ⟨hgo.1.trans_le hk, hgo.2⟩
        cases hread : readCommand m a with
        | error e => rw [threadWrite_error hgo hread]
        | ok x =>
            obtain ⟨c, b⟩ := x
            have hlt : a < b := readCommand_lt hread
            rw [threadWrite_step hgo hread, threadWrite_step hgo' hread]
            exact ih (size - b) (by omega) rfl
      · rw [threadWrite_stop hgo]

theorem threadWrite_agree {cs : List StreamCommand} (hm : MayHold m a (commandBytes cs))
    (h : Agree m m' a (commandBytes cs).length) :
    threadWrite K m' (a + (commandBytes cs).length) d a =
      threadWrite K m (a + (commandBytes cs).length) d a := by
  induction cs generalizing d a with
  | nil =>
      have hno : ¬ (a < a + (commandBytes []).length ∧ K.stopped d = false) := by simp
      rw [threadWrite_stop hno, threadWrite_stop hno]
  | cons s cs ih =>
      obtain ⟨hs, hcs⟩ := mayHold_append.mp hm
      rw [commandBytes_cons, List.length_append] at h ⊢
      by_cases hgo : a < a + (s.bytes.length + (commandBytes cs).length) ∧ K.stopped d = false
      · have hsame : readCommand m' a = readCommand m a :=
          readCommand_agree s hs (h.mono (Nat.le_add_right ..))
        cases hread : readCommand m a with
        | error e =>
            rw [threadWrite_error hgo hread, threadWrite_error hgo (hsame.trans hread)]
        | ok x =>
            obtain ⟨c, b⟩ := x
            obtain rfl : b = a + s.bytes.length := readCommand_end hs hread
            rw [threadWrite_step hgo hread, threadWrite_step hgo (hsame.trans hread),
              ← Nat.add_assoc]
            exact ih hcs (h.shift le_rfl)
      · rw [threadWrite_stop hgo, threadWrite_stop hgo]

theorem threadWrite_between {cs : List StreamCommand} (hm : MayHold m a (commandBytes cs))
    (hk : k ≤ a + (commandBytes cs).length) :
    ∃ pre rest, cs = pre ++ rest ∧
      (threadWrite K m k d a).2.2 = a + (commandBytes pre).length := by
  induction cs generalizing d a with
  | nil =>
      have hno : ¬ (a < k ∧ K.stopped d = false) := by
        rw [commandBytes_nil, List.length_nil] at hk
        omega
      exact ⟨[], [], rfl, by rw [threadWrite_stop hno]; rfl⟩
  | cons s cs ih =>
      obtain ⟨hs, hcs⟩ := mayHold_append.mp hm
      rw [commandBytes_cons, List.length_append] at hk
      by_cases hgo : a < k ∧ K.stopped d = false
      · cases hread : readCommand m a with
        | error e => exact ⟨[], s :: cs, rfl, by rw [threadWrite_error hgo hread]; rfl⟩
        | ok x =>
            obtain ⟨c, b⟩ := x
            obtain rfl : b = a + s.bytes.length := readCommand_end hs hread
            obtain ⟨pre, rest, rfl, hend⟩ := ih (d := K.exec d c) hcs (by omega)
            refine ⟨s :: pre, rest, rfl, ?_⟩
            rw [threadWrite_step hgo hread, hend, commandBytes_cons, List.length_append]
            omega
      · exact ⟨[], s :: cs, rfl, by rw [threadWrite_stop hgo]; rfl⟩

/-! ### Several calls -/

/-- The call hands over the commands `pre` of a stream that starts at `a`: it has their bytes in
memory, and its buffer ends behind them. -/
def WriteCall.HandsOver (call : WriteCall) (m : UserMemory) (a : ℕ) (pre : List StreamCommand) :
    Prop :=
  call.size = a + (commandBytes pre).length ∧ Agree m call.memory a (commandBytes pre).length

/-- A call of a stream reads from between two commands on what the stream has there. -/
theorem WriteCall.HandsOver.threadWrite_eq {call : WriteCall}
    {pre rest done left : List StreamCommand} (h : call.HandsOver m a pre)
    (hm : MayHold m a (commandBytes (pre ++ rest))) (hdone : pre ++ rest = done ++ left) :
    threadWrite K call.memory call.size d (a + (commandBytes done).length) =
      threadWrite K m call.size d (a + (commandBytes done).length) := by
  obtain ⟨hsize, hagree⟩ := h
  rcases List.append_eq_append_iff.mp hdone with ⟨mid, hdone, -⟩ | ⟨mid, hpre, -⟩
  · -- the call ends where the calls before it came to, or earlier
    have hno : ¬ (a + (commandBytes done).length < call.size ∧ K.stopped d = false) := by
      rw [hsize, hdone, commandBytes_append, List.length_append]
      omega
    rw [threadWrite_stop hno, threadWrite_stop hno]
  · have hend : call.size = a + (commandBytes done).length + (commandBytes mid).length := by
      rw [hsize, hpre, commandBytes_append, List.length_append, Nat.add_assoc]
    rw [hpre, commandBytes_append, commandBytes_append, List.append_assoc] at hm
    have hmid := (mayHold_append.mp (mayHold_append.mp hm).2).1
    rw [hend]
    refine threadWrite_agree hmid (hagree.shift ?_)
    rw [hpre, commandBytes_append, List.length_append]

/-- Calls that hand over more and more of a stream, or not more, leave the rest of it to a last
call on the whole stream. -/
theorem writeCalls_append {cs : List StreamCommand} (hm : MayHold m a (commandBytes cs))
    {calls : List WriteCall}
    (hcalls : ∀ call ∈ calls, ∃ pre rest, cs = pre ++ rest ∧ call.HandsOver m a pre)
    {last : WriteCall} (hlast : last.HandsOver m a cs) {done left : List StreamCommand}
    (hdone : cs = done ++ left) :
    writeCalls K (calls ++ [last]) (d, a + (commandBytes done).length) =
      (threadWrite K m last.size d (a + (commandBytes done).length)).2 := by
  induction calls generalizing d done left with
  | nil =>
      have heq : threadWrite K last.memory last.size d (a + (commandBytes done).length) =
          threadWrite K m last.size d (a + (commandBytes done).length) :=
        hlast.threadWrite_eq (show MayHold m a (commandBytes (cs ++ [])) by simpa using hm)
          (by simpa using hdone)
      simp [writeCalls, heq]
  | cons call calls ih =>
      obtain ⟨pre, rest, rfl, hcall⟩ := hcalls call (List.mem_cons_self ..)
      have heq : threadWrite K call.memory call.size d (a + (commandBytes done).length) =
          threadWrite K m call.size d (a + (commandBytes done).length) :=
        hcall.threadWrite_eq hm hdone
      have hsize : call.size ≤ last.size := by
        rw [hcall.1, hlast.1, commandBytes_append, List.length_append]
        omega
      have hleft : MayHold m (a + (commandBytes done).length) (commandBytes left) := by
        rw [hdone, commandBytes_append] at hm
        exact (mayHold_append.mp hm).2
      obtain ⟨more, left', rfl, hend⟩ := threadWrite_between (K := K) (d := d) hleft
        (k := call.size) (by
          rw [hcall.1, Nat.add_assoc, ← List.length_append, ← commandBytes_append, ← hdone,
            commandBytes_append, List.length_append]
          omega)
      have hpos : a + (commandBytes done).length + (commandBytes more).length =
          a + (commandBytes (done ++ more)).length := by
        rw [commandBytes_append, List.length_append, Nat.add_assoc]
      have hstep := ih (d := (threadWrite K m call.size d (a + (commandBytes done).length)).2.1)
        (fun c hc => hcalls c (List.mem_cons_of_mem _ hc))
        (show pre ++ rest = (done ++ more) ++ left' by rw [hdone, List.append_assoc])
      rw [← hpos, ← hend, threadWrite_resume hsize] at hstep
      simpa [writeCalls, heq] using hstep

end Loop

/-- A stream of complete commands may be split between them: several calls, each resuming where the
one before it came to, leave the state and the position that one call leaves. And whenever a call
comes to an error, it has come to the end of the last command that it executed, with the state that
those commands left. -/
theorem writeCalls_split {L : Layout} {p : ProcId} {th : ThreadId} {env : ℕ → CommandEnv}
    {m : UserMemory} {a : ℕ} {cs : List StreamCommand} (hm : MayHold m a (commandBytes cs))
    {calls : List WriteCall}
    (hcalls : ∀ call ∈ calls, ∃ pre rest, cs = pre ++ rest ∧ call.HandsOver m a pre)
    {last : WriteCall} (hlast : last.HandsOver m a cs) (x : State × ℕ) :
    writeCalls (driverKernel L p th env) (calls ++ [last]) (.ok x, a) =
        (threadWrite (driverKernel L p th env) m (a + (commandBytes cs).length) (.ok x) a).2 ∧
      ∀ (m' : UserMemory) (size b b' : ℕ) (e : WriteError) (d d' : Except Fault (State × ℕ)),
        threadWrite (driverKernel L p th env) m' size d b = (some e, d', b') →
        ∃ cs', ReadsTo m' b cs' b' ∧ d' = cs'.foldl (driverKernel L p th env).exec d ∧
          readCommand m' b' = .error e := by
  refine ⟨?_, fun m' size b b' e d d' hrun => ?_⟩
  · have hsplit := writeCalls_append (K := driverKernel L p th env) (d := .ok x) hm hcalls hlast
      (show cs = [] ++ cs from rfl)
    rw [hlast.1] at hsplit
    exact hsplit
  · obtain ⟨cs', hreads, hd', -, herr⟩ := threadWrite_failed hrun
    exact ⟨cs', hreads, hd', herr⟩

/-- A thread that enters the loop, and then an unknown word. -/
def looperStream : List StreamCommand :=
  [.known .enterLooper, .known (.increfs 0), .refused 0 [] (.inl (by decide))]

def oneThread : State :=
  match runActions (step Layout.x86) State.init [.open 100, .write 0 7 []] with
  | .ok s => s
  | .error _ => State.init

/-- The bytes of the stream, read as far as they go. -/
def looperMemory : UserMemory := fun i => (commandBytes looperStream)[i]?

def grantedEnv : CommandEnv where
  alloc := true
  txn := .granted
  data := fun _ => 0
  offsets := fun _ => 0

/-- The buffer of the first call is gone behind its command. -/
theorem writeCalls_split_sample :
    writeCalls (driverKernel Layout.x86 0 1 fun _ => grantedEnv)
        [⟨fun i => if i < 4 then looperMemory i else none, 4⟩, ⟨looperMemory, 16⟩]
        (.ok (oneThread, 0), 0) =
      (threadWrite (driverKernel Layout.x86 0 1 fun _ => grantedEnv) looperMemory 16
        (.ok (oneThread, 0)) 0).2 ∧
    (threadWrite (driverKernel Layout.x86 0 1 fun _ => grantedEnv) looperMemory 16
        (.ok (oneThread, 0)) 0).2.2 = 12 := by
  have hm : MayHold looperMemory 0 (commandBytes looperStream) := by
    change MayHold (fun i => (commandBytes looperStream)[i]?) 0 (commandBytes looperStream)
    simpa using mayHold_getElem? (fun _ => true) [] (commandBytes looperStream)
  have hcalls : ∀ call ∈ [(⟨fun i => if i < 4 then looperMemory i else none, 4⟩ : WriteCall)],
      ∃ pre rest, looperStream = pre ++ rest ∧ call.HandsOver looperMemory 0 pre := by
    intro call hcall
    obtain rfl := List.mem_singleton.mp hcall
    exact ⟨[.known .enterLooper], [.known (.increfs 0), .refused 0 [] (.inl (by decide))], rfl,
      by decide, fun i _ hi => if_pos hi⟩
  have hlast : WriteCall.HandsOver ⟨looperMemory, 16⟩ looperMemory 0 looperStream :=
    ⟨by decide, fun _ _ _ => rfl⟩
  exact ⟨(writeCalls_split hm hcalls hlast (oneThread, 0)).1, by decide⟩

end Driver

end BinderForLinux
