import BinderForLinux.Driver.Log
import BinderForLinux.Driver.Refs.Coherent

/-!
# The parts of a step

A step of the driver is a sequence of parts: one command of a write, one work
item of a read, a thread that exits, a process that is taken apart. What every
part keeps, every run keeps. Runs can be narrowed by a condition on what threads
ask for, which looks at the state just before the request is served.
-/

namespace BinderForLinux

namespace Driver

open Library

/-- What a thread may ask for: that a command is executed, that the thread exits, or
that a read stores its results where `writable` allows it. -/
inductive Request
  | command (c : Command)
  | exit
  | copy (writable : ℕ → Bool)

abbrev Condition := State → ProcId → ThreadId → Request → Prop

/-- Every command that a write executes meets `C` in the state before it. The write
ends where `binder_thread_write` ends it. -/
def WriteOk (C : Condition) (L : Layout) (p : ProcId) (th : ThreadId) :
    State → List Command → Prop
  | _, [] => True
  | s, c :: cs =>
      ((s.threads th).any fun thr => thr.returnError = .ok) = true → c.isInvalid = false →
        C s p th (.command c) ∧
          match execCommand L s p th c with
          | .ok s' => WriteOk C L p th s' cs
          | .error _ => True

def IoctlOk (C : Condition) (L : Layout) (p : ProcId) (th : ThreadId) (s : State) :
    IoctlOp → Prop
  | .writeRead cmds _ _ writable =>
      WriteOk C L p th s cmds ∧
        match binderThreadWrite L p th s cmds with
        | .ok (_, s') => C s' p th (.copy writable)
        | .error _ => True
  | .threadExit => C s p th .exit
  | _ => True

/-- Every request that an act serves meets `C` in the state before it. -/
def ActOk (C : Condition) (L : Layout) (s : State) : Act → Prop
  | .ioctl p pid alloc op =>
      s.isOpen p = true →
        match binderGetThread s p pid alloc with
        | (none, _) => True
        | (some th, s) =>
            ((s.threads th).any fun thr => thr.read.isSome) = false → IoctlOk C L p th s op
  | .resume th _ writable =>
      match s.threads th with
      | none => True
      | some thr => C s thr.proc th (.copy writable)
  | _ => True

section Decidable

variable (C : Condition) [hC : ∀ s p th c, Decidable (C s p th c)] (L : Layout)

instance decidableWriteOk (p : ProcId) (th : ThreadId) :
    ∀ s cmds, Decidable (WriteOk C L p th s cmds)
  | _, [] => isTrue trivial
  | s, c :: cs =>
      have : Decidable (match execCommand L s p th c with
          | .ok s' => WriteOk C L p th s' cs
          | .error _ => True) :=
        match execCommand L s p th c with
        | .ok s' => decidableWriteOk p th s' cs
        | .error _ => isTrue trivial
      inferInstanceAs (Decidable (_ → _ → _ ∧ _))

instance decidableIoctlOk (p : ProcId) (th : ThreadId) (s : State) :
    ∀ op, Decidable (IoctlOk C L p th s op)
  | .writeRead cmds _ _ writable =>
      have : Decidable (match binderThreadWrite L p th s cmds with
          | .ok (_, s') => C s' p th (.copy writable)
          | .error _ => True) :=
        match binderThreadWrite L p th s cmds with
        | .ok (_, s') => hC s' p th (.copy writable)
        | .error _ => isTrue trivial
      inferInstanceAs (Decidable (_ ∧ _))
  | .threadExit => hC s p th .exit
  | .setMaxThreads _ => isTrue trivial
  | .setContextMgr _ _ _ => isTrue trivial

instance decidableActOk (s : State) : ∀ a, Decidable (ActOk C L s a)
  | .ioctl p pid alloc op =>
      have : Decidable (match binderGetThread s p pid alloc with
          | (none, _) => True
          | (some th, s) =>
              ((s.threads th).any fun thr => thr.read.isSome) = false → IoctlOk C L p th s op) :=
        match binderGetThread s p pid alloc with
        | (none, _) => isTrue trivial
        | (some th, s) => inferInstanceAs (Decidable (_ → IoctlOk C L p th s op))
      inferInstanceAs (Decidable (_ → _))
  | .resume th _ writable =>
      have : Decidable (match s.threads th with
          | none => True
          | some thr => C s thr.proc th (.copy writable)) :=
        match s.threads th with
        | none => isTrue trivial
        | some thr => hC s thr.proc th (.copy writable)
      this
  | .open _ => isTrue trivial
  | .mmap _ _ _ _ _ _ => isTrue trivial
  | .poll _ _ _ => isTrue trivial
  | .setFile _ _ _ => isTrue trivial
  | .vmaClose _ => isTrue trivial
  | .flush _ => isTrue trivial
  | .release _ => isTrue trivial
  | .deferred _ => isTrue trivial

end Decidable

def withoutExits : Condition := fun _ _ _ r =>
  match r with
  | .exit => False
  | _ => True

instance (s : State) (p : ProcId) (th : ThreadId) (r : Request) :
    Decidable (withoutExits s p th r) := by
  unfold withoutExits
  split <;> infer_instance

/-- All that the act stores in user space can be stored. -/
def Act.copies : Act → Prop
  | .ioctl _ _ _ (.writeRead _ _ _ writable) => ∀ i, writable i = true
  | .resume _ _ writable => ∀ i, writable i = true
  | _ => True

theorem ActOk.and_copies {C C' : Condition} {L : Layout} {s : State} {a : Act}
    (h : ActOk C L s a) (ha : a.copies)
    (hC : ∀ {s p th r}, C s p th r → (∀ w, r = .copy w → ∀ i, w i = true) → C' s p th r) :
    ActOk C' L s a := by
  have hwrite : ∀ {p th cmds} {s : State}, WriteOk C L p th s cmds → WriteOk C' L p th s cmds := by
    intro p th cmds
    induction cmds with
    | nil => exact fun {_} _ => trivial
    | cons c cs ih =>
        intro s hok herr hinv
        obtain ⟨hc, hrest⟩ := hok herr hinv
        refine ⟨hC hc (by simp), ?_⟩
        split
        · rename_i hexec
          simp only [hexec] at hrest
          exact ih hrest
        · trivial
  cases a with
  | ioctl p pid alloc op =>
      intro hopen
      have hop := h hopen
      split
      · trivial
      · rename_i th s₁ hget
        simp only [hget] at hop
        intro hread
        have hop := hop hread
        cases op with
        | writeRead cmds n m w =>
            refine ⟨hwrite hop.1, ?_⟩
            have hcopy := hop.2
            split
            · rename_i hrun
              simp only [hrun] at hcopy
              exact hC hcopy fun w' hw' => by cases hw'; exact ha
            · trivial
        | setMaxThreads n => trivial
        | setContextMgr euid security alloc => trivial
        | threadExit => exact hC hop (by simp)
  | resume th interrupted writable =>
      simp only [ActOk] at h ⊢
      split
      · trivial
      · rename_i thr hthr
        simp only [hthr] at h
        exact hC h fun w hw => by cases hw; exact ha
  | _ => trivial

theorem actOk_of_forall {C : Condition} (hC : ∀ s p th r, C s p th r) (L : Layout) (s : State)
    (a : Act) : ActOk C L s a := by
  have hwrite : ∀ {p th cmds} {s : State}, WriteOk C L p th s cmds := by
    intro p th cmds
    induction cmds with
    | nil => exact fun {_} => trivial
    | cons c cs ih =>
        intro s _ _
        refine ⟨hC _ _ _ _, ?_⟩
        split
        · exact ih
        · trivial
  have hioctl : ∀ {p th op} {s : State}, IoctlOk C L p th s op := by
    intro p th op s
    cases op with
    | writeRead cmds n m w =>
        refine ⟨hwrite, ?_⟩
        split
        · exact hC _ _ _ _
        · trivial
    | setMaxThreads n => trivial
    | setContextMgr euid security alloc => trivial
    | threadExit => exact hC _ _ _ _
  cases a with
  | ioctl p pid alloc op =>
      intro _
      split
      · trivial
      · exact fun _ => hioctl
  | resume th interrupted writable =>
      simp only [ActOk]
      split
      · trivial
      · exact hC _ _ _ _
  | _ => trivial

/-- The pieces of code that steps are made of, with what is observed of them. -/
inductive Part (L : Layout) (C : Condition) (s : State) : List Obs → State → Prop
  | open (pid : ℕ) : Part L C s [] (binderOpen s pid)
  | mmap {p base size : ℕ} {off : ℤ} {env : PageEnv} {files : ℕ → Option File} {s' : State}
      (hp : s.isOpen p = true) (hposs : mmapPossible L base size)
      (hrun : mmapProc L s p base size off env files = .ok s') : Part L C s [] s'
  | getThread {p pid : ℕ} {alloc : Bool} {x : Option ThreadId} {s' : State}
      (hp : s.isOpen p = true) (hrun : binderGetThread s p pid alloc = (x, s')) : Part L C s [] s'
  | command {p : ProcId} {th : ThreadId} {thr : Thread} {c : Command} {s' : State}
      (hthr : s.threads th = some thr) (hproc : thr.proc = p) (herr : thr.returnError = .ok)
      (hC : C s p th (.command c))
      (hrun : execCommand L s p th c = .ok s') : Part L C s (commandLog s s' p th c) s'
  /-- The label `retry` of a read, up to its wait or its end. -/
  | retry {p : ProcId} {th : ThreadId} {thr : Thread} {size ptr : ℕ} {out : List ReturnCommand}
      {writable : ℕ → Bool} {s' : State} (hthr : s.threads th = some thr) (hproc : thr.proc = p)
      (hC : ∃ s₀, C s₀ p th (.copy writable))
      (hrun : readRetry s p th size ptr out writable = .ok s') :
      Part L C s (retryLog s p th size ptr writable) s'
  | wakeUp {p : ProcId} {th : ThreadId} {thr : Thread} {f : ReadFrame} {pr : Proc}
      (hthr : s.threads th = some thr) (hproc : thr.proc = p) (hread : thr.read = some f)
      (hpr : s.procs p = some pr) : Part L C s [] (wakeUp s p th thr f pr)
  /-- One work item of a read. -/
  | item {p : ProcId} {th : ThreadId} {thr : Thread} {wait : Bool} {q : Queue} {w : Work} {ptr : ℕ}
      {writable : ℕ → Bool} {ptr' : ℕ} {cmds : List ReturnCommand} {s' : State}
      (hthr : s.threads th = some thr) (hproc : thr.proc = p)
      (hnext : nextWork s p th wait = some (q, w)) (hC : ∃ s₀, C s₀ p th (.copy writable))
      (hrun : readItem L s p th q w ptr writable = .ok (some (ptr', cmds), s')) :
      Part L C s (cmds.map (.delivered p th (some w))) s'
  /-- A work item that cannot be stored. -/
  | itemFault {p : ProcId} {th : ThreadId} {thr : Thread} {wait : Bool} {q : Queue} {w : Work}
      {ptr : ℕ} {writable : ℕ → Bool} {s' : State}
      (hthr : s.threads th = some thr) (hproc : thr.proc = p)
      (hnext : nextWork s p th wait = some (q, w)) (hC : ∃ s₀, C s₀ p th (.copy writable))
      (hrun : readItem L s p th q w ptr writable = .ok (none, s')) : Part L C s [] s'
  | readDone {p : ProcId} {th : ThreadId} {thr : Thread} {out : List ReturnCommand}
      {writable : ℕ → Bool} {s' : State} (hthr : s.threads th = some thr) (hproc : thr.proc = p)
      (hrun : readDone s p th out writable = .ok s') : Part L C s [] s'
  | ioctlReturn {th : ThreadId} {s' : State} (hrun : ioctlReturn s th = .ok s') : Part L C s [] s'
  | setProc {p : ProcId} {pr : Proc} (hpr : s.procs p = some pr) (pr' : Proc) :
      Part L C s [] (s.setProc p pr')
  | setContextMgr {p euid : ℕ} {security alloc : Bool} {s' : State}
      (hrun : setContextMgr s p euid security alloc = .ok s') :
      Part L C s (if s'.contextMgrNode = s.contextMgrNode then [] else [.managed p]) s'
  | freeThread {p : ProcId} {th : ThreadId} {thr : Thread} {s' : State}
      (hthr : s.threads th = some thr) (hproc : thr.proc = p) (hC : C s p th .exit)
      (hrun : binderFreeThread s p th = .ok s') : Part L C s [] s'
  | setFiles (files : ProcId → Option (ℕ → Option File)) : Part L C s [] { s with files := files }
  | vmaClose (p : ProcId) : Part L C s [] (s.setArea p { s.area p with vma := false })
  | setLooper {th : ThreadId} {thr : Thread} (hthr : s.threads th = some thr) (looper : Looper) :
      Part L C s [] (s.setThread th { thr with looper := looper })
  | release {p : ProcId} {s' : State} (hrun : binderDeferredRelease L s p = .ok s') :
      Part L C s [.released p] s'

/-- One part after the other. -/
inductive Parts (L : Layout) (C : Condition) (s : State) : List Obs → State → Prop
  | refl : Parts L C s [] s
  | tail {h o : List Obs} {s₁ s' : State} (hs : Parts L C s h s₁) (hpart : Part L C s₁ o s') :
      Parts L C s (h ++ o) s'

namespace Parts

variable {L : Layout} {C : Condition} {s s' s'' : State} {h o : List Obs}

theorem single (hpart : Part L C s o s') : Parts L C s o s' := by
  simpa using tail refl hpart

theorem trans (hs : Parts L C s h s') (hs' : Parts L C s' o s'') : Parts L C s (h ++ o) s'' := by
  induction hs' with
  | refl => simpa using hs
  | tail _ hpart ih =>
      rw [← List.append_assoc]
      exact tail ih hpart

theorem head (hpart : Part L C s o s') (hs : Parts L C s' h s'') : Parts L C s (o ++ h) s'' :=
  (single hpart).trans hs

theorem first (hpart : Part L C s [] s') (hs : Parts L C s' h s'') : Parts L C s h s'' :=
  head hpart hs

theorem invariant {I : List Obs → State → Prop} {g : List Obs} (hs : Parts L C s h s')
    (hinit : I g s)
    (hkeep : ∀ {h s₁ o s₂}, Parts L C s h s₁ → I (g ++ h) s₁ → Part L C s₁ o s₂ →
      I (g ++ h ++ o) s₂) : I (g ++ h) s' := by
  induction hs with
  | refl => simpa using hinit
  | tail hs hpart ih =>
      rw [← List.append_assoc]
      exact hkeep hs ih hpart

end Parts

/-! ### Plain requests

For the runs that show a behaviour of the driver. -/

def TxnEnv.granted : TxnEnv where
  senderEuid := 0
  securityTransaction := true
  allocTransaction := true
  allocComplete := true
  pages := { mm := true, page := fun _ => true }
  copyData := true
  copyOffsets := true
  newNode := fun _ => true
  transferBinder := fun _ => true
  newRef := fun _ => true
  fget := fun _ => none
  transferFile := fun _ => true
  unusedFd := fun _ => none

def Data.object (ty : ObjectType) (ptr cookie : ℕ) : Data :=
  (Data.setType (fun _ => 0) 0 ty).setBinder 0 ptr cookie

/-- The request to send one object, or none, with the given offsets. -/
def TransactionData.plain (handle flags : ℕ) (data : Data) (offsets : List ℕ) :
    TransactionData where
  handle := handle
  code := 0
  flags := flags
  dataSize := 24
  offsetsSize := 8 * offsets.length
  data := data
  offsets := fun i => offsets.getD i 0

/-- A thread of `p` writes commands and reads nothing. -/
def Act.write (p : ProcId) (pid : ℕ) (cmds : List Command) : Act :=
  .ioctl p pid true (.writeRead cmds 0 0 fun _ => true)

def Act.read (p : ProcId) (pid : ℕ) : Act :=
  .ioctl p pid true (.writeRead [] 256 0 fun _ => true)

def Act.goOn (th : ThreadId) : Act := .resume th false fun _ => true

/-- Two processes with a mapping each, the first of which is the context manager. -/
def twoProcesses : List Act :=
  [.open 100, .open 200, .mmap 0 4096 8192 0 TxnEnv.granted.pages fun _ => none,
    .mmap 1 4096 8192 0 TxnEnv.granted.pages fun _ => none,
    .ioctl 0 10 true (.setContextMgr 0 true true)]

end Driver

end BinderForLinux
