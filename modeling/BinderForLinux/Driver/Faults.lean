import BinderForLinux.Driver.Step
import BinderForLinux.Library.Throws

/-!
# Which assertions a function can fail

For every function of the driver the assertions that it or a function it calls can
fail. An assertion of one function is thereby no concern of a run of another.
-/

namespace BinderForLinux

namespace Driver

open Library

/-- Of the assertions only the given ones fail. -/
def Only (bs : List BugSite) : Fault → Prop
  | .bug b => b ∈ bs
  | _ => True

@[simp] theorem only_bug {bs : List BugSite} {b : BugSite} : Only bs (.bug b) ↔ b ∈ bs := Iff.rfl

@[simp] theorem only_badPointer {bs : List BugSite} : Only bs .badPointer := trivial

@[simp] theorem only_endless {bs : List BugSite} : Only bs .endless := trivial

@[simp] theorem deref_throws {bs : List BugSite} {α : Type} (heap : ℕ → Option α) (i : ℕ) :
    Throws (Only bs) (deref heap i) := by
  unfold deref
  split <;> simp

@[simp] theorem derefAsserted_throws {bs : List BugSite} {site : BugSite} (hS : site ∈ bs)
    {α : Type} (heap : ℕ → Option α) (i : ℕ) : Throws (Only bs) (derefAsserted site heap i) := by
  unfold derefAsserted
  split <;> simp [hS]

@[simp] theorem bugOn_throws {bs : List BugSite} {site : BugSite} {c : Bool} :
    Throws (Only bs) (bugOn site c) ↔ (c = true → site ∈ bs) := by
  unfold bugOn
  split <;> simp_all

def allocSites : List BugSite :=
  [.insertFreeBuffer, .insertAllocatedBuffer, .bufferLookup, .updatePageRange, .allocBuf,
    .deleteFreeBuffer, .freeBuf]

def lowSites : List BugSite := .getRefForNode :: allocSites

section Alloc

variable {bs : List BugSite} (hS : allocSites ⊆ bs) {L : Layout} {ar : Area}
include hS

theorem binderInsertFreeBuffer_throws (new : ℕ) :
    Throws (Only bs) (binderInsertFreeBuffer L ar new) := by
  have hsite : BugSite.insertFreeBuffer ∈ bs := hS (by decide)
  simp only [binderInsertFreeBuffer, throws_bind, bugOn_throws, throws_pure, implies_true, and_true]
  exact ⟨fun _ => hsite, fun _ _ => SearchTree.link_throws (fun a => by simp [hsite]) new⟩

theorem binderInsertAllocatedBuffer_throws (new : ℕ) :
    Throws (Only bs) (binderInsertAllocatedBuffer ar new) := by
  have hsite : BugSite.insertAllocatedBuffer ∈ bs := hS (by decide)
  simp only [binderInsertAllocatedBuffer, throws_bind, bugOn_throws, throws_pure, implies_true,
    and_true]
  exact ⟨fun _ => hsite, fun _ _ => SearchTree.link_throws (fun a => by simp [hsite]) new⟩

theorem binderBufferLookup_throws (userPtr : ℕ) :
    Throws (Only bs) (binderBufferLookup L ar userPtr) := by
  have hsite : BugSite.bufferLookup ∈ bs := hS (by decide)
  exact SearchTree.find_throws fun a => by simp [hsite]

omit hS in
theorem freePages_throws (first k : ℕ) (pages : ℕ → Bool) :
    Throws (Only bs) (freePages first k pages) := by
  induction k generalizing pages with
  | zero => simp [freePages]
  | succ k ih => simp [freePages, ih]

theorem allocPages_throws (env : PageEnv) (first k n : ℕ) (pages : ℕ → Bool) :
    Throws (Only bs) (allocPages env first k n pages) := by
  have hsite : BugSite.updatePageRange ∈ bs := hS (by decide)
  induction n generalizing k pages with
  | zero => simp [allocPages]
  | succ n ih => simp [allocPages, ih, hsite, freePages_throws]

theorem binderUpdatePageRange_throws (allocate : Bool) (start stop : ℕ) (env : PageEnv) :
    Throws (Only bs) (binderUpdatePageRange L ar allocate start stop env) := by
  simp [binderUpdatePageRange, allocPages_throws hS, freePages_throws]

theorem binderBestFit_throws (size : ℕ) : Throws (Only bs) (binderBestFit L ar size) := by
  have hsite : BugSite.allocBuf ∈ bs := hS (by decide)
  exact SearchTree.bestFit_throws (fun a => by simp [hsite]) none

theorem takeBuffer_throws (a size : ℕ) (split : Bool) (dataSize offsetsSize : ℕ) (isAsync : Bool) :
    Throws (Only bs) (takeBuffer L ar a size split dataSize offsetsSize isAsync) := by
  simp [takeBuffer, binderInsertAllocatedBuffer_throws hS, binderInsertFreeBuffer_throws hS]

theorem binderAllocBuf_throws (dataSize offsetsSize : ℕ) (isAsync : Bool) (env : PageEnv) :
    Throws (Only bs) (binderAllocBuf L ar dataSize offsetsSize isAsync env) := by
  simp only [binderAllocBuf, throws_ite, throws_bind, throws_pure, implies_true, true_and,
    binderBestFit_throws hS]
  intro _ _ _ r _
  split
  · simp
  · simp [binderUpdatePageRange_throws hS, takeBuffer_throws hS]

theorem binderDeleteFreeBuffer_throws (a : ℕ) :
    Throws (Only bs) (binderDeleteFreeBuffer L ar a) := by
  have hsite : BugSite.deleteFreeBuffer ∈ bs := hS (by decide)
  simp only [binderDeleteFreeBuffer, throws_bind, bugOn_throws]
  refine ⟨fun _ => hsite, fun _ _ => ?_⟩
  split
  · simp
  · simp [hsite, releaseHeaderPages, binderUpdatePageRange_throws hS]

theorem mergeNext_throws (a : ℕ) : Throws (Only bs) (mergeNext L ar a) := by
  unfold mergeNext
  split
  · simp
  · simp [binderDeleteFreeBuffer_throws hS]

theorem mergePrev_throws (a : ℕ) : Throws (Only bs) (mergePrev L ar a) := by
  unfold mergePrev
  split
  · simp
  · simp [binderDeleteFreeBuffer_throws hS]

theorem binderFreeBuf_throws (a : ℕ) : Throws (Only bs) (binderFreeBuf L ar a) := by
  have hsite : BugSite.freeBuf ∈ bs := hS (by decide)
  unfold binderFreeBuf
  split
  · simp
  · simp [hsite, binderUpdatePageRange_throws hS, mergeNext_throws hS, mergePrev_throws hS,
      binderInsertFreeBuffer_throws hS]

theorem binderMmap_throws (base size : ℕ) (userOffset : ℤ) (env : PageEnv) :
    Throws (Only bs) (binderMmap L base size userOffset env) := by
  simp [binderMmap, binderUpdatePageRange_throws hS, binderInsertFreeBuffer_throws hS]

end Alloc

section Refs

variable {bs : List BugSite} {s : State} {p : ProcId} {th : ThreadId}

@[simp] theorem binderIncNode_throws (n : NodeId) (strong internal : Bool) (q : Option Queue) :
    Throws (Only bs) (binderIncNode s n strong internal q) := by
  simp [binderIncNode]

@[simp] theorem binderDecNode_throws (n : NodeId) (strong internal : Bool) :
    Throws (Only bs) (binderDecNode s n strong internal) := by
  simp [binderDecNode]

@[simp] theorem freeDeathOf_throws (death : Option DeathId) :
    Throws (Only bs) (freeDeathOf s death) := by
  unfold freeDeathOf
  split <;> simp

@[simp] theorem binderDeleteRef_throws (r : RefId) : Throws (Only bs) (binderDeleteRef s r) := by
  simp [binderDeleteRef, dropStrong]

@[simp] theorem binderIncRef_throws (r : RefId) (strong : Bool) (q : Option Queue) :
    Throws (Only bs) (binderIncRef s r strong q) := by
  simp [binderIncRef, takeFirst]

@[simp] theorem binderDecRef_throws (r : RefId) (strong : Bool) :
    Throws (Only bs) (binderDecRef s r strong) := by
  simp [binderDecRef, giveLast]

theorem binderGetRefForNode_throws (hS : .getRefForNode ∈ bs) (n : NodeId) (alloc : Bool) :
    Throws (Only bs) (binderGetRefForNode s p n alloc) := by
  unfold binderGetRefForNode
  split
  · simp
  · simp [hS]

@[simp] theorem derefBuffer_throws (a : ℕ) : Throws (Only bs) (derefBuffer s p a) := by
  unfold derefBuffer
  split <;> simp

@[simp] theorem detachBuffer_throws (buffer : Option (ProcId × ℕ)) :
    Throws (Only bs) (detachBuffer s buffer) := by
  unfold detachBuffer
  split <;> simp

@[simp] theorem detachTransaction_throws (b : Buffer) :
    Throws (Only bs) (detachTransaction s p b) := by
  unfold detachTransaction
  split <;> simp

@[simp] theorem freeTxn_throws (t : TxnId) : Throws (Only bs) (freeTxn s t) := by
  simp [freeTxn]

@[simp] theorem releaseObject_throws (dataSize : ℕ) (data : Data) (failed : Bool) (off : ℕ) :
    Throws (Only bs) (releaseObject s p dataSize data failed off) := by
  unfold releaseObject
  split
  · simp
  · split
    · split <;> simp
    · split <;> simp
    · simp
    · simp

@[simp] theorem binderTransactionBufferRelease_throws (b : Buffer) (failedAt : Option ℕ) :
    Throws (Only bs) (binderTransactionBufferRelease s p b failedAt) := by
  have hobjects : ∀ {dataSize data failed} (offs : List ℕ) (s : State),
      Throws (Only bs) (releaseObjects s p dataSize data failed offs) := by
    intro dataSize data failed offs
    induction offs with
    | nil => simp [releaseObjects]
    | cons off offs ih => simp [releaseObjects, ih]
  have htarget : Throws (Only bs) (releaseTarget s b.targetNode) := by
    unfold releaseTarget
    split <;> simp
  simp [binderTransactionBufferRelease, htarget, hobjects]

end Refs

def stackSites : List BugSite := [.popTransaction, .sendFailedReply]

section Stack

variable {bs : List BugSite} (hS : stackSites ⊆ bs) {s : State}
include hS

theorem binderPopTransaction_throws (target : Option ThreadId) (t : TxnId) :
    Throws (Only bs) (binderPopTransaction s target t) := by
  have hsite : BugSite.popTransaction ∈ bs := hS (by decide)
  have hpop : Throws (Only bs) (popStack s target t) := by
    unfold popStack
    split
    · simp
    · simp [hsite]
  simp [binderPopTransaction, hpop]

theorem failedReplyLoop_throws (fuel : ℕ) (t : TxnId) (e : ReturnError) :
    Throws (Only bs) (failedReplyLoop fuel s t e) := by
  induction fuel generalizing s t with
  | zero => simp [failedReplyLoop]
  | succ fuel ih =>
      simp only [failedReplyLoop, throws_bind, deref_throws, true_and]
      intro tx _
      split
      · simp [failReplyTo, binderPopTransaction_throws hS]
      · simp only [throws_bind, binderPopTransaction_throws hS, true_and]
        intro s₁ _
        split
        · simp
        · exact ih _

theorem binderSendFailedReply_throws (t : TxnId) (e : ReturnError) :
    Throws (Only bs) (binderSendFailedReply s t e) := by
  have hsite : BugSite.sendFailedReply ∈ bs := hS (by decide)
  simp [binderSendFailedReply, hsite, failedReplyLoop_throws hS]

theorem binderReleaseWork_throws (q : Queue) : Throws (Only bs) (binderReleaseWork s q) := by
  have hwork : ∀ (s : State) (w : Work), Throws (Only bs) (releaseWork s w) := by
    intro s w
    cases w with
    | transaction t =>
        simp only [releaseWork, throws_bind, deref_throws, true_and]
        intro tx _
        split
        · simp
        · simp [binderSendFailedReply_throws hS]
    | transactionComplete t => simp [releaseWork]
    | node n => simp [releaseWork]
    | death d =>
        simp only [releaseWork, throws_bind, deref_throws, true_and]
        intro de _
        split <;> simp
  have hworks : ∀ (ws : List Work) (s : State), Throws (Only bs) (releaseWorks s ws) := by
    intro ws
    induction ws with
    | nil => simp [releaseWorks]
    | cons w ws ih => simp [releaseWorks, hwork, ih]
  exact hworks _ _

theorem binderFreeThread_throws (hfree : .freeThread ∈ bs) (p : ProcId) (th : ThreadId) :
    Throws (Only bs) (binderFreeThread s p th) := by
  have hwalk : ∀ (fuel : ℕ) (s : State) (x : Option TxnId),
      Throws (Only bs) (freeThreadWalk fuel s th x) := by
    intro fuel
    induction fuel with
    | zero =>
        intro s x
        cases x <;> simp [freeThreadWalk]
    | succ fuel ih =>
        intro s x
        cases x with
        | none => simp [freeThreadWalk]
        | some t => simp [freeThreadWalk, ih, hfree]
  have howed : ∀ (s : State) (x : Option TxnId), Throws (Only bs) (owedReply s th x) := by
    intro s x
    cases x <;> simp [owedReply]
  have hfail : ∀ (s : State) (x : Option TxnId), Throws (Only bs) (failOwed s x) := by
    intro s x
    cases x with
    | none => simp [failOwed]
    | some t => exact binderSendFailedReply_throws hS t .deadReply
  simp [binderFreeThread, hwalk, howed, hfail, binderReleaseWork_throws hS]

end Stack

def transactionSites : List BugSite := .transaction :: stackSites ++ lowSites

section Transaction

variable {bs : List BugSite} (hS : transactionSites ⊆ bs) {L : Layout} {s : State} {p : ProcId}
  {th : ThreadId}

omit hS in
theorem findCaller_throws (fuel : ℕ) (target : ProcId) (x : Option TxnId)
    (found : Option ThreadId) : Throws (Only bs) (findCaller fuel s target x found) := by
  have hcaller : ∀ caller found, Throws (Only bs) (callerIn s target caller found) := by
    intro caller found
    cases caller <;> simp [callerIn]
  induction fuel generalizing x found with
  | zero => cases x <;> simp [findCaller]
  | succ fuel ih =>
      cases x with
      | none => simp [findCaller]
      | some t => simp [findCaller, hcaller, ih]

omit hS in
theorem selectTarget_throws (tr : TransactionData) (reply : Bool) (env : TxnEnv) :
    Throws (Only bs) (selectTarget s p th tr reply env) := by
  have hreply : Throws (Only bs) (selectReplyTarget s th) := by
    simp only [selectReplyTarget, throws_bind, deref_throws, true_and]
    intro thr _
    split
    · simp
    · simp only [throws_bind, deref_throws, true_and, throws_ite, throws_pure, implies_true]
      intro tx _ _
      split <;> simp
  have hnode : Throws (Only bs) (targetNodeOf s p tr.handle) := by
    simp only [targetNodeOf, throws_ite]
    refine ⟨fun _ => ?_, fun _ => ?_⟩
    · split <;> simp
    · split <;> simp
  have hthread : ∀ target oneWay, Throws (Only bs) (targetThreadOf s th target oneWay) := by
    intro target oneWay
    simp only [targetThreadOf, throws_bind, deref_throws, true_and]
    intro thr _
    split
    · simp
    · simp [findCaller_throws]
  have hcall : Throws (Only bs) (selectCallTarget s p th tr env) := by
    simp only [selectCallTarget, throws_bind, hnode, true_and]
    intro x _
    split
    · simp
    · simp only [throws_bind, deref_throws, true_and]
      intro nd _
      split
      · simp
      · simp only [throws_ite, throws_bind, throws_pure, implies_true, true_and, hthread]
        intro _ y _
        split <;> simp
  simp [selectTarget, hreply, hcall]

include hS

theorem translateObjects_throws (c : TranslateCtx) (k : ℕ) (data : Data) (offs : List ℕ) :
    Throws (Only bs) (translateObjects c k s data offs) := by
  have href : BugSite.getRefForNode ∈ bs := hS (by decide)
  have hobject : ∀ (k : ℕ) (s : State) (data : Data) (off : ℕ),
      Throws (Only bs) (translateObject c k s data off) := by
    intro k s data off
    have hnode : Throws (Only bs) (objectNode c k s data off) := by
      unfold objectNode
      split
      · simp
      · split <;> simp
    simp only [translateObject, throws_ite, throws_ok, implies_true, true_and]
    intro _
    split
    · simp only [translateBinder, throws_bind, hnode, true_and]
      intro x _
      split
      · simp
      · simp only [throws_bind, deref_throws, true_and, throws_ite, throws_pure, implies_true,
          binderGetRefForNode_throws href]
        intro nd _ _ _ y _
        split <;> simp
    · unfold translateHandle
      split
      · simp
      · simp only [throws_bind, deref_throws, true_and, throws_ite, throws_pure, implies_true,
          binderGetRefForNode_throws href, binderIncNode_throws]
        intro _ rf _ nd _ _ y _
        split <;> simp
    · simp
    · simp
  induction offs generalizing k s data with
  | nil => simp [translateObjects]
  | cons off offs ih =>
      simp only [translateObjects, throws_bind, hobject, true_and]
      intro x _
      simp [ih]

theorem transactionFailed_throws (e : ReturnError) (irt : Option TxnId) :
    Throws (Only bs) (transactionFailed s th e irt) := by
  have hsite : BugSite.transaction ∈ bs := hS (by decide)
  have hstack : stackSites ⊆ bs := fun b hb => hS (by revert b; decide)
  simp only [transactionFailed, throws_bind, deref_throws, true_and, bugOn_throws, hsite,
    implies_true]
  intro thr _ _ _
  split
  · exact binderSendFailedReply_throws hstack _ _
  · simp

theorem commitTransaction_throws (t : TxnId) (tg : Target) (tr : TransactionData) (reply : Bool)
    (env : TxnEnv) (a : ℕ) (data : Data) :
    Throws (Only bs) (commitTransaction s p th t tg tr reply env a data) := by
  have hsite : BugSite.transaction ∈ bs := hS (by decide)
  have hstack : stackSites ⊆ bs := fun b hb => hS (by revert b; decide)
  have hcommit : Throws (Only bs) (commitStacks s th t tg reply (tfOneWay tr.flags)) := by
    simp only [commitStacks, throws_ite]
    refine ⟨fun _ => ?_, fun _ => ⟨fun _ => by simp, fun _ => ?_⟩⟩
    · split
      · simp
      · simp [binderPopTransaction_throws hstack]
    · split
      · simp [hsite]
      · simp [asyncTarget]
  simp [commitTransaction, hsite, hcommit]

theorem sendToTarget_throws (t : TxnId) (tg : Target) (tr : TransactionData) (reply : Bool)
    (env : TxnEnv) : Throws (Only bs) (sendToTarget L s p th t tg tr reply env) := by
  have halloc : allocSites ⊆ bs := fun b hb => hS (by revert b; decide)
  have hhold : ∀ s : State, Throws (Only bs) (holdTarget s tg.node) := by
    intro s
    unfold holdTarget
    split <;> simp
  have haccept : ∀ s : State, Throws (Only bs) (targetAcceptFds s tg) := by
    intro s
    unfold targetAcceptFds
    split <;> simp
  have hfill : ∀ c (s : State), Throws (Only bs) (fillBuffer c s tr) := by
    intro c s
    simp [fillBuffer, translateObjects_throws hS]
  have hunwind : ∀ (s : State) a data k, Throws (Only bs) (unwindBuffer L s tg tr a data k) := by
    intro s a data k
    simp [unwindBuffer, binderFreeBuf_throws halloc]
  simp only [sendToTarget, throws_bind, binderAllocBuf_throws halloc, true_and]
  intro x _
  split
  · exact transactionFailed_throws hS _ _
  · simp only [throws_bind, hhold, true_and, haccept, hfill]
    intro s₁ _ _ _ y _
    split
    · exact commitTransaction_throws hS _ _ _ _ _ _ _
    · simp [hunwind, transactionFailed_throws hS]

theorem binderTransaction_throws (tr : TransactionData) (reply : Bool) (env : TxnEnv) :
    Throws (Only bs) (binderTransaction L s p th tr reply env) := by
  simp only [binderTransaction, throws_bind, selectTarget_throws, true_and]
  intro x _
  split
  · exact transactionFailed_throws hS _ _
  · simp [transactionFailed_throws hS, sendToTarget_throws hS]

end Transaction

section Read

variable {bs : List BugSite} {L : Layout} {s : State} {p : ProcId} {th : ThreadId}

@[simp] theorem ioctlReturn_throws : Throws (Only bs) (ioctlReturn s th) := by
  simp [ioctlReturn]

@[simp] theorem readDone_throws (out : List ReturnCommand) (writable : ℕ → Bool) :
    Throws (Only bs) (readDone s p th out writable) := by
  simp [readDone]

@[simp] theorem readRetry_throws (size ptr : ℕ) (out : List ReturnCommand) (writable : ℕ → Bool) :
    Throws (Only bs) (readRetry s p th size ptr out writable) := by
  simp [readRetry]

theorem binderThreadRead_throws (size consumed : ℕ) (writable : ℕ → Bool) :
    Throws (Only bs) (binderThreadRead s p th size consumed writable) := by
  simp [binderThreadRead]

theorem readNode_throws (n : NodeId) (ptr : ℕ) (writable : ℕ → Bool) :
    Throws (Only bs) (readNode s p n ptr writable) := by
  simp only [readNode, throws_bind, deref_throws, true_and]
  intro nd _
  split <;> simp

theorem readDeath_throws (q : Queue) (d : DeathId) (ptr : ℕ) (writable : ℕ → Bool) :
    Throws (Only bs) (readDeath s p q d ptr writable) := by
  simp only [readDeath, throws_bind, deref_throws, true_and, throws_ite, throws_pure, implies_true]
  intro de _ _
  split <;> simp

theorem readTransaction_throws (hS : .threadRead ∈ bs) (q : Queue) (t : TxnId) (ptr : ℕ)
    (writable : ℕ → Bool) : Throws (Only bs) (readTransaction L s p th q t ptr writable) := by
  have htarget : ∀ n, Throws (Only bs) (targetInfo s n) := by
    intro n
    cases n <;> simp [targetInfo]
  have hsender : ∀ x, Throws (Only bs) (senderPidOf s x) := by
    intro x
    cases x <;> simp [senderPidOf]
  simp only [readTransaction, throws_bind, deref_throws, true_and]
  intro tx _
  split
  · simp [hS]
  · simp [transactionInfo, htarget, hsender]

theorem readLoop_throws (hS : .threadRead ∈ bs) (size : ℕ) (wait : Bool) (writable : ℕ → Bool)
    (fuel ptr : ℕ) (out : List ReturnCommand) :
    Throws (Only bs) (readLoop L p th size wait writable fuel s ptr out) := by
  induction fuel generalizing s ptr out with
  | zero => simp [readLoop]
  | succ fuel ih =>
      simp only [readLoop, throws_bind, deref_throws, true_and]
      intro thr _
      split
      · simp
      · simp only [throws_ite, throws_pure, implies_true, true_and]
        intro _
        split
        · simp [ih]
        · simp only [throws_bind, readNode_throws, true_and]
          intro x _
          split
          · simp
          · exact ih _ _
        · simp only [throws_bind, readDeath_throws, true_and]
          intro x _
          split
          · simp
          · simp
          · exact ih _ _
        · simp only [throws_bind, readTransaction_throws hS, true_and]
          intro x _
          split <;> simp

theorem readResume_throws (hS : .threadRead ∈ bs) (interrupted : Bool) (writable : ℕ → Bool) :
    Throws (Only bs) (readResume L s p th interrupted writable) := by
  simp only [readResume, throws_bind, deref_throws, true_and]
  intro thr _
  split
  · simp
  · simp only [throws_bind, deref_throws, true_and, throws_ite, ioctlReturn_throws, implies_true,
      readLoop_throws hS]
    intro pr _ _ x _
    split <;> simp

end Read

section Write

variable {bs : List BugSite} {L : Layout} {s : State} {p : ProcId} {th : ThreadId}

/-- The commands that have no assertion of their own and send nothing. -/
def Command.isPlain : Command → Bool
  | .freeBuffer _ => false
  | .clearDeathNotification _ _ => false
  | .transaction _ _ => false
  | .reply _ _ => false
  | _ => true

theorem incCommand_throws (hS : .getRefForNode ∈ bs) (handle : ℕ) (strong alloc : Bool) :
    Throws (Only bs) (incCommand s p handle strong alloc) := by
  have href : Throws (Only bs) (incCommandRef s p handle alloc) := by
    unfold incCommandRef
    split
    · simp only [throws_bind, binderGetRefForNode_throws hS, true_and]
      intro x _
      split <;> simp
    · simp
  simp only [incCommand, throws_bind, href, true_and]
  intro x _
  split <;> simp

theorem decCommand_throws (handle : ℕ) (strong : Bool) :
    Throws (Only bs) (decCommand s p handle strong) := by
  unfold decCommand
  split <;> simp

theorem doneCommand_throws (ptr cookie : ℕ) (strong : Bool) :
    Throws (Only bs) (doneCommand s p ptr cookie strong) := by
  unfold doneCommand
  split <;> simp

theorem execCommand_throws (hS : .getRefForNode ∈ bs) {c : Command} (hc : c.isPlain = true) :
    Throws (Only bs) (execCommand L s p th c) := by
  cases c with
  | freeBuffer dataPtr => cases hc
  | clearDeathNotification handle cookie => cases hc
  | transaction tr env => cases hc
  | reply tr env => cases hc
  | increfs h alloc => exact incCommand_throws hS h false alloc
  | acquire h alloc => exact incCommand_throws hS h true alloc
  | release h => exact decCommand_throws h true
  | decrefs h => exact decCommand_throws h false
  | increfsDone ptr cookie => exact doneCommand_throws ptr cookie false
  | acquireDone ptr cookie => exact doneCommand_throws ptr cookie true
  | registerLooper => simp [execCommand, registerLooperCommand]
  | enterLooper => simp [execCommand, enterLooperCommand]
  | exitLooper => simp [execCommand, exitLooperCommand]
  | requestDeathNotification h cookie alloc =>
      simp only [execCommand, requestDeathCommand]
      split <;> simp
  | deadBinderDone cookie =>
      simp only [execCommand, deadBinderDoneCommand, throws_bind, deref_throws, true_and]
      intro thr _
      split <;> simp
  | invalid => simp [execCommand]

theorem execCommand_throws_any (hS : .threadWrite :: .threadWriteFreed :: transactionSites ⊆ bs)
    (c : Command) :
    Throws (Only bs) (execCommand L s p th c) := by
  have hwrite : BugSite.threadWrite ∈ bs := hS (by decide)
  have hfreed : BugSite.threadWriteFreed ∈ bs := hS (by decide)
  have halloc : allocSites ⊆ bs := fun b hb => hS (by revert b; decide)
  have htransaction : transactionSites ⊆ bs :=
    fun b hb => hS (List.mem_cons_of_mem _ (List.mem_cons_of_mem _ hb))
  cases hc : c.isPlain with
  | true => exact execCommand_throws (hS (by decide)) hc
  | false =>
      cases c with
      | freeBuffer dataPtr =>
          have hadvance : ∀ (s : State) (b : Buffer), Throws (Only bs) (advanceTarget s th b) := by
            intro s b
            unfold advanceTarget
            split
            · simp only [advanceAsync, throws_bind, derefAsserted_throws hfreed, true_and,
                bugOn_throws, hwrite, implies_true]
              intro nd _ _ _
              split <;> simp
            · simp
          simp only [execCommand, freeBufferCommand, throws_bind, binderBufferLookup_throws halloc,
            true_and]
          intro x _
          split
          · simp
          · simp [hadvance, binderFreeBuf_throws halloc]
      | clearDeathNotification handle cookie =>
          simp only [execCommand, clearDeathCommand]
          split
          · simp
          · simp only [throws_bind, deref_throws, true_and]
            intro rf _ thr _
            split
            · simp
            · simp [hwrite]
      | transaction tr env => exact binderTransaction_throws htransaction tr _ env
      | reply tr env => exact binderTransaction_throws htransaction tr _ env
      | _ => cases hc

end Write

/-! ### Releasing a process -/

def releaseSites : List BugSite :=
  [.deferredRelease, .freeThread, .nodeRelease] ++ stackSites ++ allocSites

section Release

variable {bs : List BugSite} {L : Layout} {s : State} {p : ProcId}

theorem notifyDeath_throws (hS : .nodeRelease ∈ bs) (rs : List RefId) :
    Throws (Only bs) (notifyDeath s rs) := by
  induction rs generalizing s with
  | nil => simp [notifyDeath]
  | cons r rs ih =>
      simp only [notifyDeath, throws_bind, deref_throws, true_and]
      intro rf _
      split
      · exact ih
      · simp [hS, ih]

theorem dropContextMgr_throws : Throws (Only bs) (dropContextMgr s p) := by
  unfold dropContextMgr
  split <;> simp

theorem freeThreads_throws (hS : stackSites ⊆ bs) (hfree : .freeThread ∈ bs)
    (ths : List ThreadId) : Throws (Only bs) (freeThreads p s ths) := by
  induction ths generalizing s with
  | nil => simp [freeThreads]
  | cons th ths ih => simp [freeThreads, ih, binderFreeThread_throws hS hfree]

theorem deleteRefs_throws (rs : List RefId) : Throws (Only bs) (deleteRefs s rs) := by
  induction rs generalizing s with
  | nil => simp [deleteRefs]
  | cons r rs ih => simp [deleteRefs, ih]

theorem freeBuffers_throws (hS : allocSites ⊆ bs) (as : List ℕ) :
    Throws (Only bs) (freeBuffers L p s as) := by
  induction as generalizing s with
  | nil => simp [freeBuffers]
  | cons a as ih => simp [freeBuffers, ih, binderFreeBuf_throws hS]

theorem binderDeferredRelease_throws (hS : releaseSites ⊆ bs) :
    Throws (Only bs) (binderDeferredRelease L s p) := by
  have hsite : BugSite.deferredRelease ∈ bs := hS (by decide)
  have hstack : stackSites ⊆ bs := fun b hb => hS (by revert b; decide)
  have halloc : allocSites ⊆ bs := fun b hb => hS (by revert b; decide)
  have hnodes : ∀ (ns : List NodeId) (s : State), Throws (Only bs) (releaseNodes p s ns) := by
    intro ns
    induction ns with
    | nil => simp [releaseNodes]
    | cons n ns ih =>
        simp [releaseNodes, ih, binderNodeRelease, binderReleaseWork_throws hstack,
          notifyDeath_throws (hS (by decide))]
  simp [binderDeferredRelease, hsite, dropContextMgr_throws, hnodes, deleteRefs_throws,
    freeThreads_throws hstack (hS (by decide)), freeBuffers_throws halloc,
    binderReleaseWork_throws hstack]

end Release

section Step

variable {bs : List BugSite} {L : Layout} {s : State} {p : ProcId} {th : ThreadId}

theorem setContextMgr_throws (euid : ℕ) (security alloc : Bool) :
    Throws (Only bs) (setContextMgr s p euid security alloc) := by
  simp only [setContextMgr, throws_ite, throws_pure, implies_true, true_and]
  intro _ _ _
  split <;> simp

theorem mmapProc_throws (hS : allocSites ⊆ bs) (base size : ℕ) (off : ℤ) (env : PageEnv)
    (files : ℕ → Option File) : Throws (Only bs) (mmapProc L s p base size off env files) := by
  simp only [mmapProc, throws_ite, throws_pure, implies_true, true_and, throws_bind,
    binderMmap_throws hS]
  intro _ x _
  split <;> simp

theorem deferredFlush_throws (ths : List ThreadId) : Throws (Only bs) (deferredFlush s ths) := by
  induction ths generalizing s with
  | nil => simp [deferredFlush]
  | cons th ths ih => simp [deferredFlush, ih]

end Step

end Driver

end BinderForLinux
