import Mathlib.Data.List.Nodup
import Mathlib.Logic.Function.Basic
import Mathlib.Tactic.Common

/-!
# Doubly linked lists

Nodes are known by their addresses. `Linked l ids` says that the list has the nodes of `ids`, in
this order, and that every pointer leads where it should. Each operation that changes pointers
redirects the two that meet at one place, so its rule is put together from what holds on the two
sides of the place.
-/

namespace BinderForLinux

namespace Library

variable {α : Type*}

structure Node (α : Type*) where
  val : α
  prev : Option ℕ
  next : Option ℕ

structure LinkedList (α : Type*) where
  node : ℕ → Node α
  first : Option ℕ
  last : Option ℕ

namespace LinkedList

variable (l : LinkedList α)

def setNode (n : ℕ) (x : Node α) : LinkedList α := { l with node := Function.update l.node n x }

def setVal (n : ℕ) (v : α) : LinkedList α := l.setNode n { l.node n with val := v }

def setPrev (n : ℕ) (p : Option ℕ) : LinkedList α := l.setNode n { l.node n with prev := p }

def setNext (n : ℕ) (q : Option ℕ) : LinkedList α := l.setNode n { l.node n with next := q }

/-- What comes after `p`, or first, is `q`. -/
def linkNext (p q : Option ℕ) : LinkedList α :=
  match p with
  | none => { l with first := q }
  | some n => l.setNext n q

/-- What comes before `q`, or last, is `p`. -/
def linkPrev (p q : Option ℕ) : LinkedList α :=
  match q with
  | none => { l with last := p }
  | some n => l.setPrev n p

def insertAfter (n new : ℕ) (v : α) : LinkedList α :=
  let l := l.setNode new ⟨v, some n, (l.node n).next⟩
  let l := l.linkPrev (some new) (l.node n).next
  l.setNext n (some new)

def insertBefore (n new : ℕ) (v : α) : LinkedList α :=
  let l := l.setNode new ⟨v, (l.node n).prev, some n⟩
  let l := l.linkNext (l.node n).prev (some new)
  l.setPrev n (some new)

def insertHead (new : ℕ) (v : α) : LinkedList α :=
  match l.first with
  | none => { l.setNode new ⟨v, none, none⟩ with first := some new, last := some new }
  | some n =>
      let l := l.setNode new ⟨v, none, some n⟩
      { l.setPrev n (some new) with first := some new }

def remove (n : ℕ) : LinkedList α :=
  let l := l.linkNext (l.node n).prev (l.node n).next
  l.linkPrev (l.node n).prev (l.node n).next

variable {l} {pre post ids : List ℕ} {p q p' q' : Option ℕ} {m n new : ℕ}

/-! ### Nodes after a change -/

@[simp] theorem setNode_self (x : Node α) : (l.setNode n x).node n = x := Function.update_self ..

theorem setNode_of_ne (x : Node α) (hm : m ≠ n) : (l.setNode n x).node m = l.node m :=
  Function.update_of_ne hm ..

@[simp] theorem setVal_prev (v : α) : ((l.setVal n v).node m).prev = (l.node m).prev := by
  by_cases hm : m = n
  · rw [hm, setVal, setNode_self]
  · rw [setVal, setNode_of_ne _ hm]

@[simp] theorem setVal_next (v : α) : ((l.setVal n v).node m).next = (l.node m).next := by
  by_cases hm : m = n
  · rw [hm, setVal, setNode_self]
  · rw [setVal, setNode_of_ne _ hm]

@[simp] theorem setVal_self (v : α) : ((l.setVal n v).node n).val = v := by
  rw [setVal, setNode_self]

theorem setVal_of_ne (v : α) (hm : m ≠ n) : (l.setVal n v).node m = l.node m :=
  setNode_of_ne _ hm

@[simp] theorem setPrev_val : ((l.setPrev n p).node m).val = (l.node m).val := by
  by_cases hm : m = n
  · rw [hm, setPrev, setNode_self]
  · rw [setPrev, setNode_of_ne _ hm]

@[simp] theorem setPrev_next : ((l.setPrev n p).node m).next = (l.node m).next := by
  by_cases hm : m = n
  · rw [hm, setPrev, setNode_self]
  · rw [setPrev, setNode_of_ne _ hm]

@[simp] theorem setPrev_self : ((l.setPrev n p).node n).prev = p := by
  rw [setPrev, setNode_self]

theorem setPrev_of_ne (hm : m ≠ n) : (l.setPrev n p).node m = l.node m := setNode_of_ne _ hm

@[simp] theorem setNext_val : ((l.setNext n q).node m).val = (l.node m).val := by
  by_cases hm : m = n
  · rw [hm, setNext, setNode_self]
  · rw [setNext, setNode_of_ne _ hm]

@[simp] theorem setNext_prev : ((l.setNext n q).node m).prev = (l.node m).prev := by
  by_cases hm : m = n
  · rw [hm, setNext, setNode_self]
  · rw [setNext, setNode_of_ne _ hm]

@[simp] theorem setNext_self : ((l.setNext n q).node n).next = q := by
  rw [setNext, setNode_self]

theorem setNext_of_ne (hm : m ≠ n) : (l.setNext n q).node m = l.node m := setNode_of_ne _ hm

@[simp] theorem linkNext_val : ((l.linkNext p q).node m).val = (l.node m).val := by
  cases p with
  | none => rfl
  | some n => exact setNext_val

@[simp] theorem linkNext_prev : ((l.linkNext p q).node m).prev = (l.node m).prev := by
  cases p with
  | none => rfl
  | some n => exact setNext_prev

theorem linkNext_of_ne (hm : p ≠ some m) : (l.linkNext p q).node m = l.node m := by
  cases p with
  | none => rfl
  | some n => exact setNext_of_ne fun heq => hm (heq ▸ rfl)

@[simp] theorem linkPrev_val : ((l.linkPrev p q).node m).val = (l.node m).val := by
  cases q with
  | none => rfl
  | some n => exact setPrev_val

@[simp] theorem linkPrev_next : ((l.linkPrev p q).node m).next = (l.node m).next := by
  cases q with
  | none => rfl
  | some n => exact setPrev_next

theorem linkPrev_of_ne (hm : q ≠ some m) : (l.linkPrev p q).node m = l.node m := by
  cases q with
  | none => rfl
  | some n => exact setPrev_of_ne fun heq => hm (heq ▸ rfl)

@[simp] theorem remove_val : ((l.remove n).node m).val = (l.node m).val := by
  rw [remove, linkPrev_val, linkNext_val]

theorem insertAfter_val (v : α) (hm : m ≠ new) :
    ((l.insertAfter n new v).node m).val = (l.node m).val := by
  rw [insertAfter, setNext_val, linkPrev_val, setNode_of_ne _ hm]

theorem insertAfter_val_new (v : α) : ((l.insertAfter n new v).node new).val = v := by
  rw [insertAfter, setNext_val, linkPrev_val, setNode_self]

theorem insertBefore_val (v : α) (hm : m ≠ new) :
    ((l.insertBefore n new v).node m).val = (l.node m).val := by
  rw [insertBefore, setPrev_val, linkNext_val, setNode_of_ne _ hm]

theorem insertBefore_val_new (v : α) : ((l.insertBefore n new v).node new).val = v := by
  rw [insertBefore, setPrev_val, linkNext_val, setNode_self]

/-! ### Segments -/

/-- The nodes are linked with each other, with `p` before and `q` behind them. -/
def Seg (node : ℕ → Node α) : Option ℕ → List ℕ → Option ℕ → Prop
  | _, [], _ => True
  | p, n :: ns, q => (node n).prev = p ∧ (node n).next = ns.head?.or q ∧ Seg node (some n) ns q

theorem getLast?_cons_or : ((n :: pre).getLast?.or p) = pre.getLast?.or (some n) := by
  rw [List.getLast?_cons]
  cases pre.getLast? <;> rfl

theorem seg_append {node : ℕ → Node α} : Seg node p (pre ++ post) q ↔
    Seg node p pre (post.head?.or q) ∧ Seg node (pre.getLast?.or p) post q := by
  induction pre generalizing p with
  | nil => simp [Seg]
  | cons n pre ih =>
      rw [List.cons_append, Seg, Seg, ih, getLast?_cons_or, List.head?_append, Option.or_assoc]
      tauto

theorem seg_concat {node : ℕ → Node α} : Seg node p (pre ++ [n]) q ↔
    Seg node p pre (some n) ∧ (node n).prev = pre.getLast?.or p ∧ (node n).next = q := by
  rw [seg_append]
  simp [Seg]

theorem Seg.congr {node node' : ℕ → Node α} (h : Seg node p ids q)
    (heq : ∀ n ∈ ids, (node' n).prev = (node n).prev ∧ (node' n).next = (node n).next) :
    Seg node' p ids q := by
  induction ids generalizing p with
  | nil => trivial
  | cons n ids ih =>
      obtain ⟨hprev, hnext, hrest⟩ := h
      obtain ⟨hp, hn⟩ := heq n List.mem_cons_self
      exact ⟨hp.trans hprev, hn.trans hnext, ih hrest fun m hm => heq m (List.mem_cons_of_mem n hm)⟩

/-- The list begins with these nodes, and `q` follows. -/
structure Front (l : LinkedList α) (pre : List ℕ) (q : Option ℕ) : Prop where
  first : l.first = pre.head?.or q
  seg : Seg l.node none pre q

/-- The list ends with these nodes, and `p` is before. -/
structure Back (l : LinkedList α) (p : Option ℕ) (post : List ℕ) : Prop where
  last : l.last = post.getLast?.or p
  seg : Seg l.node p post none

theorem Front.congr {l' : LinkedList α} (h : Front l pre q) (hfirst : l'.first = l.first)
    (heq : ∀ n ∈ pre, (l'.node n).prev = (l.node n).prev ∧ (l'.node n).next = (l.node n).next) :
    Front l' pre q := ⟨hfirst.trans h.first, h.seg.congr heq⟩

theorem Back.congr {l' : LinkedList α} (h : Back l p post) (hlast : l'.last = l.last)
    (heq : ∀ n ∈ post, (l'.node n).prev = (l.node n).prev ∧ (l'.node n).next = (l.node n).next) :
    Back l' p post := ⟨hlast.trans h.last, h.seg.congr heq⟩

theorem Front.of_node {l' : LinkedList α} (h : Front l pre q) (hfirst : l'.first = l.first)
    (heq : ∀ n ∈ pre, l'.node n = l.node n) : Front l' pre q :=
  h.congr hfirst fun n hn => by rw [heq n hn]; exact ⟨rfl, rfl⟩

theorem Back.of_node {l' : LinkedList α} (h : Back l p post) (hlast : l'.last = l.last)
    (heq : ∀ n ∈ post, l'.node n = l.node n) : Back l' p post :=
  h.congr hlast fun n hn => by rw [heq n hn]; exact ⟨rfl, rfl⟩

theorem Front.setNode {x : Node α} (h : Front l pre q) (hn : n ∉ pre) :
    Front (l.setNode n x) pre q :=
  h.of_node rfl fun _ hm => setNode_of_ne x fun heq => hn (heq ▸ hm)

theorem Back.setNode {x : Node α} (h : Back l p post) (hn : n ∉ post) :
    Back (l.setNode n x) p post :=
  h.of_node rfl fun _ hm => setNode_of_ne x fun heq => hn (heq ▸ hm)

theorem Front.linkNext (h : Front l pre q) (hnodup : pre.Nodup) :
    Front (l.linkNext pre.getLast? q') pre q' := by
  rcases List.eq_nil_or_concat' pre with rfl | ⟨init, n, rfl⟩
  · exact ⟨rfl, trivial⟩
  · obtain ⟨hinit, hprev, -⟩ := seg_concat.mp h.seg
    obtain ⟨-, -, hdisj⟩ := List.nodup_append.mp hnodup
    rw [List.getLast?_concat]
    refine ⟨?_, seg_concat.mpr ⟨hinit.congr fun m hm => ?_, ?_, setNext_self⟩⟩
    · have hfirst : l.first = _ := h.first
      change l.first = _
      rw [hfirst]
      cases init <;> rfl
    · have hne : m ≠ n := hdisj m hm n (List.mem_singleton_self n)
      rw [LinkedList.linkNext, setNext_of_ne hne]
      exact ⟨rfl, rfl⟩
    · rw [linkNext_prev]
      exact hprev

theorem Back.linkPrev (h : Back l p post) (hnodup : post.Nodup) :
    Back (l.linkPrev p' post.head?) p' post := by
  cases post with
  | nil => exact ⟨rfl, trivial⟩
  | cons n post =>
      obtain ⟨-, hnext, hrest⟩ := h.seg
      refine ⟨?_, setPrev_self, ?_, hrest.congr fun m hm => ?_⟩
      · have hlast : l.last = _ := h.last
        change l.last = _
        rw [hlast, getLast?_cons_or, getLast?_cons_or]
      · rw [linkPrev_next]
        exact hnext
      · have hne : m ≠ n := fun heq => (List.nodup_cons.mp hnodup).1 (heq ▸ hm)
        rw [List.head?_cons, LinkedList.linkPrev, setPrev_of_ne hne]
        exact ⟨rfl, rfl⟩

theorem Back.linkNext (h : Back l p post) (hdisj : ∀ n, q = some n → n ∉ post) :
    Back (l.linkNext q q') p post := by
  refine h.of_node ?_ fun m hm => linkNext_of_ne fun heq => hdisj m heq hm
  cases q <;> rfl

theorem Front.linkPrev (h : Front l pre q) (hdisj : ∀ n, p = some n → n ∉ pre) :
    Front (l.linkPrev p' p) pre q := by
  refine h.of_node ?_ fun m hm => linkPrev_of_ne fun heq => hdisj m heq hm
  cases p <;> rfl

/-! ### Lists -/

/-- The list has these nodes, in this order. -/
structure Linked (l : LinkedList α) (ids : List ℕ) : Prop where
  nodup : ids.Nodup
  front : Front l ids none
  last : l.last = ids.getLast?

theorem Seg.unique {node : ℕ → Node α} {ids' : List ℕ} (h : Seg node p ids none)
    (h' : Seg node p' ids' none) (hhead : ids.head? = ids'.head?) : ids = ids' := by
  induction ids generalizing p p' ids' with
  | nil => exact (List.head?_eq_none_iff.mp hhead.symm).symm
  | cons n ids ih =>
      cases ids' with
      | nil => cases hhead
      | cons m ids' =>
          obtain rfl : n = m := Option.some.inj hhead
          obtain ⟨-, hnext, hseg⟩ := h
          obtain ⟨-, hnext', hseg'⟩ := h'
          rw [Option.or_none] at hnext hnext'
          rw [ih hseg hseg' (hnext.symm.trans hnext')]

theorem Linked.unique {ids' : List ℕ} (h : Linked l ids) (h' : Linked l ids') : ids = ids' := by
  have hfirst := h.front.first
  have hfirst' := h'.front.first
  rw [Option.or_none] at hfirst hfirst'
  exact h.front.seg.unique h'.front.seg (hfirst.symm.trans hfirst')

theorem linked_append : Linked l (pre ++ post) ↔
    (pre ++ post).Nodup ∧ Front l pre post.head? ∧ Back l pre.getLast? post := by
  constructor
  · intro h
    have hseg := seg_append.mp h.front.seg
    rw [Option.or_none, Option.or_none] at hseg
    refine ⟨h.nodup, ⟨?_, hseg.1⟩, ⟨?_, hseg.2⟩⟩
    · rw [h.front.first, Option.or_none, List.head?_append]
    · rw [h.last, List.getLast?_append]
  · rintro ⟨hnodup, hfront, hback⟩
    refine ⟨hnodup, ⟨?_, seg_append.mpr ?_⟩, ?_⟩
    · rw [hfront.first, Option.or_none, List.head?_append]
    · rw [Option.or_none, Option.or_none]
      exact ⟨hfront.seg, hback.seg⟩
    · rw [hback.last, List.getLast?_append]

theorem back_cons : Back l p (n :: post) ↔
    (l.node n).prev = p ∧ (l.node n).next = post.head? ∧ Back l (some n) post := by
  constructor
  · intro h
    obtain ⟨hprev, hnext, hseg⟩ := h.seg
    exact ⟨hprev, hnext.trans Option.or_none, h.last.trans getLast?_cons_or, hseg⟩
  · rintro ⟨hprev, hnext, h⟩
    exact ⟨h.last.trans getLast?_cons_or.symm, hprev, hnext.trans Option.or_none.symm, h.seg⟩

theorem front_concat : Front l (pre ++ [n]) q ↔
    Front l pre (some n) ∧ (l.node n).prev = pre.getLast? ∧ (l.node n).next = q := by
  have hhead : (pre ++ [n]).head?.or q = pre.head?.or (some n) := by
    cases pre <;> rfl
  constructor
  · intro h
    obtain ⟨hseg, hprev, hnext⟩ := seg_concat.mp h.seg
    exact ⟨⟨h.first.trans hhead, hseg⟩, hprev.trans Option.or_none, hnext⟩
  · rintro ⟨h, hprev, hnext⟩
    exact ⟨h.first.trans hhead.symm, seg_concat.mpr ⟨h.seg, hprev.trans Option.or_none.symm, hnext⟩⟩

theorem linked_cons : Linked l (pre ++ n :: post) ↔ (pre ++ n :: post).Nodup ∧
    Front l pre (some n) ∧ (l.node n).prev = pre.getLast? ∧ (l.node n).next = post.head? ∧
      Back l (some n) post := by
  rw [linked_append, back_cons, List.head?_cons]

/-! ### Operations -/

theorem Linked.notMem (h : Linked l (pre ++ n :: post)) : n ∉ pre ∧ n ∉ post := by
  obtain ⟨-, hcons, hdisj⟩ := List.nodup_append.mp h.nodup
  exact ⟨fun hn => hdisj n hn n List.mem_cons_self rfl, (List.nodup_cons.mp hcons).1⟩

theorem Linked.setVal (h : Linked l ids) (v : α) : Linked (l.setVal n v) ids :=
  ⟨h.nodup, h.front.congr rfl fun _ _ => ⟨setVal_prev v, setVal_next v⟩, h.last⟩

theorem Linked.remove (h : Linked l (pre ++ n :: post)) : Linked (l.remove n) (pre ++ post) := by
  obtain ⟨hnodup, hfront, hprev, hnext, hback⟩ := linked_cons.mp h
  obtain ⟨hpre, hcons, hdisj⟩ := List.nodup_append.mp hnodup
  have hne : pre.getLast? ≠ some n := fun heq => h.notMem.1 (List.mem_of_getLast? heq)
  unfold LinkedList.remove
  rw [hprev, hnext]
  dsimp only
  rw [linkNext_of_ne hne, hprev, hnext]
  refine linked_append.mpr ⟨?_, (hfront.linkNext hpre).linkPrev fun m hm hmem => ?_,
    (hback.linkNext fun m hm hmem => ?_).linkPrev (List.nodup_cons.mp hcons).2⟩
  · exact hnodup.sublist ((List.sublist_cons_self n post).append_left pre)
  · exact hdisj m hmem m (List.mem_cons_of_mem n (List.mem_of_head? hm)) rfl
  · exact hdisj m (List.mem_of_getLast? hm) m (List.mem_cons_of_mem n hmem) rfl

theorem nodup_insert (h : (pre ++ post).Nodup) (hnew : new ∉ pre ++ post) :
    (pre ++ new :: post).Nodup :=
  List.nodup_middle.mpr (List.nodup_cons.mpr ⟨hnew, h⟩)

theorem Linked.insertAfter (h : Linked l (pre ++ n :: post)) (hnew : new ∉ pre ++ n :: post)
    (v : α) : Linked (l.insertAfter n new v) (pre ++ n :: new :: post) := by
  obtain ⟨hnodup, hfront, hprev, hnext, hback⟩ := linked_cons.mp h
  obtain ⟨hpre, hcons, hdisj⟩ := List.nodup_append.mp hnodup
  obtain ⟨hn, hpost⟩ := List.nodup_cons.mp hcons
  obtain ⟨hnewpre, hnewcons⟩ : new ∉ pre ∧ new ∉ n :: post := by
    rwa [List.mem_append, not_or] at hnew
  obtain ⟨hne, hnewpost⟩ : new ≠ n ∧ new ∉ post := by
    rwa [List.mem_cons, not_or] at hnewcons
  have hhead (m : ℕ) (hm : post.head? = some m) : m ∈ post := List.mem_of_head? hm
  unfold LinkedList.insertAfter
  dsimp only
  rw [setNode_of_ne _ hne.symm, hnext]
  have hfront' : Front ((l.setNode new ⟨v, some n, post.head?⟩).linkPrev (some new) post.head?) pre
      (some n) := (hfront.setNode hnewpre).linkPrev fun m hm hmem =>
    hdisj m hmem m (List.mem_cons_of_mem n (hhead m hm)) rfl
  have hback' : Back ((l.setNode new ⟨v, some n, post.head?⟩).linkPrev (some new) post.head?)
      (some new) post := (hback.setNode hnewpost).linkPrev hpost
  have hself : ((l.setNode new ⟨v, some n, post.head?⟩).linkPrev (some new) post.head?).node new =
      ⟨v, some n, post.head?⟩ := by
    rw [linkPrev_of_ne fun heq => hnewpost (hhead new heq), setNode_self]
  have hold : ((l.setNode new ⟨v, some n, post.head?⟩).linkPrev (some new) post.head?).node n =
      l.node n := by
    rw [linkPrev_of_ne fun heq => hn (hhead n heq), setNode_of_ne _ hne.symm]
  generalize (l.setNode new ⟨v, some n, post.head?⟩).linkPrev (some new) post.head? = k at *
  refine linked_cons.mpr ⟨?_, hfront'.setNode h.notMem.1, ?_, setNext_self,
    back_cons.mpr ⟨?_, ?_, hback'.setNode hn⟩⟩
  · have hsplit : pre ++ n :: post = (pre ++ [n]) ++ post := by simp
    rw [hsplit] at hnodup hnew
    simpa using nodup_insert hnodup hnew
  · rw [setNext_prev, hold, hprev]
  · rw [setNext_prev, hself]
  · rw [setNext_of_ne hne, hself]

theorem Linked.insertBefore (h : Linked l (pre ++ n :: post)) (hnew : new ∉ pre ++ n :: post)
    (v : α) : Linked (l.insertBefore n new v) (pre ++ new :: n :: post) := by
  obtain ⟨hnodup, hfront, hprev, hnext, hback⟩ := linked_cons.mp h
  obtain ⟨hpre, hcons, hdisj⟩ := List.nodup_append.mp hnodup
  obtain ⟨hn, hpost⟩ := List.nodup_cons.mp hcons
  obtain ⟨hnewpre, hnewcons⟩ : new ∉ pre ∧ new ∉ n :: post := by
    rwa [List.mem_append, not_or] at hnew
  obtain ⟨hne, hnewpost⟩ : new ≠ n ∧ new ∉ post := by
    rwa [List.mem_cons, not_or] at hnewcons
  have hlast (m : ℕ) (hm : pre.getLast? = some m) : m ∈ pre := List.mem_of_getLast? hm
  unfold LinkedList.insertBefore
  dsimp only
  rw [setNode_of_ne _ hne.symm, hprev]
  have hfront' : Front ((l.setNode new ⟨v, pre.getLast?, some n⟩).linkNext pre.getLast? (some new))
      pre (some new) := (hfront.setNode hnewpre).linkNext hpre
  have hback' : Back ((l.setNode new ⟨v, pre.getLast?, some n⟩).linkNext pre.getLast? (some new))
      (some n) post := (hback.setNode hnewpost).linkNext fun m hm hmem =>
    hdisj m (hlast m hm) m (List.mem_cons_of_mem n hmem) rfl
  have hself : ((l.setNode new ⟨v, pre.getLast?, some n⟩).linkNext pre.getLast?
      (some new)).node new = ⟨v, pre.getLast?, some n⟩ := by
    rw [linkNext_of_ne fun heq => hnewpre (hlast new heq), setNode_self]
  have hold : ((l.setNode new ⟨v, pre.getLast?, some n⟩).linkNext pre.getLast?
      (some new)).node n = l.node n := by
    rw [linkNext_of_ne fun heq => h.notMem.1 (hlast n heq), setNode_of_ne _ hne.symm]
  generalize (l.setNode new ⟨v, pre.getLast?, some n⟩).linkNext pre.getLast? (some new) = k at *
  have hsplit : pre ++ new :: n :: post = (pre ++ [new]) ++ n :: post := by simp
  rw [hsplit]
  refine linked_cons.mpr ⟨?_, front_concat.mpr ⟨hfront'.setNode h.notMem.1, ?_, ?_⟩, ?_, ?_,
    hback'.setNode hn⟩
  · simpa using nodup_insert hnodup hnew
  · rw [setPrev_of_ne hne, hself]
  · rw [setPrev_next, hself]
  · rw [setPrev_self, List.getLast?_concat]
  · rw [setPrev_next, hold, hnext]

theorem linked_insertHead (h : l.first = none) (v : α) : Linked (l.insertHead new v) [new] := by
  unfold LinkedList.insertHead
  rw [h]
  refine ⟨List.nodup_singleton new, ⟨rfl, ?_, ?_, trivial⟩, rfl⟩
  · exact congrArg Node.prev (setNode_self _)
  · exact congrArg Node.next (setNode_self _)

end LinkedList

end Library

end BinderForLinux
