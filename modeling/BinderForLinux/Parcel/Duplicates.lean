import BinderForLinux.Parcel.Append
import BinderForLinux.Parcel.Handles

/-!
# What was duplicated

The loop that duplicates descriptors stops at the first call of `dup` that fails. What it
leaves in the array, in the parcel and in the log is told by the objects that are read and by
the calls of `dup` that succeed before.
-/

namespace BinderForLinux

namespace Parcel

open Library

/-- The descriptors of `n` objects, one after the other. -/
def readFds : ℕ → Parcel → List (Option ℕ) × Parcel
  | 0, p => ([], p)
  | n + 1, p =>
      let r := readFileDescriptor p
      let rest := readFds n r.2
      (r.1 :: rest.1, rest.2)

/-- The descriptors of the next `n` objects with their duplicates, up to the first that has none. -/
def duplicates (o : Oracle) : ℕ → ℕ → Parcel → List (ℕ × ℕ)
  | _, 0, _ => []
  | dups, n + 1, p =>
      match dupOf o dups (readFileDescriptor p).1 with
      | none => []
      | some d => d :: duplicates o (dups + 1) n (readFileDescriptor p).2

section Logs

/-! ### The log has no part in what is read -/

theorem readObject_log (p : Parcel) (l : List Effect) (nullMetaData : Bool) :
    ∃ l', readObject { p with log := l } nullMetaData =
      ((readObject p nullMetaData).1, { (readObject p nullMetaData).2 with log := l' }) := by
  unfold readObject
  dsimp only [Parcel.record]
  split
  · split
    · exact ⟨_, rfl⟩
    · cases findObject p.objects p.mNextObjectHint p.mDataPos with
      | some opos => exact ⟨_, rfl⟩
      | none => exact ⟨_, rfl⟩
  · exact ⟨l, rfl⟩

theorem readFileDescriptor_log (p : Parcel) (l : List Effect) :
    ∃ l', readFileDescriptor { p with log := l } =
      ((readFileDescriptor p).1, { (readFileDescriptor p).2 with log := l' }) := by
  obtain ⟨l', hl⟩ := readObject_log p l true
  rcases hobj : readObject p true with ⟨_ | flat, q⟩
  · rw [hobj] at hl
    exact ⟨l', by simp only [readFileDescriptor, hl, hobj]⟩
  · rw [hobj] at hl
    exact ⟨l', by simp only [readFileDescriptor, hl, hobj]⟩

theorem readFds_log (n : ℕ) (p : Parcel) (l : List Effect) :
    ∃ l', readFds n { p with log := l } =
      ((readFds n p).1, { (readFds n p).2 with log := l' }) := by
  induction n generalizing p l with
  | zero => exact ⟨l, rfl⟩
  | succ n ih =>
      obtain ⟨l₁, h₁⟩ := readFileDescriptor_log p l
      obtain ⟨l₂, h₂⟩ := ih (readFileDescriptor p).2 l₁
      exact ⟨l₂, by simp only [readFds, h₁, h₂]⟩

theorem duplicates_log (o : Oracle) (dups n : ℕ) (p : Parcel) (l : List Effect) :
    duplicates o dups n { p with log := l } = duplicates o dups n p := by
  induction n generalizing dups p l with
  | zero => rfl
  | succ n ih =>
      obtain ⟨l', h⟩ := readFileDescriptor_log p l
      simp only [duplicates, h, ih]

theorem readFds_record (n : ℕ) (p : Parcel) (l : List Effect) :
    ∃ l', readFds n (p.record l) = ((readFds n p).1, { (readFds n p).2 with log := l' }) :=
  readFds_log n p (p.log ++ l)

theorem duplicates_record (o : Oracle) (dups n : ℕ) (p : Parcel) (l : List Effect) :
    duplicates o dups n (p.record l) = duplicates o dups n p :=
  duplicates_log o dups n p (p.log ++ l)

theorem read_log (p : Parcel) (l : List Effect) (len : ℕ) :
    (read { p with log := l } len).1 = (read p len).1 := by
  have hcan : canRead { p with log := l } len = canRead p len := rfl
  unfold read
  rw [hcan]
  split
  · rfl
  split <;> rfl

end Logs

section Calls

variable {o : Oracle} {dups n : ℕ} {p : Parcel} {d : ℕ × ℕ}

theorem dupOf_eq_some {fd : Option ℕ} (h : dupOf o dups fd = some d) :
    fd = some d.1 ∧ d.1 < 2 ^ 31 ∧ d.2 < 2 ^ 31 := by
  unfold dupOf at h
  cases fd with
  | none => cases h
  | some fd =>
      dsimp only at h
      split at h
      · rename_i hlt
        cases h
        exact ⟨rfl, hlt⟩
      · cases h

theorem lt_of_mem_duplicates (h : d ∈ duplicates o dups n p) : d.2 < 2 ^ 31 := by
  induction n generalizing dups p with
  | zero => cases h
  | succ n ih =>
      rw [duplicates] at h
      cases hd : dupOf o dups (readFileDescriptor p).1 with
      | none =>
          rw [hd] at h
          cases h
      | some d' =>
          rw [hd] at h
          rcases List.mem_cons.mp h with rfl | h
          · exact (dupOf_eq_some hd).2.2
          · exact ih h

/-- Where all were duplicated, the duplicates are of the objects that were read. -/
theorem forall₂_duplicates (h : (duplicates o dups n p).length = n) :
    List.Forall₂ (fun fd d => fd = some d.1 ∧ d.2 < 2 ^ 31) (readFds n p).1
      (duplicates o dups n p) := by
  induction n generalizing dups p with
  | zero => exact .nil
  | succ n ih =>
      rw [duplicates] at h ⊢
      cases hd : dupOf o dups (readFileDescriptor p).1 with
      | none =>
          rw [hd] at h
          cases h
      | some d =>
          rw [hd] at h
          have hfd := dupOf_eq_some hd
          exact .cons ⟨hfd.1, hfd.2.2⟩ (ih (Nat.succ.inj h))

end Calls

/-! ### The log of the loop -/

/-- The log shows these calls of `dup`, and closes nothing. -/
structure Shows (l : List Effect) (ds : List (ℕ × ℕ)) : Prop where
  dups : dupsIn l = ds
  duped : dupedIn l = ds.map Prod.snd
  closed : closedIn l = []

namespace Shows

variable {l l' : List Effect} {ds ds' : List (ℕ × ℕ)}

theorem append (h : Shows l ds) (h' : Shows l' ds') : Shows (l ++ l') (ds ++ ds') where
  dups := by rw [dupsIn_append, h.dups, h'.dups]
  duped := by
    rw [List.map_append, ← h.duped, ← h'.duped]
    exact List.flatMap_append ..
  closed := by
    have happ : closedIn (l ++ l') = closedIn l ++ closedIn l' := List.flatMap_append ..
    rw [happ, h.closed, h'.closed]
    rfl

theorem loads (h : ∀ e ∈ l, e.IsLoad) : Shows l [] := by
  induction l with
  | nil => exact ⟨rfl, rfl, rfl⟩
  | cons e l ih =>
      have hl := ih fun e' he => h e' (List.mem_cons_of_mem e he)
      have he : Shows [e] [] := by
        have hload := h e List.mem_cons_self
        cases e with
        | load off len => exact ⟨rfl, rfl, rfl⟩
        | _ => exact hload.elim
      exact he.append hl

theorem dup {fd new : ℕ} (h : new < 2 ^ 31) : Shows [.dup fd new] [(fd, new)] where
  dups := rfl
  duped := by
    have hmod : new % 2 ^ 32 = new := Nat.mod_eq_of_lt (by omega)
    show validFd (new % 2 ^ 32) ++ [] = [new]
    rw [hmod, validFd, if_pos h]
    rfl
  closed := rfl

end Shows

/-! ### The loop -/

section Loop

variable (o : Oracle)

/-- What the loop leaves. -/
structure DupsLeft (p : Parcel) (w : World) (old : List CInt)
    (r : Status × List CInt × Parcel × World) (ds : List (ℕ × ℕ)) : Prop where
  log : ∃ l, r.2.2.1.log = p.log ++ l ∧ Shows l ds
  ends : (ds.length = old.length ∧ r.1 = .noError ∧ r.2.1 = ds.map (fun d => .wrap d.2) ∧
      r.2.2.1 = { (readFds old.length p).2 with log := r.2.2.1.log }) ∨
    (ds.length < old.length ∧ r.1 = .badValue ∧
      r.2.1 = ds.map (fun d => .wrap d.2) ++ .wrap (-1) :: old.drop (ds.length + 1) ∧
      r.2.2.1 = { (readFds (ds.length + 1) p).2 with log := r.2.2.1.log })

theorem dupsLeft (p : Parcel) (w : World) (old : List CInt) :
    DupsLeft p w old (dupEach o p w old) (duplicates o w.dups old.length p) := by
  induction old generalizing p w with
  | nil => exact ⟨⟨[], (List.append_nil _).symm, rfl, rfl, rfl⟩, .inl ⟨rfl, rfl, rfl, rfl⟩⟩
  | cons x old ih =>
      obtain ⟨l₁, hl₁, hload⟩ := (readOnly_readFileDescriptor p).loads
      cases hd : dupOf o w.dups (readFileDescriptor p).1 with
      | none =>
          have hloop : dupEach o p w (x :: old) =
              (.badValue, .wrap (-1) :: old, (readFileDescriptor p).2,
                { w with dups := w.dups + 1 }) := by
            simp only [dupEach, hd]
          have hnil : duplicates o w.dups (x :: old).length p = [] := by
            simp only [List.length_cons, duplicates, hd]
          rw [hloop, hnil]
          refine ⟨⟨l₁, hl₁, .loads hload⟩, .inr ⟨Nat.succ_pos _, rfl, rfl, rfl⟩⟩
      | some d =>
          obtain ⟨fd, new⟩ := d
          obtain ⟨-, -, hnew⟩ := dupOf_eq_some hd
          generalize hq : (readFileDescriptor p).2 = q at hl₁ hd
          have hrest := ih (q.record [.dup fd new]) { w with dups := w.dups + 1 }
          have hloop : dupEach o p w (x :: old) =
              ((dupEach o (q.record [.dup fd new]) { w with dups := w.dups + 1 } old).1,
                .wrap new ::
                (dupEach o (q.record [.dup fd new]) { w with dups := w.dups + 1 } old).2.1,
                (dupEach o (q.record [.dup fd new]) { w with dups := w.dups + 1 } old).2.2) := by
            simp only [dupEach, hd, hq]
          have hdups : duplicates o w.dups (x :: old).length p =
              (fd, new) :: duplicates o (w.dups + 1) old.length (q.record [.dup fd new]) := by
            simp only [List.length_cons, duplicates, hd, hq, duplicates_record]
          rw [hloop, hdups]
          generalize
            dupEach o (q.record [.dup fd new]) { w with dups := w.dups + 1 } old = t at hrest
          generalize duplicates o { w with dups := w.dups + 1 }.dups old.length
            (q.record [.dup fd new]) = ds at hrest
          obtain ⟨⟨l, hl, hshows⟩, hends⟩ := hrest
          refine ⟨⟨l₁ ++ [.dup fd new] ++ l, ?_, ?_⟩, ?_⟩
          · change t.2.2.1.log = _
            rw [hl]
            change q.log ++ [.dup fd new] ++ l = _
            rw [hl₁]
            simp only [List.append_assoc]
          · exact ((Shows.loads hload).append (.dup hnew)).append hshows
          rcases hends with ⟨hlen, hst, hfds, hp⟩ | ⟨hlen, hst, hfds, hp⟩
          · refine .inl ⟨congrArg (· + 1) hlen, hst, congrArg (_ :: ·) hfds, ?_⟩
            obtain ⟨l', hl'⟩ := readFds_record old.length q [.dup fd new]
            rw [hl'] at hp
            rw [List.length_cons, readFds, hq]
            exact hp
          · refine .inr ⟨Nat.succ_lt_succ hlen, hst, congrArg (_ :: ·) hfds, ?_⟩
            obtain ⟨l', hl'⟩ := readFds_record (ds.length + 1) q [.dup fd new]
            rw [hl'] at hp
            rw [List.length_cons, readFds, hq]
            exact hp

end Loop

end Parcel

end BinderForLinux
