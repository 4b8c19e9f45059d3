import BinderForLinux.Parcel.Bounds

/-!
# The table of the objects

`realloc` to no bytes frees a block and returns a null pointer, so a parcel that drops its last
object keeps the address of a table that is gone; and the table of received data is the
driver's. Where no operation comes to such a table (`Op.SparesTable`), all that is given to
`realloc` and `free` is a table of the parcel's own, or a null pointer.
-/

namespace BinderForLinux

namespace Parcel

open Library

/-- A null pointer, or a block of the parcel's own. -/
def Table.usable : Table → Bool
  | .null | .own => true
  | .freed | .driver => false

/-! ### Which operations come to the table -/

/-- `writeObject` lists the object, once there is room for it. -/
def Lists (p : Parcel) (val : FlatObject) (nullMetaData : Bool) : Prop :=
  (nullMetaData = true ∨ val.binder ≠ 0) ∧ (val.type = binderTypeFd → p.mAllowFds = true)

/-- `writeObject` comes to a table that it may use, if it comes to one: the table has to grow or
gets an entry, and it is not a new one, since the parcel takes no possession of its data. -/
def WriteSparesTable (o : Oracle) (p : Parcel) (w : World) (val : FlatObject)
    (nullMetaData : Bool) : Prop :=
  GetsRoom o p w objectSize → p.mObjectsCapacity ≤ p.objects.length ∨ Lists p val nullMetaData →
    (p.mOwner = true ∧ fits p objectSize = false) ∨ p.mObjects.usable = true

/-- `appendFrom` of some objects comes to a table that it may use. -/
def AppendSparesTable (o : Oracle) (p : Parcel) (w : World) (parcel : Parcel)
    (offset len : ℕ) : Prop :=
  InSource parcel offset len → rangeObjects parcel.objects offset len ≠ [] →
    p.mDataSize + len ≤ p.mDataCapacity ∨ (growData o p w len).1 = .noError →
      (p.mOwner = true ∧ p.mDataCapacity < p.mDataSize + len) ∨ p.mObjects.usable = true

/-- `setData` frees a table that it may free: it is refused, or the data are the driver's. -/
def RestartSparesTable (o : Oracle) (p : Parcel) (w : World) (size : ℕ) : Prop :=
  p.mOwner = true ∨ int32Max < size ∨ p.mDataCapacity < size ∧ o.allocates w.allocs = false ∨
    p.mObjects.usable = true

/-- The operation comes to no table that is gone, and to none of the driver's. -/
def Op.SparesTable (o : Oracle) (s : State) : Op → Prop
  | .writeObject val nullMetaData => WriteSparesTable o s.1 s.2 val nullMetaData
  | .writeDupFileDescriptor fd =>
      o.dup s.2.dups ≥ 2 ^ 31 ∨
        WriteSparesTable o (s.1.record [.dup fd (o.dup s.2.dups)]) s.2.duped
          (ownedFd (o.dup s.2.dups)) true
  | .appendFrom parcel offset len => AppendSparesTable o s.1 s.2 parcel offset len
  | .setData buffer => RestartSparesTable o s.1 s.2 buffer.length
  | .ipcSetDataReference _ _ _ | .freeData => s.1.mOwner = true ∨ s.1.mObjects.usable = true
  | _ => True

/-! ### The invariant -/

/-- Nothing but tables of its own was given to `realloc` and `free`, and what a parcel lists in
its own data is in such a table. -/
structure TableSound (p : Parcel) : Prop where
  given : ∀ t ∈ p.given, t.usable = true
  listed : p.mOwner = false → p.objects ≠ [] → p.mObjects.usable = true

theorem releaseObjects_table (o : Oracle) (p : Parcel) :
    (releaseObjects o p).mObjects = p.mObjects := by
  rw [releaseObjects_eq]
  rfl

/-- Taking possession never keeps the table of the driver. -/
theorem possessed_usable (o : Oracle) (p : Parcel) (b desired : ℕ) :
    (possessed o p b desired).mObjects.usable = true := by
  change (if keptObjects p desired = [] then _ else _ : Table).usable = true
  split
  · rfl
  · rfl

theorem Room.allowFds {o : Oracle} {p q : Parcel} {w w' : World} {len : ℕ}
    (hroom : Room o p w len q w') : q.mAllowFds = p.mAllowFds := by
  cases hroom with
  | fits hfits => rfl
  | grown hfits hg =>
      cases growData_cases hg with
      | failed _ err n l hst hl => exact absurd rfl hst
      | _ => rfl

namespace TableSound

variable {o : Oracle} {p p' q : Parcel} {w w' : World} {len desired : ℕ} {st : Status}

theorem init : TableSound new := ⟨by simp [new], fun _ hne => absurd rfl hne⟩

/-- Only what the invariant speaks of matters. -/
theorem congr (h : TableSound p) (hgiven : p'.given = p.given) (hobjs : p'.objects = p.objects)
    (htable : p'.mObjects = p.mObjects) (hown : p'.mOwner = p.mOwner) : TableSound p' := by
  refine ⟨?_, ?_⟩
  · rw [hgiven]
    exact h.given
  · rw [hobjs, htable, hown]
    exact h.listed

theorem of_usable (hgiven : ∀ t ∈ p.given, t.usable = true) (htable : p.mObjects.usable = true) :
    TableSound p := ⟨hgiven, fun _ _ => htable⟩

theorem of_empty (hgiven : ∀ t ∈ p.given, t.usable = true) (hnil : p.objects = []) :
    TableSound p := ⟨hgiven, fun _ hne => absurd hnil hne⟩

theorem account (h : TableSound p) (m : ℕ) (l : List Effect) : TableSound (account p m l) :=
  h.congr rfl rfl rfl rfl

theorem storeAll (h : TableSound p) (fills : List (ℕ × List UInt8)) :
    TableSound (storeAll p fills) := by
  induction fills generalizing p with
  | nil => exact h
  | cons f fills ih => exact ih (p := p.store f.1 f.2) (h.congr rfl rfl rfl rfl)

theorem given_append (h : TableSound p) (htable : p.mObjects.usable = true) :
    ∀ t ∈ p.given ++ [p.mObjects], t.usable = true := by
  intro t ht
  rcases List.mem_append.mp ht with ht | ht
  · exact h.given t ht
  · rw [List.mem_singleton.mp ht]
    exact htable

theorem give (h : TableSound p) (htable : p.mObjects.usable = true) : TableSound p.give :=
  .of_usable (h.given_append htable) htable

theorem tableGrown (h : TableSound p) (htable : p.mObjects.usable = true) (n : ℕ) :
    TableSound (tableGrown p n) :=
  .of_usable (h.given_append htable) rfl

theorem given_freeTable (h : TableSound p) (htable : p.mObjects.usable = true) :
    ∀ t ∈ p.freeTable.given, t.usable = true := by
  intro t ht
  rcases List.mem_append.mp ht with ht | ht
  · exact h.given t ht
  · split at ht
    · cases ht
    · rw [List.mem_singleton.mp ht]
      exact htable

theorem releaseObjects (h : TableSound p) : TableSound (releaseObjects o p) := by
  rw [releaseObjects_eq]
  exact h.account _ _

theorem freeBuffer (h : TableSound p) : TableSound (freeBuffer p) := by
  rw [freeBuffer_eq]
  exact h.account _ _

/-! ### Growing -/

/-- The objects that are dropped were in a table of the parcel's own. -/
theorem dropObjects (h : TableSound p) (hown : p.mOwner = false) {shrinks : Bool} :
    TableSound (dropObjects o p desired shrinks) := by
  unfold Parcel.dropObjects
  dsimp only
  split
  · rename_i hlt
    have hne : p.objects ≠ [] := List.ne_nil_of_length_pos (by omega)
    have htable := h.listed hown hne
    rw [releaseEach_eq]
    refine ⟨h.given_append htable, fun _ hkept => ?_⟩
    change (if keptObjects p desired = [] then _ else _ : Table).usable = true
    rw [if_neg hkept]
    split
    · rfl
    · exact htable
  · exact h

theorem continued (h : TableSound p) (hc : Continued o p w desired st p' w') :
    TableSound p' := by
  cases hc with
  | tooLarge hbig => exact h
  | released hown hzero => exact .of_empty h.freeBuffer.given rfl
  | refused n l hl => exact h.congr rfl rfl rfl rfl
  | possessed n hown hpos hmax => exact .of_usable h.given (possessed_usable o p _ desired)
  | reallocated n b sh hown hb hmax hlt => exact (h.dropObjects hown).congr rfl rfl rfl rfl
  | exhausted n b sh hown hb hlt => exact (h.dropObjects hown).congr rfl rfl rfl rfl
  | truncated n b sh hown hb hle hmax => exact (h.dropObjects hown).congr rfl rfl rfl rfl
  | started hown hb hmax => exact h.congr rfl rfl rfl rfl

/-- Data that grow have the table of before, or a new one. -/
theorem grown (h : TableSound p) (hg : Grown o p w len st p' w') :
    TableSound p' ∧ (st = .noError → p.mOwner = true ∨ p.mObjects.usable = true →
      p'.mObjects.usable = true) := by
  cases hg with
  | failed _ err n l hst hl => exact ⟨h.congr rfl rfl rfl rfl, fun hok => absurd hok hst⟩
  | possessed n hown hgrow =>
      have htable := possessed_usable o p w.allocs (growTo p len)
      exact ⟨.of_usable h.given htable, fun _ _ => htable⟩
  | reallocated n b hown hb hgrow hlt =>
      exact ⟨h.congr rfl rfl rfl rfl, fun _ htable => htable.resolve_left (by simp [hown])⟩
  | kept n b hown hb hgrow hle =>
      exact ⟨h.congr rfl rfl rfl rfl, fun _ htable => htable.resolve_left (by simp [hown])⟩
  | started hown hb hgrow =>
      exact ⟨h.congr rfl rfl rfl rfl, fun _ htable => htable.resolve_left (by simp [hown])⟩

theorem room (h : TableSound p) (hroom : Room o p w len q w') :
    TableSound q ∧ (p.mOwner = true ∧ fits p len = false ∨ p.mObjects.usable = true →
      q.mObjects.usable = true) := by
  cases hroom with
  | fits hfits =>
      refine ⟨h, fun htable => htable.resolve_left ?_⟩
      simp [hfits]
  | grown hfits hg =>
      obtain ⟨hq, husable⟩ := h.grown (growData_cases hg)
      exact ⟨hq, fun htable => husable rfl (htable.imp_left And.left)⟩

theorem appendRoom (h : TableSound p) (hroom : AppendRoom o p w len q w') :
    TableSound q ∧ (p.mOwner = true ∧ p.mDataCapacity < p.mDataSize + len ∨
      p.mObjects.usable = true → q.mObjects.usable = true) := by
  cases hroom with
  | enough hle =>
      refine ⟨h, fun htable => htable.resolve_left ?_⟩
      omega
  | grown hlt hg =>
      obtain ⟨hq, husable⟩ := h.grown (growData_cases hg)
      exact ⟨hq, fun htable => husable rfl (htable.imp_left And.left)⟩

/-! ### Writing and appending -/

theorem written (h : TableSound p) (hw : Written o p w len p' w') : TableSound p' := by
  cases hw with
  | unchanged => exact h
  | failed hst hfits hg => exact (h.grown hg).1
  | put fills hroom hin => exact ((h.room hroom).1.storeAll fills).congr rfl rfl rfl rfl

theorem flagFds (h : TableSound p) (val : FlatObject) : TableSound (flagFds val p) := by
  unfold Parcel.flagFds
  split
  · exact h.congr rfl rfl rfl rfl
  · exact h

theorem flagFds_table (val : FlatObject) (p : Parcel) :
    (Parcel.flagFds val p).mObjects = p.mObjects := by
  unfold Parcel.flagFds
  split
  · rfl
  · rfl

theorem putObject (h : TableSound q) {val : FlatObject} {nullMetaData : Bool}
    (htable : Lists q val nullMetaData → q.mObjects.usable = true)
    (hput : putObject o q val nullMetaData = (st, p')) : TableSound p' := by
  have hstored : TableSound (objectStored val q) := h.congr rfl rfl rfl rfl
  have hflags := hstored.flagFds val
  obtain ⟨-, -, -, rfl⟩ | ⟨-, -, -, rfl⟩ | ⟨-, hlisted, hfds, rfl⟩ := putObject_cases hput
  · exact hstored
  · exact hflags.congr rfl rfl rfl rfl
  · refine .of_usable hflags.given ?_
    change (Parcel.flagFds val (objectStored val q)).mObjects.usable = true
    rw [flagFds_table]
    exact htable ⟨hlisted, hfds⟩

theorem objectWritten (h : TableSound p) {val : FlatObject} {nullMetaData : Bool}
    (hspares : WriteSparesTable o p w val nullMetaData)
    (hw : ObjectWritten o p w val nullMetaData st p' w') : TableSound p' := by
  cases hw with
  | failed hst hfits hg => exact (h.grown hg).1
  | tableFull hroom hfull =>
      obtain ⟨hq, husable⟩ := h.room hroom
      exact hq.give (husable (hspares hroom.gets (.inl hfull)))
  | put hroom henough =>
      obtain ⟨hq, husable⟩ := h.room hroom
      refine hq.putObject (fun hlists => husable (hspares hroom.gets (.inr ?_))) rfl
      rw [Lists, ← hroom.allowFds]
      exact hlists
  | putGrown hroom hfull =>
      obtain ⟨hq, husable⟩ := h.room hroom
      have htable := husable (hspares hroom.gets (.inl hfull))
      exact (hq.tableGrown htable _).putObject (fun _ => rfl) rfl

theorem appendObject_table (p : Parcel) (w : World) (st : Status) (off : ℕ) :
    (appendObject o (st, p, w) off).2.1.given = p.given ∧
      (appendObject o (st, p, w) off).2.1.mObjects = p.mObjects := by
  obtain ⟨-, hr⟩ | ⟨-, st', hr⟩ := appendObject_cases (rfl : appendObject o (st, p, w) off = _)
  · rw [hr]
    exact ⟨rfl, rfl⟩
  · rw [hr]
    exact ⟨rfl, rfl⟩

theorem appendObjects (h : TableSound p) (htable : p.mObjects.usable = true) (offs : List ℕ) :
    TableSound (appendObjects o p w offs).2.1 := by
  unfold Parcel.appendObjects
  suffices hfold : ∀ r : Status × Parcel × World, TableSound r.2.1 →
      r.2.1.mObjects.usable = true → TableSound (offs.foldl (appendObject o) r).2.1 from
    hfold (.noError, p, w) h htable
  induction offs with
  | nil => exact fun r hr _ => hr
  | cons off offs ih =>
      intro r hr htable
      obtain ⟨hgiven, hsame⟩ := appendObject_table (o := o) r.2.1 r.2.2 r.1 off
      have hnext : (appendObject o r off).2.1.mObjects.usable = true := by
        rw [hsame]
        exact htable
      refine ih _ (.of_usable ?_ hnext) hnext
      rw [hgiven]
      exact hr.given

theorem appended (h : TableSound p) {parcel : Parcel} {offset : ℕ}
    (hspares : AppendSparesTable o p w parcel offset len)
    (ha : Appended o p w parcel offset len p' w') : TableSound p' := by
  have hcomes {q : Parcel} {w₁ : World} (hsrc : InSource parcel offset len)
      (hroom : AppendRoom o p w len q w₁) (hsome : rangeObjects parcel.objects offset len ≠ []) :
      TableSound (appendData q parcel offset len) ∧ q.mObjects.usable = true := by
    obtain ⟨hq, husable⟩ := h.appendRoom hroom
    exact ⟨hq.congr rfl rfl rfl rfl, husable (hspares hsrc hsome hroom.gets)⟩
  cases ha with
  | unchanged => exact h
  | failed hst hcap hg => exact (h.grown hg).1
  | plain hsrc hroom hnone => exact (h.appendRoom hroom).1.congr rfl rfl rfl rfl
  | tableFull hsrc hroom hsome hfull =>
      obtain ⟨hq, htable⟩ := hcomes hsrc hroom hsome
      exact hq.give htable
  | listed hsrc hroom henough =>
      by_cases hsome : rangeObjects parcel.objects offset len = []
      · rw [shiftedObjects, hsome]
        exact (h.appendRoom hroom).1.congr rfl rfl rfl rfl
      · obtain ⟨hq, htable⟩ := hcomes hsrc hroom hsome
        exact hq.appendObjects htable _
  | listedGrown hsrc hroom hsome hfull =>
      obtain ⟨hq, htable⟩ := hcomes hsrc hroom hsome
      exact (hq.tableGrown htable _).appendObjects rfl _

/-! ### Setting the data -/

theorem freed (h : TableSound p) (hspares : p.mOwner = true ∨ p.mObjects.usable = true)
    (hf : freeDataNoInit o p w = (q, w')) : ∀ t ∈ q.given, t.usable = true := by
  obtain ⟨-, rfl, -⟩ | ⟨hown, -, rfl, -⟩ | ⟨b, hown, -, rfl, -⟩ := freeDataNoInit_cases hf
  · exact h.freeBuffer.given
  · have htable := hspares.resolve_left (by simp [hown])
    refine h.releaseObjects.given_freeTable ?_
    rw [releaseObjects_table]
    exact htable
  · have htable := hspares.resolve_left (by simp [hown])
    refine (h.releaseObjects.account _ [.free b]).given_freeTable ?_
    rw [releaseObjects_eq]
    exact htable

theorem emptied (h : TableSound p) (htable : p.mObjects.usable = true) :
    TableSound (emptied p) := .of_empty (h.given_freeTable htable) rfl

theorem restarted (h : TableSound p) {size : ℕ} (hspares : RestartSparesTable o p w size)
    (hr : Restarted o p w size st p' w') : TableSound p' := by
  have htable (hown : p.mOwner = false) (hmax : size ≤ int32Max)
      (hdone : size ≤ p.mDataCapacity ∨ o.allocates w.allocs = true) :
      p.mObjects.usable = true := by
    rcases hspares with htrue | hbig | ⟨hlt, hfalse⟩ | htable
    · simp [hown] at htrue
    · omega
    · rcases hdone with hle | hdone
      · omega
      · simp [hfalse] at hdone
    · exact htable
  cases hr with
  | tooLarge hbig => exact h
  | received hown hc =>
      have hstart : TableSound (initState (Parcel.freeBuffer p)) := .of_empty h.freeBuffer.given rfl
      exact hstart.continued hc
  | refused hown hlt => exact h.congr rfl rfl rfl rfl
  | replaced bs l hown hmax ha hl =>
      have husable := htable hown hmax (.inr ha)
      have hbytes : TableSound { p with bytes := bs } := h.congr rfl rfl rfl rfl
      have hrel := (hbytes.account p.mOpenAshmemSize l).releaseObjects (o := o)
      refine .of_empty (hrel.given_freeTable ?_) rfl
      rw [releaseObjects_table]
      exact husable
  | freed b hown hb hzero =>
      have husable := htable hown (by simp [hzero]) (.inl (by omega))
      have hbytes : TableSound { p with bytes := o.stale w.allocs } := h.congr rfl rfl rfl rfl
      refine ((hbytes.account p.mOpenAshmemSize [.free b]).releaseObjects (o := o)).emptied ?_
      rw [releaseObjects_table]
      exact husable
  | kept hown hb hle hmax =>
      have husable := htable hown hmax (.inl hle)
      refine (h.releaseObjects (o := o)).emptied ?_
      rw [releaseObjects_table]
      exact husable

/-! ### Operations -/

theorem outcome {op : Op} (h : TableSound p) (hspares : op.SparesTable o (p, w))
    (hout : Outcome o p w op p' w') : TableSound p' := by
  have hdup (fd : ℕ) : TableSound (p.record [.dup fd (o.dup w.dups)]) := h.account _ _
  cases hout with
  | plain hlen hw => exact h.written hw
  | object hw => exact h.objectWritten hspares hw
  | notDup hbad => exact h
  | dup hgood hw =>
      exact (hdup _).objectWritten (hspares.resolve_left (not_le.mpr hgood)) hw
  | dupFailed hgood hst hw =>
      have hsound := (hdup _).objectWritten (hspares.resolve_left (not_le.mpr hgood)) hw
      exact hsound.account _ _
  | append ha => exact h.appended hspares ha
  | sameSize => exact h
  | sizeFailed hst hc => exact h.continued hc
  | sized hc => exact (h.continued hc).congr rfl rfl rfl rfl
  | sameCapacity => exact h
  | capacity hlt hc => exact h.continued hc
  | position hle => exact h.congr rfl rfl rfl rfl
  | sameData => exact h
  | dataFailed hst hr => exact h.restarted hspares hr
  | data hr => exact (h.restarted hspares hr).congr rfl rfl rfl rfl
  | received hf =>
      have hgiven := h.freed hspares hf
      exact ⟨hgiven, nofun⟩
  | freed hf =>
      have hgiven := h.freed hspares hf
      exact .of_empty hgiven rfl
  | allowFds => exact h.congr rfl rfl rfl rfl
  | setError => exact h.congr rfl rfl rfl rfl
  | reads _ hr =>
      rw [hr.same]
      exact h.congr rfl rfl rfl rfl

end TableSound

/-- A parcel that dropped its only object frees its table a second time when it is destroyed. -/
theorem table_freed_twice : ∃ s,
    runActions (step plainOracle) (new, World.init)
      [.writeObject (flattenBinder (.remoteBinder 5)) false, .setDataSize 0, .freeData] = .ok s ∧
    s.1.given = [.null, .own, .freed] := ⟨_, rfl, by decide +kernel⟩

end Parcel

end BinderForLinux
