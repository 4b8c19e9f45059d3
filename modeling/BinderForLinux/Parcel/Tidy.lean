import BinderForLinux.Parcel.Orderly

/-!
# Operations that keep the objects in order

The table lists objects by their offsets, and release reads whatever is there. So the order is
kept by the users of a parcel: nothing is written over an object, objects are written behind one
another, and data are not cut inside an object. `Op.Tidy` says so for each operation; such an
operation is a few entries of the inventory.
-/

namespace BinderForLinux

namespace Parcel

open Library

section

variable {o : Oracle} {p p' q : Parcel} {w w' : World} {len : ℕ} {st : Status}
  {es es' : List Entry} {l : List Effect}

/-! ### Duplicates -/

namespace Inventory

/-- A duplicate that is neither listed nor closed yet. -/
def dup (l : Inventory) (fd : ℕ) : Inventory := { l with duped := l.duped ++ validFd (fd % 2 ^ 32) }

variable {l l' : Inventory} {fd : ℕ}

/-- The data may have to grow after the duplicate was made. -/
def GrowsOnly (es : List Entry) : Prop := es = [] ∨ ∃ kept, es = [.possesses kept]

theorem copies_of_dup (hes : GrowsOnly es)
    (h : Trace (Step o) (l.dup fd) (es ++ [.lists (ownedFd fd)]) l') :
    Trace (Step o) l (es ++ [.copies fd]) l' := by
  rcases hes with rfl | ⟨kept, rfl⟩
  · cases h with
    | cons hs ht =>
        cases ht
        cases hs with
        | lists f hown => exact .single (.copies fd hown)
  · cases h with
    | cons hs ht =>
        cases hs with
        | possesses _ hown hkept =>
            cases ht with
            | cons hs ht =>
                cases ht
                cases hs with
                | lists f hown' =>
                    exact .cons (.possesses kept hown hkept) (.single (.copies fd rfl))

theorem passes_of_dup (hes : GrowsOnly es) (h : Trace (Step o) (l.dup fd) es l') :
    Trace (Step o) l (es ++ [.passes fd])
      { l' with closed := l'.closed ++ validFd (fd % 2 ^ 32) } := by
  rcases hes with rfl | ⟨kept, rfl⟩
  · cases h
    exact .single (.passes fd)
  · cases h with
    | cons hs ht =>
        cases ht
        cases hs with
        | possesses _ hown hkept =>
            exact .cons (.possesses kept hown hkept) (.single (.passes fd))

end Inventory

theorem RoomEntries.growsOnly (h : RoomEntries o p w len es) : Inventory.GrowsOnly es :=
  h.imp_right fun hes => ⟨_, hes.2.2.2⟩

theorem inventory_dup (p : Parcel) (fd fd' : ℕ) :
    inventory (p.record [.dup fd fd']) = (inventory p).dup fd' := by
  simp [inventory, Inventory.dup, Parcel.record, held, Effect.acquired, Effect.released,
    Effect.duped, Effect.closed]

theorem Orderly.record (h : Orderly p) {e : Effect} (he : e.InTable) : Orderly (p.record [e]) :=
  ⟨h.spaced, h.inside, h.log_append (by simpa using he)⟩

theorem ranged_ownedFd {fd : ℕ} (h : fd < 2 ^ 31) : (ownedFd fd).Ranged where
  type := show binderTypeFd < 2 ^ 32 by decide
  flags := show 0x17f < 2 ^ 32 by decide
  binder := lt_trans h (by decide)
  cookie := show 1 < 2 ^ 64 by decide

theorem Orderly.duped (h : Orderly p) (hb : Bounded p) {fd fd' : ℕ} (hfd : fd' < 2 ^ 31)
    (hclear : GetsRoom o (p.record [.dup fd fd']) w objectSize →
      Clear p objectSize ∧ AtEnd p ∧ HasEntry p)
    (hw : ObjectWritten o (p.record [.dup fd fd']) w (ownedFd fd') true st p' w') :
    ∃ es, RoomEntries o (p.record [.dup fd fd']) w objectSize es ∧
      (st = .noError → Refined o p p' (es ++ [.copies fd'])) ∧
      (st ≠ .noError → Refined o p (p'.record [.close fd']) (es ++ [.passes fd'])) := by
  have h₀ : Orderly (p.record [.dup fd fd']) := h.record trivial
  have hb₀ : Bounded (p.record [.dup fd fd']) := hb.account (by simp [Effect.InBounds])
  obtain ⟨es, hrefined, es₀, hes₀, hes⟩ := h₀.objectWritten hb₀ (ranged_ownedFd hfd)
    (fun hgets => ⟨⟨(hclear hgets).1.own, (hclear hgets).1.spares⟩, fun _ => (hclear hgets).2⟩) hw
  have htrace := hrefined.trace
  rw [inventory_dup] at htrace
  refine ⟨es₀, hes₀, fun hok => ⟨hrefined.orderly, ?_⟩, fun hne =>
    ⟨hrefined.orderly.record trivial, ?_⟩⟩
  · obtain ⟨-, hfalse⟩ | ⟨rfl, -⟩ := hes
    · exact absurd ⟨hok, .inl rfl⟩ hfalse
    · exact Inventory.copies_of_dup hes₀.growsOnly htrace
  · obtain ⟨rfl, -⟩ | ⟨-, htrue, -⟩ := hes
    · have hinventory : inventory (p'.record [.close fd']) = { inventory p' with
          closed := (inventory p').closed ++ validFd (fd' % 2 ^ 32) } := by
        rw [Nat.mod_eq_of_lt (lt_trans hfd (by decide))]
        simp [inventory, Parcel.record, held, Effect.acquired, Effect.released, Effect.duped,
          Effect.closed]
      rw [hinventory]
      exact Inventory.passes_of_dup hes₀.growsOnly htrace
    · exact absurd htrue hne

/-! ### Appending -/

theorem objectAt_adopt (m : Data) (off fd : ℕ) :
    objectAt (putBytes (putBytes m (off + 8) (bytesLE 4 fd)) (off + 16) (bytesLE 8 1)) off =
      (objectAt m off).adopt fd := by
  have hlow : getLE (putBytes (putBytes m (off + 8) (bytesLE 4 fd)) (off + 16) (bytesLE 8 1))
      (off + 8) 4 = fd % 2 ^ 32 := by
    rw [getLE_congr fun i _ hi => putBytes_outside (.inl (by omega)),
      (carries_putBytes m (off + 8) (bytesLE 4 fd)).getLE_mod]
    norm_num
  have hcookie : getLE (putBytes (putBytes m (off + 8) (bytesLE 4 fd)) (off + 16) (bytesLE 8 1))
      (off + 16) 8 = 1 := (carries_putBytes _ _ _).getLE (by norm_num)
  have hrest {x n : ℕ} (hx : x + n ≤ off + 8 ∨ off + 12 ≤ x ∧ x + n ≤ off + 16) :
      getLE (putBytes (putBytes m (off + 8) (bytesLE 4 fd)) (off + 16) (bytesLE 8 1)) x n =
        getLE m x n := by
    refine getLE_congr fun i h₁ h₂ => ?_
    rw [putBytes_outside (by rw [length_bytesLE]; omega),
      putBytes_outside (by rw [length_bytesLE]; omega)]
  have hbinder (m : Data) : getLE m (off + 8) 8 =
      getLE m (off + 8) 4 + 2 ^ 32 * getLE m (off + 12) 4 := getLE_add m (off + 8) 4 4
  unfold objectAt FlatObject.adopt
  simp only [hbinder, hlow, hcookie, hrest (x := off) (n := 4) (.inl (by omega)),
    hrest (x := off + 4) (n := 4) (.inl (by omega)),
    hrest (x := off + 12) (n := 4) (.inr (by omega)), FlatObject.mk.injEq, true_and, and_true]
  have hlt : getLE m (off + 8) 4 < 2 ^ 32 := getLE_lt m (off + 8) 4
  omega

/-- The entries of `appendFrom`, after so many duplicates were made. -/
def adoptions (o : Oracle) : ℕ → List FlatObject → List Entry
  | _, [] => []
  | n, f :: fs =>
      if f.type = binderTypeFd then .adopts f (o.dup n) :: adoptions o (n + 1) fs
      else .lists f :: adoptions o n fs

theorem Orderly.adopted (h : Orderly p) {off fd : ℕ} (hown : p.mOwner = false)
    (hfd : (objectAt p.bytes off).type = binderTypeFd)
    (hend : ∀ x ∈ p.objects, x + objectSize ≤ off) (hin : off + objectSize ≤ p.mDataSize)
    (hroom : p.objects.length < p.room) :
    Refined o p (adopted o fd off p) [.adopts (objectAt p.bytes off) fd] := by
  have hbytes (x i : ℕ) (hx : x + objectSize ≤ off) (hi : i < x + objectSize) :
      (Parcel.adopted o fd off p).bytes i = p.bytes i := by
    change putBytes (putBytes p.bytes _ _) _ _ i = p.bytes i
    rw [putBytes_outside (.inl (by omega)), putBytes_outside (.inl (by omega))]
  have hlog : (Parcel.adopted o fd off p).log = p.log ++
      [.tableStore p.objects.length p.room, .acquire (objectAt p.bytes off),
        .dup (objectAt p.bytes off).handle fd, .store (off + 8) 4 p.mDataCapacity,
        .store (off + 16) 8 p.mDataCapacity] := by
    simp [Parcel.adopted, Parcel.listed, Parcel.record, Parcel.store]
  have hheld : held (Parcel.adopted o fd off p) = held p ++ [(objectAt p.bytes off).adopt fd] := by
    have hobjs : (Parcel.adopted o fd off p).objects = p.objects ++ [off] := rfl
    rw [held, hobjs, List.map_append, List.map_singleton]
    congr 1
    · exact List.map_congr_left fun x hx => objectAt_congr fun i _ hi => hbytes x i (hend x hx) hi
    · exact congrArg (fun f => [f]) (objectAt_adopt p.bytes off fd)
  refine .of_step ⟨?_, ?_, ?_⟩ ?_
  · refine List.pairwise_append.mpr ⟨h.spaced, List.pairwise_singleton _ _, fun x hx y hy => ?_⟩
    obtain rfl := List.mem_singleton.mp hy
    exact hend x hx
  · intro x hx
    rcases List.mem_append.mp hx with hx | hx
    · exact h.inside x hx
    · obtain rfl := List.mem_singleton.mp hx
      exact hin
  · rw [hlog]
    refine h.log_append fun e he => ?_
    simp only [List.mem_cons, List.not_mem_nil, or_false] at he
    obtain rfl | rfl | rfl | rfl | rfl := he
    · exact hroom
    all_goals trivial
  · have hinventory : inventory (Parcel.adopted o fd off p) = { inventory p with
        objects := (inventory p).objects ++ [(objectAt p.bytes off).adopt fd]
        total := ((inventory p).total + ashmemOf o (objectAt p.bytes off)) % sizeT
        acquired := (inventory p).acquired ++ [objectAt p.bytes off]
        duped := (inventory p).duped ++ validFd (fd % 2 ^ 32) } := by
      refine Inventory.ext rfl hheld rfl ?_ ?_ ?_ ?_
      all_goals
        simp [inventory, hlog, Effect.acquired, Effect.released, Effect.duped, Effect.closed]
    rw [hinventory]
    exact .adopts _ fd hown hfd

theorem Orderly.appendObjects (h : Orderly p) (hown : p.mOwner = false) {offs : List ℕ}
    (hspaced : (p.objects ++ offs).Pairwise fun a b => a + objectSize ≤ b)
    (hin : ∀ off ∈ offs, off + objectSize ≤ p.mDataSize)
    (hroom : p.objects.length + offs.length ≤ p.room) :
    Refined o p (appendObjects o p w offs).2.1
      (adoptions o w.dups (offs.map (objectAt p.bytes))) := by
  unfold Parcel.appendObjects
  suffices hfold : ∀ st : Status, Refined o p (offs.foldl (appendObject o) (st, p, w)).2.1
      (adoptions o w.dups (offs.map (objectAt p.bytes))) from hfold .noError
  intro st
  induction offs generalizing p w st with
  | nil => exact .refl h
  | cons off offs ih =>
      have hend (x : ℕ) (hx : x ∈ p.objects) : x + objectSize ≤ off :=
        (List.pairwise_append.mp hspaced).2.2 x hx off List.mem_cons_self
      have hnext (x : ℕ) (hx : x ∈ offs) : off + objectSize ≤ x :=
        List.rel_of_pairwise_cons (List.pairwise_append.mp hspaced).2.1 hx
      have hspaced' : ((p.objects ++ [off]) ++ offs).Pairwise fun a b => a + objectSize ≤ b := by
        rw [List.append_assoc]
        exact hspaced
      have hin' (x : ℕ) (hx : x ∈ offs) := hin x (List.mem_cons_of_mem off hx)
      rw [List.length_cons] at hroom
      have hroom' : (p.objects ++ [off]).length + offs.length ≤ p.room := by
        rw [List.length_append, List.length_singleton]
        omega
      rw [List.foldl_cons, List.map_cons]
      obtain ⟨hfd, hr⟩ | ⟨hfd, st', hr⟩ :=
        appendObject_cases (rfl : appendObject o (st, p, w) off = _)
      · have hlisted : Refined o p (Parcel.listed o (objectAt p.bytes off) off p)
            [.lists (objectAt p.bytes off)] :=
          h.listed hown rfl hend (hin off List.mem_cons_self) le_rfl (by omega) rfl rfl rfl rfl rfl
        rw [hr, adoptions, if_neg hfd]
        exact hlisted.trans (ih hlisted.orderly hown hspaced' hin' hroom' st)
      · have hadopted : Refined o p (Parcel.adopted o (o.dup w.dups) off p)
            [.adopts (objectAt p.bytes off) (o.dup w.dups)] :=
          h.adopted hown hfd hend (hin off List.mem_cons_self) (by omega)
        have hsame : offs.map (objectAt (Parcel.adopted o (o.dup w.dups) off p).bytes) =
            offs.map (objectAt p.bytes) := by
          refine List.map_congr_left fun x hx => objectAt_congr fun i hi _ => ?_
          have hlt := hnext x hx
          unfold objectSize at hlt
          change putBytes (putBytes p.bytes _ _) _ _ i = p.bytes i
          rw [putBytes_outside (by rw [length_bytesLE]; omega),
            putBytes_outside (by rw [length_bytesLE]; omega)]
        have hrest := ih (w := { w with dups := w.dups + 1 }) hadopted.orderly hown hspaced' hin'
          hroom' st'
        rw [hsame] at hrest
        rw [hr, adoptions, if_pos hfd]
        exact hadopted.trans hrest

/-- The objects of the source come behind those of the parcel, do not overlap and get inside
the data, and the table has room for them where it is not made to grow. -/
structure TakesObjects (p parcel : Parcel) (offset len : ℕ) : Prop where
  atEnd : AtEnd p
  spaced : (rangeObjects parcel.objects offset len).Pairwise fun a b => a + objectSize ≤ b
  inside : ∀ off ∈ rangeObjects parcel.objects offset len,
    off - offset + p.mDataPos + objectSize ≤ p.mDataSize + len
  room : p.mOwner = false →
    p.objects.length + (rangeObjects parcel.objects offset len).length ≤ p.mObjectsCapacity →
    p.objects.length + (rangeObjects parcel.objects offset len).length ≤ p.room

/-- Data that are appended meet no listed object, and bring objects that can be listed. -/
def AppendTidy (o : Oracle) (p : Parcel) (w : World) (parcel : Parcel) (offset len : ℕ) : Prop :=
  InSource parcel offset len →
    p.mDataSize + len ≤ p.mDataCapacity ∨ (growData o p w len).1 = .noError →
    (∀ off ∈ p.objects, p.mDataPos + len ≤ off ∨ off + objectSize ≤ p.mDataPos) ∧
      (rangeObjects parcel.objects offset len = [] ∨ TakesObjects p parcel offset len)

/-- The entries of `appendFrom` that come before its objects. -/
def AppendRoomEntries (o : Oracle) (p : Parcel) (w : World) (len : ℕ) (es : List Entry) : Prop :=
  es = [] ∨ p.mOwner = true ∧ p.mDataCapacity < p.mDataSize + len ∧
    (growData o p w len).1 = .noError ∧ es = [.possesses (held p)]

/-- The world in which the objects are duplicated has the same count of duplicates. -/
theorem AppendRoom.dups (h : AppendRoom o p w len q w') : w'.dups = w.dups := by
  cases h with
  | enough hle => rfl
  | grown _ hg =>
      cases growData_cases hg with
      | failed _ err n l hst hl => rfl
      | possessed n hown hgrow => rfl
      | reallocated n b hown hb hgrow hlt => rfl
      | kept n b hown hb hgrow hle => rfl
      | started hown hb hgrow => rfl

theorem Orderly.appendRoom (h : Orderly p) (hb : Bounded p) (hlen : 0 < len)
    (hspares : ∀ off ∈ p.objects, p.mDataPos + len ≤ off ∨ off + objectSize ≤ p.mDataPos)
    (hroom : AppendRoom o p w len q w') :
    Roomed p q len ∧ ∃ es, Refined o p q es ∧ AppendRoomEntries o p w len es := by
  cases hroom with
  | enough hle =>
      have hown : p.mOwner = false := by
        by_contra hne
        have hrec := hb.received (by simpa using hne)
        omega
      exact ⟨.refl hown hspares, [], .refl h, .inl rfl⟩
  | grown hlt hg =>
      obtain ⟨es, hrefined, hes⟩ := h.grown hb (growData_cases hg)
      refine ⟨h.roomed hb hspares (.inr hlt) (growData_cases hg), es, hrefined, hes.imp_right ?_⟩
      rintro ⟨hown, -, hes⟩
      exact ⟨hown, hlt, by rw [hg], hes⟩

theorem silent_appendData (h : Orderly q) {parcel : Parcel} {offset : ℕ} (hr : Roomed p q len) :
    Silent q (appendData q parcel offset len) := by
  refine ⟨rfl, fun off hoff i h₁ h₂ => putBytes_outside ?_, fun off hoff => ?_, rfl, rfl, _, rfl,
    quiet_singleton (quiet_store _ _ _)⟩
  · rw [length_getBytes]
    have := hr.spares off hoff
    omega
  · have hin := h.inside off hoff
    change off + objectSize ≤ q.mDataSize + len
    omega

theorem objectAt_appended {q parcel : Parcel} {offset x : ℕ} (hx : offset ≤ x)
    (hin : x + objectSize ≤ offset + len) :
    objectAt (appendData q parcel offset len).bytes (x - offset + q.mDataPos) =
      objectAt parcel.bytes x := by
  refine objectAt_shift fun i hi => ?_
  have hoff : x - offset + q.mDataPos + i = q.mDataPos + (x - offset + i) := by omega
  have hsrc : x + i = offset + (x - offset + i) := by omega
  change putBytes q.bytes q.mDataPos (getBytes parcel.bytes offset len) _ = _
  rw [hoff, putBytes_inside (by rw [length_getBytes]; omega), hsrc]
  simp [getBytes]

theorem held_appended {q parcel : Parcel} {offset : ℕ} {offs : List ℕ}
    (hin : ∀ x ∈ offs, offset ≤ x ∧ x + objectSize ≤ offset + len) :
    (offs.map fun x => x - offset + q.mDataPos).map
      (objectAt (appendData q parcel offset len).bytes) = offs.map (objectAt parcel.bytes) := by
  rw [List.map_map]
  exact List.map_congr_left fun x hx => objectAt_appended (hin x hx).1 (hin x hx).2

def appendedObjects (parcel : Parcel) (offset len : ℕ) : List FlatObject :=
  (rangeObjects parcel.objects offset len).map (objectAt parcel.bytes)

theorem Orderly.appendListed {parcel : Parcel} {offset : ℕ} (h : Orderly p') (hr : Roomed p q len)
    (hpos : q.mDataPos = p.mDataPos) (hland : ObjectsLand p parcel offset len)
    (htakes : TakesObjects p parcel offset len) (hobjs : p'.objects = q.objects)
    (hbytes : p'.bytes = (appendData q parcel offset len).bytes)
    (hsize : p'.mDataSize = p.mDataSize + len) (hown : p'.mOwner = q.mOwner)
    (hroom : q.objects.length + (rangeObjects parcel.objects offset len).length ≤ p'.room) :
    Refined o p' (Parcel.appendObjects o p' w
      ((rangeObjects parcel.objects offset len).map fun x => x - offset + q.mDataPos)).2.1
      (adoptions o w.dups (appendedObjects parcel offset len)) := by
  have hspaced : (p'.objects ++ (rangeObjects parcel.objects offset len).map
      fun x => x - offset + q.mDataPos).Pairwise fun a b => a + objectSize ≤ b := by
    refine List.pairwise_append.mpr ⟨h.spaced, ?_, fun a ha b hb => ?_⟩
    · refine List.pairwise_map.mpr (htakes.spaced.imp_of_mem fun {a b} ha hb hab => ?_)
      have := hland.2 a ha
      omega
    · obtain ⟨x, hx, rfl⟩ := List.mem_map.mp hb
      have := hr.atEnd htakes.atEnd a (hobjs ▸ ha)
      omega
  have hin : ∀ off ∈ (rangeObjects parcel.objects offset len).map
      fun x => x - offset + q.mDataPos, off + objectSize ≤ p'.mDataSize := by
    intro off hoff
    obtain ⟨x, hx, rfl⟩ := List.mem_map.mp hoff
    have := htakes.inside x hx
    omega
  have hrefined := h.appendObjects (o := o) (w := w) (hown.trans hr.own) hspaced hin
    (by rw [hobjs, List.length_map]; exact hroom)
  rw [hbytes, held_appended fun x hx => hland.2 x hx] at hrefined
  exact hrefined

def AppendEntries (o : Oracle) (p : Parcel) (w : World) (parcel : Parcel) (offset len : ℕ)
    (es : List Entry) : Prop :=
  es = [] ∨ InSource parcel offset len ∧ ∃ es₀, AppendRoomEntries o p w len es₀ ∧
    (es = es₀ ∨ es = es₀ ++ adoptions o w.dups (appendedObjects parcel offset len))

/-- The loop over the objects of the source, from the parcel `r` to which the data were
appended. -/
theorem Orderly.appendLoop {r parcel : Parcel} {offset : ℕ} {w₁ : World} (h : Orderly p)
    (hb : Bounded p) (hlands : AppendLands o p w parcel offset len)
    (htidy : AppendTidy o p w parcel offset len) (hsrc : InSource parcel offset len)
    (hroom : AppendRoom o p w len q w')
    (hdata : r = { appendData q parcel offset len with
      mObjects := r.mObjects, mObjectsCapacity := r.mObjectsCapacity, room := r.room,
      given := r.given }) (hdups : w₁.dups = w'.dups)
    (htable : q.objects.length + (rangeObjects parcel.objects offset len).length ≤ r.room ∨
      r.room = q.room ∧ q.objects.length + (rangeObjects parcel.objects offset len).length ≤
        q.mObjectsCapacity) :
    ∃ es, Refined o p (Parcel.appendObjects o r w₁ (shiftedObjects p parcel offset len)).2.1 es ∧
      AppendEntries o p w parcel offset len es := by
  obtain ⟨hspares, htakes⟩ := htidy hsrc hroom.gets
  obtain ⟨hr, es, hrefined, hes⟩ := h.appendRoom hb hsrc.pos hspares hroom
  have hq := hrefined.orderly
  have hsilent : Silent q (appendData q parcel offset len) := silent_appendData hq hr
  have happend : Silent q r := by
    refine hsilent.trans ?_
    rw [hdata]
    exact .of_same (hsilent.orderly hq) rfl rfl le_rfl rfl rfl rfl
  have hbytes : r.bytes = (appendData q parcel offset len).bytes := by rw [hdata]
  have hsize : r.mDataSize = q.mDataSize + len := by
    rw [hdata]
    rfl
  have hrefined' : Refined o p r es := by
    simpa using hrefined.trans (happend.refined (o := o) hq)
  refine ⟨es ++ adoptions o w.dups (appendedObjects parcel offset len), hrefined'.trans ?_,
    .inr ⟨hsrc, es, hes, .inr rfl⟩⟩
  obtain ⟨-, hnil | ⟨hpos, hland, hshift⟩⟩ := hb.appendLands_shifted hlands hsrc hroom
  · simp only [shiftedObjects, appendedObjects, hnil]
    exact .refl hrefined'.orderly
  rcases htakes with hnil | htakes
  · simp only [shiftedObjects, appendedObjects, hnil]
    exact .refl hrefined'.orderly
  have hentries : q.objects.length + (rangeObjects parcel.objects offset len).length ≤ r.room := by
    rcases htable with hle | ⟨hsame, hle⟩
    · exact hle
    · rw [hsame]
      cases hown : p.mOwner with
      | true =>
          rw [hr.received hown]
          exact hle
      | false =>
          obtain ⟨hroom, hcap⟩ := hr.room hown
          rw [hr.objects, hcap] at hle
          rw [hr.objects, hroom]
          exact htakes.room hown hle
  rw [hshift, ← hroom.dups, ← hdups]
  exact hrefined'.orderly.appendListed hr hpos hland htakes happend.objects hbytes
    (by rw [hsize, hr.size]) happend.owner hentries

theorem Orderly.appended (h : Orderly p) (hb : Bounded p) {parcel : Parcel} {offset : ℕ}
    (hlands : AppendLands o p w parcel offset len) (htidy : AppendTidy o p w parcel offset len)
    (ha : Appended o p w parcel offset len p' w') :
    ∃ es, Refined o p p' es ∧ AppendEntries o p w parcel offset len es := by
  cases ha with
  | unchanged => exact ⟨[], .refl h, .inl rfl⟩
  | failed hst hcap hg =>
      obtain ⟨es, hrefined, rfl | ⟨-, hok, -⟩⟩ := h.grown hb hg
      · exact ⟨[], hrefined, .inl rfl⟩
      · exact absurd hok hst
  | plain hsrc hroom hnone =>
      obtain ⟨hspares, -⟩ := htidy hsrc hroom.gets
      obtain ⟨hr, es, hrefined, hes⟩ := h.appendRoom hb hsrc.pos hspares hroom
      have hdata : Silent _ (appendData _ parcel offset len) :=
        silent_appendData hrefined.orderly hr
      refine ⟨es, ?_, .inr ⟨hsrc, es, hes, .inl rfl⟩⟩
      simpa using hrefined.trans (hdata.refined hrefined.orderly)
  | tableFull hsrc hroom hsome hfull =>
      obtain ⟨hspares, -⟩ := htidy hsrc hroom.gets
      obtain ⟨hr, es, hrefined, hes⟩ := h.appendRoom hb hsrc.pos hspares hroom
      have hdata : Silent _ (appendData _ parcel offset len) :=
        silent_appendData hrefined.orderly hr
      have hgive : Silent _ (appendData _ parcel offset len).give :=
        hdata.trans (.of_same (hdata.orderly hrefined.orderly) rfl rfl le_rfl rfl rfl rfl)
      refine ⟨es, ?_, .inr ⟨hsrc, es, hes, .inl rfl⟩⟩
      simpa using hrefined.trans (hgive.refined hrefined.orderly)
  | listed hsrc hroom henough =>
      exact h.appendLoop hb hlands htidy hsrc hroom rfl rfl (.inr ⟨rfl, henough⟩)
  | listedGrown hsrc hroom hsome hfull =>
      refine h.appendLoop hb hlands htidy hsrc hroom rfl rfl (.inl ?_)
      simp only [tableGrown]
      omega

/-! ### Growing and shrinking -/

theorem dropObjects_objects (desired : ℕ) (shrinks : Bool) :
    (dropObjects o p desired shrinks).objects = keptObjects p desired := by
  unfold dropObjects
  dsimp only
  split
  · rfl
  · rename_i hge
    exact ((keptObjects_first p desired).eq_of_length_le (not_lt.mp hge)).symm

theorem Orderly.drops (h : Orderly p) (hown : p.mOwner = false) {n : ℕ}
    (hobjs : p'.objects = p.objects.take n) (hbytes : p'.bytes = p.bytes)
    (hsize : p'.mDataSize = p.mDataSize) (howner : p'.mOwner = p.mOwner)
    (htotal : p'.mOpenAshmemSize = subAshmem o p.mOpenAshmemSize ((held p).drop n))
    (hlog : p'.log = p.log ++ ((held p).drop n).flatMap releaseEffects) :
    Refined o p p' [.drops n] := by
  have hsub := List.take_sublist n p.objects
  refine .of_step ⟨?_, fun off hoff => ?_, ?_⟩ ?_
  · rw [hobjs]
    exact h.spaced.sublist hsub
  · rw [hobjs] at hoff
    rw [hsize]
    exact h.inside off (hsub.subset hoff)
  · rw [hlog]
    exact h.log_append (inTable_release _)
  · have hheld : held p' = (held p).take n := by rw [held, held, hobjs, hbytes, List.map_take]
    rw [inventory_release howner htotal hlog, hheld]
    exact .drops n hown

theorem Orderly.dropped (h : Orderly p) (hown : p.mOwner = false) {desired : ℕ} {shrinks : Bool} :
    ∃ es, Refined o p (dropObjects o p desired shrinks) es ∧ ∀ e ∈ es, e.Sheds := by
  have hkept : keptObjects p desired = p.objects.take (keptObjects p desired).length :=
    List.prefix_iff_eq_take.mp (keptObjects_first p desired)
  unfold dropObjects
  dsimp only
  split
  · refine ⟨[.drops (keptObjects p desired).length], ?_, by simp [Entry.Sheds]⟩
    rw [releaseEach_eq, List.map_drop]
    exact h.drops hown hkept rfl rfl rfl rfl rfl
  · exact ⟨[], .refl h, by simp⟩

theorem Orderly.returned (h : Orderly p) (hown : p.mOwner = true) :
    Refined o p (initState (freeBuffer p)) [.givesBack, .resets] := by
  have hback : Refined o p { freeBuffer p with mOwner := false, objects := [] } [.givesBack] := by
    rw [freeBuffer_eq]
    exact h.givesBack hown rfl rfl rfl rfl
  exact hback.trans (hback.orderly.resets rfl rfl rfl rfl rfl rfl)

def ContinueEntries (p : Parcel) (desired : ℕ) (st : Status) (es : List Entry) : Prop :=
  (∀ e ∈ es, e.Sheds) ∨ p.mOwner = true ∧ st = .noError ∧
    es = [.possesses ((keptObjects p desired).map (objectAt p.bytes))]

theorem Orderly.continued (h : Orderly p) (hb : Bounded p) {desired : ℕ}
    (hcut : ∀ off ∈ keptObjects p desired, off + objectSize ≤ desired)
    (hc : Continued o p w desired st p' w') :
    ∃ es, Refined o p p' es ∧ ContinueEntries p desired st es ∧
      (st = .noError → ∀ off ∈ p'.objects, off + objectSize ≤ desired) := by
  have hsize := hb.size_le
  cases hc with
  | tooLarge hbig => exact ⟨[], .refl h, .inl (by simp), nofun⟩
  | released hown hzero =>
      exact ⟨_, h.returned hown, .inl (by simp [Entry.Sheds]), fun _ => by simp [initState]⟩
  | refused n l hl =>
      have hquiet : ∀ e ∈ l, e.Quiet := by
        rcases hl with rfl | ⟨-, rfl, -⟩
        · simp
        · exact quiet_pair (quiet_malloc _) (quiet_free _)
      refine ⟨[], Silent.refined ?_ h, .inl (by simp), nofun⟩
      exact .of_log h rfl rfl le_rfl rfl rfl rfl hquiet
  | possessed n hown hpos hmax =>
      exact ⟨_, h.possessed hown hcut, .inr ⟨hown, rfl, rfl⟩, fun _ => hcut⟩
  | reallocated n b sh hown hb' hmax hlt =>
      rw [dropObjects_of_le (by omega)]
      refine ⟨[], Silent.refined ⟨rfl, fun off hoff i _ hi => if_pos ?_, h.inside, rfl, rfl, _, rfl,
        quiet_pair (quiet_free _) (quiet_malloc _)⟩ h, .inl (by simp), fun _ off hoff => ?_⟩
      · have hin := h.inside off hoff
        omega
      · have hin := h.inside off hoff
        omega
  | exhausted n b sh hown hb' hlt =>
      rw [dropObjects_of_le (by omega)]
      refine ⟨[], Silent.refined ?_ h, .inl (by simp), nofun⟩
      exact .of_same h rfl rfl le_rfl rfl rfl rfl
  | truncated n b sh hown hb' hle hmax =>
      obtain ⟨es, hrefined, hes⟩ := h.dropped (o := o) hown
      have hobjs := dropObjects_objects (o := o) (p := p) desired sh
      have hcut' (off : ℕ) (hoff : off ∈ (dropObjects o p desired sh).objects) :
          off + objectSize ≤ desired := hcut off (hobjs ▸ hoff)
      have hsilent : Silent (dropObjects o p desired sh)
          (truncated (dropObjects o p desired sh) desired) := by
        refine ⟨rfl, fun _ _ _ _ _ => rfl, fun off hoff => ?_, rfl, rfl, [],
          (List.append_nil _).symm, by simp⟩
        exact le_min (hrefined.orderly.inside off hoff) (hcut' off hoff)
      refine ⟨es, ?_, .inl hes, fun _ => hcut'⟩
      simpa using hrefined.trans (hsilent.refined hrefined.orderly)
  | started hown hnone hmax =>
      have hnil := h.nil_of_none hb hown hnone
      refine ⟨[], Silent.refined ?_ h, .inl (by simp), fun _ off hoff => ?_⟩
      · exact .of_nil hnil hnil rfl rfl rfl (quiet_singleton (quiet_malloc _))
      · change off ∈ p.objects at hoff
        rw [hnil] at hoff
        cases hoff

theorem Orderly.lt_of_kept (h : Orderly p) {desired off : ℕ} (hlt : desired < p.mDataSize)
    (hoff : off ∈ keptObjects p desired) : off < desired := by
  unfold keptObjects at hoff
  rw [if_pos hlt] at hoff
  split at hoff
  · cases hoff
  · have hne := List.ne_nil_of_mem hoff
    have hlast := List.rdropWhile_last_not (fun off => decide (desired ≤ off)) p.objects hne
    have hspaced := h.spaced.sublist
      (List.rdropWhile_prefix (fun off => decide (desired ≤ off)) p.objects).sublist
    rw [decide_eq_true_eq, not_le] at hlast
    rw [← List.dropLast_append_getLast hne] at hoff hspaced
    rcases List.mem_append.mp hoff with hoff | hoff
    · have := (List.pairwise_append.mp hspaced).2.2 off hoff _ List.mem_cons_self
      omega
    · obtain rfl := List.mem_singleton.mp hoff
      exact hlast

/-- No object is cut when the data are set to `size` bytes. -/
def CutsNone (p : Parcel) (size : ℕ) : Prop :=
  size < p.mDataSize → ∀ off ∈ p.objects, off < size → off + objectSize ≤ size

theorem Orderly.cut (h : Orderly p) {size : ℕ} (hcut : CutsNone p size) :
    ∀ off ∈ keptObjects p size, off + objectSize ≤ size := by
  intro off hoff
  have hmem := (keptObjects_first p size).subset hoff
  by_cases hlt : size < p.mDataSize
  · exact hcut hlt off hmem (h.lt_of_kept hlt hoff)
  · exact le_trans (h.inside off hmem) (not_lt.mp hlt)

/-! ### Freeing and receiving -/

theorem Orderly.freed (h : Orderly p) (hf : freeDataNoInit o p w = (q, w')) :
    ∃ e, e.Sheds ∧ Refined o p { q with mOwner := false, objects := [] } [e] := by
  obtain ⟨hown, rfl, -⟩ | ⟨hown, -, rfl, -⟩ | ⟨b, hown, -, rfl, -⟩ := freeDataNoInit_cases hf
  · refine ⟨.givesBack, trivial, ?_⟩
    rw [freeBuffer_eq]
    exact h.givesBack hown rfl rfl rfl rfl
  · refine ⟨.clears, trivial, ?_⟩
    rw [releaseObjects_eq]
    exact h.clears hown rfl hown.symm rfl rfl
  · refine ⟨.clears, trivial, ?_⟩
    have hclear : Refined o p { releaseObjects o p with mOwner := false, objects := [] }
        [.clears] := by
      rw [releaseObjects_eq]
      exact h.clears hown rfl hown.symm rfl rfl
    have hfree : Silent { releaseObjects o p with mOwner := false, objects := [] }
        { ((releaseObjects o p).record [.free b]).freeTable with
          mOwner := false, objects := [] } :=
      .of_nil rfl rfl rfl rfl rfl (quiet_singleton (quiet_free b))
    exact hclear.trans (hfree.refined hclear.orderly)

theorem offsetsOk_spaced {objects : List ℕ} {dataSize m : ℕ} (hlt : dataSize < sizeT)
    (hin : ∀ off ∈ objects, off + objectSize ≤ dataSize) (hok : offsetsOk m objects = true) :
    (∀ off ∈ objects, m ≤ off) ∧ objects.Pairwise fun a b => a + objectSize ≤ b := by
  induction objects generalizing m with
  | nil => exact ⟨by simp, .nil⟩
  | cons x objects ih =>
      have hx := hin x List.mem_cons_self
      simp only [offsetsOk, Bool.and_eq_true, decide_eq_true_eq] at hok
      rw [Nat.mod_eq_of_lt (by omega)] at hok
      obtain ⟨hle, hspaced⟩ := ih (fun y hy => hin y (List.mem_cons_of_mem x hy)) hok.2
      refine ⟨fun off hoff => ?_, List.pairwise_cons.mpr ⟨hle, hspaced⟩⟩
      rcases List.mem_cons.mp hoff with rfl | hoff
      · exact hok.1
      · have := hle off hoff
        omega

/-- A buffer of the driver: its objects are inside the data, one behind the other. -/
structure WellFormed (dataSize : ℕ) (objects : List ℕ) : Prop where
  size : dataSize < sizeT
  inside : ∀ off ∈ objects, off + objectSize ≤ dataSize
  ordered : offsetsOk 0 objects = true

theorem Orderly.received (h : Orderly p) (hown : p.mOwner = false) (hnil : p.objects = [])
    {data : Data} {dataSize : ℕ} {objects : List ℕ} (hwf : WellFormed dataSize objects)
    (howner : p'.mOwner = true) (hobjs : p'.objects = objects) (hbytes : p'.bytes = data)
    (hsize : p'.mDataSize = dataSize) (htotal : p'.mOpenAshmemSize = p.mOpenAshmemSize)
    (hlog : p'.log = p.log) : Refined o p p' [.receives (objects.map (objectAt data))] := by
  have hempty : (inventory p).objects = [] := by simp [inventory, held, hnil]
  refine .of_step ⟨?_, ?_, hlog ▸ h.table⟩ ?_
  · rw [hobjs]
    exact (offsetsOk_spaced hwf.size hwf.inside hwf.ordered).2
  · rw [hobjs, hsize]
    exact hwf.inside
  · have hinventory : inventory p' =
        { inventory p with received := true, objects := objects.map (objectAt data) } := by
      simp [inventory, held, hobjs, hbytes, howner, htotal, hlog]
    rw [hinventory]
    exact .receives _ hown hempty

theorem releaseObjects_of_nil (h : p.objects = []) : releaseObjects o p = p := by
  rw [releaseObjects, h]
  rfl

theorem Continued.objects_nil {desired : ℕ} (hc : Continued o p w desired st p' w')
    (hnil : p.objects = []) : p'.objects = [] := by
  have hkept : keptObjects p desired = [] := by
    have hkeeps := keptObjects_first p desired
    rw [hnil] at hkeeps
    exact List.prefix_nil.mp hkeeps
  have hdrop (sh : Bool) : (dropObjects o p desired sh).objects = [] := by
    rw [dropObjects_objects, hkept]
  cases hc with
  | tooLarge hbig => exact hnil
  | released hown hzero => rfl
  | refused n l hl => exact hnil
  | possessed n hown hpos hmax => exact hkept
  | reallocated n b sh hown hb hmax hlt => exact hdrop sh
  | exhausted n b sh hown hb hlt => exact hdrop sh
  | truncated n b sh hown hb hle hmax => exact hdrop sh
  | started hown hnone hmax => exact hnil

/-- The data may be set anew: what `realloc` moves has no listed objects. -/
def Restarts (o : Oracle) (p : Parcel) (w : World) (size : ℕ) : Prop :=
  p.mOwner = true ∨ p.objects = [] ∨ int32Max < size ∨ 0 < size ∧ o.allocates w.allocs = false

theorem Orderly.restarted (h : Orderly p) (hb : Bounded p) {size : ℕ}
    (hrestarts : Restarts o p w size) (hr : Restarted o p w size st p' w') :
    ∃ es, Refined o p p' es ∧ (∀ e ∈ es, e.Sheds) ∧ (st = .noError → p'.objects = []) := by
  cases hr with
  | tooLarge hbig => exact ⟨[], .refl h, by simp, nofun⟩
  | received hown hc =>
      have hback := h.returned (o := o) hown
      obtain ⟨es, hrefined, hes, -⟩ := hback.orderly.continued hb.freeBuffer.initState
        (by simp [keptObjects, initState]) hc
      rcases hes with hes | ⟨hfalse, -⟩
      · refine ⟨_, hback.trans hrefined, fun e he => ?_, fun _ => ?_⟩
        · rcases List.mem_append.mp he with he | he
          · rcases List.mem_pair.mp he with rfl | rfl
            · trivial
            · trivial
          · exact hes e he
        · exact hc.objects_nil rfl
      · cases hfalse
  | refused hown hlt =>
      refine ⟨[], Silent.refined ?_ h, by simp, nofun⟩
      exact .of_same h rfl rfl le_rfl rfl rfl rfl
  | replaced bs l hown hmax ha hl =>
      have hnil : p.objects = [] := by
        rcases hrestarts with htrue | hnil | hbig | ⟨-, hfalse⟩
        · exact absurd (hown.symm.trans htrue) (by decide)
        · exact hnil
        · omega
        · exact absurd (ha.symm.trans hfalse) (by decide)
      have hquiet : ∀ e ∈ l, e.Quiet := by
        rcases hl with ⟨-, -, rfl⟩ | ⟨b, -, -, -, rfl⟩
        · exact quiet_singleton (quiet_malloc _)
        · exact quiet_pair (quiet_free _) (quiet_malloc _)
      refine ⟨[], Silent.refined ?_ h, by simp, fun _ => rfl⟩
      have hsame : releaseObjects o (account { p with bytes := bs } p.mOpenAshmemSize l) =
          account { p with bytes := bs } p.mOpenAshmemSize l := releaseObjects_of_nil hnil
      rw [hsame]
      exact .of_nil hnil rfl rfl rfl rfl hquiet
  | freed b hown hb' hzero =>
      have hnil : p.objects = [] := by
        rcases hrestarts with htrue | hnil | hbig | ⟨hpos, -⟩
        · exact absurd (hown.symm.trans htrue) (by decide)
        · exact hnil
        · omega
        · omega
      refine ⟨[], Silent.refined ?_ h, by simp, fun _ => rfl⟩
      have hsame : releaseObjects o
          (account { p with bytes := o.stale w.allocs } p.mOpenAshmemSize [.free b]) =
          account { p with bytes := o.stale w.allocs } p.mOpenAshmemSize [.free b] :=
        releaseObjects_of_nil hnil
      rw [hsame]
      exact .of_nil hnil rfl rfl rfl rfl (quiet_singleton (quiet_free b))
  | kept hown hb' hle hmax =>
      refine ⟨[.clears], ?_, by simp [Entry.Sheds], fun _ => rfl⟩
      rw [releaseObjects_eq]
      exact h.clears hown rfl rfl rfl rfl

/-! ### Steps -/

/-- The operation leaves the objects in order. -/
def Op.Tidy (o : Oracle) (s : State) : Op → Prop
  | .writeAligned val => GetsRoom o s.1 s.2 val.length → Clear s.1 val.length
  | .writeUnpadded data => GetsRoom o s.1 s.2 data.length → Clear s.1 data.length
  | .writeInplace len => GetsRoom o s.1 s.2 (padUnsafe len) → Clear s.1 (padUnsafe len)
  | .write data =>
      GetsRoom o s.1 s.2 (padUnsafe data.length) → Clear s.1 (padUnsafe data.length)
  | .writeChars str =>
      GetsRoom o s.1 s.2 (padUnsafe (2 * str.length + 2)) →
        Clear s.1 (padUnsafe (2 * str.length + 2))
  | .writeObject val nullMetaData =>
      val.Ranged ∧ (GetsRoom o s.1 s.2 objectSize → Clear s.1 objectSize ∧
        (nullMetaData = true ∨ val.binder ≠ 0 → AtEnd s.1 ∧ HasEntry s.1))
  | .writeDupFileDescriptor fd =>
      o.dup s.2.dups ≥ 2 ^ 31 ∨
        (GetsRoom o (s.1.record [.dup fd (o.dup s.2.dups)]) s.2.duped objectSize →
          Clear s.1 objectSize ∧ AtEnd s.1 ∧ HasEntry s.1)
  | .appendFrom parcel offset len => AppendTidy o s.1 s.2 parcel offset len
  | .setDataSize size => CutsNone s.1 size
  | .setData buffer => Restarts o s.1 s.2 buffer.length
  | .ipcSetDataReference _ dataSize objects => WellFormed dataSize objects
  | _ => True

instance (parcel : Parcel) (offset len : ℕ) : Decidable (InSource parcel offset len) :=
  decidable_of_iff (0 < len ∧ len ≤ int32Max ∧ offset + len ≤ parcel.mDataSize)
    ⟨fun h => ⟨h.1, h.2.1, h.2.2⟩, fun h => ⟨h.pos, h.le_max, h.le_size⟩⟩

/-- The objects of data that have to grow, and can, for `len` bytes at the position. -/
def grownObjects (o : Oracle) (p : Parcel) (w : World) (len : ℕ) : List ℕ :=
  if fits p len = false ∧ (growData o p w len).1 = .noError then p.objects else []

/-- The objects that the operation takes possession of, if the data are the driver's. -/
def Op.takes (o : Oracle) (s : State) : Op → List ℕ
  | .writeAligned val => grownObjects o s.1 s.2 val.length
  | .writeUnpadded data => grownObjects o s.1 s.2 data.length
  | .writeInplace len => grownObjects o s.1 s.2 (padUnsafe len)
  | .write data => grownObjects o s.1 s.2 (padUnsafe data.length)
  | .writeChars str => grownObjects o s.1 s.2 (padUnsafe (2 * str.length + 2))
  | .writeObject _ _ => grownObjects o s.1 s.2 objectSize
  | .writeDupFileDescriptor fd =>
      if o.dup s.2.dups < 2 ^ 31 then
        grownObjects o (s.1.record [.dup fd (o.dup s.2.dups)]) s.2.duped objectSize
      else []
  | .appendFrom parcel offset len =>
      if InSource parcel offset len ∧ s.1.mDataCapacity < s.1.mDataSize + len ∧
        (growData o s.1 s.2 len).1 = .noError then s.1.objects else []
  | .setDataSize size =>
      if (continueWrite o s.1 s.2 size).1 = .noError then keptObjects s.1 size else []
  | .setDataCapacity size =>
      if s.1.mDataCapacity < size ∧ (continueWrite o s.1 s.2 size).1 = .noError then
        keptObjects s.1 size
      else []
  | _ => []

/-- The descriptors that are handed to the parcel: those written with ownership, and those of
a buffer of the driver. -/
def Op.gives (o : Oracle) (s : State) : Op → List ℕ
  | .writeObject val nullMetaData =>
      if (Parcel.writeObject o s.1 s.2 val nullMetaData).1 = .noError ∧
        (nullMetaData = true ∨ val.binder ≠ 0) then val.closes else []
  | .ipcSetDataReference data _ objects => (objects.map (objectAt data)).flatMap FlatObject.fds
  | _ => []

/-- The duplicate `fd` takes the place of an appended descriptor. -/
def Op.Adopts (o : Oracle) (s : State) (f : FlatObject) (fd : ℕ) : Op → Prop
  | .appendFrom parcel offset len => InSource parcel offset len ∧
      .adopts f fd ∈ adoptions o s.2.dups (appendedObjects parcel offset len)
  | _ => False

/-- What an operation enters in the inventory. -/
structure Recorded (o : Oracle) (s : State) (op : Op) (es : List Entry) : Prop where
  adopts : ∀ f fd, .adopts f fd ∈ es → op.Adopts o s f fd
  possesses : ∀ kept, .possesses kept ∈ es →
    s.1.mOwner = true ∧ kept = (op.takes o s).map (objectAt s.1.bytes)
  gains : es.flatMap Entry.gains = op.gives o s

variable {op : Op}

theorem gains_of_sheds (hes : ∀ e ∈ es, e.Sheds) : es.flatMap Entry.gains = [] := by
  refine List.flatMap_eq_nil_iff.mpr fun e he => ?_
  have hshed := hes e he
  cases e with
  | drops | clears | givesBack | resets => rfl
  | _ => exact hshed.elim

theorem recorded_of_sheds (hes : ∀ e ∈ es, e.Sheds) (hgives : op.gives o (p, w) = []) :
    Recorded o (p, w) op es :=
  ⟨fun _ _ hmem => (hes _ hmem).elim, fun _ hmem => (hes _ hmem).elim,
    (gains_of_sheds hes).trans hgives.symm⟩

theorem recorded_of_grows {es₀ : List Entry} {offs : List ℕ} {P : Prop} (hes : es₀ = [] ∨
      p.mOwner = true ∧ P ∧ es₀ = [.possesses (offs.map (objectAt p.bytes))])
    (htakes : P → op.takes o (p, w) = offs)
    (hadopts : ∀ f fd, .adopts f fd ∈ es → op.Adopts o (p, w) f fd)
    (hpossesses : ∀ kept, .possesses kept ∉ es)
    (hgains : es.flatMap Entry.gains = op.gives o (p, w)) :
    Recorded o (p, w) op (es₀ ++ es) := by
  rcases hes with rfl | ⟨hown, hgrows, rfl⟩
  · exact ⟨hadopts, fun kept hmem => absurd hmem (hpossesses kept), hgains⟩
  · refine ⟨fun f fd hmem => ?_, fun kept hmem => ?_, hgains⟩
    · rcases List.mem_append.mp hmem with hmem | hmem
      · simp at hmem
      · exact hadopts f fd hmem
    · rcases List.mem_append.mp hmem with hmem | hmem
      · rw [List.mem_singleton, Entry.possesses.injEq] at hmem
        rw [htakes hgrows]
        exact ⟨hown, hmem⟩
      · exact absurd hmem (hpossesses kept)

theorem recorded_of_room {es₀ : List Entry} (hes : RoomEntries o p w len es₀)
    (htakes : op.takes o (p, w) = grownObjects o p w len)
    (hadopts : ∀ f fd, .adopts f fd ∉ es) (hpossesses : ∀ kept, .possesses kept ∉ es)
    (hgains : es.flatMap Entry.gains = op.gives o (p, w)) :
    Recorded o (p, w) op (es₀ ++ es) := by
  have hgrows : es₀ = [] ∨ p.mOwner = true ∧
      (fits p len = false ∧ (growData o p w len).1 = .noError) ∧
        es₀ = [.possesses (p.objects.map (objectAt p.bytes))] :=
    hes.imp_right fun h => ⟨h.1, ⟨h.2.1, h.2.2.1⟩, h.2.2.2⟩
  refine recorded_of_grows hgrows (fun hgrows => ?_)
    (fun f fd hmem => absurd hmem (hadopts f fd)) hpossesses hgains
  rw [htakes, grownObjects, if_pos hgrows]

theorem Orderly.stepObject (h : Orderly p) (hb : Bounded p) {val : FlatObject}
    {nullMetaData : Bool} (htidy : (Op.writeObject val nullMetaData).Tidy o (p, w))
    (hw : writeObject o p w val nullMetaData = (st, p', w')) :
    ∃ es, Refined o p p' es ∧ Recorded o (p, w) (.writeObject val nullMetaData) es := by
  obtain ⟨es, hrefined, es₀, hes₀, hes⟩ := h.objectWritten hb htidy.1 htidy.2
    (Parcel.objectWritten hw)
  have hgives : (Op.writeObject val nullMetaData).gives o (p, w) =
      if st = .noError ∧ (nullMetaData = true ∨ val.binder ≠ 0) then val.closes else [] := by
    simp only [Op.gives, hw]
  refine ⟨es, hrefined, ?_⟩
  rcases hes with ⟨rfl, hne⟩ | ⟨rfl, hok⟩
  · rw [← List.append_nil es]
    refine recorded_of_room hes₀ rfl (by simp) (by simp) ?_
    rw [hgives, if_neg hne]
    rfl
  · refine recorded_of_room hes₀ rfl (by simp) (by simp) ?_
    rw [hgives, if_pos hok]
    simp [Entry.gains]

theorem gains_adoptions (o : Oracle) (n : ℕ) (fs : List FlatObject) :
    (adoptions o n fs).flatMap Entry.gains = [] := by
  induction fs generalizing n with
  | nil => rfl
  | cons f fs ih =>
      unfold adoptions
      split
      · exact ih (n + 1)
      · rename_i hf
        rw [List.flatMap_cons, Entry.gains, FlatObject.closes_of_not_fd hf, ih n]
        rfl

theorem possesses_notMem_adoptions (o : Oracle) (n : ℕ) (fs kept : List FlatObject) :
    .possesses kept ∉ adoptions o n fs := by
  induction fs generalizing n with
  | nil => simp [adoptions]
  | cons f fs ih =>
      unfold adoptions
      split
      · simpa using ih (n + 1)
      · simpa using ih n

theorem Orderly.stepAppend (h : Orderly p) (hb : Bounded p) {parcel : Parcel} {offset : ℕ}
    (hlands : AppendLands o p w parcel offset len) (htidy : AppendTidy o p w parcel offset len)
    (ha : Appended o p w parcel offset len p' w') :
    ∃ es, Refined o p p' es ∧ Recorded o (p, w) (.appendFrom parcel offset len) es := by
  obtain ⟨es, hrefined, hes⟩ := h.appended hb hlands htidy ha
  refine ⟨es, hrefined, ?_⟩
  rcases hes with rfl | ⟨hsrc, es₀, hes₀, hes⟩
  · exact recorded_of_sheds (by simp) rfl
  have hgrows : es₀ = [] ∨ p.mOwner = true ∧ (p.mDataCapacity < p.mDataSize + len ∧
      (growData o p w len).1 = .noError) ∧
        es₀ = [.possesses (p.objects.map (objectAt p.bytes))] :=
    hes₀.imp_right fun h => ⟨h.1, ⟨h.2.1, h.2.2.1⟩, h.2.2.2⟩
  have htakes (hgrow : p.mDataCapacity < p.mDataSize + len ∧
      (growData o p w len).1 = .noError) :
      (Op.appendFrom parcel offset len).takes o (p, w) = p.objects := if_pos ⟨hsrc, hgrow⟩
  rcases hes with rfl | rfl
  · rw [← List.append_nil es]
    exact recorded_of_grows hgrows htakes (by simp) (by simp) rfl
  · exact recorded_of_grows hgrows htakes (fun f fd hmem => ⟨hsrc, hmem⟩)
      (possesses_notMem_adoptions o _ _) (gains_adoptions o _ _)

theorem recorded_of_continued {desired : ℕ} (hes : ContinueEntries p desired st es)
    (hgives : op.gives o (p, w) = [])
    (htakes : st = .noError → op.takes o (p, w) = keptObjects p desired) :
    Recorded o (p, w) op es := by
  rcases hes with hes | ⟨hown, hok, rfl⟩
  · exact recorded_of_sheds hes hgives
  · rw [← List.append_nil [_]]
    exact recorded_of_grows (.inr ⟨hown, hok, rfl⟩) htakes (by simp) (by simp) hgives.symm

theorem Orderly.stepSize (h : Orderly p) (hb : Bounded p) {size : ℕ} (hcut : CutsNone p size)
    (hs : setDataSize o p w size = (st, p', w')) :
    ∃ es, Refined o p p' es ∧ Recorded o (p, w) (.setDataSize size) es := by
  unfold setDataSize at hs
  split at hs
  · cases hs
    exact ⟨[], .refl h, recorded_of_sheds (by simp) rfl⟩
  rcases hcont : continueWrite o p w size with ⟨st', q, w₁⟩
  obtain ⟨es, hrefined, hes, hin⟩ := h.continued hb (h.cut hcut) (continueWrite_cases hcont)
  have hrecorded : Recorded o (p, w) (.setDataSize size) es := by
    refine recorded_of_continued hes rfl fun hok => if_pos ?_
    rw [hcont]
    exact hok
  rw [hcont] at hs
  split at hs
  · rename_i q' w₂ heq
    cases heq
    cases hs
    have hsilent : Silent q { q with mDataSize := size } :=
      ⟨rfl, fun _ _ _ _ _ => rfl, hin rfl, rfl, rfl, [], (List.append_nil _).symm, by simp⟩
    refine ⟨es, ?_, hrecorded⟩
    simpa using hrefined.trans (hsilent.refined hrefined.orderly)
  · cases hs
    exact ⟨es, hrefined, hrecorded⟩

theorem Orderly.stepCapacity (h : Orderly p) (hb : Bounded p) {size : ℕ}
    (hs : setDataCapacity o p w size = (st, p', w')) :
    ∃ es, Refined o p p' es ∧ Recorded o (p, w) (.setDataCapacity size) es := by
  unfold setDataCapacity at hs
  split at hs
  · cases hs
    exact ⟨[], .refl h, recorded_of_sheds (by simp) rfl⟩
  split at hs
  · rename_i hlt
    have hsize := hb.size_le
    have hcut : CutsNone p size := fun hlt' => by omega
    obtain ⟨es, hrefined, hes, -⟩ := h.continued hb (h.cut hcut) (continueWrite_cases hs)
    refine ⟨es, hrefined, recorded_of_continued hes rfl fun hok => if_pos ⟨hlt, ?_⟩⟩
    rw [hs]
    exact hok
  · cases hs
    exact ⟨[], .refl h, recorded_of_sheds (by simp) rfl⟩

theorem recorded_of_dup {fd : ℕ} {es₀ : List Entry} (hdup : o.dup w.dups < 2 ^ 31)
    (hes : RoomEntries o (p.record [.dup fd (o.dup w.dups)]) w.duped objectSize es₀)
    (hadopts : ∀ f fd, .adopts f fd ∉ es) (hpossesses : ∀ kept, .possesses kept ∉ es)
    (hgains : es.flatMap Entry.gains = []) :
    Recorded o (p, w) (.writeDupFileDescriptor fd) (es₀ ++ es) := by
  have hgrows : es₀ = [] ∨ p.mOwner = true ∧
      (fits (p.record [.dup fd (o.dup w.dups)]) objectSize = false ∧
        (growData o (p.record [.dup fd (o.dup w.dups)]) w.duped objectSize).1 = .noError) ∧
        es₀ = [.possesses (p.objects.map (objectAt p.bytes))] :=
    hes.imp_right fun h => ⟨h.1, ⟨h.2.1, h.2.2.1⟩, h.2.2.2⟩
  refine recorded_of_grows hgrows (fun hgrows => ?_)
    (fun f fd hmem => absurd hmem (hadopts f fd)) hpossesses hgains
  simp only [Op.takes, if_pos hdup, grownObjects]
  exact if_pos hgrows

theorem Orderly.stepDup (h : Orderly p) (hb : Bounded p) {fd : ℕ}
    (htidy : (Op.writeDupFileDescriptor fd).Tidy o (p, w))
    (hout : Outcome o p w (.writeDupFileDescriptor fd) p' w') :
    ∃ es, Refined o p p' es ∧ Recorded o (p, w) (.writeDupFileDescriptor fd) es := by
  cases hout with
  | plain hlen _ => cases hlen
  | notDup hdup => exact ⟨[], .refl h, recorded_of_sheds (by simp) rfl⟩
  | dup hdup hw =>
      obtain ⟨es, hes, hok, -⟩ := h.duped hb hdup (htidy.resolve_left (not_le.mpr hdup)) hw
      exact ⟨_, hok rfl, recorded_of_dup hdup hes (by simp) (by simp) rfl⟩
  | dupFailed hdup hst hw =>
      obtain ⟨es, hes, -, hfail⟩ := h.duped hb hdup (htidy.resolve_left (not_le.mpr hdup)) hw
      exact ⟨_, hfail hst, recorded_of_dup hdup hes (by simp) (by simp) rfl⟩

theorem Orderly.stepData (h : Orderly p) (hb : Bounded p) {buffer : List UInt8}
    (hrestarts : Restarts o p w buffer.length) (hs : setData o p w buffer = (st, p', w')) :
    ∃ es, Refined o p p' es ∧ Recorded o (p, w) (.setData buffer) es := by
  obtain ⟨rfl, rfl⟩ | ⟨hst, hr⟩ | ⟨q, hr, rfl⟩ := setData_cases hs
  · exact ⟨[], .refl h, recorded_of_sheds (by simp) rfl⟩
  · obtain ⟨es, hrefined, hes, -⟩ := h.restarted hb hrestarts hr
    exact ⟨es, hrefined, recorded_of_sheds hes rfl⟩
  · obtain ⟨es, hrefined, hes, hnil⟩ := h.restarted hb hrestarts hr
    have hsilent : Silent q { q.store 0 buffer with
        mDataSize := buffer.length, mFdsKnown := false } :=
      .of_nil (hnil rfl) (hnil rfl) rfl rfl rfl (quiet_singleton (quiet_store _ _ _))
    refine ⟨es, ?_, recorded_of_sheds hes rfl⟩
    simpa using hrefined.trans (hsilent.refined hrefined.orderly)

theorem Orderly.stepReceive (h : Orderly p) {data : Data} {dataSize : ℕ} {objects : List ℕ}
    (hwf : WellFormed dataSize objects) (hf : freeDataNoInit o p w = (q, w')) :
    ∃ es, Refined o p (Parcel.received q data dataSize objects) es ∧
      Recorded o (p, w) (.ipcSetDataReference data dataSize objects) es := by
  obtain ⟨e, hshed, hrefined⟩ := h.freed hf
  have hreceived : Refined o { q with mOwner := false, objects := [] }
      (Parcel.received q data dataSize objects) [.receives (objects.map (objectAt data))] :=
    hrefined.orderly.received rfl rfl hwf rfl (if_pos hwf.ordered) rfl rfl rfl rfl
  have hes : ∀ e' ∈ [e], e'.Sheds := by simpa using hshed
  refine ⟨_, hrefined.trans hreceived, fun f fd hmem => ?_, fun kept hmem => ?_, ?_⟩
  · rcases List.mem_append.mp hmem with hmem | hmem
    · exact (hes _ hmem).elim
    · simp at hmem
  · rcases List.mem_append.mp hmem with hmem | hmem
    · exact (hes _ hmem).elim
    · simp at hmem
  · rw [List.flatMap_append, gains_of_sheds hes]
    simp [Entry.gains, Op.gives]

/-- An operation that keeps the objects in order is a few entries of the inventory. -/
theorem Orderly.step (h : Orderly p) (hb : Bounded p) (hlands : op.Lands o (p, w))
    (htidy : op.Tidy o (p, w)) (hstep : step o (p, w) op = .ok (p', w')) :
    ∃ es, Refined o p p' es ∧ Recorded o (p, w) op es := by
  have hout := outcome hstep
  have hsilent (hs : Silent p p') (hgives : op.gives o (p, w) = []) :
      ∃ es, Refined o p p' es ∧ Recorded o (p, w) op es :=
    ⟨[], hs.refined h, recorded_of_sheds (by simp) hgives⟩
  cases op with
  | writeAligned | writeUnpadded | writeInplace | write | writeChars =>
      cases hout with
      | plain hlen hw =>
          cases hlen
          obtain ⟨es, hrefined, hes⟩ := h.written hb htidy hw
          refine ⟨es, hrefined, ?_⟩
          rw [← List.append_nil es]
          exact recorded_of_room hes rfl (by simp) (by simp) rfl
  | writeObject val nullMetaData =>
      obtain ⟨st, hr⟩ := exists_status (Except.ok.inj hstep)
      exact h.stepObject hb htidy hr
  | writeDupFileDescriptor fd => exact h.stepDup hb htidy hout
  | appendFrom parcel offset len =>
      obtain ⟨st, hr⟩ := exists_status (Except.ok.inj hstep)
      exact h.stepAppend hb hlands htidy (Parcel.appended hr)
  | setDataSize size =>
      obtain ⟨st, hr⟩ := exists_status (Except.ok.inj hstep)
      exact h.stepSize hb htidy hr
  | setDataCapacity size =>
      obtain ⟨st, hr⟩ := exists_status (Except.ok.inj hstep)
      exact h.stepCapacity hb hr
  | setDataPosition pos =>
      cases hout with
      | plain hlen _ => cases hlen
      | position hle => exact hsilent (.of_same h rfl rfl le_rfl rfl rfl rfl) rfl
  | setData buffer =>
      obtain ⟨st, hr⟩ := exists_status (Except.ok.inj hstep)
      exact h.stepData hb htidy hr
  | ipcSetDataReference data dataSize objects =>
      cases hout with
      | plain hlen _ => cases hlen
      | received hf => exact h.stepReceive htidy hf
  | freeData =>
      cases hout with
      | plain hlen _ => cases hlen
      | freed hf =>
          obtain ⟨e, hshed, hrefined⟩ := h.freed hf
          refine ⟨_, hrefined.trans (hrefined.orderly.resets rfl rfl rfl rfl rfl rfl),
            recorded_of_sheds (fun e' he => ?_) rfl⟩
          rcases List.mem_pair.mp he with rfl | rfl
          · exact hshed
          · trivial
  | allowFds allow =>
      cases hout with
      | plain hlen _ => cases hlen
      | allowFds => exact hsilent (.of_same h rfl rfl le_rfl rfl rfl rfl) rfl
  | setError err =>
      cases hout with
      | plain hlen _ => cases hlen
      | setError => exact hsilent (.of_same h rfl rfl le_rfl rfl rfl rfl) rfl
  | reads r =>
      cases hout with
      | plain hlen _ => cases hlen
      | reads _ hr =>
          obtain ⟨l, hl, hload⟩ := hr.loads
          refine hsilent ?_ rfl
          rw [hr.same]
          exact .of_log h rfl rfl le_rfl rfl rfl hl fun e he => quiet_load (hload e he)

end

end Parcel

end BinderForLinux
