import BinderForLinux.ServiceManager.Delivery

/-!
# Answers

What the client reads of a reply. The reply is built in 256 bytes, of which 32 are for the offsets:
there is room for a word, for an object, and for a string that is not too long. Of one that is too
long only its length is sent.
-/

namespace BinderForLinux

namespace ServiceManager

open Library

open Parcel (Strong)

open ProxyTable (ProcessState LookupEnv Fault)

/-! ### Words -/

section Words

variable {p : Parcel.Parcel} {v : ℕ} {str : List UInt16}

/-- The parcel is at the start of its data, which begin with a word. -/
structure Starts (p : Parcel.Parcel) (size v : ℕ) : Prop where
  pos : p.mDataPos = 0
  size_eq : p.mDataSize = size
  word : getLE p.bytes 0 4 = v

theorem Starts.readInt32 {size : ℕ} (h : Starts p size v) (hsize : 4 ≤ size) :
    ∃ q, Parcel.readInt32 p = (Parcel.toSigned 32 v, q) ∧ q.mDataPos = 4 ∧
      q.mDataSize = size ∧ q.bytes = p.bytes := by
  have hfits : (p.mDataPos + 4) % Parcel.sizeT ≤ p.mDataSize := by
    rw [h.pos, h.size_eq]
    exact hsize
  unfold Parcel.readInt32 Parcel.readAligned
  rw [if_pos hfits, h.pos, h.word]
  exact ⟨_, rfl, rfl, h.size_eq, rfl⟩

theorem Starts.readExceptionCode_zero (h : Starts p 4 0) :
    (Parcel.readExceptionCode p).map Prod.fst = some 0 := by
  obtain ⟨q, hread, -⟩ := h.readInt32 le_rfl
  unfold Parcel.readExceptionCode
  rw [hread]
  rfl

theorem Starts.readStrongBinder_none (h : Starts p 4 v) (s : ProcessState) (e : LookupEnv) :
    (Parcel.readStrongBinder s e p).1 = .ok (none, s) := by
  have hshort : ¬ (p.mDataPos + Parcel.objectSize) % Parcel.sizeT ≤ p.mDataSize := by
    rw [h.pos, h.size_eq]
    decide
  unfold Parcel.readStrongBinder Parcel.readObject
  dsimp only
  rw [if_neg hshort]
  rfl

theorem Starts.readString16_nil (h : Starts p 4 v) : (Parcel.readString16 p).1 = [] := by
  obtain ⟨q, hread, hpos, hsize, -⟩ := h.readInt32 le_rfl
  have hnone {len : ℕ} (hlen : 2 ≤ len) : Parcel.readInplace q len = (none, q) := by
    unfold Parcel.readInplace
    split
    · rfl
    · rename_i hmax
      have hstop : (4 + Parcel.padUnsafe len) % Parcel.sizeT = 4 + Parcel.padUnsafe len := by
        refine Nat.mod_eq_of_lt ?_
        unfold Parcel.int32Max at hmax
        unfold Parcel.padUnsafe Parcel.sizeT
        omega
      have hlarge : ¬ 4 + Parcel.padUnsafe len ≤ 4 := by
        unfold Parcel.padUnsafe
        omega
      have hcannot : Parcel.canRead q len = false := by
        unfold Parcel.canRead
        dsimp only
        rw [hpos, hsize, hstop, decide_eq_false hlarge, Bool.and_false]
      rw [hcannot]
      rfl
  have hplace : Parcel.readString16Inplace p = (none, q) := by
    unfold Parcel.readString16Inplace
    rw [hread]
    dsimp only
    rw [hnone (show 2 ≤ ((Parcel.toSigned 32 v).toNat + 1) * 2 by omega)]
    exact ite_self _
  unfold Parcel.readString16
  rw [hplace]

theorem Starts.readString16 {size : ℕ} (h : Starts p size str.length)
    (hsize : size = 4 + Parcel.padUnsafe ((str.length + 1) * 2)) (hlen : str.length < 2 ^ 29)
    (hstr : Parcel.charsAt p.bytes 4 str.length = str) : (Parcel.readString16 p).1 = str := by
  obtain ⟨q, hread, hpos, hqsize, hbytes⟩ := h.readInt32 (by omega)
  have hsigned : Parcel.toSigned 32 str.length = str.length := if_pos (by omega)
  have hrange : 0 ≤ (str.length : ℤ) ∧ (str.length : ℤ).toNat < Parcel.int32Max := by
    unfold Parcel.int32Max
    omega
  have hmod : (4 + Parcel.padUnsafe ((str.length + 1) * 2)) % Parcel.sizeT =
      4 + Parcel.padUnsafe ((str.length + 1) * 2) := by
    refine Nat.mod_eq_of_lt ?_
    unfold Parcel.padUnsafe Parcel.sizeT
    omega
  have hcan : Parcel.canRead q ((str.length + 1) * 2) = true := by
    unfold Parcel.canRead
    dsimp only
    rw [hpos, hqsize, hmod, hsize, decide_eq_true (Nat.le_add_right 4 _), decide_eq_true le_rfl]
    rfl
  have hplace : Parcel.readInplace q ((str.length + 1) * 2) =
      (some 4, { q with mDataPos := 4 + Parcel.padUnsafe ((str.length + 1) * 2) }) := by
    unfold Parcel.readInplace
    rw [if_neg (by unfold Parcel.int32Max; omega), if_pos hcan,
      Parcel.placeAt_of_data (by omega), hpos, hmod]
  unfold Parcel.readString16 Parcel.readString16Inplace
  rw [hread, hsigned]
  dsimp only
  rw [if_pos hrange, Int.toNat_natCast, hplace]
  dsimp only
  rw [hbytes, hstr]

end Words

/-! ### What was put -/

section Replies

variable {c : Call} {name : List UInt16} {h v : ℕ}

theorem Call.receive_pos (c : Call) (txn : Txn) : (c.receive (.data txn)).2.mDataPos = 0 := rfl

theorem Call.receive_size (c : Call) (txn : Txn) :
    (c.receive (.data txn)).2.mDataSize = txn.dataSize := rfl

theorem Call.receive_bytes (c : Call) (txn : Txn) :
    (c.receive (.data txn)).2.bytes = c.returnObjects txn.buffer txn.objects := rfl

theorem Call.receive_plain (c : Call) {txn : Txn} (hnone : txn.offsetsSize = 0) :
    (c.receive (.data txn)).2.bytes = txn.buffer := by
  have hobjects : txn.objects = [] := by rw [Txn.objects, hnone]; rfl
  rw [c.receive_bytes, hobjects]
  rfl

theorem Call.receive_word (c : Call) (hv : v < 2 ^ 32) :
    Starts (c.receive (.data (bioPutUint32 c.emptyReply v).txn)).2 4 v := by
  refine ⟨rfl, rfl, ?_⟩
  rw [c.receive_plain rfl]
  have hword : getLE (bioPutUint32 c.emptyReply v).txn.buffer 0 4 =
      getLE (putLE c.emptyReply.block 32 4 v) 32 4 := getLE_shift fun i _ => by
    rw [Nat.zero_add]
    rfl
  rw [hword]
  exact getLE_putLE_self hv

def Given.unflatten (g : Given) (s : ProcessState) (e : LookupEnv) :
    Except Fault (Option ℕ × ProcessState) :=
  match g with
  | .handle h => s.getStrongProxyForHandle h e
  | .object _ cookie => .ok (if cookie = 0 then none else some cookie, s)

theorem handle_objectAt (m : Parcel.Data) (off : ℕ) :
    (Parcel.objectAt m off).handle = getLE m (off + 8) 4 := by
  have hsplit : (Parcel.objectAt m off).binder =
      getLE m (off + 8) 4 + 256 ^ 4 * getLE m (off + 8 + 4) 4 := getLE_add m (off + 8) 4 4
  have hlt := getLE_lt m (off + 8) 4
  unfold Parcel.FlatObject.handle
  rw [hsplit]
  omega

theorem Given.unflatten_put {g : Given} (hg : g.Ok) (m : Parcel.Data) (off : ℕ) (s : ProcessState)
    (e : LookupEnv) :
    Parcel.unflattenBinder s e (some (Parcel.objectAt (g.put m off) off)) = g.unflatten s e := by
  unfold Parcel.unflattenBinder
  dsimp only
  cases g with
  | handle n =>
      have hlt : n < 256 ^ 4 := lt_of_lt_of_eq hg (by norm_num)
      have htype : (Parcel.objectAt (Given.put (.handle n) m off) off).type =
          Parcel.binderTypeHandle := by
        simp only [Parcel.objectAt, Given.put, Driver.Data.setHandle, Driver.Data.setType]
        rw [getLE_putLE_of_disjoint (by omega)]
        exact getLE_putLE_self (by decide)
      have hhandle : (Parcel.objectAt (Given.put (.handle n) m off) off).handle = n :=
        (handle_objectAt _ _).trans (getLE_putLE_self hlt)
      rw [htype, if_neg (by decide), if_pos rfl, hhandle]
      rfl
  | object ptr cookie =>
      have htype : (Parcel.objectAt (Given.put (.object ptr cookie) m off) off).type =
          Parcel.binderTypeBinder := by
        simp only [Parcel.objectAt, Given.put, Driver.Data.setBinder, Driver.Data.setType]
        rw [getLE_putLE_of_disjoint (by omega), getLE_putLE_of_disjoint (by omega)]
        exact getLE_putLE_self (by decide)
      have hcookie : (Parcel.objectAt (Given.put (.object ptr cookie) m off) off).cookie =
          cookie := getLE_putLE_self (lt_of_lt_of_eq hg.2 (by norm_num))
      rw [htype, if_pos rfl, hcookie]
      rfl

theorem bioPutRef_emptyReply (hh : h ≠ 0) :
    bioPutRef c.emptyReply h = putRefAt c.emptyReply.advanceObject 32 h := by
  unfold bioPutRef
  rw [if_pos hh]
  rfl

theorem Call.receive_ref (c : Call) (hh : h ≠ 0) (hlt : h < 2 ^ 32) :
    ∃ m, (c.receive (.data (bioPutRef c.emptyReply h).txn)).2.bytes = (c.returned h).put m 0 ∧
      (c.receive (.data (bioPutRef c.emptyReply h).txn)).2.objects = [0] ∧
        (c.receive (.data (bioPutRef c.emptyReply h).txn)).2.mDataSize = 24 := by
  rw [bioPutRef_emptyReply hh]
  generalize htxn : (putRefAt c.emptyReply.advanceObject 32 h).txn = txn
  have hsize : txn.dataSize = 24 := by rw [← htxn]; rfl
  have hoffs : txn.offsetsSize = 8 := by rw [← htxn]; rfl
  have hoff : txn.offsets 0 = 0 := by
    have hstored : getLE (putRefAt c.emptyReply.advanceObject 32 h).block 0 8 = 0 := by
      simp only [putRefAt, Reply.store]
      rw [getLE_putLE_of_disjoint (by omega), getLE_putLE_of_disjoint (by omega),
        getLE_putLE_of_disjoint (by omega), getLE_putLE_of_disjoint (by omega)]
      exact getLE_putLE_self (show 32 - 32 < 256 ^ 8 by decide)
    rw [← htxn]
    exact hstored
  have hobjects : txn.objects = [0] := by
    rw [Txn.objects, hoffs]
    exact congrArg (· :: []) hoff
  have hhandle : Driver.Data.handle txn.buffer 0 = h := by
    have hshift : getLE txn.buffer (0 + 8) 4 =
        getLE (putRefAt c.emptyReply.advanceObject 32 h).block (32 + 8) 4 := by
      rw [← htxn]
      refine getLE_shift fun i _ => ?_
      rw [Nat.zero_add, Nat.add_assoc]
      rfl
    exact hshift.trans (getLE_putRefAt _ 32 hlt).2
  refine ⟨txn.buffer, ?_, ?_, hsize⟩
  · rw [c.receive_bytes, hobjects]
    unfold Call.returnObjects
    rw [List.foldl_cons, List.foldl_nil, hhandle]
  · change (if Parcel.offsetsOk 0 txn.objects then txn.objects else []) = [0]
    rw [hobjects]
    rfl

theorem Call.Ok.readStrongBinder_ref (hc : c.Ok) (hh : h ≠ 0) (hlt : h < 2 ^ 32) (s : ProcessState)
    (e : LookupEnv) :
    (Parcel.readStrongBinder s e (c.receive (.data (bioPutRef c.emptyReply h).txn)).2).1 =
      (c.returned h).unflatten s e := by
  obtain ⟨m, hbytes, hobjects, hsize⟩ := c.receive_ref hh hlt
  have hpos := c.receive_pos (bioPutRef c.emptyReply h).txn
  generalize (c.receive (.data (bioPutRef c.emptyReply h).txn)).2 = p at *
  have hobject : (Parcel.readObject p false).1 =
      some (Parcel.objectAt ((c.returned h).put m 0) 0) := by
    have hfits : (p.mDataPos + Parcel.objectSize) % Parcel.sizeT ≤ p.mDataSize := by
      rw [hpos, hsize]
      decide
    have hfind (hint : ℕ) : Parcel.findObject p.objects hint p.mDataPos = some 0 := by
      rw [hobjects, hpos]
      cases hint <;> rfl
    unfold Parcel.readObject
    dsimp only
    rw [if_pos hfits]
    split
    · rw [hpos, hbytes]
    · simp only [Parcel.Parcel.record, hfind]
      rw [hpos, hbytes]
  unfold Parcel.readStrongBinder
  dsimp only
  rw [hobject]
  exact Given.unflatten_put (hc.returned h) m 0 s e

/-! ### Names -/

/-- What a client gets of a name: what is before its first zero, if there is room for it. -/
def shown (name : List UInt16) : List UInt16 :=
  let units := name.takeWhile (· ≠ 0)
  if units.length ≤ 109 then units else []

theorem roundUp4_length {n : ℕ} (hn : n < maxBioSize / 2) :
    roundUp4 ((n + 1) * 2) = Parcel.padUnsafe ((n + 1) * 2) := by
  unfold maxBioSize at hn
  unfold roundUp4 sizeT Parcel.padUnsafe
  omega

theorem putUnits_emptyReply {us : List UInt16} (hus : us.length ≤ 109) :
    c.emptyReply.putUnits us = copyUnits ((bioPutUint32 c.emptyReply us.length).advance
      (roundUp4 ((us.length + 1) * 2))) 36 (us ++ [0]) := by
  rw [Reply.putUnits]
  rcases bioAlloc_cases (bioPutUint32 c.emptyReply us.length) ((us.length + 1) * 2) with
    ⟨-, heq⟩ | ⟨hfull, -⟩
  · rw [heq]
    rfl
  · have havail : (bioPutUint32 c.emptyReply us.length).io.dataAvail = 220 := rfl
    rw [havail, roundUp4_length (by unfold maxBioSize; omega)] at hfull
    unfold Parcel.padUnsafe at hfull
    omega

theorem putUnits_emptyReply_long {us : List UInt16} (hus : 109 < us.length)
    (hshort : us.length < maxBioSize / 2) :
    c.emptyReply.putUnits us = (bioPutUint32 c.emptyReply us.length).overflows := by
  rw [Reply.putUnits]
  rcases bioAlloc_cases (bioPutUint32 c.emptyReply us.length) ((us.length + 1) * 2) with
    ⟨hfit, -⟩ | ⟨-, heq⟩
  · have havail : (bioPutUint32 c.emptyReply us.length).io.dataAvail = 220 := rfl
    rw [havail, roundUp4_length hshort] at hfit
    unfold Parcel.padUnsafe at hfit
    omega
  · rw [heq]

theorem charsAt_concat (m : Parcel.Data) (off n : ℕ) : Parcel.charsAt m off (n + 1) =
    Parcel.charsAt m off n ++ [UInt16.ofNat (getLE m (off + 2 * n) 2)] := by
  simp [Parcel.charsAt, List.range_succ]

theorem Call.readString16_units (c : Call) {us : List UInt16} (hus : us.length ≤ 109) :
    (Parcel.readString16 (c.receive (.data (c.emptyReply.putUnits us).txn)).2).1 = us := by
  have hround : roundUp4 ((us.length + 1) * 2) = Parcel.padUnsafe ((us.length + 1) * 2) :=
    roundUp4_length (by unfold maxBioSize; omega)
  generalize hr : (bioPutUint32 c.emptyReply us.length).advance
    (roundUp4 ((us.length + 1) * 2)) = r
  have hput : c.emptyReply.putUnits us = copyUnits r 36 (us ++ [0]) := by
    rw [putUnits_emptyReply hus, hr]
  have hfilled := copyUnits_filledIn r 36 (us ++ [0])
  have hdata : r.io.data = 36 + Parcel.padUnsafe ((us.length + 1) * 2) := by
    rw [← hr, ← hround]
    rfl
  have hdata0 : r.io.data0 = 32 := by rw [← hr]; rfl
  have hoffs : r.io.offs - r.io.offs0 = 0 := by rw [← hr]; rfl
  have hstored : getLE r.block 32 4 = us.length := by
    rw [← hr]
    exact getLE_putLE_self (show us.length < 256 ^ 4 by omega)
  rw [hput]
  have hbuffer : (copyUnits r 36 (us ++ [0])).txn.buffer = fun i =>
      (copyUnits r 36 (us ++ [0])).block (32 + i) := by
    unfold Reply.txn
    dsimp only
    rw [hfilled.io, hdata0]
  have hword : getLE (copyUnits r 36 (us ++ [0])).txn.buffer 0 4 = us.length := by
    rw [← hstored, hbuffer]
    refine getLE_shift fun i hi => ?_
    rw [Nat.zero_add]
    exact hfilled.block _ (.inl (by omega))
  have hunits : Parcel.charsAt (copyUnits r 36 (us ++ [0])).txn.buffer 4 us.length = us := by
    have hall := unitsAt_copyUnits 32 _ hbuffer r 4 (us ++ [0]) fun i _ _ => rfl
    rw [unitsAt_eq_charsAt, List.length_append, List.length_singleton, charsAt_concat] at hall
    exact List.append_inj_left' hall rfl
  have hbytes : (c.receive (.data (copyUnits r 36 (us ++ [0])).txn)).2.bytes =
      (copyUnits r 36 (us ++ [0])).txn.buffer := by
    refine c.receive_plain ?_
    unfold Reply.txn
    dsimp only
    rw [hfilled.io]
    exact hoffs
  refine Starts.readString16 ⟨rfl, ?_, ?_⟩ rfl (by omega) ?_
  · rw [c.receive_size]
    unfold Reply.txn
    dsimp only
    rw [hfilled.io, hdata, hdata0]
    omega
  · rw [hbytes, hword]
  · rw [hbytes, hunits]

theorem Call.readString16_put (c : Call) (name : List UInt16) :
    (Parcel.readString16 (c.receive (.data (bioPutString16 c.emptyReply name).txn)).2).1 =
      shown name := by
  rw [bioPutString16_eq, shown]
  generalize name.takeWhile (· ≠ 0) = us
  split
  · rename_i hlong
    unfold maxBioSize at hlong
    rw [if_neg (by omega)]
    exact (c.receive_word (by decide)).readString16_nil
  · rename_i hshort
    rw [not_le] at hshort
    split
    · rename_i hus
      exact c.readString16_units hus
    · rename_i hus
      rw [putUnits_emptyReply_long (not_le.mp hus) hshort]
      unfold maxBioSize at hshort
      exact (c.receive_word (show us.length < 2 ^ 32 by omega)).readString16_nil

end Replies

end ServiceManager

end BinderForLinux
