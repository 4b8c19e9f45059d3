import BinderForLinux.ServiceManager.Handler

/-!
# The service manager reads inside the message

Whatever the driver delivers, `svcmgr_handler` reads bytes of the data and entries of the
offsets only. The cursor and what it has left never pass the size of the data, and no
length that is computed from the message wraps.
-/

namespace BinderForLinux

namespace ServiceManager

open Library

def Access.Inside (txn : Txn) : Access → Prop
  | .data off len => off + len ≤ txn.dataSize
  | .offset n => (n + 1) * 8 ≤ txn.offsetsSize
  | .length v => v < sizeT
  | .moved io => io.data0 ≤ io.data ∧ io.data - io.data0 + io.dataAvail ≤ txn.dataSize

/-- A message of which only what is there was read, and whose cursor is inside. -/
structure Msg.Inside (txn : Txn) (m : Msg) : Prop where
  log : ∀ a ∈ m.log, a.Inside txn
  data0 : m.io.data0 = 0
  data : m.io.data + m.io.dataAvail ≤ txn.dataSize
  offs : m.io.offsAvail ≤ txn.offsetsSize / 8

section Reading

variable {txn : Txn} {m : Msg}

theorem Msg.Inside.note (hm : m.Inside txn) {a : Access} (ha : a.Inside txn) :
    (m.note a).Inside txn where
  log := by
    intro b hb
    rcases List.mem_append.mp hb with hb | hb
    · exact hm.log b hb
    · rw [List.mem_singleton.mp hb]
      exact ha
  data0 := hm.data0
  data := hm.data
  offs := hm.offs

theorem Msg.Inside.move (hm : m.Inside txn) {io : BinderIo} (h₀ : io.data0 = 0)
    (hd : io.data + io.dataAvail ≤ txn.dataSize) (ho : io.offsAvail ≤ m.io.offsAvail) :
    (m.move io).Inside txn where
  log := by
    intro b hb
    rcases List.mem_append.mp hb with hb | hb
    · exact hm.log b hb
    · rw [List.mem_singleton.mp hb]
      refine ⟨by omega, ?_⟩
      rw [h₀, Nat.sub_zero]
      exact hd
  data0 := h₀
  data := hd
  offs := ho.trans hm.offs

theorem bioGet_inside (hm : m.Inside txn) {size : ℕ} (hs : size + 3 < sizeT) :
    (bioGet m size).2.Inside txn ∧
      ∀ ptr, (bioGet m size).1 = some ptr → ptr + size ≤ txn.dataSize := by
  have hn := hm.note (a := .length (size + 3)) hs
  have hdata := hm.data
  have hround : size ≤ roundUp4 size := by
    unfold roundUp4
    rw [Nat.mod_eq_of_lt hs]
    omega
  rw [bioGet]
  split
  · refine ⟨hn.move hm.data0 ?_ le_rfl, by simp⟩
    exact (Nat.le_add_right _ _).trans hdata
  · rename_i hfit
    simp only [Msg.note, not_lt] at hfit
    refine ⟨hn.move hm.data0 ?_ le_rfl, ?_⟩
    · simp only [Msg.note]
      omega
    · intro ptr hptr
      simp only [Msg.note, Option.some.injEq] at hptr
      omega

theorem bioGetUint32_inside (hm : m.Inside txn) : (bioGetUint32 txn m).2.Inside txn := by
  obtain ⟨hi, hp⟩ := bioGet_inside hm (show 4 + 3 < sizeT by decide)
  rw [bioGetUint32]
  cases h : (bioGet m 4).1 with
  | some ptr => exact hi.note (hp ptr h)
  | none => exact hi

theorem bioGetUint32_lt (txn : Txn) (m : Msg) : (bioGetUint32 txn m).1 < 2 ^ 32 := by
  rw [bioGetUint32]
  cases (bioGet m 4).1 with
  | some ptr => exact getLE_lt txn.buffer ptr 4
  | none => exact Nat.two_pow_pos 32

theorem bioGetString16_inside (hm : m.Inside txn) :
    (bioGetString16 txn m).2.2.Inside txn ∧
      ∀ s, (bioGetString16 txn m).1 = some s →
        s + ((bioGetString16 txn m).2.1 + 1) * 2 ≤ txn.dataSize ∧
          (bioGetString16 txn m).2.1 < 2 ^ 32 := by
  have hlen := bioGetUint32_lt txn m
  have hbytes : ((bioGetUint32 txn m).1 + 1) * 2 + 3 < sizeT := by
    unfold sizeT
    omega
  have hmod : ((bioGetUint32 txn m).1 + 1) * 2 % sizeT = ((bioGetUint32 txn m).1 + 1) * 2 :=
    Nat.mod_eq_of_lt (by omega)
  have hn := (bioGetUint32_inside hm).note (a := .length (((bioGetUint32 txn m).1 + 1) * 2))
    (show _ < sizeT by omega)
  obtain ⟨hi, hp⟩ := bioGet_inside hn hbytes
  simp only [bioGetString16, hmod]
  exact ⟨hi, fun s hs => ⟨hp s hs, hlen⟩⟩

theorem findOffset_inside (off : ℕ) {k n : ℕ} {m : Msg} (hm : m.Inside txn)
    (hk : n + k ≤ txn.offsetsSize / 8) : (findOffset txn off k n m).2.Inside txn := by
  induction k generalizing n m with
  | zero => exact hm
  | succ k ih =>
      have hn : (m.note (.offset n)).Inside txn := hm.note (by
        show (n + 1) * 8 ≤ txn.offsetsSize
        omega)
      rw [findOffset]
      split
      · exact hn
      · exact ih hn (by omega)

theorem bioGetObj_inside (hm : m.Inside txn) :
    (bioGetObj txn m).2.Inside txn ∧
      ∀ obj, (bioGetObj txn m).1 = some obj → obj + objectSize ≤ txn.dataSize := by
  have hf := findOffset_inside (m.io.data - m.io.data0) (k := m.io.offsAvail) (n := 0) hm
    (by have := hm.offs; omega)
  simp only [bioGetObj]
  split
  · exact bioGet_inside hf (by decide)
  · refine ⟨hf.move hf.data0 ?_ le_rfl, by simp⟩
    exact (Nat.le_add_right _ _).trans hf.data

theorem bioGetRef_inside (hm : m.Inside txn) : (bioGetRef txn m).2.Inside txn := by
  obtain ⟨hi, hp⟩ := bioGetObj_inside hm
  rw [bioGetRef]
  cases h : (bioGetObj txn m).1 with
  | none => exact hi
  | some obj =>
      have hobj : obj + 24 ≤ txn.dataSize := hp obj h
      have hn : ((bioGetObj txn m).2.note (.data obj 4)).Inside txn := hi.note (by
        show obj + 4 ≤ txn.dataSize
        omega)
      dsimp only
      split
      · refine hn.note ?_
        show obj + 8 + 4 ≤ txn.dataSize
        omega
      · exact hn

end Reading

/-! ### The requests -/

section Requests

variable {txn : Txn} {h : Handling} {s len : ℕ}

theorem str8Loop_inside {max x : ℕ} {h : Handling} (hm : h.msg.Inside txn)
    (hx : x + max * 2 ≤ txn.dataSize) : (str8Loop txn max x h).msg.Inside txn := by
  induction max generalizing x h with
  | zero => exact hm
  | succ max ih =>
      have hn : (h.note (.data x 2)).msg.Inside txn := hm.note (by
        show x + 2 ≤ txn.dataSize
        omega)
      rw [str8Loop]
      split
      · exact ih hn (by omega)
      · exact hn

theorem str8_inside (hm : h.msg.Inside txn) (hs : s + (len + 1) * 2 ≤ txn.dataSize) :
    (str8 txn h s len).msg.Inside txn := by
  refine str8Loop_inside hm ?_
  split <;> omega

theorem findSvcLoop_inside {sis : List SvcInfo} {h : Handling} (hm : h.msg.Inside txn)
    (hs : s + (len + 1) * 2 ≤ txn.dataSize) (hl : len < 2 ^ 32) :
    (findSvcLoop txn s len sis h).2.msg.Inside txn := by
  induction sis generalizing h with
  | nil => exact hm
  | cons si sis ih =>
      have hlen : len * 2 < sizeT := by
        unfold sizeT
        omega
      have hn : ((h.note (.length (len * 2))).note (.data s (len * 2 % sizeT))).msg.Inside txn := by
        refine Msg.Inside.note (hm.note (a := .length (len * 2)) hlen) ?_
        show s + len * 2 % sizeT ≤ txn.dataSize
        rw [Nat.mod_eq_of_lt hlen]
        omega
      rw [findSvcLoop]
      split
      · dsimp only
        split
        · exact hn
        · exact ih hn
      · exact ih hm

theorem doFindService_inside (hm : h.msg.Inside txn) (hs : s + (len + 1) * 2 ≤ txn.dataSize)
    (hl : len < 2 ^ 32) : (doFindService txn h s len).2.msg.Inside txn := by
  have hf : (findSvc txn h s len).2.msg.Inside txn := findSvcLoop_inside hm hs hl
  rw [doFindService]
  cases (findSvc txn h s len).1 with
  | none => exact hf
  | some si =>
      dsimp only
      split
      · exact hf
      · exact str8_inside hf hs

theorem svcinfoDeath_msg (h : Handling) (si : SvcInfo) : (svcinfoDeath h si).msg = h.msg := by
  unfold svcinfoDeath
  split <;> rfl

theorem enterService_inside (malloc : Option ℕ) (handle : ℕ) (allowIsolated : Bool)
    (hm : h.msg.Inside txn) (hs : s + (len + 1) * 2 ≤ txn.dataSize) (hl : len < 2 ^ 32) :
    (enterService txn malloc h s len handle allowIsolated).2.msg.Inside txn := by
  have hf : (findSvc txn h s len).2.msg.Inside txn := findSvcLoop_inside hm hs hl
  rw [enterService]
  cases (findSvc txn h s len).1 with
  | some si =>
      show Msg.Inside txn (if _ then _ else _ : Handling).msg
      split
      · rw [svcinfoDeath_msg]
        exact str8_inside hf hs
      · exact hf
  | none =>
      have hsize : 48 + (len + 1) * 2 < sizeT := by
        unfold sizeT
        omega
      have hbytes : (len + 1) * 2 < sizeT := by omega
      have hn := hf.note (a := .length (48 + (len + 1) * 2)) hsize
      cases malloc with
      | none => exact str8_inside hn hs
      | some addr =>
          refine (hn.note (a := .length ((len + 1) * 2)) hbytes).note ?_
          show s + (len + 1) * 2 % sizeT ≤ txn.dataSize
          rw [Nat.mod_eq_of_lt hbytes]
          exact hs

theorem doAddService_inside (malloc : Option ℕ) (handle : ℕ) (allowIsolated : Bool)
    (hm : h.msg.Inside txn) (hs : s + (len + 1) * 2 ≤ txn.dataSize) (hl : len < 2 ^ 32) :
    (doAddService txn malloc h s len handle allowIsolated).2.msg.Inside txn := by
  have he := enterService_inside malloc handle allowIsolated (str8_inside hm hs) hs hl
  rw [doAddService]
  split
  · exact hm
  · dsimp only
    cases (enterService txn malloc (str8 txn h s len) s len handle allowIsolated).1 with
    | none => exact he
    | some si => exact he

theorem getService_inside (hm : h.msg.Inside txn) : (getService txn h).2.msg.Inside txn := by
  obtain ⟨hi, hp⟩ := bioGetString16_inside hm
  rw [getService]
  cases hs : (bioGetString16 txn h.msg).1 with
  | none => exact hi
  | some s =>
      have hf := doFindService_inside (h := h.read (bioGetString16 txn h.msg).2.2) hi
        (hp s hs).1 (hp s hs).2
      dsimp only
      split <;> exact hf

theorem addService_inside (malloc : Option ℕ) (hm : h.msg.Inside txn) :
    (addService txn malloc h).2.msg.Inside txn := by
  obtain ⟨hi, hp⟩ := bioGetString16_inside hm
  rw [addService]
  cases hs : (bioGetString16 txn h.msg).1 with
  | none => exact hi
  | some s =>
      have hr := bioGetUint32_inside (bioGetRef_inside hi)
      dsimp only
      split
      all_goals exact doAddService_inside (h := h.read _) malloc _ _ hr (hp s hs).1 (hp s hs).2

theorem listServices_inside (hm : h.msg.Inside txn) : (listServices txn h).2.msg.Inside txn := by
  have hi := bioGetUint32_inside hm
  simp only [listServices]
  cases nthSvc (bioGetUint32 txn h.msg).1 (h.read (bioGetUint32 txn h.msg).2).svclist with
  | some si => exact hi
  | none => exact hi

theorem svcmgrHandler_msg (malloc : Option ℕ) (hm : h.msg.Inside txn) :
    (svcmgrHandler txn malloc h).2.msg.Inside txn := by
  rw [svcmgrHandler]
  split
  · exact hm
  split
  · exact hm
  obtain ⟨hi, hp⟩ := bioGetString16_inside (bioGetUint32_inside hm)
  dsimp only
  cases hs : (bioGetString16 txn (bioGetUint32 txn h.msg).2).1 with
  | none => exact hi
  | some s =>
      obtain ⟨hin, hl⟩ := hp s hs
      dsimp only
      split
      · exact str8_inside (h := h.read _) hi hin
      · rename_i hlen
        have hlen : (bioGetString16 txn (bioGetUint32 txn h.msg).2).2.1 = 26 :=
          not_not.mp hlen
        have hn : ((h.read (bioGetString16 txn (bioGetUint32 txn h.msg).2).2.2).note
            (.data s 52)).msg.Inside txn := hi.note (by
          show s + 52 ≤ txn.dataSize
          omega)
        split
        · exact str8_inside hn hin
        split
        · exact getService_inside hn
        split
        · exact addService_inside malloc hn
        split
        · exact listServices_inside hn
        · exact hn

end Requests

theorem bioInitFromTxn_inside (txn : Txn) :
    ({ io := bioInitFromTxn txn, log := [.moved (bioInitFromTxn txn)] } : Msg).Inside txn where
  log := by
    intro a ha
    rw [List.mem_singleton.mp ha]
    show 0 ≤ 0 ∧ 0 - 0 + txn.dataSize ≤ txn.dataSize
    omega
  data0 := rfl
  data := Nat.le_of_eq (Nat.zero_add _)
  offs := le_rfl

/-- Every read of a transaction is inside its message, and so is the cursor after every move; no
length wraps. -/
theorem svcmgrHandler_inside (txn : Txn) (malloc : Option ℕ) (svclist : List SvcInfo)
    (reply : Reply) (sent : List Command) :
    (svcmgrHandler txn malloc
      { svclist := svclist
        msg := { io := bioInitFromTxn txn, log := [.moved (bioInitFromTxn txn)] }
        reply := reply
        sent := sent }).2.msg.Inside txn :=
  svcmgrHandler_msg malloc (bioInitFromTxn_inside txn)

end ServiceManager

end BinderForLinux
