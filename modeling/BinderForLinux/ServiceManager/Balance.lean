import BinderForLinux.ServiceManager.Registry

/-!
# What the service manager holds

The handles that the service manager has taken and not given back are those of its
entries, and it never gives back a handle that it does not hold. It asks for the death of
each service it holds, and answers each transaction once, freeing its buffer.
-/

namespace BinderForLinux

namespace ServiceManager

open Library

def Written.takes (handle : ℕ) : Written → Bool
  | .command (.acquire h) => h = handle
  | _ => false

def Written.gives (handle : ℕ) : Written → Bool
  | .command (.release h) => h = handle
  | _ => false

def Written.buffer : Written → Option ℕ
  | .reply buffer _ => some buffer
  | .command _ => none

def holders (svclist : List SvcInfo) (handle : ℕ) : ℕ :=
  svclist.countP fun si => si.handle = handle

/-- The handles that are held are those of the entries. -/
structure Balanced (ts : List Turn) (mgr : Manager) : Prop where
  counts : ∀ handle, handle ≠ 0 → mgr.written.countP (Written.takes handle) =
    mgr.written.countP (Written.gives handle) + holders mgr.svclist handle
  held : ∀ handle, handle ≠ 0 → ∀ ws, ws <+: mgr.written →
    ws.countP (Written.gives handle) ≤ ws.countP (Written.takes handle)
  linked : ∀ si ∈ mgr.svclist, si.handle ≠ 0 →
    .command (.requestDeathNotification si.handle si.addr) ∈ mgr.written
  answered : mgr.written.filterMap Written.buffer = ts.filterMap Turn.buffer

section Balance

variable {svclist svclist' : List SvcInfo} {si : SvcInfo} {mgr mgr' : Manager} {ts pre : List Turn}
  {t : Turn} {ws extra : List Written} {name : List UInt16} {handle addr : ℕ}

theorem holders_handleSet (h : Distinct svclist) (hsi : si ∈ svclist) (handle handle' : ℕ) :
    holders (handleSet svclist si.addr handle') handle + (if si.handle = handle then 1 else 0) =
      holders svclist handle + if handle' = handle then 1 else 0 := by
  have haddrs := h.addrs
  unfold holders handleSet
  clear h
  induction svclist with
  | nil => simp at hsi
  | cons si' svclist ih =>
      rw [List.map_cons, List.nodup_cons] at haddrs
      rw [List.map_cons, List.countP_cons, List.countP_cons]
      rcases List.mem_cons.mp hsi with rfl | hsi
      · have hrest : (svclist.map fun si' =>
            if si'.addr = si.addr then { si' with handle := handle' } else si') = svclist := by
          conv_rhs => rw [← List.map_id svclist]
          refine List.map_congr_left fun si' hsi' => ?_
          have hne : si'.addr ≠ si.addr := fun heq => haddrs.1 (heq ▸ List.mem_map_of_mem hsi')
          rw [if_neg hne]
          rfl
        rw [hrest]
        simp only [↓reduceIte, decide_eq_true_eq]
        omega
      · have hne : si'.addr ≠ si.addr := fun heq => haddrs.1 (heq ▸ List.mem_map_of_mem hsi)
        have hrest := ih hsi haddrs.2
        simp only [hne, ↓reduceIte]
        omega

theorem held_append {holds : ℕ}
    (hcounts : ws.countP (Written.takes handle) = ws.countP (Written.gives handle) + holds)
    (hheld : ∀ ws', ws' <+: ws → ws'.countP (Written.gives handle) ≤
      ws'.countP (Written.takes handle))
    (hextra : extra.countP (Written.gives handle) ≤ holds) :
    ∀ ws', ws' <+: ws ++ extra → ws'.countP (Written.gives handle) ≤
      ws'.countP (Written.takes handle) := by
  intro ws' hpre
  rcases List.prefix_or_prefix_of_prefix hpre (List.prefix_append ws extra) with hpre | ⟨l, rfl⟩
  · exact hheld ws' hpre
  · have hl : l <+: extra := (List.prefix_append_right_inj ws).mp hpre
    have hle : l.countP (Written.gives handle) ≤ extra.countP (Written.gives handle) :=
      hl.sublist.countP_le
    rw [List.countP_append, List.countP_append, hcounts]
    omega

theorem Balanced.step (h : Balanced pre mgr) (hwritten : mgr'.written = mgr.written ++ extra)
    (hcounts : ∀ handle, handle ≠ 0 → extra.countP (Written.takes handle) +
      holders mgr.svclist handle =
        extra.countP (Written.gives handle) + holders mgr'.svclist handle)
    (hgives : ∀ handle, handle ≠ 0 →
      extra.countP (Written.gives handle) ≤ holders mgr.svclist handle)
    (hlinked : ∀ si ∈ mgr'.svclist, si.handle ≠ 0 → si ∈ mgr.svclist ∨
      .command (.requestDeathNotification si.handle si.addr) ∈ extra)
    (hanswered : extra.filterMap Written.buffer = t.buffer.toList) :
    Balanced (pre ++ [t]) mgr' where
  counts := fun handle hzero => by
    rw [hwritten, List.countP_append, List.countP_append, h.counts handle hzero]
    have := hcounts handle hzero
    omega
  held := fun handle hzero => by
    rw [hwritten]
    exact held_append (h.counts handle hzero) (h.held handle hzero) (hgives handle hzero)
  linked := fun si hsi hzero => by
    rw [hwritten]
    rcases hlinked si hsi hzero with hmem | hmem
    · exact List.mem_append_left _ (h.linked si hmem hzero)
    · exact List.mem_append_right _ hmem
  answered := by
    rw [hwritten, List.filterMap_append, List.filterMap_append, h.answered, hanswered]
    cases hb : t.buffer <;> simp [hb]

theorem transact_written (mgr : Manager) (txn : Txn) (buffer : ℕ) (malloc : Option ℕ)
    (io : BinderIo) (rdata : ℕ → UInt8) :
    ∃ answer, ((mgr.transact txn buffer malloc io rdata).svclist = mgr.svclist ∧
        (mgr.transact txn buffer malloc io rdata).written =
          mgr.written ++ [.reply buffer answer]) ∨
      ∃ name handle allowIsolated, added mgr.svclist malloc name handle allowIsolated =
          some (mgr.transact txn buffer malloc io rdata).svclist ∧
        (mgr.transact txn buffer malloc io rdata).written = mgr.written ++
          ((addCommands mgr.svclist malloc name handle).map .command ++
            [.reply buffer answer]) := by
  obtain ⟨o, ho, -, heq⟩ := transact_outcome mgr txn buffer malloc io rdata
  refine ⟨binderSendReply o.reply o.status, ?_⟩
  rw [heq, List.append_assoc]
  cases hreq : txn.request with
  | add name handle allowIsolated =>
      simp only [hreq, Request.outcome] at ho
      cases hadded : added mgr.svclist malloc name handle allowIsolated with
      | none =>
          rw [hadded] at ho
          exact .inl (by simp [ho])
      | some svclist' =>
          rw [hadded] at ho
          exact .inr ⟨name, handle, allowIsolated, by rw [ho, hadded], by rw [ho]⟩
  | list n =>
      rw [hreq] at ho
      simp only [Request.outcome] at ho
      refine .inl ?_
      split at ho <;> simp [ho]
  | _ =>
      rw [hreq] at ho
      exact .inl (by simp [ho, Request.outcome])

theorem countP_releaseOf (si : SvcInfo) (handle : ℕ) (hzero : handle ≠ 0) :
    (((releaseOf (some si)).map Written.command).countP (Written.gives handle) =
        if si.handle = handle then 1 else 0) ∧
      ((releaseOf (some si)).map Written.command).countP (Written.takes handle) = 0 ∧
      ((releaseOf (some si)).map Written.command).filterMap Written.buffer = [] := by
  by_cases hsi : si.handle = 0
  · have hne : ¬ 0 = handle := fun h => hzero h.symm
    simp [releaseOf, hsi, hne]
  · simp [releaseOf, hsi, Written.gives, Written.takes, Written.buffer, List.countP_cons]

theorem holders_pos (hsi : si ∈ svclist) : (if si.handle = handle then 1 else 0) ≤
    holders svclist handle := by
  split
  · rename_i h
    exact List.countP_pos_iff.mpr ⟨si, hsi, by simpa using h⟩
  · exact Nat.zero_le _

theorem Balanced.death (h : Balanced pre mgr) (hd : Distinct mgr.svclist) {cookie : ℕ}
    (hdie : mgr.die cookie = .ok mgr') : Balanced (pre ++ [.death cookie]) mgr' := by
  obtain ⟨dead, hdead, rfl, rfl⟩ := die_eq hd hdie
  refine h.step rfl (fun handle hzero => ?_) (fun handle hzero => ?_) (fun si hsi hzero => ?_) ?_
  · obtain ⟨hgives, htakes, -⟩ := countP_releaseOf dead handle hzero
    have hset := holders_handleSet hd hdead handle 0
    rw [if_neg (Ne.symm hzero)] at hset
    dsimp only
    omega
  · rw [(countP_releaseOf dead handle hzero).1]
    exact holders_pos hdead
  · obtain ⟨si', hsi', rfl⟩ := List.mem_map.mp hsi
    by_cases haddr : si'.addr = dead.addr
    · simp [haddr] at hzero
    · exact .inl (by rwa [if_neg haddr])
  · exact (countP_releaseOf dead 1 one_ne_zero).2.2

theorem Balanced.transaction (h : Balanced pre mgr) (hd : Distinct mgr.svclist) (txn : Txn)
    (buffer : ℕ) (malloc : Option ℕ) (io : BinderIo) (rdata : ℕ → UInt8) :
    Balanced (pre ++ [.transaction txn buffer malloc io rdata])
      (mgr.transact txn buffer malloc io rdata) := by
  obtain ⟨answer, ⟨hlist, hwritten⟩ | ⟨name, handle, allowIsolated, hadded, hwritten⟩⟩ :=
    transact_written mgr txn buffer malloc io rdata
  · refine h.step hwritten (fun handle _ => ?_) (fun handle _ => ?_) (fun si hsi _ => ?_) rfl
    · rw [hlist]
      rfl
    · exact Nat.zero_le _
    · exact .inl (hlist ▸ hsi)
  · obtain ⟨hne, -, -, ⟨old, hold, hlist⟩ | ⟨hnone, addr, rfl, hlist⟩⟩ := added_eq hadded
    · obtain ⟨hmem, -⟩ := named_mem hold
      have hcommands : addCommands mgr.svclist malloc name handle = releaseOf (some old) ++
          [.acquire handle, .requestDeathNotification handle old.addr] := by
        simp [addCommands, hold]
      rw [hcommands] at hwritten
      refine h.step hwritten (fun handle' hzero => ?_) (fun handle' hzero => ?_)
        (fun si hsi hzero => ?_) ?_
      · obtain ⟨hgives, htakes, -⟩ := countP_releaseOf old handle' hzero
        have hset := holders_handleSet hd hmem handle' handle
        rw [hlist]
        simp only [List.map_append, List.countP_append, hgives, htakes]
        simp only [List.map_cons, List.map_nil, List.countP_cons, List.countP_nil, Written.takes,
          Written.gives, decide_eq_true_eq, Bool.false_eq_true, ↓reduceIte]
        omega
      · obtain ⟨hgives, -, -⟩ := countP_releaseOf old handle' hzero
        simp only [List.map_append, List.countP_append, hgives]
        exact holders_pos hmem
      · rw [hlist] at hsi
        obtain ⟨si', hsi', rfl⟩ := List.mem_map.mp hsi
        by_cases haddr : si'.addr = old.addr
        · exact .inr (by simp [haddr])
        · exact .inl (by rwa [if_neg haddr])
      · rw [List.filterMap_append, List.map_append, List.filterMap_append,
          (countP_releaseOf old 1 one_ne_zero).2.2]
        rfl
    · have hcommands : addCommands mgr.svclist (some addr) name handle =
          [.acquire handle, .requestDeathNotification handle addr] := by
        simp [addCommands, hnone, releaseOf]
      rw [hcommands] at hwritten
      refine h.step hwritten (fun handle' hzero => ?_) (fun handle' hzero => ?_)
        (fun si hsi hzero => ?_) rfl
      · rw [hlist]
        simp [holders, List.countP_cons, Written.takes, Written.gives]
        omega
      · simp [Written.gives]
      · rw [hlist, List.mem_cons] at hsi
        rcases hsi with rfl | hsi
        · exact .inr (by simp)
        · exact .inl hsi

theorem balanced_start : Balanced [] .start where
  counts := fun _ _ => rfl
  held := fun handle _ ws hws => by
    obtain rfl := List.prefix_nil.mp hws
    exact le_rfl
  linked := fun si hsi => by simp [Manager.start] at hsi
  answered := rfl

/-- Whatever clients send and whoever dies: the service manager has taken each handle as often as
it gave it back and has entries for it, it never gives back what it does not hold, it has asked for
the death of every service it holds, and it has answered each transaction once, in order. -/
theorem balanced_of_run (hrun : runActions Manager.turn .start ts = .ok mgr)
    (hfresh : (mallocs ts).Nodup) : Balanced ts mgr := by
  refine runActions_invariant hrun balanced_start fun pre t s s' hpre hrun h hturn => ?_
  have hd : Distinct s.svclist := (registered_of_run hrun (by
    obtain ⟨post, rfl⟩ := (List.prefix_append pre [t]).trans hpre
    unfold mallocs at hfresh ⊢
    rw [List.filterMap_append] at hfresh
    exact (List.nodup_append.mp hfresh).1)).distinct
  cases t with
  | death cookie => exact h.death hd hturn
  | transaction txn buffer malloc io rdata =>
      obtain rfl := Except.ok.inj hturn
      exact h.transaction hd txn buffer malloc io rdata

end Balance

theorem balanced_of_run_phone : ∃ mgr,
    runActions Manager.turn .start [addPhone 7 4096, .death 4096, addPhone 9 8192] = .ok mgr ∧
      mgr.written.countP (Written.takes 9) = mgr.written.countP (Written.gives 9) + 1 := by
  obtain ⟨mgr, hrun, hmgr⟩ := addPhone_run
  have hcounts := (balanced_of_run hrun (by decide)).counts 9 (by decide)
  rw [hmgr] at hcounts
  exact ⟨mgr, hrun, hcounts⟩

end ServiceManager

end BinderForLinux
