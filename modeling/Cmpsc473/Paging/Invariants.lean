import Cmpsc473.Paging.Simulator
/-!
# Invariants of the simulator

`Inv n s` says where the `n` blocks are, what their records hold, and what the
user time adds up to. `Charged` says what `readPage` can do: move the clock, and
change the block it runs. The other functions move blocks from list to list; for
each of them there is one lemma.
-/

namespace Cmpsc473.Paging

open Function

variable {sp : SysParam} {s s' : Sim} {n p : Nat}

/-! ## Running a process -/

/-- The lists and the records are the same. -/
structure SameLists (s s' : Sim) : Prop where
  processList : s'.processList = s.processList
  readyProcess : s'.readyProcess = s.readyProcess
  runningProcess : s'.runningProcess = s.runningProcess
  blockedProcess : s'.blockedProcess = s.blockedProcess
  stats : s'.perProcessStats = s.perProcessStats
  finished : s'.finished = s.finished

/-- Only the block `p` changed, and its user time moved on with `userTime`. -/
structure Charged (s s' : Sim) (p : Nat) : Prop where
  lists : SameLists s s'
  others : ∀ q, q ≠ p → s'.pcb q = s.pcb q
  time : ∃ d, s'.userTime = s.userTime + d ∧ (s'.pcb p).userTime = (s.pcb p).userTime + d

theorem SameLists.refl (s : Sim) : SameLists s s := ⟨rfl, rfl, rfl, rfl, rfl, rfl⟩

theorem SameLists.trans {s'' : Sim} (h : SameLists s s') (h' : SameLists s' s'') : SameLists s s'' :=
  ⟨h'.processList.trans h.processList, h'.readyProcess.trans h.readyProcess,
    h'.runningProcess.trans h.runningProcess, h'.blockedProcess.trans h.blockedProcess, h'.stats.trans h.stats,
    h'.finished.trans h.finished⟩

theorem Charged.refl (s : Sim) (p : Nat) : Charged s s p := ⟨.refl s, fun _ _ => rfl, 0, by simp, by simp⟩

theorem Charged.trans {s'' : Sim} (h : Charged s s' p) (h' : Charged s' s'' p) : Charged s s'' p := by
  obtain ⟨d, h1, h2⟩ := h.time
  obtain ⟨e, h3, h4⟩ := h'.time
  refine ⟨h.lists.trans h'.lists, fun q hq => (h'.others q hq).trans (h.others q hq), d + e, ?_, ?_⟩
  · rw [h3, h1, UInt64.add_assoc]
  · rw [h4, h2, UInt64.add_assoc]

theorem charge_charged (s : Sim) (p : Nat) (t : UInt64) : Charged s (s.charge p t) p :=
  ⟨⟨rfl, rfl, rfl, rfl, rfl, rfl⟩, fun _ hq => update_of_ne hq _ _, t, rfl, by simp [Sim.charge]⟩

/-- A change to the block that leaves its user time alone. -/
theorem modify_charged (s : Sim) (p : Nat) {f : Pcb → Pcb} (hf : ∀ q, (f q).userTime = q.userTime) :
    Charged s (s.modify p f) p :=
  ⟨⟨rfl, rfl, rfl, rfl, rfl, rfl⟩, fun _ hq => update_of_ne hq _ _, 0, by simp [Sim.modify], by simp [Sim.modify, hf]⟩

theorem tlbScan_charged (addr : NextMem) (p k : Nat) (s : Sim) : Charged s (tlbScan addr p k s).1 p := by
  induction k generalizing s with
  | zero => exact .refl s p
  | succ k ih =>
    unfold tlbScan
    split
    · dsimp only
      exact modify_charged s p fun _ => rfl
    · refine Charged.trans (modify_charged s p ?_) (ih _)
      exact fun _ => rfl

theorem chargeNonmem_charged (s : Sim) (p : Nat) (t : UInt64) : Charged s (chargeNonmem sp s p t) p := by
  unfold chargeNonmem
  extract_lets timeNeeded
  split
  · refine (charge_charged s p _).trans (modify_charged _ p ?_)
    exact fun _ => rfl
  · refine ((modify_charged s p ?_).trans (charge_charged _ p _)).trans (modify_charged _ p ?_)
    · exact fun _ => rfl
    · exact fun _ => rfl

theorem chargeMem_charged (s : Sim) (p : Nat) (t : UInt64) : Charged s (chargeMem sp s p t) p := by
  unfold chargeMem
  extract_lets timeNeeded
  split
  · refine (charge_charged s p _).trans (modify_charged _ p ?_)
    exact fun _ => rfl
  · refine (modify_charged s p ?_).trans (charge_charged _ p _)
    exact fun _ => rfl

theorem lookup_charged (addr : NextMem) (s : Sim) (p : Nat) : Charged s (lookup sp addr s p).1 p := by
  have hscan := tlbScan_charged addr p sp.tlbSizeInEntries.toNat s
  unfold lookup
  dsimp only
  split
  · exact hscan
  · split
    · apply hscan.trans
      dsimp only
      exact modify_charged _ p fun _ => rfl
    · apply hscan.trans
      dsimp only
      exact modify_charged _ p fun _ => rfl

theorem readPage_charged (sp : SysParam) (s : Sim) (p : Nat) (stopTime : UInt64) : Charged s (readPage sp s p stopTime).1 p := by
  unfold readPage
  split
  · exact .refl s p
  · dsimp only
    split
    · split
      · exact chargeNonmem_charged s p _
      · exact chargeNonmem_charged s p _
    · split
      · exact chargeMem_charged s p _
      · exact (chargeMem_charged s p _).trans (lookup_charged _ _ p)

/-! ## The invariant -/

/-- The blocks that are not finished: those in the four lists. -/
def Sim.unfinished (s : Sim) : Multiset Nat :=
  held s.processList + held s.readyProcess + held s.runningProcess + held s.blockedProcess

/-- What holds between the steps of a round. -/
structure Inv (n : Nat) (s : Sim) : Prop where
  /-- Each block is once in one of the lists or finished. -/
  places : s.unfinished + (s.finished : Multiset Nat) = Multiset.range n
  process_solid : none ∉ s.processList
  ready_solid : none ∉ s.readyProcess
  blocked_solid : none ∉ s.blockedProcess
  /-- Behind the head of the running list there are `NULL` entries only. -/
  behind : ∀ x ∈ gllPop s.runningProcess, x = none
  stats : s.perProcessStats.map Stats.processName = s.finished
  booked : ∀ st ∈ s.perProcessStats, st.userTime = (s.pcb st.processName).userTime
  time : s.userTime.toNat ≡ ∑ i ∈ Finset.range n, (s.pcb i).userTime.toNat [MOD 18446744073709551616]

/-- Charging block `p` moves both sides of `Inv.time`. -/
theorem charged_total (h : Charged s s' p) (hp : p < n)
    (ht : s.userTime.toNat ≡ ∑ i ∈ Finset.range n, (s.pcb i).userTime.toNat [MOD 18446744073709551616]) :
    s'.userTime.toNat ≡ ∑ i ∈ Finset.range n, (s'.pcb i).userTime.toNat [MOD 18446744073709551616] := by
  obtain ⟨d, h1, h2⟩ := h.time
  have hmem := Finset.mem_range.2 hp
  have hrest : ∑ i ∈ (Finset.range n).erase p, (s'.pcb i).userTime.toNat =
      ∑ i ∈ (Finset.range n).erase p, (s.pcb i).userTime.toNat :=
    Finset.sum_congr rfl fun i hi => by rw [h.others i (Finset.ne_of_mem_erase hi)]
  rw [← Finset.add_sum_erase _ _ hmem] at ht ⊢
  rw [hrest, h1, h2, UInt64.toNat_add, UInt64.toNat_add]
  unfold Nat.ModEq at *
  omega

/-- Steps that leave the lists and the times of the finished blocks alone. -/
theorem Inv.keep (h : Inv n s) (hl : SameLists s s')
    (hb : ∀ st ∈ s.perProcessStats, (s'.pcb st.processName).userTime = (s.pcb st.processName).userTime)
    (ht : s'.userTime.toNat ≡ ∑ i ∈ Finset.range n, (s'.pcb i).userTime.toNat [MOD 18446744073709551616]) :
    Inv n s' := by
  obtain ⟨h1, h2, h3, h4, h5, h6, h7, -⟩ := h
  obtain ⟨l1, l2, l3, l4, l5, l6⟩ := hl
  refine ⟨?_, l1 ▸ h2, l2 ▸ h3, l4 ▸ h4, l3 ▸ h5, ?_, ?_, ht⟩
  · rw [Sim.unfinished, l1, l2, l3, l4, l6]
    exact h1
  · rw [l5, l6, h6]
  · intro st hst
    rw [l5] at hst
    rw [hb st hst]
    exact h7 st hst

/-- Steps that leave the lists and the user times alone. -/
theorem Inv.congr (h : Inv n s) (hl : SameLists s s') (hp : ∀ i, (s'.pcb i).userTime = (s.pcb i).userTime)
    (hu : s'.userTime = s.userTime) : Inv n s' := by
  refine h.keep hl (fun st _ => hp st.processName) ?_
  rw [hu, Finset.sum_congr rfl fun i _ => by rw [hp i]]
  exact h.time

theorem modify_userTime {f : Pcb → Pcb} (hf : ∀ q, (f q).userTime = q.userTime) (i : Nat) :
    ((s.modify p f).pcb i).userTime = (s.pcb i).userTime := by
  by_cases hi : i = p
  · subst hi; simp [Sim.modify, hf]
  · simp [Sim.modify, hi]

/-- No block is in a list twice, or in a list and finished. -/
theorem Inv.nodup (h : Inv n s) :
    s.unfinished.Nodup ∧ s.finished.Nodup ∧ Disjoint s.unfinished (s.finished : Multiset Nat) := by
  have hnd := Multiset.nodup_range n
  rwa [← h.places, Multiset.nodup_add] at hnd

/-- A block in a list is one of the `n`, and not finished. -/
theorem Inv.live (h : Inv n s) (hp : p ∈ s.unfinished) : p < n ∧ p ∉ s.finished :=
  ⟨Multiset.mem_range.1 (h.places ▸ Multiset.mem_add.2 (.inl hp)), Multiset.disjoint_left.1 h.nodup.2.2 hp⟩

theorem Inv.charged (h : Inv n s) (hp : p ∈ s.unfinished) (hc : Charged s s' p) : Inv n s' := by
  obtain ⟨hn, hf⟩ := h.live hp
  refine h.keep hc.lists (fun st hst => ?_) (charged_total hc hn h.time)
  have hne : st.processName ≠ p := by
    rintro rfl
    exact hf (h.stats ▸ List.mem_map_of_mem hst)
  rw [hc.others _ hne]

/-- The list holds `NULL` entries only. -/
def Vacant (l : Gll) : Prop := ∀ x ∈ l, x = none

theorem vacant_pop {l : Gll} (h : Vacant l) : Vacant (gllPop l) := fun x hx => h x (List.mem_of_mem_tail hx)

/-- Nothing runs. -/
theorem Inv.vacant (h : Inv n s) (hr : gllFirst s.runningProcess = none) : Vacant s.runningProcess := by
  intro x hx
  have hb := h.behind
  cases hl : s.runningProcess with
  | nil => rw [hl] at hx; cases hx
  | cons y l =>
    rw [hl] at hx hr hb
    rcases List.mem_cons.1 hx with rfl | hx
    · exact hr
    · exact hb x hx

theorem unfinished_of_running (hr : gllFirst s.runningProcess = some p) : p ∈ s.unfinished := by
  rw [Sim.unfinished, held_first hr]
  simp

/-! ## Moving blocks -/

/-- The running block goes to the end of the blocked list. -/
theorem Inv.block (h : Inv n s) (hr : gllFirst s.runningProcess = some p) :
    Inv n { s with
      blockedProcess := gllPushBack s.blockedProcess (gllFirst s.runningProcess)
      runningProcess := gllPop s.runningProcess
      numberPageFaults := s.numberPageFaults + 1 } := by
  obtain ⟨h1, h2, h3, h4, h5, h6, h7, h8⟩ := h
  rw [hr]
  refine ⟨?_, h2, h3, none_notMem_pushBack h4 p, vacant_pop h5, h6, h7, h8⟩
  rw [← h1]
  simp only [Sim.unfinished, held_pushBack, held_first hr]
  ac_rfl

/-- The running block goes to the end of the ready list. -/
theorem Inv.requeue (h : Inv n s) (hr : gllFirst s.runningProcess = some p) :
    Inv n { s with
      readyProcess := gllPushBack s.readyProcess (gllFirst s.runningProcess)
      runningProcess := gllPop s.runningProcess } := by
  obtain ⟨h1, h2, h3, h4, h5, h6, h7, h8⟩ := h
  rw [hr]
  refine ⟨?_, h2, none_notMem_pushBack h3 p, h4, vacant_pop h5, h6, h7, h8⟩
  rw [← h1]
  simp only [Sim.unfinished, held_pushBack, held_first hr]
  ac_rfl

/-- The running block is finished, and its record is filed. -/
theorem Inv.finish (h : Inv n s) (hr : gllFirst s.runningProcess = some p) {st : Stats} (hname : st.processName = p)
    (htime : st.userTime = (s.pcb p).userTime) :
    Inv n { s with
      perProcessStats := s.perProcessStats ++ [st]
      runningProcess := gllPop s.runningProcess
      finished := s.finished ++ [p] } := by
  obtain ⟨h1, h2, h3, h4, h5, h6, h7, h8⟩ := h
  refine ⟨?_, h2, h3, h4, vacant_pop h5, ?_, ?_, h8⟩
  · rw [← h1]
    simp only [Sim.unfinished, held_first hr, ← Multiset.coe_add, Multiset.coe_singleton]
    ac_rfl
  · simp only [List.map_append, h6, List.map_cons, List.map_nil, hname]
  · intro st' hst
    rcases List.mem_append.1 hst with hst | hst
    · exact h7 st' hst
    · rw [List.mem_singleton.1 hst, hname, htime]

/-- The first block of the process list becomes ready. -/
theorem Inv.makeReady (h : Inv n s) (hr : gllFirst s.processList = some p) : Inv n (makeReady s p) := by
  have h' : Inv n (s.modify p fun q => { q with memReq := q.memReq ++ q.memoryFile }) :=
    h.congr ⟨rfl, rfl, rfl, rfl, rfl, rfl⟩ (modify_userTime fun _ => rfl) rfl
  obtain ⟨h1, h2, h3, h4, h5, h6, h7, h8⟩ := h'
  refine ⟨?_, none_notMem_pop h2, none_notMem_pushBack h3 p, h4, h5, h6, h7, h8⟩
  rw [← h1]
  simp only [Sim.unfinished, Paging.makeReady, Sim.modify, held_pushBack, held_first hr]
  ac_rfl

/-- The first blocked block becomes ready. -/
theorem Inv.unblock (h : Inv n s) (hr : gllFirst s.blockedProcess = some p) :
    Inv n { s with
      readyProcess := gllPushBack s.readyProcess (some p)
      blockedProcess := gllPop s.blockedProcess } := by
  obtain ⟨h1, h2, h3, h4, h5, h6, h7, h8⟩ := h
  refine ⟨?_, h2, none_notMem_pushBack h3 p, none_notMem_pop h4, h5, h6, h7, h8⟩
  rw [← h1]
  simp only [Sim.unfinished, held_pushBack, held_first hr]
  ac_rfl

/-- The first ready block starts to run, when nothing does. -/
theorem Inv.dispatch (h : Inv n s) (hv : Vacant s.runningProcess) :
    Inv n { s with
      runningProcess := gllPush s.runningProcess (gllFirst s.readyProcess)
      readyProcess := gllPop s.readyProcess } := by
  obtain ⟨h1, h2, h3, h4, h5, h6, h7, h8⟩ := h
  refine ⟨?_, h2, none_notMem_pop h3, h4, hv, h6, h7, h8⟩
  rw [← h1]
  cases hr : gllFirst s.readyProcess with
  | none => simp [Sim.unfinished, gllPush, gllPop, eq_nil_of_first h3 hr]
  | some p =>
    simp only [Sim.unfinished, gllPush, held_some, held_first hr]
    ac_rfl

/-! ## The functions of a round -/

theorem runSlice_inv {stopTime : UInt64} {pause : Pause} {fuel : Nat} (h : Inv n s)
    (hr : runSlice sp stopTime fuel s = some (s', pause)) :
    Inv n s' ∧ (pause = .pageFault ∨ pause = .noProcess → Vacant s'.runningProcess) := by
  induction fuel generalizing s with
  | zero => cases hr
  | succ fuel ih =>
    unfold runSlice at hr
    split at hr
    · cases hp : gllFirst s.runningProcess with
      | none => rw [hp] at hr; cases hr
      | some p =>
        rw [hp] at hr
        have hread := h.charged (unfinished_of_running hp) (readPage_charged sp s p stopTime)
        have hsame := (readPage_charged sp s p stopTime).lists.runningProcess
        dsimp only at hr
        split at hr
        · cases hr
          exact ⟨hread, by simp⟩
        · rw [hsame, hp, if_pos (by simp)] at hr
          cases hr
          have := hread.block (p := p) (by rw [hsame, hp])
          rw [hsame, hp] at this
          exact ⟨this, fun _ => h.behind⟩
        · exact ih hread hr
    · cases hr
      exact ⟨h, by simp⟩

theorem processSimulator_inv {pause : Pause} {fuel : Nat} (h : Inv n s)
    (hr : processSimulator sp fuel s = some (s', pause)) :
    Inv n s' ∧ (pause = .pageFault ∨ pause = .noProcess → Vacant s'.runningProcess) := by
  unfold processSimulator at hr
  split at hr
  · split at hr
    · cases hr
      exact ⟨h.congr ⟨rfl, rfl, rfl, rfl, rfl, rfl⟩ (fun _ => rfl) rfl, by simp⟩
    · exact runSlice_inv h hr
  · rename_i hn
    cases hr
    exact ⟨h, fun _ => h.vacant (by simpa using hn)⟩

/-- What one arrival keeps, the loop over the arrivals keeps. -/
theorem transferLoop_keeps (P : Sim → Prop)
    (hstep : ∀ u p, gllFirst u.processList = some p → P u → P (makeReady u p)) {l : Gll} (hl : s.processList = l)
    (h : P s) : P (transferLoop l s) := by
  induction l generalizing s with
  | nil => exact h
  | cons x rest ih =>
    cases x with
    | none => exact h
    | some p =>
      unfold transferLoop
      split
      · exact ih (congrArg List.tail hl) (hstep s p (by rw [hl]; rfl) h)
      · exact h

theorem transfer_keeps (P : Sim → Prop) (hstep : ∀ u p, gllFirst u.processList = some p → P u → P (makeReady u p))
    (h : P s) : P (transfer s) :=
  transferLoop_keeps P hstep rfl h

theorem transfer_inv (h : Inv n s) : Inv n (transfer s) ∧ (transfer s).runningProcess = s.runningProcess := by
  apply transfer_keeps fun u => Inv n u ∧ u.runningProcess = s.runningProcess
  · rintro u p hp ⟨hu, hr⟩
    exact ⟨hu.makeReady hp, hr⟩
  · exact ⟨h, rfl⟩

theorem diskToMemory_inv (h : Inv n s) (hd : diskToMemory sp s = some s') :
    Inv n s' ∧ s'.runningProcess = s.runningProcess := by
  unfold diskToMemory at hd
  split at hd
  · cases hd
  · rename_i p hp
    split at hd
    · cases hd
    · split at hd
      · cases hd
        exact ⟨h.congr ⟨rfl, rfl, rfl, rfl, rfl, rfl⟩ (modify_userTime fun _ => rfl) rfl, rfl⟩
      · cases hd
        refine ⟨Inv.unblock (Inv.congr h ⟨rfl, rfl, rfl, rfl, rfl, rfl⟩ (fun i => ?_) rfl) hp, rfl⟩
        refine Eq.trans (modify_userTime ?_ i) (modify_userTime ?_ i)
        · exact fun _ => rfl
        · exact fun _ => rfl

theorem quantaToStart_inv {startTime : UInt64} {fuel : Nat} (h : Inv n s)
    (hq : quantaToStart startTime fuel s = some s') : Inv n s' := by
  induction fuel generalizing s with
  | zero => cases hq
  | succ fuel ih =>
    unfold quantaToStart at hq
    split at hq
    · refine ih ?_ hq
      exact h.congr ⟨rfl, rfl, rfl, rfl, rfl, rfl⟩ (fun _ => rfl) rfl
    · cases hq
      exact h

theorem quantaToNow_inv {fuel : Nat} (h : Inv n s) (hq : quantaToNow fuel s = some s') : Inv n s' := by
  induction fuel generalizing s with
  | zero => cases hq
  | succ fuel ih =>
    unfold quantaToNow at hq
    split at hq
    · refine ih ?_ hq
      exact h.congr ⟨rfl, rfl, rfl, rfl, rfl, rfl⟩ (fun _ => rfl) rfl
    · cases hq
      exact h

theorem waitForDisk_inv {fuel : Nat} (h : Inv n s) (hw : waitForDisk sp fuel s = some s') : Inv n s' := by
  obtain ⟨u, hu, hd⟩ := Option.bind_eq_some_iff.1 hw
  refine (diskToMemory_inv (quantaToNow_inv ?_ hu) hd).1
  exact h.congr ⟨rfl, rfl, rfl, rfl, rfl, rfl⟩ (fun _ => rfl) rfl

theorem idle_inv {fuel : Nat} (h : Inv n s) (hi : idle sp fuel s = some s') : Inv n s' := by
  unfold idle at hi
  split at hi
  · cases hi
  · rename_i p hb hp
    simp only [Option.bind_eq_bind, Option.bind_eq_some_iff] at hi
    obtain ⟨u, hu, hi⟩ := hi
    cases hi
    exact (quantaToStart_inv (h.makeReady hp) hu).congr ⟨rfl, rfl, rfl, rfl, rfl, rfl⟩ (fun _ => rfl) rfl
  · exact waitForDisk_inv h hi
  · rename_i q p hb hp
    dsimp only at hi
    split at hi
    · exact waitForDisk_inv h hi
    · simp only [Option.bind_eq_bind, Option.bind_eq_some_iff] at hi
      obtain ⟨u, hu, hi⟩ := hi
      cases hi
      exact (quantaToStart_inv (h.makeReady hp) hu).congr ⟨rfl, rfl, rfl, rfl, rfl, rfl⟩ (fun _ => rfl) rfl

theorem cleanUpProcess_inv (h : Inv n s) (hc : cleanUpProcess s = some s') :
    Inv n { s' with
      runningProcess := gllPop s'.runningProcess
      finished := s'.finished ++ (gllFirst s.runningProcess).toList } ∧ Vacant (gllPop s'.runningProcess) := by
  unfold cleanUpProcess at hc
  split at hc
  · cases hc
  · rename_i p hp
    cases hc
    rw [hp]
    exact ⟨h.finish hp rfl rfl, h.behind⟩

/-- The running block, if there is one, goes back to the ready list. -/
theorem requeue_inv (h : Inv n s) :
    Inv n (if gllFirst s.runningProcess ≠ none then
        { s with
          readyProcess := gllPushBack s.readyProcess (gllFirst s.runningProcess)
          runningProcess := gllPop s.runningProcess }
      else s) ∧
    Vacant (if gllFirst s.runningProcess ≠ none then
        { s with
          readyProcess := gllPushBack s.readyProcess (gllFirst s.runningProcess)
          runningProcess := gllPop s.runningProcess }
      else s).runningProcess := by
  split
  · rename_i hr
    obtain ⟨p, hp⟩ := Option.ne_none_iff_exists'.1 hr
    exact ⟨h.requeue hp, h.behind⟩
  · rename_i hr
    exact ⟨h, h.vacant (by simpa using hr)⟩

theorem handlePause_inv {pause : Pause} (h : Inv n s)
    (hv : pause = .pageFault ∨ pause = .noProcess → Vacant s.runningProcess)
    (hp : handlePause sp pause s = some s') : Inv n s' ∧ Vacant s'.runningProcess := by
  unfold handlePause at hp
  split at hp
  · simp only [Option.bind_eq_bind, Option.bind_eq_some_iff] at hp
    obtain ⟨u, hd, hu⟩ := hp
    have hreq := requeue_inv (diskToMemory_inv h hd).1
    split at hu
    · rename_i hr
      cases hu
      rwa [if_pos hr] at hreq
    · rename_i hr
      cases hu
      rwa [if_neg hr] at hreq
  · cases hp
    exact ⟨h.congr ⟨rfl, rfl, rfl, rfl, rfl, rfl⟩ (fun _ => rfl) rfl, hv (.inl rfl)⟩
  · simp only [Option.bind_eq_bind, Option.bind_eq_some_iff] at hp
    obtain ⟨u, hu, hp⟩ := hp
    cases hp
    exact cleanUpProcess_inv h hu
  · have hreq := requeue_inv h
    cases hp
    exact ⟨hreq.1.congr ⟨rfl, rfl, rfl, rfl, rfl, rfl⟩ (fun _ => rfl) rfl, hreq.2⟩
  · cases hp
    exact ⟨h, hv (.inr rfl)⟩

theorem schedulingRR_inv (h : Inv n s) (hv : Vacant s.runningProcess) : Inv n (schedulingRR s) := by
  have hd := h.dispatch hv
  unfold schedulingRR
  dsimp only
  split
  · exact hd
  · exact hd.congr ⟨rfl, rfl, rfl, rfl, rfl, rfl⟩ (fun _ => rfl) rfl

theorem newQuanta_inv (h : Inv n s) : Inv n (newQuanta s) ∧ (newQuanta s).runningProcess = s.runningProcess := by
  unfold newQuanta
  split
  · exact ⟨h.congr ⟨rfl, rfl, rfl, rfl, rfl, rfl⟩ (fun _ => rfl) rfl, rfl⟩
  · exact ⟨h, rfl⟩

/-- The states that a round goes through, from call to call. -/
inductive Passes (sp : SysParam) (fuel : Nat) (s : Sim) : Sim → Prop where
  | paused {u pause} : processSimulator sp fuel s = some (u, pause) → Passes sp fuel s u
  | admitted {u pause} : processSimulator sp fuel s = some (u, pause) → Passes sp fuel s (transfer (newQuanta u))
  | handled {u v pause} : processSimulator sp fuel s = some (u, pause) →
      handlePause sp pause (transfer (newQuanta u)) = some v → Passes sp fuel s v
  | scheduled {u v pause} : processSimulator sp fuel s = some (u, pause) →
      handlePause sp pause (transfer (newQuanta u)) = some v → Passes sp fuel s (schedulingRR v)

theorem passes_inv {fuel : Nat} (h : Inv n s) (hp : Passes sp fuel s s') : Inv n s' := by
  have admitted : ∀ {u pause}, processSimulator sp fuel s = some (u, pause) → Inv n (transfer (newQuanta u)) ∧
      (pause = .pageFault ∨ pause = .noProcess → Vacant (transfer (newQuanta u)).runningProcess) := by
    intro u pause hu
    obtain ⟨h1, hv⟩ := processSimulator_inv h hu
    obtain ⟨h2, hr2⟩ := newQuanta_inv h1
    obtain ⟨h3, hr3⟩ := transfer_inv h2
    exact ⟨h3, fun hp => by rw [hr3, hr2]; exact hv hp⟩
  cases hp with
  | paused hu => exact (processSimulator_inv h hu).1
  | admitted hu => exact (admitted hu).1
  | handled hu hv => exact (handlePause_inv (admitted hu).1 (admitted hu).2 hv).1
  | scheduled hu hv =>
    obtain ⟨h1, hvac⟩ := handlePause_inv (admitted hu).1 (admitted hu).2 hv
    exact schedulingRR_inv h1 hvac

/-- The state at the end of a round, and that nothing is left when the loop breaks. -/
def Outcome.Inv (n : Nat) : Outcome → Prop
  | .next s => Paging.Inv n s
  | .done s => Paging.Inv n s ∧ s.unfinished = 0

theorem round_inv {fuel : Nat} {o : Outcome} (h : Inv n s) (hr : round sp fuel s = some o) : o.Inv n := by
  unfold round at hr
  simp only [Option.bind_eq_bind, Option.bind_eq_some_iff] at hr
  obtain ⟨⟨u, pause⟩, hsim, v, hpause, hr⟩ := hr
  have hv := passes_inv h (.scheduled hsim hpause)
  split at hr
  · rename_i hnone
    split at hr
    · rename_i hall
      cases hr
      refine ⟨hv, ?_⟩
      rw [Sim.unfinished, eq_nil_of_first hv.process_solid hall.2, eq_nil_of_first hv.ready_solid hnone.2,
        held_eq_zero (hv.vacant hnone.1), eq_nil_of_first hv.blocked_solid hall.1]
      rfl
    · simp only [Option.bind_eq_some_iff] at hr
      obtain ⟨w, hw, hr⟩ := hr
      cases hr
      exact idle_inv hv hw
  · cases hr
    exact hv

/-! ## The start -/

theorem initState_inv (sp : SysParam) (ws : List Process) : Inv ws.length (initState sp ws) := by
  refine ⟨?_, by simp [initState], by simp [initState], by simp [initState], by simp [initState, gllPop], rfl,
    by simp [initState], ?_⟩
  · simp [Sim.unfinished, initState, held, List.filterMap_map, Multiset.range]
  · simp [initState, pcbs, readNextTrace, Nat.ModEq]

theorem simulateStart_inv {ws : List Process} (h : simulateStart sp ws = some s) : Inv ws.length s := by
  unfold simulateStart at h
  split at h
  · cases h
  · obtain ⟨h1, hrun⟩ := transfer_inv (initState_inv sp ws)
    have hempty : (transfer (initState sp ws)).runningProcess = [] := hrun
    have h2 := Inv.dispatch h1 (by rw [hrun]; simp [Vacant, initState])
    dsimp only at h
    split at h
    · cases h
    · cases h
      refine Inv.congr h2 ⟨rfl, rfl, ?_, rfl, rfl, rfl⟩ (fun _ => rfl) rfl
      show gllPushBack (transfer (initState sp ws)).runningProcess _ = gllPush (transfer (initState sp ws)).runningProcess _
      rw [hempty]
      rfl

end Cmpsc473.Paging
