import Cmpsc473.Paging.Clock
/-!
# The pointers that `simulate` follows

`Found` lists them. They are there in every run that starts with a process at
time 0, takes a disk interrupt only when a process is blocked, and never drops
the last instruction of a blocked process.
-/

namespace Cmpsc473.Paging

open Runs Function

variable {sp : SysParam} {s s' : Sim} {n : Nat} {pc pc' : Pc} {evs : List Event} {ws : List Process}

/-- `simulate` finds what it works on: the process started first, the process
that runs, that of `cleanUpProcess`, and for `diskToMemory` a blocked process
with an instruction. -/
structure Found (s : Sim) (pc : Pc) : Prop where
  first : pc = .start → gllFirst s.readyProcess ≠ none
  running : ∀ stopTime, pc = .slice stopTime → gllFirst s.runningProcess ≠ none
  cleanUp : pc = .admitted .traceEnds → gllFirst s.runningProcess ≠ none
  disk : CallsDisk s pc → ∃ p addr rest, gllFirst s.blockedProcess = some p ∧ (s.pcb p).memReq = addr :: rest

theorem diskToMemory_found {p : Nat} {addr : NextMem} {rest : List NextMem} (hp : gllFirst s.blockedProcess = some p)
    (hreq : (s.pcb p).memReq = addr :: rest) : diskToMemory sp s ≠ none := by
  unfold diskToMemory
  rw [hp]
  dsimp only
  rw [hreq]
  dsimp only
  split
  · exact Option.some_ne_none _
  · exact Option.some_ne_none _

/-- Then no step follows a `NULL` pointer. -/
theorem micro_ne_none (h : Found s pc) (hr : pc.Running s) : micro sp pc s ≠ none := by
  cases pc with
  | start =>
    have hnil : s.runningProcess = [] := hr
    obtain ⟨p, hp⟩ := Option.ne_none_iff_exists'.1 (h.first rfl)
    simp only [micro, hnil, hp]
    exact Option.some_ne_none _
  | top =>
    simp only [micro]
    split
    · split <;> exact Option.some_ne_none _
    · exact Option.some_ne_none _
  | slice stopTime =>
    obtain ⟨p, hp⟩ := Option.ne_none_iff_exists'.1 (h.running stopTime rfl)
    simp only [micro, hp]
    split
    · split
      · exact Option.some_ne_none _
      · split <;> exact Option.some_ne_none _
      · exact Option.some_ne_none _
    · exact Option.some_ne_none _
  | paused => exact Option.some_ne_none _
  | admitted simPause =>
    cases simPause with
    | diskInterrupt =>
      obtain ⟨p, addr, rest, hp, hreq⟩ := h.disk trivial
      obtain ⟨u, hu⟩ := Option.ne_none_iff_exists'.1 (@diskToMemory_found sp s p addr rest hp hreq)
      rw [micro, handlePause_disk, hu]
      exact Option.some_ne_none _
    | traceEnds =>
      obtain ⟨p, hp⟩ := Option.ne_none_iff_exists'.1 (h.cleanUp rfl)
      simp [micro, handlePause, cleanUpProcess, hp]
    | pageFault | quantaFinishes | noProcess => exact Option.some_ne_none _
  | scheduling => exact Option.some_ne_none _
  | idle =>
    simp only [micro]
    split
    · split
      · exact Option.some_ne_none _
      · rename_i hall
        split
        · exact absurd ⟨‹_›, ‹_›⟩ hall
        · exact Option.some_ne_none _
        · exact Option.some_ne_none _
        · split <;> exact Option.some_ne_none _
    · exact Option.some_ne_none _
  | jump p twice =>
    simp only [micro]
    split <;> exact Option.some_ne_none _
  | catchUp =>
    simp only [micro]
    split
    · exact Option.some_ne_none _
    · rename_i hge
      obtain ⟨p, addr, rest, hp, hreq⟩ := h.disk hge
      obtain ⟨u, hu⟩ := Option.ne_none_iff_exists'.1 (@diskToMemory_found sp s p addr rest hp hreq)
      rw [hu]
      exact Option.some_ne_none _
  | returned => exact Option.some_ne_none _

/-! ## What is blocked has instructions left -/

/-- The blocked processes have instructions left. -/
def Pending (s : Sim) : Prop := ∀ p ∈ held s.blockedProcess, (s.pcb p).memReq ≠ []

/-- What is found at `pc`: the process to start, and a blocked process where
`diskToMemory` is about to be called. -/
def Pc.Finds (s : Sim) : Pc → Prop
  | .start => gllFirst s.readyProcess ≠ none
  | .paused .diskInterrupt | .admitted .diskInterrupt | .catchUp => gllFirst s.blockedProcess ≠ none
  | _ => True

/-- A single `NONMEM` is left of the first blocked process. -/
def lastNonmem (s : Sim) : Bool :=
  (gllFirst s.blockedProcess).any fun p => (s.pcb p).memReq.length = 1 && (s.pcb p).memReq.head?.any (·.type = .nonmem)

/-- The step takes a disk interrupt only if a process is blocked, and does not
drop the last instruction of a blocked process. -/
def DiskOk (s : Sim) : Pc → Prop
  | .top => gllFirst s.runningProcess ≠ none → s.nextDiskReadTime < s.currentTime → gllFirst s.blockedProcess ≠ none
  | pc => CallsDisk s pc → lastNonmem s = false

instance (s : Sim) (pc : Pc) : Decidable (DiskOk s pc) := by
  unfold DiskOk
  split <;> infer_instance

/-- What runs is not blocked. -/
theorem Inv.running_not_blocked {p : Nat} (h : Inv n s) (hp : gllFirst s.runningProcess = some p) :
    p ∉ held s.blockedProcess := by
  have hnd := h.nodup.1
  rw [Sim.unfinished, Multiset.nodup_add] at hnd
  apply Multiset.disjoint_left.1 hnd.2.2
  rw [held_first hp]
  simp

/-- A blocked process is blocked once. -/
theorem Inv.blocked_once {p : Nat} (h : Inv n s) (hp : gllFirst s.blockedProcess = some p) :
    p ∉ held (gllPop s.blockedProcess) := by
  have hnd := h.nodup.1
  rw [Sim.unfinished, Multiset.nodup_add] at hnd
  have hblocked := hnd.2.1
  rw [held_first hp, Multiset.nodup_add] at hblocked
  exact Multiset.disjoint_left.1 hblocked.2.2 (Multiset.mem_singleton_self p)

/-- Nothing new is blocked, and instructions are only added. -/
theorem Pending.mono (h : Pending s) (hb : s'.blockedProcess = s.blockedProcess)
    (hp : ∀ p ∈ held s.blockedProcess, (s.pcb p).memReq ≠ [] → (s'.pcb p).memReq ≠ []) : Pending s' := by
  intro p hmem
  rw [hb] at hmem
  exact hp p hmem (h p hmem)

theorem Pending.congr (h : Pending s) (hb : s'.blockedProcess = s.blockedProcess) (hp : s'.pcb = s.pcb) : Pending s' :=
  h.mono hb fun _ _ hne => hp ▸ hne

theorem makeReady_memReq (s : Sim) (p : Nat) {q : Nat} (h : (s.pcb q).memReq ≠ []) :
    ((makeReady s p).pcb q).memReq ≠ [] := by
  by_cases hq : q = p
  · subst hq
    simp [makeReady, h]
  · simpa [makeReady, Sim.modify, hq] using h

theorem transfer_pending (h : Pending s) :
    Pending (transfer s) ∧ (transfer s).blockedProcess = s.blockedProcess := by
  apply transfer_keeps fun u => Pending u ∧ u.blockedProcess = s.blockedProcess
  · rintro u p - ⟨hu, hb⟩
    exact ⟨hu.mono rfl fun q _ hq => makeReady_memReq u p hq, hb⟩
  · exact ⟨h, rfl⟩

theorem newQuanta_pending (h : Pending s) : Pending (newQuanta s) ∧ (newQuanta s).blockedProcess = s.blockedProcess := by
  unfold newQuanta
  split <;> exact ⟨h.congr rfl rfl, rfl⟩

theorem requeue_pending (h : Pending s) : Pending (requeue s) := by
  unfold requeue
  split <;> exact h.congr rfl rfl

/-- What `readPage` does to the block that runs does not touch the blocked. -/
theorem readPage_pending {stopTime : UInt64} {p : Nat} {u : Sim} {ret : Read} (hi : Inv n s) (h : Pending s)
    (hp : gllFirst s.runningProcess = some p) (hread : readPage sp s p stopTime = (u, ret)) :
    Pending u ∧ u.blockedProcess = s.blockedProcess := by
  obtain ⟨-, hc, -⟩ := readPage_good hi hp hread
  refine ⟨h.mono hc.lists.blockedProcess fun q hq hne => ?_, hc.lists.blockedProcess⟩
  rw [hc.others q fun he => hi.running_not_blocked hp (he ▸ hq)]
  exact hne

/-- `diskToMemory` unblocks a process, or drops an instruction that is not its last. -/
theorem diskToMemory_pending {u : Sim} (hi : Inv n s) (h : Pending s) (hlast : lastNonmem s = false)
    (hd : diskToMemory sp s = some u) : Pending u := by
  obtain ⟨p, addr, rest, hp, hreq, ⟨htype, hu⟩ | ⟨-, hu⟩⟩ := diskToMemory_cases hd
  · -- the process stays blocked, with the rest of its instructions
    apply h.mono (by rw [hu]; rfl)
    intro q _ hne
    by_cases hq : q = p
    · subst hq
      intro hnil
      rw [hu, modify_pcb, Pcb.popReq, hreq] at hnil
      obtain rfl : rest = [] := hnil
      simp [lastNonmem, hp, hreq, htype] at hlast
    · rw [diskToMemory_others hd hp hq]
      exact hne
  · have hb : u.blockedProcess = gllPop s.blockedProcess := by rw [hu]; rfl
    intro q hq
    rw [hb] at hq
    have hne : q ≠ p := fun he => hi.blocked_once hp (he ▸ hq)
    rw [diskToMemory_others hd hp hne]
    apply h q
    rw [held_first hp]
    exact Multiset.mem_add.2 (.inr hq)

theorem effect_pending (hi : Inv n s) (hr : pc.Running s) (h : Pending s) (hb : pc.Finds s) (hd : DiskOk s pc)
    (he : Effect sp s pc pc' s' evs) : Pending s' ∧ pc'.Finds s' := by
  cases he with
  | started | noProcess | slice | quantaFinishes | setDisk | noneRan | again | allDone | jump | stay =>
    exact ⟨h.congr rfl rfl, trivial⟩
  | diskInterrupt hp hlt => exact ⟨h.congr rfl rfl, hd (ne_of_eq_of_ne hp (Option.some_ne_none _)) hlt⟩
  | traceEnds _ hp hread | success _ hp hread => exact ⟨(readPage_pending hi h hp hread).1, trivial⟩
  | @pageFault stopTime p u _ hp hread =>
    obtain ⟨hu, -⟩ := readPage_pending hi h hp hread
    obtain ⟨-, -, hp'⟩ := readPage_good hi hp hread
    refine ⟨fun q hq => ?_, trivial⟩
    have hq : q ∈ held (gllPushBack u.blockedProcess (gllFirst u.runningProcess)) := hq
    rw [hp', held_pushBack, Multiset.mem_add, Multiset.mem_singleton] at hq
    rcases hq with hq | rfl
    · exact hu q hq
    · have hne := memReq_of_fault hread
      exact hne
  | @transferred simPause =>
    obtain ⟨h1, hb1⟩ := newQuanta_pending h
    obtain ⟨h2, hb2⟩ := transfer_pending h1
    refine ⟨h2, ?_⟩
    cases simPause with
    | diskInterrupt =>
      have hblocked : (transfer (newQuanta s)).blockedProcess = s.blockedProcess := hb2.trans hb1
      exact ne_of_eq_of_ne (congrArg gllFirst hblocked) hb
    | _ => trivial
  | swapIn hu => exact ⟨requeue_pending (diskToMemory_pending hi h (hd trivial) hu), trivial⟩
  | cleanUp _ hu =>
    unfold cleanUpProcess at hu
    split at hu <;> cases hu
    exact ⟨h.congr rfl rfl, trivial⟩
  | timer => exact ⟨(requeue_pending h).congr rfl rfl, trivial⟩
  | schedule =>
    unfold schedulingRR
    dsimp only
    split <;> exact ⟨h.congr rfl rfl, trivial⟩
  | @awaitArrival p => exact ⟨h.mono rfl fun q _ hq => makeReady_memReq s p hq, trivial⟩
  | awaitDisk _ _ hp => exact ⟨h.congr rfl rfl, ne_of_eq_of_ne hp (Option.some_ne_none _)⟩
  | @arrive p twice _ => cases twice <;> exact ⟨h.congr rfl rfl, trivial⟩
  | catchUp =>
    refine ⟨h.congr rfl rfl, ?_⟩
    show gllFirst s.blockedProcess ≠ none
    exact hb
  | readDisk hge hu => exact ⟨diskToMemory_pending hi h (hd hge) hu, trivial⟩

/-! ## The start -/

/-- A first process that arrives at 0 is ready. -/
theorem begin_ready (sp : SysParam) (hws : ws ≠ []) (h0 : (ws.head hws).startTime = 0) :
    gllFirst (begin sp ws).sim.readyProcess ≠ none := by
  obtain ⟨w, ws, rfl⟩ := List.exists_cons_of_ne_nil hws
  have hlist : (initState sp (w :: ws)).processList = some 0 :: (List.range ws.length).map (some ∘ Nat.succ) := by
    simp [initState, List.range_succ_eq_map]
  have harrived : ((initState sp (w :: ws)).pcb 0).startTime ≤ (initState sp (w :: ws)).currentTime :=
    UInt64.le_of_eq h0
  show gllFirst (transferLoop (initState sp (w :: ws)).processList (initState sp (w :: ws))).readyProcess ≠ none
  rw [hlist, transferLoop, if_pos harrived]
  apply transferLoop_keeps fun u => gllFirst u.readyProcess ≠ none
  · -- what is ready stays at the front
    intro u p _ hready
    obtain ⟨q, hq⟩ := Option.ne_none_iff_exists'.1 hready
    have hback : (makeReady u p).readyProcess = gllPushBack u.readyProcess (some p) := rfl
    rw [hback, first_some hq]
    exact Option.some_ne_none q
  · exact congrArg gllPop hlist
  · exact Option.some_ne_none 0

/-- In a run that starts with a process at time 0, takes a disk interrupt only
when a process is blocked, and drops no last instruction of a blocked process,
`simulate` finds what it works on. -/
theorem pointers_found (hws : ws ≠ []) (h0 : (ws.head hws).startTime = 0) {c : Cfg}
    (h : Reach (tick sp) (fun c _ => DiskOk c.sim c.pc) (begin sp ws) c) :
    Found c.sim c.pc ∧ tick sp c () ≠ none := by
  have hgood := good_reach h
  obtain ⟨-, hpending, hfinds⟩ : Good ws.length c ∧ Pending c.sim ∧ c.pc.Finds c.sim := by
    refine Reach.inv (fun c => Good ws.length c ∧ Pending c.sim ∧ c.pc.Finds c.sim) (fun c _ c' hi hd ht => ?_) h ?_
    · obtain ⟨evs, he, -⟩ := tick_effect ht
      exact ⟨tick_good hi.1 ht, effect_pending hi.1.inv hi.1.running hi.2.1 hi.2.2 hd he⟩
    · refine ⟨begin_good sp ws, (transfer_pending ?_).1, begin_ready sp hws h0⟩
      intro p hp
      exact absurd hp (Multiset.notMem_zero p)
  have hfound : Found c.sim c.pc := by
    refine ⟨fun hpc => ?_, fun stopTime hpc => ?_, fun hpc => ?_, fun hcalls => ?_⟩
    · rw [hpc] at hfinds
      exact hfinds
    · have hrun := hgood.running
      rw [hpc] at hrun
      exact hrun
    · have hrun := hgood.running
      rw [hpc] at hrun
      exact hrun
    · have hblocked : gllFirst c.sim.blockedProcess ≠ none := by
        unfold CallsDisk at hcalls
        split at hcalls
        · rename_i hpc
          rw [hpc] at hfinds
          exact hfinds
        · rename_i hpc
          rw [hpc] at hfinds
          exact hfinds
        · exact hcalls.elim
      obtain ⟨p, hp⟩ := Option.ne_none_iff_exists'.1 hblocked
      have hmem : p ∈ held c.sim.blockedProcess := by
        rw [held_first hp]
        exact Multiset.mem_add.2 (.inl (Multiset.mem_singleton_self p))
      obtain ⟨addr, rest, hreq⟩ := List.exists_cons_of_ne_nil (hpending p hmem)
      exact ⟨p, addr, rest, hp, hreq⟩
  refine ⟨hfound, fun hnone => ?_⟩
  exact micro_ne_none hfound hgood.running (Option.map_eq_none_iff.1 hnone)

/-- `pointers_found` where `diskToMemory` is about to be called for a process
that faulted. -/
theorem pointers_found_fault : ∃ c,
    Reach (tick smallSysParam) (fun c _ => DiskOk c.sim c.pc) (begin smallSysParam [process 0 [nonmem, mem, mem]]) c ∧
    c.pc = .catchUp ∧ (∃ p addr rest, gllFirst c.sim.blockedProcess = some p ∧ (c.sim.pcb p).memReq = addr :: rest) ∧
    tick smallSysParam c () ≠ none := by
  have hrun : (exec (guarded (tick smallSysParam) fun c _ => DiskOk c.sim c.pc)
      (begin smallSysParam [process 0 [nonmem, mem, mem]]) (List.replicate 8 ())).any
      (fun c => c.pc = .catchUp ∧ CallsDisk c.sim c.pc) = true := by
    decide +kernel
  obtain ⟨c, hc, h⟩ := (Option.any_eq_true _ _).1 hrun
  obtain ⟨hpc, hcalls⟩ := of_decide_eq_true h
  have hreach := (exec_guarded hc).2
  obtain ⟨hfound, hstep⟩ := pointers_found (List.cons_ne_nil _ _) rfl hreach
  exact ⟨c, hreach, hpc, hfound.disk hcalls, hstep⟩

/-- The steps of a run lead to one that follows a `NULL` pointer. -/
def crashes (sp : SysParam) (ws : List Process) (steps : Nat) : Bool :=
  (exec (tick sp) (begin sp ws) (List.replicate steps ())).any fun c => (tick sp c ()).isNone

/-- A first process that arrives at 1; a process that still runs at 11000, when
none is blocked; a process whose last instruction is dropped while it is
blocked. -/
theorem pointers_found_fails : crashes fullSysParam [process 1 [nonmem]] 0 = true ∧
    crashes { fullSysParam with nonMemInstLength := 20000 } [process 0 [nonmem]] 10 = true ∧
    crashes fullSysParam [process 0 [nonmem, mem, nonmem]] 14 = true := by
  decide +kernel

end Cmpsc473.Paging
