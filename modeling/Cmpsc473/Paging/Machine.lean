import Cmpsc473.Paging.Theorems
import Cmpsc473.Paging.Calls
/-!
# `simulate` step by step

`round` runs the loop of `simulate` in one go. Here it runs in small steps: one
call of `readPage`, one round of an inner loop, or the calls between two points
of `simulate`. No step needs fuel, so a loop that does not end is a run that
goes on, and `none` means that a `NULL` pointer is followed. `steps_of_round`
says that a round is a sequence of these steps.

The history of a run records what `readPage` and `diskToMemory` did.
-/

namespace Cmpsc473.Paging

open Function Runs

/-- Where `simulate` is. -/
inductive Pc where
  /-- The first ready process is about to be started. -/
  | start
  /-- At the top of the loop. -/
  | top
  /-- In the loop of `processSimulator`. -/
  | slice (stopTime : UInt64)
  | paused (simPause : Pause)
  /-- The processes that have arrived are ready. -/
  | admitted (simPause : Pause)
  | scheduling
  /-- At the test whether something is running or ready. -/
  | idle
  /-- In the loop that lets the quanta pass until `p` arrives; `twice` tells the
  two branches apart. -/
  | jump (p : Nat) (twice : Bool)
  /-- In the loop that lets the quanta catch up with the clock, before
  `diskToMemory`. -/
  | catchUp
  | returned
  deriving DecidableEq

variable (sp : SysParam)

/-- The running block, if there is one, goes back to the ready list. -/
def requeue (s : Sim) : Sim :=
  if gllFirst s.runningProcess ≠ none then
    { s with
      readyProcess := gllPushBack s.readyProcess (gllFirst s.runningProcess)
      runningProcess := gllPop s.runningProcess }
  else s

/-- The running block goes to the end of the blocked list. -/
def block (s : Sim) : Sim :=
  { s with
    blockedProcess := gllPushBack s.blockedProcess (gllFirst s.runningProcess)
    runningProcess := gllPop s.runningProcess
    numberPageFaults := s.numberPageFaults + 1 }

/-- What the branches that wait for a blocked process do to the clock. -/
def startWait (s : Sim) : Sim :=
  let timeOfNextPendingDiskInterrupt : UInt64 := 0
  { s with
    osTime := s.osTime + (timeOfNextPendingDiskInterrupt - s.currentTime)
    currentTime := timeOfNextPendingDiskInterrupt }

/-- The end of the branches that wait for an arrival at `start`. -/
def arrive (start : UInt64) (twice : Bool) (s : Sim) : Sim :=
  let s := if twice then { s with osTime := s.osTime + (start - s.currentTime) } else s
  { s with osTime := s.osTime + (start - s.currentTime), currentTime := start }

@[simp] theorem arrive_currentTime (start : UInt64) (twice : Bool) (s : Sim) :
    (arrive start twice s).currentTime = start := rfl

/-- The step at `pc`. -/
def micro : Pc → Sim → Option (Pc × Sim)
  | .start, s =>
    let temp := gllFirst s.readyProcess
    let s := { s with
      runningProcess := gllPushBack s.runningProcess temp
      readyProcess := gllPop s.readyProcess }
    match gllFirst s.runningProcess with
    | none => none
    | some temp2 => some (.top, { s with executionOrder := s.executionOrder ++ [temp2] })
  | .top, s =>
    if gllFirst s.runningProcess ≠ none then
      if s.currentTime > s.nextDiskReadTime then
        some (.paused .diskInterrupt, { s with numberOfDiskInt := s.numberOfDiskInt + 1 })
      else some (.slice (s.currentTime + quantum), s)
    else some (.paused .noProcess, s)
  | .slice stopTime, s =>
    if s.currentTime < stopTime then
      match gllFirst s.runningProcess with
      | none => none
      | some p =>
        let r := readPage sp s p stopTime
        match r.2 with
        | .traceEnds => some (.paused .traceEnds, r.1)
        | .pageFault =>
          if gllFirst r.1.runningProcess ≠ none then some (.paused .pageFault, block r.1)
          else some (.slice stopTime, r.1)
        | .success => some (.slice stopTime, r.1)
    else some (.paused .quantaFinishes, s)
  | .paused simPause, s => some (.admitted simPause, transfer (newQuanta s))
  | .admitted simPause, s => (handlePause sp simPause s).map fun s => (.scheduling, s)
  | .scheduling, s => some (.idle, schedulingRR s)
  | .idle, s =>
    if gllFirst s.runningProcess = none ∧ gllFirst s.readyProcess = none then
      if gllFirst s.blockedProcess = none ∧ gllFirst s.processList = none then some (.returned, s)
      else
        match gllFirst s.blockedProcess, gllFirst s.processList with
        | none, none => none
        | none, some tempProcess => some (.jump tempProcess true, makeReady s tempProcess)
        | some _, none => some (.catchUp, startWait s)
        | some _, some tempProcess =>
          if (s.pcb tempProcess).startTime ≥ 0 then some (.catchUp, startWait s)
          else some (.jump tempProcess false, makeReady s tempProcess)
    else some (.top, s)
  | .jump p twice, s =>
    if s.nextQuanta < (s.pcb p).startTime then
      some (.jump p twice, { s with currentTime := s.nextQuanta, nextQuanta := s.nextQuanta + quantum })
    else some (.top, arrive (s.pcb p).startTime twice s)
  | .catchUp, s =>
    if s.nextQuanta < s.currentTime then some (.catchUp, { s with nextQuanta := s.nextQuanta + quantum })
    else (diskToMemory sp s).map fun s => (.top, s)
  | .returned, s => some (.returned, s)

/-! ## The history -/

/-- What the history records. -/
inductive Event where
  /-- A call of `readPage` for `p`: the instruction it found, what it charged,
  whether it removed the instruction, whether it looked for it in the TLB in
  vain, and what it returned. -/
  | read (p : Nat) (addr : Option NextMem) (charged : UInt64) (removed missed : Bool) (ret : Read)
  /-- A call of `diskToMemory`: the blocked process and the instruction it found. -/
  | swap (p : Nat) (addr : NextMem)
  deriving DecidableEq

/-- The record of a call of `readPage`. -/
def readEvent (s : Sim) (p : Nat) (stopTime : UInt64) : Event :=
  let r := readPage sp s p stopTime
  .read p (s.pcb p).memReq.head? ((r.1.pcb p).userTime - (s.pcb p).userTime)
    ((r.1.pcb p).memReq.length < (s.pcb p).memReq.length) (missesTlb sp s p stopTime) r.2

/-- The record of a call of `diskToMemory`. -/
def swapEvent (s : Sim) : List Event :=
  match gllFirst s.blockedProcess with
  | none => []
  | some p => (s.pcb p).memReq.head?.toList.map (.swap p)

/-- What the step at `pc` adds to the history. -/
def events : Pc → Sim → List Event
  | .slice stopTime, s =>
    if s.currentTime < stopTime then (gllFirst s.runningProcess).toList.map fun p => readEvent sp s p stopTime else []
  | .admitted .diskInterrupt, s => swapEvent s
  | .catchUp, s => if s.nextQuanta < s.currentTime then [] else swapEvent s
  | _, _ => []

theorem events_slice (s : Sim) (stopTime : UInt64) : events sp (.slice stopTime) s =
    if s.currentTime < stopTime then (gllFirst s.runningProcess).toList.map fun p => readEvent sp s p stopTime else [] :=
  rfl

theorem events_catchUp (s : Sim) :
    events sp .catchUp s = if s.nextQuanta < s.currentTime then [] else swapEvent s :=
  rfl

/-- The simulator, where it is, and what it did so far. -/
structure Cfg where
  pc : Pc
  sim : Sim
  history : List Event

/-- A step, recorded. The simulator makes no choices, so there is one label. -/
def tick (c : Cfg) (_ : Unit) : Option Cfg :=
  (micro sp c.pc c.sim).map fun r => { pc := r.1, sim := r.2, history := c.history ++ events sp c.pc c.sim }

/-- `simulate` after `init` and `statsinit`. -/
def begin (ws : List Process) : Cfg := { pc := .start, sim := transfer (initState sp ws), history := [] }

/-! ## What a step can do -/

variable {sp} {s s' : Sim} {n : Nat} {pc pc' : Pc}

/-- The steps, one constructor for each path through the code, with what each
adds to the history. -/
inductive Effect (sp : SysParam) (s : Sim) : Pc → Pc → Sim → List Event → Prop where
  | started {p} : gllFirst (gllPushBack s.runningProcess (gllFirst s.readyProcess)) = some p →
      Effect sp s .start .top { s with
        runningProcess := gllPushBack s.runningProcess (gllFirst s.readyProcess)
        readyProcess := gllPop s.readyProcess
        executionOrder := s.executionOrder ++ [p] } []
  | noProcess : gllFirst s.runningProcess = none → Effect sp s .top (.paused .noProcess) s []
  | diskInterrupt {p} : gllFirst s.runningProcess = some p → s.nextDiskReadTime < s.currentTime →
      Effect sp s .top (.paused .diskInterrupt) { s with numberOfDiskInt := s.numberOfDiskInt + 1 } []
  | slice {p} : gllFirst s.runningProcess = some p → ¬s.nextDiskReadTime < s.currentTime →
      Effect sp s .top (.slice (s.currentTime + quantum)) s []
  | quantaFinishes {stopTime} : ¬s.currentTime < stopTime →
      Effect sp s (.slice stopTime) (.paused .quantaFinishes) s []
  | traceEnds {stopTime p u} : s.currentTime < stopTime → gllFirst s.runningProcess = some p →
      readPage sp s p stopTime = (u, .traceEnds) →
      Effect sp s (.slice stopTime) (.paused .traceEnds) u [readEvent sp s p stopTime]
  | pageFault {stopTime p u} : s.currentTime < stopTime → gllFirst s.runningProcess = some p →
      readPage sp s p stopTime = (u, .pageFault) →
      Effect sp s (.slice stopTime) (.paused .pageFault) (block u) [readEvent sp s p stopTime]
  | success {stopTime p u} : s.currentTime < stopTime → gllFirst s.runningProcess = some p →
      readPage sp s p stopTime = (u, .success) →
      Effect sp s (.slice stopTime) (.slice stopTime) u [readEvent sp s p stopTime]
  | transferred {simPause} : Effect sp s (.paused simPause) (.admitted simPause) (transfer (newQuanta s)) []
  | swapIn {u} : diskToMemory sp s = some u →
      Effect sp s (.admitted .diskInterrupt) .scheduling (requeue u) (swapEvent s)
  | setDisk :
      Effect sp s (.admitted .pageFault) .scheduling { s with nextDiskReadTime := s.currentTime + sp.swapLatency } []
  | cleanUp {p u} : gllFirst s.runningProcess = some p → cleanUpProcess s = some u →
      Effect sp s (.admitted .traceEnds) .scheduling
        { u with runningProcess := gllPop u.runningProcess, finished := u.finished ++ [p] } []
  | timer : Effect sp s (.admitted .quantaFinishes) .scheduling
      { requeue s with nextQuanta := (requeue s).currentTime + quantum } []
  | noneRan : Effect sp s (.admitted .noProcess) .scheduling s []
  | schedule : Effect sp s .scheduling .idle (schedulingRR s) []
  | again : ¬(gllFirst s.runningProcess = none ∧ gllFirst s.readyProcess = none) → Effect sp s .idle .top s []
  | allDone : gllFirst s.runningProcess = none → gllFirst s.readyProcess = none → gllFirst s.blockedProcess = none →
      gllFirst s.processList = none → Effect sp s .idle .returned s []
  | awaitArrival {p} : gllFirst s.runningProcess = none → gllFirst s.readyProcess = none →
      gllFirst s.blockedProcess = none → gllFirst s.processList = some p →
      Effect sp s .idle (.jump p true) (makeReady s p) []
  | awaitDisk {p} : gllFirst s.runningProcess = none → gllFirst s.readyProcess = none →
      gllFirst s.blockedProcess = some p → Effect sp s .idle .catchUp (startWait s) []
  | jump {p twice} : s.nextQuanta < (s.pcb p).startTime →
      Effect sp s (.jump p twice) (.jump p twice)
        { s with currentTime := s.nextQuanta, nextQuanta := s.nextQuanta + quantum } []
  | arrive {p twice} : ¬s.nextQuanta < (s.pcb p).startTime →
      Effect sp s (.jump p twice) .top (arrive (s.pcb p).startTime twice s) []
  | catchUp : s.nextQuanta < s.currentTime →
      Effect sp s .catchUp .catchUp { s with nextQuanta := s.nextQuanta + quantum } []
  | readDisk {u} : ¬s.nextQuanta < s.currentTime → diskToMemory sp s = some u →
      Effect sp s .catchUp .top u (swapEvent s)
  | stay : Effect sp s .returned .returned s []

theorem readPage_running (sp : SysParam) (s : Sim) (p : Nat) (stopTime : UInt64) :
    (readPage sp s p stopTime).1.runningProcess = s.runningProcess :=
  (readPage_charged sp s p stopTime).lists.runningProcess

theorem handlePause_disk : handlePause sp .diskInterrupt s = (diskToMemory sp s).map requeue := by
  unfold handlePause
  cases diskToMemory sp s with
  | none => rfl
  | some u =>
    simp only [Option.bind_eq_bind, Option.bind_some, Option.map_some, requeue]
    split <;> rfl

/-- Every step is one of the effects. -/
theorem micro_effect (h : micro sp pc s = some (pc', s')) : Effect sp s pc pc' s' (events sp pc s) := by
  cases pc with
  | start =>
    simp only [micro] at h
    split at h
    · cases h
    · cases h
      exact .started ‹_›
  | top =>
    simp only [micro] at h
    split at h
    · rename_i hr
      obtain ⟨p, hp⟩ := Option.ne_none_iff_exists'.1 hr
      split at h <;> cases h
      · exact .diskInterrupt hp ‹_›
      · exact .slice hp ‹_›
    · rename_i hr
      cases h
      exact .noProcess (not_not.1 hr)
  | slice stopTime =>
    simp only [micro] at h
    split at h
    · rename_i hlt
      split at h
      · cases h
      · rename_i p hp
        have hrun : gllFirst (readPage sp s p stopTime).1.runningProcess ≠ none := by
          rw [readPage_running, hp]
          exact Option.some_ne_none p
        have hev : events sp (.slice stopTime) s = [readEvent sp s p stopTime] := by
          simp only [events_slice, hlt, hp, if_true, Option.toList_some, List.map_cons, List.map_nil]
        rw [hev]
        split at h
        · rename_i hret
          cases h
          exact .traceEnds hlt hp (Prod.ext rfl hret)
        · rename_i hret
          rw [if_pos hrun] at h
          cases h
          exact .pageFault hlt hp (Prod.ext rfl hret)
        · rename_i hret
          cases h
          exact .success hlt hp (Prod.ext rfl hret)
    · rename_i hlt
      cases h
      rw [events_slice, if_neg hlt]
      exact .quantaFinishes hlt
  | paused simPause =>
    cases h
    exact .transferred
  | admitted simPause =>
    obtain ⟨u, hu, he⟩ := Option.map_eq_some_iff.1 h
    cases he
    cases simPause with
    | diskInterrupt =>
      obtain ⟨v, hv, rfl⟩ := Option.map_eq_some_iff.1 (handlePause_disk.symm.trans hu)
      exact .swapIn hv
    | pageFault =>
      cases hu
      exact .setDisk
    | traceEnds =>
      simp only [handlePause, Option.bind_eq_bind, Option.bind_eq_some_iff] at hu
      obtain ⟨v, hv, hu⟩ := hu
      cases hp : gllFirst s.runningProcess with
      | none => simp [cleanUpProcess, hp] at hv
      | some p =>
        rw [hp] at hu
        cases hu
        exact .cleanUp hp hv
    | quantaFinishes =>
      cases hu
      exact .timer
    | noProcess =>
      cases hu
      exact .noneRan
  | scheduling =>
    cases h
    exact .schedule
  | idle =>
    simp only [micro] at h
    split at h
    · rename_i hnone
      split at h
      · rename_i hall
        cases h
        exact .allDone hnone.1 hnone.2 hall.1 hall.2
      · split at h
        · cases h
        · cases h
          exact .awaitArrival hnone.1 hnone.2 ‹_› ‹_›
        · cases h
          exact .awaitDisk hnone.1 hnone.2 ‹_›
        · -- every arrival is at 0 or later
          rw [if_pos (UInt64.le_iff_toNat_le.2 (Nat.zero_le _))] at h
          cases h
          exact .awaitDisk hnone.1 hnone.2 ‹_›
    · cases h
      exact .again ‹_›
  | jump p twice =>
    simp only [micro] at h
    split at h <;> cases h
    · exact .jump ‹_›
    · exact .arrive ‹_›
  | catchUp =>
    simp only [micro] at h
    split at h
    · rename_i hlt
      cases h
      rw [events_catchUp, if_pos hlt]
      exact .catchUp hlt
    · rename_i hlt
      obtain ⟨u, hu, he⟩ := Option.map_eq_some_iff.1 h
      cases he
      rw [events_catchUp, if_neg hlt]
      exact .readDisk hlt hu
  | returned =>
    cases h
    exact .stay

/-- The step is a call of `diskToMemory`. -/
def CallsDisk (s : Sim) : Pc → Prop
  | .admitted .diskInterrupt => True
  | .catchUp => ¬s.nextQuanta < s.currentTime
  | _ => False

instance (s : Sim) (pc : Pc) : Decidable (CallsDisk s pc) := by
  unfold CallsDisk
  split <;> infer_instance

/-- The first instruction of the first blocked process is a `MEM`. -/
def findsMem (s : Sim) : Bool := (gllFirst s.blockedProcess).any fun p => (s.pcb p).memReq.head?.any (·.type = .mem)

/-- Nothing is running or ready, and a process is blocked. -/
def Waits (s : Sim) : Prop :=
  gllFirst s.runningProcess = none ∧ gllFirst s.readyProcess = none ∧ gllFirst s.blockedProcess ≠ none

instance (s : Sim) : Decidable (Waits s) := inferInstanceAs (Decidable (_ ∧ _))

/-- What the running list holds when `processSimulator` has returned. -/
def Pause.Running (s : Sim) : Pause → Prop
  | .pageFault | .noProcess => Vacant s.runningProcess
  | .quantaFinishes | .traceEnds | .diskInterrupt => gllFirst s.runningProcess ≠ none

/-- What the running list holds at `pc`. -/
def Pc.Running (s : Sim) : Pc → Prop
  | .start => s.runningProcess = []
  | .slice _ => gllFirst s.runningProcess ≠ none
  | .paused simPause | .admitted simPause => simPause.Running s
  | .scheduling => Vacant s.runningProcess
  | _ => True

/-- What holds in every state: where the blocks are, and what runs. -/
structure Good (n : Nat) (c : Cfg) : Prop where
  inv : Inv n c.sim
  running : c.pc.Running c.sim

theorem tick_effect {c c' : Cfg} (h : tick sp c () = some c') :
    ∃ evs, Effect sp c.sim c.pc c'.pc c'.sim evs ∧ c'.history = c.history ++ evs := by
  obtain ⟨r, hr, rfl⟩ := Option.map_eq_some_iff.1 h
  exact ⟨_, micro_effect hr, rfl⟩

theorem makeReady_startTime (s : Sim) (p q : Nat) : ((makeReady s p).pcb q).startTime = (s.pcb q).startTime := by
  by_cases hq : q = p
  · subst hq
    simp [makeReady, Sim.modify]
  · simp [makeReady, Sim.modify, hq]

theorem newQuanta_transfer (h : Inv n s) :
    Inv n (transfer (newQuanta s)) ∧ (transfer (newQuanta s)).runningProcess = s.runningProcess := by
  obtain ⟨h1, hr1⟩ := newQuanta_inv h
  obtain ⟨h2, hr2⟩ := transfer_inv h1
  exact ⟨h2, hr2.trans hr1⟩

/-- Running is about the running list only. -/
theorem Pause.Running.congr {simPause : Pause} (h : simPause.Running s) (hr : s'.runningProcess = s.runningProcess) :
    simPause.Running s' := by
  cases simPause <;> simpa only [Pause.Running, hr] using h

theorem readPage_good {stopTime : UInt64} {p : Nat} {u : Sim} {ret : Read} (h : Inv n s)
    (hp : gllFirst s.runningProcess = some p) (hread : readPage sp s p stopTime = (u, ret)) :
    Inv n u ∧ Charged s u p ∧ gllFirst u.runningProcess = some p := by
  have hu := readPage_charged sp s p stopTime
  rw [hread] at hu
  exact ⟨h.charged (unfinished_of_running hp) hu, hu, hu.lists.runningProcess ▸ hp⟩

theorem effect_good {evs : List Event} (h : Inv n s) (hr : pc.Running s) (he : Effect sp s pc pc' s' evs) :
    Inv n s' ∧ pc'.Running s' := by
  cases he with
  | started hp =>
    have hnil : s.runningProcess = [] := hr
    have hd := h.dispatch (hnil ▸ fun _ hx => nomatch hx)
    rw [hnil] at hp hd ⊢
    exact ⟨hd.congr ⟨rfl, rfl, rfl, rfl, rfl, rfl⟩ (fun _ => rfl) rfl, trivial⟩
  | noProcess hp => exact ⟨h, h.vacant hp⟩
  | diskInterrupt hp hlt =>
    refine ⟨h.congr ⟨rfl, rfl, rfl, rfl, rfl, rfl⟩ (fun _ => rfl) rfl, ?_⟩
    exact ne_of_eq_of_ne hp (Option.some_ne_none _)
  | slice hp hlt => exact ⟨h, ne_of_eq_of_ne hp (Option.some_ne_none _)⟩
  | quantaFinishes hlt => exact ⟨h, hr⟩
  | traceEnds hlt hp hread =>
    obtain ⟨h1, -, h2⟩ := readPage_good h hp hread
    exact ⟨h1, ne_of_eq_of_ne h2 (Option.some_ne_none _)⟩
  | @pageFault stopTime p u hlt hp hread =>
    obtain ⟨h1, hu, h2⟩ := readPage_good h hp hread
    refine ⟨h1.block h2, ?_⟩
    show Vacant (gllPop u.runningProcess)
    rw [hu.lists.runningProcess]
    exact h.behind
  | success hlt hp hread =>
    obtain ⟨h1, -, h2⟩ := readPage_good h hp hread
    exact ⟨h1, ne_of_eq_of_ne h2 (Option.some_ne_none _)⟩
  | transferred =>
    obtain ⟨h1, h2⟩ := newQuanta_transfer h
    exact ⟨h1, Pause.Running.congr hr h2⟩
  | swapIn hu => exact requeue_inv (diskToMemory_inv h hu).1
  | setDisk => exact ⟨h.congr ⟨rfl, rfl, rfl, rfl, rfl, rfl⟩ (fun _ => rfl) rfl, hr⟩
  | cleanUp hp hu =>
    have hclean := cleanUpProcess_inv h hu
    rw [hp] at hclean
    exact hclean
  | timer =>
    have hreq := requeue_inv h
    exact ⟨hreq.1.congr ⟨rfl, rfl, rfl, rfl, rfl, rfl⟩ (fun _ => rfl) rfl, hreq.2⟩
  | noneRan => exact ⟨h, hr⟩
  | schedule => exact ⟨schedulingRR_inv h hr, trivial⟩
  | again => exact ⟨h, trivial⟩
  | allDone => exact ⟨h, trivial⟩
  | awaitArrival _ _ _ hp => exact ⟨h.makeReady hp, trivial⟩
  | awaitDisk => exact ⟨h.congr ⟨rfl, rfl, rfl, rfl, rfl, rfl⟩ (fun _ => rfl) rfl, trivial⟩
  | jump => exact ⟨h.congr ⟨rfl, rfl, rfl, rfl, rfl, rfl⟩ (fun _ => rfl) rfl, trivial⟩
  | @arrive p twice _ =>
    refine ⟨h.congr ?_ (fun _ => ?_) ?_, trivial⟩
    · cases twice <;> exact ⟨rfl, rfl, rfl, rfl, rfl, rfl⟩
    · cases twice <;> rfl
    · cases twice <;> rfl
  | catchUp => exact ⟨h.congr ⟨rfl, rfl, rfl, rfl, rfl, rfl⟩ (fun _ => rfl) rfl, trivial⟩
  | readDisk _ hu => exact ⟨(diskToMemory_inv h hu).1, trivial⟩
  | stay => exact ⟨h, trivial⟩

theorem begin_good (sp : SysParam) (ws : List Process) : Good ws.length (begin sp ws) := by
  obtain ⟨h1, h2⟩ := transfer_inv (initState_inv sp ws)
  exact ⟨h1, h2⟩

theorem tick_good {c c' : Cfg} (h : Good n c) (ht : tick sp c () = some c') : Good n c' := by
  obtain ⟨evs, he, -⟩ := tick_effect ht
  obtain ⟨h1, h2⟩ := effect_good h.inv h.running he
  exact ⟨h1, h2⟩

theorem good_reach {ws : List Process} {P : Cfg → Unit → Prop} {c : Cfg} (h : Reach (tick sp) P (begin sp ws) c) :
    Good ws.length c :=
  Reach.inv (Good ws.length) (fun _ _ _ hc _ ht => tick_good hc ht) h (begin_good sp ws)

/-! ## A round is a sequence of steps -/

/-- Some steps lead from `pc` and `s` to `pc'` and `s'`. -/
def Steps (sp : SysParam) (pc : Pc) (s : Sim) (pc' : Pc) (s' : Sim) : Prop :=
  ∀ h, ∃ h', Reach (tick sp) Any ⟨pc, s, h⟩ ⟨pc', s', h'⟩

theorem Steps.one (h : micro sp pc s = some (pc', s')) : Steps sp pc s pc' s' := fun _ =>
  ⟨_, Relation.ReflTransGen.single ⟨(), trivial, by rw [tick, h]; rfl⟩⟩

theorem Steps.trans {pc'' : Pc} {s'' : Sim} (h : Steps sp pc s pc' s') (h' : Steps sp pc' s' pc'' s'') :
    Steps sp pc s pc'' s'' := by
  intro a
  obtain ⟨b, hb⟩ := h a
  obtain ⟨c, hc⟩ := h' b
  exact ⟨c, hb.trans hc⟩

theorem runSlice_steps {stopTime : UInt64} {pause : Pause} {fuel : Nat}
    (h : runSlice sp stopTime fuel s = some (s', pause)) : Steps sp (.slice stopTime) s (.paused pause) s' := by
  induction fuel generalizing s with
  | zero => cases h
  | succ fuel ih =>
    unfold runSlice at h
    split at h
    · rename_i hlt
      cases hp : gllFirst s.runningProcess with
      | none => rw [hp] at h; cases h
      | some p =>
        rw [hp] at h
        have hmicro : micro sp (.slice stopTime) s = match (readPage sp s p stopTime).2 with
            | .traceEnds => some (.paused .traceEnds, (readPage sp s p stopTime).1)
            | .pageFault => some (.paused .pageFault, block (readPage sp s p stopTime).1)
            | .success => some (.slice stopTime, (readPage sp s p stopTime).1) := by
          simp only [micro, if_pos hlt, hp, readPage_running, if_pos (Option.some_ne_none p)]
        dsimp only at h
        split at h
        · rename_i hret
          cases h
          apply Steps.one
          rw [hmicro, hret]
        · rename_i hret
          rw [if_pos (by rw [readPage_running, hp]; exact Option.some_ne_none p)] at h
          cases h
          apply Steps.one
          rw [hmicro, hret]
          rfl
        · rename_i hret
          refine Steps.trans (Steps.one ?_) (ih h)
          rw [hmicro, hret]
    · rename_i hlt
      cases h
      apply Steps.one
      rw [micro, if_neg hlt]

theorem processSimulator_steps {pause : Pause} {fuel : Nat} (h : processSimulator sp fuel s = some (s', pause)) :
    Steps sp .top s (.paused pause) s' := by
  unfold processSimulator at h
  split at h
  · rename_i hr
    split at h
    · rename_i hd
      cases h
      apply Steps.one
      rw [micro, if_pos hr, if_pos hd]
    · rename_i hd
      refine Steps.trans (Steps.one ?_) (runSlice_steps h)
      rw [micro, if_pos hr, if_neg hd]
  · rename_i hr
    cases h
    apply Steps.one
    rw [micro, if_neg hr]

theorem quantaToStart_steps {fuel p : Nat} {start : UInt64} {twice : Bool} (hs : (s.pcb p).startTime = start)
    (h : quantaToStart start fuel s = some s') : Steps sp (.jump p twice) s .top (arrive start twice s') := by
  induction fuel generalizing s with
  | zero => cases h
  | succ fuel ih =>
    unfold quantaToStart at h
    split at h
    · rename_i hlt
      refine Steps.trans (Steps.one ?_) (ih ?_ h)
      · rw [micro, hs, if_pos hlt]
      · exact hs
    · rename_i hlt
      cases h
      apply Steps.one
      rw [micro, hs, if_neg hlt]

theorem waitForDisk_steps {fuel : Nat} (h : waitForDisk sp fuel s = some s') :
    Steps sp .catchUp (startWait s) .top s' := by
  have key : ∀ {fuel u v}, quantaToNow fuel u = some v → diskToMemory sp v = some s' → Steps sp .catchUp u .top s' := by
    intro fuel
    induction fuel with
    | zero => intro u v hu; cases hu
    | succ fuel ih =>
      intro u v hu hd
      unfold quantaToNow at hu
      split at hu
      · rename_i hlt
        refine Steps.trans (Steps.one ?_) (ih hu hd)
        rw [micro, if_pos hlt]
      · rename_i hlt
        cases hu
        apply Steps.one
        rw [micro, if_neg hlt, hd]
        rfl
  obtain ⟨v, hv, hd⟩ := Option.bind_eq_some_iff.1 h
  exact key hv hd

theorem idle_steps {fuel : Nat} (hnone : gllFirst s.runningProcess = none ∧ gllFirst s.readyProcess = none)
    (hsome : ¬(gllFirst s.blockedProcess = none ∧ gllFirst s.processList = none)) (h : idle sp fuel s = some s') :
    Steps sp .idle s .top s' := by
  have hmicro : ∀ r, (match gllFirst s.blockedProcess, gllFirst s.processList with
      | none, none => none
      | none, some p => some (.jump p true, makeReady s p)
      | some _, none => some (.catchUp, startWait s)
      | some _, some p =>
        if (s.pcb p).startTime ≥ 0 then some (.catchUp, startWait s) else some (.jump p false, makeReady s p)) = some r →
      micro sp .idle s = some r := by
    intro r hr
    rw [micro, if_pos hnone, if_neg hsome]
    exact hr
  unfold idle at h
  split at h
  · cases h
  · rename_i p hb hp
    simp only [Option.bind_eq_bind, Option.bind_eq_some_iff] at h
    obtain ⟨u, hu, h⟩ := h
    cases h
    refine Steps.trans (Steps.one (hmicro (.jump p true, makeReady s p) ?_)) (quantaToStart_steps rfl hu)
    rw [hb, hp]
  · rename_i q hb hp
    refine Steps.trans (Steps.one (hmicro (.catchUp, startWait s) ?_)) (waitForDisk_steps h)
    rw [hb, hp]
  · rename_i q p hb hp
    dsimp only at h
    split at h
    · rename_i hge
      refine Steps.trans (Steps.one (hmicro (.catchUp, startWait s) ?_)) (waitForDisk_steps h)
      rw [hb, hp]
      exact if_pos hge
    · rename_i hge
      exact absurd (UInt64.le_iff_toNat_le.2 (Nat.zero_le _)) hge

theorem steps_of_round {fuel : Nat} {o : Outcome} (h : round sp fuel s = some o) :
    match o with
    | .next s' => Steps sp .top s .top s'
    | .done s' => Steps sp .top s .returned s' := by
  unfold round at h
  simp only [Option.bind_eq_bind, Option.bind_eq_some_iff] at h
  obtain ⟨⟨u, pause⟩, hsim, v, hpause, h⟩ := h
  have htransfer : Steps sp (.paused pause) u (.admitted pause) (transfer (newQuanta u)) := Steps.one rfl
  have hhandle : Steps sp (.admitted pause) (transfer (newQuanta u)) .scheduling v := by
    apply Steps.one
    rw [micro, hpause]
    rfl
  have hschedule : Steps sp .scheduling v .idle (schedulingRR v) := Steps.one rfl
  have hidle := (processSimulator_steps hsim).trans (htransfer.trans (hhandle.trans hschedule))
  split at h
  · rename_i hnone
    split at h
    · rename_i hall
      cases h
      refine hidle.trans (Steps.one ?_)
      rw [micro, if_pos hnone, if_pos hall]
    · rename_i hsome
      obtain ⟨w, hw, h⟩ := Option.bind_eq_some_iff.1 h
      cases h
      exact hidle.trans (idle_steps hnone hsome hw)
  · rename_i hnone
    cases h
    refine hidle.trans (Steps.one ?_)
    rw [micro, if_neg hnone]

/-- What rounds reach, steps reach. -/
theorem steps_of_reach {ws : List Process} {s0 : Sim} (h0 : simulateStart sp ws = some s0)
    (h : Reach (step sp) Any s0 s) : Steps sp .start (transfer (initState sp ws)) .top s := by
  induction h with
  | refl =>
    unfold simulateStart at h0
    split at h0
    · cases h0
    · dsimp only at h0
      split at h0
      · cases h0
      · rename_i hp
        cases h0
        apply Steps.one
        simp only [micro, hp]
  | tail _ hn ih =>
    obtain ⟨fuel, -, hstep⟩ := hn
    unfold step at hstep
    split at hstep
    · rename_i hr
      cases hstep
      exact ih.trans (steps_of_round hr)
    · cases hstep

end Cmpsc473.Paging
