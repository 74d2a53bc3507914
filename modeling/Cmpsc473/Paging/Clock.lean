import Cmpsc473.Paging.Machine
/-!
# The clock

`Moves` sums up what the steps do to the clock and to the two times: six kinds
of steps move it. The rest follows from them: which steps book what they move,
and which move it forward.
-/

namespace Cmpsc473.Paging

open Runs

/-! ## What moves the clock -/

/-- The clock and the two times are the same. -/
structure SameClock (s s' : Sim) : Prop where
  currentTime : s'.currentTime = s.currentTime
  osTime : s'.osTime = s.osTime
  userTime : s'.userTime = s.userTime

/-- The steps by what they do to the clock. -/
inductive Moves (sp : SysParam) (s : Sim) : Pc → Pc → Sim → Prop where
  | still {pc pc' s'} : (pc = .idle → ¬Waits s ∧ pc' ≠ .catchUp) → (∀ p twice, pc ≠ .jump p twice) → SameClock s s' →
      Moves sp s pc pc' s'
  | ran {stopTime pc' s' d} : s.currentTime < stopTime → d ≤ stopTime - s.currentTime → Ticked s s' d →
      Moves sp s (.slice stopTime) pc' s'
  | switched {pc' s'} : gllFirst s.readyProcess ≠ none → s'.currentTime = s.currentTime + contextSwitchTime →
      s'.osTime = s.osTime + contextSwitchTime → s'.userTime = s.userTime → Moves sp s .scheduling pc' s'
  | swapped {pc pc' s'} : CallsDisk s pc → findsMem s = true → s'.currentTime = s.currentTime + sp.swapLatency →
      s'.osTime = s.osTime → s'.userTime = s.userTime → Moves sp s pc pc' s'
  | waited : Waits s → Moves sp s .idle .catchUp (startWait s)
  | jumped {p twice} : s.nextQuanta < (s.pcb p).startTime →
      Moves sp s (.jump p twice) (.jump p twice)
        { s with currentTime := s.nextQuanta, nextQuanta := s.nextQuanta + quantum }
  | arrived {p twice} : ¬s.nextQuanta < (s.pcb p).startTime →
      Moves sp s (.jump p twice) .top (arrive (s.pcb p).startTime twice s)

variable {sp : SysParam} {s s' : Sim} {n : Nat} {pc pc' : Pc} {evs : List Event} {ws : List Process}

theorem requeue_clock (s : Sim) : SameClock s (requeue s) := by
  unfold requeue
  split <;> exact ⟨rfl, rfl, rfl⟩

theorem newQuanta_clock (s : Sim) : SameClock s (newQuanta s) := by
  unfold newQuanta
  split <;> exact ⟨rfl, rfl, rfl⟩

theorem transfer_clock (s : Sim) : SameClock s (transfer s) := by
  apply transfer_keeps (SameClock s)
  · exact fun u p _ h => ⟨h.currentTime, h.osTime, h.userTime⟩
  · exact ⟨rfl, rfl, rfl⟩

theorem cleanUp_clock {u : Sim} (h : cleanUpProcess s = some u) : SameClock s u := by
  unfold cleanUpProcess at h
  split at h <;> cases h
  exact ⟨rfl, rfl, rfl⟩

/-- A call of `diskToMemory` moves the clock if it swaps in. -/
theorem diskToMemory_moves {u : Sim} (hpc : CallsDisk s pc) (h : diskToMemory sp s = some u) (hs : SameClock u s') :
    Moves sp s pc pc' s' := by
  have hne : ∀ p twice, pc ≠ .jump p twice := by
    rintro p twice rfl
    exact hpc
  obtain ⟨p, addr, rest, hp, hreq, ⟨-, rfl⟩ | ⟨htype, rfl⟩⟩ := diskToMemory_cases h
  · refine .still ?_ hne ⟨hs.currentTime, hs.osTime, hs.userTime⟩
    rintro rfl
    exact hpc.elim
  · have hfinds : findsMem s = true := by simp [findsMem, hp, hreq, htype]
    exact .swapped hpc hfinds hs.currentTime hs.osTime hs.userTime

theorem effect_moves (he : Effect sp s pc pc' s' evs) : Moves sp s pc pc' s' := by
  -- most steps leave the clock alone
  have still : ∀ {pc pc' s'}, pc ≠ .idle → (∀ p twice, pc ≠ .jump p twice) → SameClock s s' → Moves sp s pc pc' s' :=
    fun h => .still fun h' => absurd h' h
  cases he with
  | started | noProcess | diskInterrupt | slice | quantaFinishes | setDisk | noneRan | catchUp | stay =>
    apply still
    · exact Pc.noConfusion
    · exact fun _ _ => Pc.noConfusion
    · exact ⟨rfl, rfl, rfl⟩
  | traceEnds hlt _ hread | success hlt _ hread =>
    obtain ⟨d, hd, ht⟩ := readPage_ticked hread
    exact .ran hlt hd ht
  | pageFault hlt _ hread =>
    obtain ⟨d, hd, ht⟩ := readPage_ticked hread
    exact .ran hlt hd ⟨ht.currentTime, ht.userTime, ht.osTime⟩
  | transferred =>
    have h1 := newQuanta_clock s
    have h2 := transfer_clock (newQuanta s)
    apply still
    · exact Pc.noConfusion
    · exact fun _ _ => Pc.noConfusion
    · exact ⟨h2.currentTime.trans h1.currentTime, h2.osTime.trans h1.osTime, h2.userTime.trans h1.userTime⟩
  | swapIn hu => exact diskToMemory_moves trivial hu (requeue_clock _)
  | cleanUp _ hu =>
    have h := cleanUp_clock hu
    apply still
    · exact Pc.noConfusion
    · exact fun _ _ => Pc.noConfusion
    · exact ⟨h.currentTime, h.osTime, h.userTime⟩
  | timer =>
    have h := requeue_clock s
    apply still
    · exact Pc.noConfusion
    · exact fun _ _ => Pc.noConfusion
    · exact ⟨h.currentTime, h.osTime, h.userTime⟩
  | schedule =>
    unfold schedulingRR
    dsimp only
    split
    · apply still
      · exact Pc.noConfusion
      · exact fun _ _ => Pc.noConfusion
      · exact ⟨rfl, rfl, rfl⟩
    · rename_i hp
      exact .switched (ne_of_eq_of_ne hp (Option.some_ne_none _)) rfl rfl rfl
  | again hn =>
    exact .still (fun _ => ⟨fun hw => hn ⟨hw.1, hw.2.1⟩, Pc.noConfusion⟩) (fun _ _ => Pc.noConfusion) ⟨rfl, rfl, rfl⟩
  | allDone _ _ hb =>
    exact .still (fun _ => ⟨fun hw => hw.2.2 hb, Pc.noConfusion⟩) (fun _ _ => Pc.noConfusion) ⟨rfl, rfl, rfl⟩
  | awaitArrival _ _ hb =>
    exact .still (fun _ => ⟨fun hw => hw.2.2 hb, Pc.noConfusion⟩) (fun _ _ => Pc.noConfusion) ⟨rfl, rfl, rfl⟩
  | awaitDisk hr hq hb => exact .waited ⟨hr, hq, ne_of_eq_of_ne hb (Option.some_ne_none _)⟩
  | jump hlt => exact .jumped hlt
  | arrive hge => exact .arrived hge
  | readDisk hge hu => exact diskToMemory_moves hge hu ⟨rfl, rfl, rfl⟩

/-! ## What the clock moves is booked -/

/-- The clock is the sum of the two times. -/
def Booked (s : Sim) : Prop := s.currentTime = s.userTime + s.osTime

/-- The step is not one of those that wait for an arrival, and if it swaps a
page in then that takes no time. -/
def BooksOnce (sp : SysParam) (s : Sim) : Pc → Prop
  | .jump _ _ => False
  | pc => CallsDisk s pc → findsMem s = true → sp.swapLatency = 0

instance (sp : SysParam) (s : Sim) (pc : Pc) : Decidable (BooksOnce sp s pc) := by
  unfold BooksOnce
  split <;> infer_instance

theorem booked_step (h : Booked s) (hc : BooksOnce sp s pc) (hm : Moves sp s pc pc' s') : Booked s' := by
  cases hm with
  | still _ _ hs => exact hs.currentTime.trans (h.trans (by rw [hs.userTime, hs.osTime]))
  | @ran stopTime _ _ d _ _ ht =>
    calc s'.currentTime = s.currentTime + d := ht.currentTime
      _ = s.userTime + s.osTime + d := by rw [show s.currentTime = _ from h]
      _ = s.userTime + d + s.osTime := by ac_rfl
      _ = s'.userTime + s'.osTime := by rw [ht.userTime, ht.osTime]
  | switched _ h1 h2 h3 =>
    calc s'.currentTime = s.currentTime + contextSwitchTime := h1
      _ = s.userTime + s.osTime + contextSwitchTime := by rw [show s.currentTime = _ from h]
      _ = s.userTime + (s.osTime + contextSwitchTime) := UInt64.add_assoc ..
      _ = s'.userTime + s'.osTime := by rw [h2, h3]
  | swapped hcalls hfinds h1 h2 h3 =>
    have hzero : sp.swapLatency = 0 := by
      cases pc with
      | jump => exact hc.elim
      | _ => exact hc hcalls hfinds
    unfold Booked
    rw [h1, h2, h3, hzero, UInt64.add_zero]
    exact h
  | waited hw =>
    -- what is taken off the clock is taken off `OSTime`, modulo `2^64`
    show (0 : UInt64) = s.userTime + (s.osTime + (0 - s.currentTime))
    rw [← UInt64.add_assoc, ← show s.currentTime = _ from h, UInt64.zero_sub, UInt64.add_right_neg]
  | jumped => exact hc.elim
  | arrived => exact hc.elim

/-- What a step adds to `OSTime`: a dispatch the time of one context switch, and a
wait for the disk the way back to 0. -/
def bookedOs (s : Sim) : Pc → UInt64
  | .scheduling => if gllFirst s.readyProcess = none then 0 else contextSwitchTime
  | .idle => if Waits s then 0 - s.currentTime else 0
  | _ => 0

theorem schedulingRR_osTime (s : Sim) : (schedulingRR s).osTime = s.osTime + bookedOs s .scheduling := by
  unfold schedulingRR
  dsimp only
  split
  · rename_i hnone
    have hready : gllFirst s.readyProcess = none := hnone
    rw [bookedOs, if_pos hready, UInt64.add_zero]
  · rename_i temp hsome
    have hready : gllFirst s.readyProcess = some temp := hsome
    rw [bookedOs, if_neg (by rw [hready]; exact Option.some_ne_none temp)]

theorem effect_osTime (he : Effect sp s pc pc' s' evs) (hc : BooksOnce sp s pc) : s'.osTime = s.osTime + bookedOs s pc := by
  by_cases hpc : pc = .scheduling
  · subst hpc
    cases he
    exact schedulingRR_osTime s
  · cases effect_moves he with
    | still hidle _ hs =>
      have hzero : bookedOs s pc = 0 := by
        unfold bookedOs
        split
        · exact absurd rfl hpc
        · rw [if_neg (hidle rfl).1]
        · rfl
      rw [hzero, hs.osTime, UInt64.add_zero]
    | ran _ _ ht => exact ht.osTime.trans (UInt64.add_zero _).symm
    | switched => exact absurd rfl hpc
    | swapped hcalls _ _ hos _ =>
      cases pc with
      | admitted | catchUp => exact hos.trans (UInt64.add_zero _).symm
      | _ => exact hcalls.elim
    | waited hw =>
      rw [bookedOs, if_pos hw]
      rfl
    | jumped | arrived => exact hc.elim

/-- In a run that waits for no arrival, and swaps nothing in or in no time, the
clock is the sum of the two times in every state, and so it is at the end. Each
dispatch adds the time of one context switch to `OSTime`, and no other step does. -/
theorem clock_booked {c : Cfg} (h : Reach (tick sp) (fun c _ => BooksOnce sp c.sim c.pc) (begin sp ws) c) :
    Booked c.sim ∧ (c.pc = .returned →
      (statsUpdate c.sim).endTime = (statsUpdate c.sim).userModeTime + (statsUpdate c.sim).osModetime) ∧
    ∀ c', BooksOnce sp c.sim c.pc → tick sp c () = some c' → c'.sim.osTime = c.sim.osTime + bookedOs c.sim c.pc := by
  have hbooked : Booked c.sim := by
    refine Reach.inv (fun c => Booked c.sim) (fun c _ c' hb hc ht => ?_) h ?_
    · obtain ⟨evs, he, -⟩ := tick_effect ht
      exact booked_step hb hc (effect_moves he)
    · have hclock := transfer_clock (initState sp ws)
      unfold Booked
      show (transfer (initState sp ws)).currentTime = _
      rw [hclock.currentTime]
      exact (congrArg₂ (· + ·) hclock.userTime hclock.osTime).symm
  refine ⟨hbooked, fun _ => hbooked, fun c' hc ht => ?_⟩
  obtain ⟨evs, he, -⟩ := tick_effect ht
  exact effect_osTime he hc

/-- A `NONMEM`. -/
def nonmem : NextMem := { self := 4096, type := .nonmem, address := [], addressPtr := 0 }

/-- A `MEM`. -/
def mem : NextMem := { self := 4112, type := .mem, address := [48, 120, 49, 97], addressPtr := 4128 }

/-- A process whose block was zero before `readNextTrace`. -/
def process (startTime : UInt64) (trace : List NextMem) : Process :=
  { startTime := startTime, trace := trace, ptHitCount := 0, ptMissCount := 0, numberOfDiskInt := 0, numberPageFaults := 0 }

/-- `clock_booked` for two processes that are there from the start. -/
theorem clock_booked_two : ∃ c,
    Reach (tick smallSysParam) (fun c _ => BooksOnce smallSysParam c.sim c.pc)
      (begin smallSysParam [process 0 [nonmem, nonmem], process 0 [nonmem]]) c ∧
    c.pc = .returned ∧ c.sim.currentTime = 1003 ∧ Booked c.sim := by
  have hrun : (exec (guarded (tick smallSysParam) fun c _ => BooksOnce smallSysParam c.sim c.pc)
      (begin smallSysParam [process 0 [nonmem, nonmem], process 0 [nonmem]]) (List.replicate 14 ())).any
      (fun c => c.pc = .returned ∧ c.sim.currentTime = 1003) = true := by
    decide +kernel
  obtain ⟨c, hc, h⟩ := (Option.any_eq_true _ _).1 hrun
  have hreach := (exec_guarded hc).2
  exact ⟨c, hreach, (of_decide_eq_true h).1, (of_decide_eq_true h).2, (clock_booked hreach).1⟩

/-- A second process arrives at 5, when the first is done at 1: the clock moves
on by 4, and `OSTime` by 8. -/
theorem clock_booked_fails_late : ∃ c,
    Reach (tick fullSysParam) Any (begin fullSysParam [process 0 [nonmem], process 5 [nonmem]]) c ∧
    c.pc = .top ∧ c.sim.currentTime = 5 ∧ c.sim.userTime = 1 ∧ c.sim.osTime = 8 ∧ ¬Booked c.sim := by
  have hrun : (exec (tick fullSysParam) (begin fullSysParam [process 0 [nonmem], process 5 [nonmem]])
      (List.replicate 8 ())).any
      (fun c => c.pc = .top ∧ c.sim.currentTime = 5 ∧ c.sim.userTime = 1 ∧ c.sim.osTime = 8) = true := by
    decide +kernel
  obtain ⟨c, hc, h⟩ := (Option.any_eq_true _ _).1 hrun
  obtain ⟨h1, h2, h3, h4⟩ := of_decide_eq_true h
  refine ⟨c, exec_reach hc fun _ _ _ => trivial, h1, h2, h3, h4, ?_⟩
  unfold Booked
  rw [h2, h3, h4]
  decide

/-! ## The clock moves forward -/

/-- The first process that has not arrived arrives later. -/
def Late (s : Sim) : Prop := ∀ p, gllFirst s.processList = some p → s.currentTime < (s.pcb p).startTime

/-- What holds of the arrivals at `pc`. -/
def Pc.Late (s : Sim) : Pc → Prop
  | .admitted _ => Paging.Late s
  | .scheduling => gllFirst s.readyProcess = none → Paging.Late s
  | .idle => gllFirst s.runningProcess = none → Paging.Late s
  | .jump p _ => s.currentTime < (s.pcb p).startTime
  | _ => True

theorem transferLoop_late {l : Gll} (hl : s.processList = l) : Paging.Late (transferLoop l s) := by
  induction l generalizing s with
  | nil =>
    intro p hp
    rw [show transferLoop [] s = s from rfl, hl] at hp
    cases hp
  | cons x rest ih =>
    cases x with
    | none =>
      intro p hp
      rw [show transferLoop (none :: rest) s = s from rfl, hl] at hp
      cases hp
    | some q =>
      unfold transferLoop
      split
      · exact ih (congrArg List.tail hl)
      · rename_i hlate
        intro p hp
        rw [hl] at hp
        cases hp
        exact UInt64.not_le.1 hlate

/-- A process that goes back to the ready list is there. -/
theorem requeue_ready (h : Inv n (requeue s)) (hr : gllFirst s.runningProcess ≠ none) :
    gllFirst (requeue s).readyProcess ≠ none := by
  intro hnone
  have hnil := eq_nil_of_first h.ready_solid hnone
  unfold requeue at hnil
  rw [if_pos hr] at hnil
  exact List.append_ne_nil_of_right_ne_nil _ (List.cons_ne_nil _ _) hnil

theorem diskToMemory_running {u : Sim} (h : diskToMemory sp s = some u) : u.runningProcess = s.runningProcess := by
  obtain ⟨p, addr, rest, -, -, ⟨-, rfl⟩ | ⟨-, rfl⟩⟩ := diskToMemory_cases h
  · rfl
  · rfl

theorem effect_late (h : Inv n s) (hr : pc.Running s) (hl : pc.Late s) (he : Effect sp s pc pc' s' evs) : pc'.Late s' := by
  have hgood := effect_good h hr he
  cases he with
  | started | noProcess | diskInterrupt | slice | quantaFinishes | traceEnds | pageFault | success | again | allDone
    | awaitDisk | arrive | catchUp | readDisk | stay => exact trivial
  | transferred => exact transferLoop_late rfl
  | swapIn hu =>
    intro hnone
    exact absurd hnone (requeue_ready hgood.1 (diskToMemory_running hu ▸ hr))
  | setDisk | noneRan => exact fun _ p hp => hl p hp
  | cleanUp _ hu =>
    unfold cleanUpProcess at hu
    split at hu <;> cases hu
    exact fun _ p hp => hl p hp
  | timer =>
    have hreq : Inv n (requeue s) := (requeue_inv h).1
    intro hnone
    dsimp only at hnone
    exact absurd hnone (requeue_ready hreq hr)
  | schedule =>
    unfold schedulingRR
    dsimp only
    split
    · rename_i hnone
      exact fun _ p hp => hl hnone p hp
    · rename_i p hp
      intro hnone
      exact absurd (hp.symm.trans hnone) (Option.some_ne_none p)
  | awaitArrival hnone _ _ hp =>
    show s.currentTime < _
    rw [makeReady_startTime]
    exact hl hnone _ hp
  | jump hlt => exact hlt

/-- The sums of times that the step computes are below `2^64`. -/
def SumsFit (sp : SysParam) (s : Sim) : Pc → Prop
  | .scheduling => gllFirst s.readyProcess ≠ none →
      s.currentTime.toNat + contextSwitchTime.toNat < 2 ^ 64 ∧ s.osTime.toNat + contextSwitchTime.toNat < 2 ^ 64
  | .jump p _ => s.osTime.toNat + 2 * ((s.pcb p).startTime.toNat - s.currentTime.toNat) < 2 ^ 64
  | pc => CallsDisk s pc → findsMem s = true → s.currentTime.toNat + sp.swapLatency.toNat < 2 ^ 64

instance (sp : SysParam) (s : Sim) (pc : Pc) : Decidable (SumsFit sp s pc) := by
  unfold SumsFit
  split <;> infer_instance

/-- The step moves neither the clock nor `OSTime` back, so that no difference
added to `OSTime` wraps, and waits for a blocked process until the disk is done. -/
structure Forward (s s' : Sim) (pc pc' : Pc) : Prop where
  clock : s.currentTime ≤ s'.currentTime
  os : s.osTime ≤ s'.osTime
  disk : pc = .idle → pc' = .catchUp → s.nextDiskReadTime ≤ s'.currentTime

/-- The step does not wait for a blocked process, unless time has not begun, and
lets no quantum pass that has passed before. -/
def TimeOk (s : Sim) : Pc → Prop
  | .idle => Waits s → s.currentTime = 0 ∧ s.nextDiskReadTime = 0
  | .jump p _ => s.nextQuanta < (s.pcb p).startTime → s.currentTime ≤ s.nextQuanta
  | _ => True

instance (s : Sim) (pc : Pc) : Decidable (TimeOk s pc) := by
  unfold TimeOk
  split <;> infer_instance

theorem le_add_of_fits {a b : UInt64} (h : a.toNat + b.toNat < 2 ^ 64) : a ≤ a + b := by
  rw [UInt64.le_iff_toNat_le, UInt64.toNat_add]
  omega

theorem le_zero_iff {a : UInt64} : a ≤ 0 ↔ a = 0 := by
  rw [UInt64.le_iff_toNat_le, ← UInt64.toNat_inj, UInt64.toNat_zero, Nat.le_zero]

/-- The waits for an arrival add no more than fits. -/
theorem arrive_os {p : Nat} {twice : Bool} (hlate : s.currentTime < (s.pcb p).startTime)
    (hfit : SumsFit sp s (.jump p twice)) :
    s.osTime ≤ (arrive (s.pcb p).startTime twice s).osTime := by
  have hle := UInt64.le_iff_toNat_le.1 (UInt64.le_of_lt hlate)
  have hsub : ((s.pcb p).startTime - s.currentTime).toNat = (s.pcb p).startTime.toNat - s.currentTime.toNat :=
    UInt64.toNat_sub_of_le _ _ (UInt64.le_of_lt hlate)
  have hfit : s.osTime.toNat + 2 * ((s.pcb p).startTime.toNat - s.currentTime.toNat) < 2 ^ 64 := hfit
  rw [UInt64.le_iff_toNat_le]
  cases twice with
  | false =>
    show _ ≤ (s.osTime + ((s.pcb p).startTime - s.currentTime)).toNat
    rw [UInt64.toNat_add, hsub]
    omega
  | true =>
    show _ ≤ (s.osTime + ((s.pcb p).startTime - s.currentTime) + ((s.pcb p).startTime - s.currentTime)).toNat
    rw [UInt64.toNat_add, UInt64.toNat_add, hsub]
    omega

theorem forward_iff (hl : pc.Late s) (hfit : SumsFit sp s pc) (hm : Moves sp s pc pc' s') :
    Forward s s' pc pc' ↔ TimeOk s pc := by
  cases hm with
  | still hidle hjump hs =>
    have hok : TimeOk s pc := by
      cases pc with
      | idle => exact fun hw => absurd hw (hidle rfl).1
      | jump => exact absurd rfl (hjump _ _)
      | _ => trivial
    refine ⟨fun _ => hok, fun _ => ⟨?_, ?_, fun h1 h2 => absurd h2 (hidle h1).2⟩⟩
    · rw [hs.currentTime]; exact UInt64.le_refl _
    · rw [hs.osTime]; exact UInt64.le_refl _
  | @ran stopTime _ _ d hlt hd ht =>
    refine ⟨fun _ => trivial, fun _ => ⟨?_, ?_, fun h => nomatch h⟩⟩
    · -- the slice ends at `stopTime` at the latest
      rw [ht.currentTime]
      apply le_add_of_fits
      have hle := UInt64.le_iff_toNat_le.1 hd
      rw [UInt64.toNat_sub_of_le _ _ (UInt64.le_of_lt hlt)] at hle
      have hstop := UInt64.lt_iff_toNat_lt.1 hlt
      have := stopTime.toNat_lt
      omega
    · rw [ht.osTime]; exact UInt64.le_refl _
  | switched hr h1 h2 =>
    refine ⟨fun _ => trivial, fun _ => ⟨?_, ?_, fun h => nomatch h⟩⟩
    · rw [h1]; exact le_add_of_fits (hfit hr).1
    · rw [h2]; exact le_add_of_fits (hfit hr).2
  | swapped hcalls hfinds h1 h2 =>
    have hok : TimeOk s pc := by
      cases pc with
      | idle => exact hcalls.elim
      | jump => exact hcalls.elim
      | _ => trivial
    refine ⟨fun _ => hok, fun _ => ⟨?_, ?_, ?_⟩⟩
    · rw [h1]
      apply le_add_of_fits
      cases pc with
      | scheduling => exact hcalls.elim
      | jump => exact hcalls.elim
      | _ => exact hfit hcalls hfinds
    · rw [h2]; exact UInt64.le_refl _
    · rintro rfl
      exact hcalls.elim
  | waited hw =>
    constructor
    · intro h _
      exact ⟨le_zero_iff.1 h.clock, le_zero_iff.1 (h.disk rfl rfl)⟩
    · intro h
      obtain ⟨hclock, hdisk⟩ := h hw
      refine ⟨le_zero_iff.2 hclock, ?_, fun _ _ => le_zero_iff.2 hdisk⟩
      show s.osTime ≤ s.osTime + (0 - s.currentTime)
      rw [hclock, UInt64.sub_self, UInt64.add_zero]
      exact UInt64.le_refl _
  | jumped hlt =>
    constructor
    · intro h _
      exact h.clock
    · intro h
      exact ⟨h hlt, UInt64.le_refl _, fun h => nomatch h⟩
  | arrived hge =>
    refine ⟨fun _ h => absurd h hge, fun _ => ⟨?_, arrive_os hl hfit, fun h => nomatch h⟩⟩
    rw [arrive_currentTime]
    exact UInt64.le_of_lt hl

theorem begin_late (sp : SysParam) (ws : List Process) : (begin sp ws).pc.Late (begin sp ws).sim := trivial

/-- In a run whose sums stay below `2^64`, every step goes forward if and only
if no step waits for a blocked process (unless the clock and the disk are still
at 0) and no wait for an arrival takes the clock back to the end of a quantum. -/
theorem time_forward {ls : List Unit}
    (hfit : ∀ c l c', Takes (tick sp) (begin sp ws) ls c l c' → SumsFit sp c.sim c.pc) :
    (∀ c l c', Takes (tick sp) (begin sp ws) ls c l c' → Forward c.sim c'.sim c.pc c'.pc) ↔
      ∀ c l c', Takes (tick sp) (begin sp ws) ls c l c' → TimeOk c.sim c.pc := by
  refine takes_iff (fun c => Good ws.length c ∧ c.pc.Late c.sim) (fun c _ c' h ht => ?_)
    ⟨begin_good sp ws, begin_late sp ws⟩ fun c l c' h ht => ?_
  · obtain ⟨evs, he, -⟩ := tick_effect ht
    exact ⟨tick_good h.1 ht, effect_late h.1.inv h.1.running h.2 he⟩
  · obtain ⟨-, -, -, -, hstep⟩ := id ht
    obtain ⟨evs, he, -⟩ := tick_effect hstep
    exact forward_iff h.2 (hfit c l c' ht) (effect_moves he)

/-- `time_forward` for two processes, the second of which is waited for. -/
theorem time_forward_two :
    (exec (tick smallSysParam) (begin smallSysParam [process 0 [nonmem], process 5 [nonmem]])
      (List.replicate 20 ())).isSome = true ∧
    ∀ c l c', Takes (tick smallSysParam) (begin smallSysParam [process 0 [nonmem], process 5 [nonmem]])
      (List.replicate 20 ()) c l c' → Forward c.sim c'.sim c.pc c'.pc := by
  have hfit : along (tick smallSysParam) (fun c _ => SumsFit smallSysParam c.sim c.pc)
      (begin smallSysParam [process 0 [nonmem], process 5 [nonmem]]) (List.replicate 20 ()) = true := by
    decide +kernel
  have hok : along (tick smallSysParam) (fun c _ => TimeOk c.sim c.pc)
      (begin smallSysParam [process 0 [nonmem], process 5 [nonmem]]) (List.replicate 20 ()) = true := by
    decide +kernel
  exact ⟨by decide +kernel, (time_forward (takes_along hfit)).2 (takes_along hok)⟩

/-- A process faults at 1 and is waited for: the clock goes back to 0, and
`OSTime` from 0 to `2^64 - 1`. -/
theorem time_forward_fails_fault : ∃ c c',
    along (tick fullSysParam) (fun c _ => SumsFit fullSysParam c.sim c.pc)
      (begin fullSysParam [process 0 [nonmem, mem, nonmem]]) (List.replicate 8 ()) = true ∧
    Takes (tick fullSysParam) (begin fullSysParam [process 0 [nonmem, mem, nonmem]]) (List.replicate 8 ()) c () c' ∧
    c.sim.currentTime = 1 ∧ c'.sim.currentTime = 0 ∧ c.sim.osTime = 0 ∧ c'.sim.osTime = 18446744073709551615 ∧
    ¬Forward c.sim c'.sim c.pc c'.pc := by
  have hrun : (exec (tick fullSysParam) (begin fullSysParam [process 0 [nonmem, mem, nonmem]]) (List.replicate 7 ())).any
      (fun c => (tick fullSysParam c ()).any fun c' => c.sim.currentTime = 1 ∧ c'.sim.currentTime = 0 ∧
        c.sim.osTime = 0 ∧ c'.sim.osTime = 18446744073709551615) = true := by
    decide +kernel
  obtain ⟨c, hc, h⟩ := (Option.any_eq_true _ _).1 hrun
  obtain ⟨c', hc', h⟩ := (Option.any_eq_true _ _).1 h
  obtain ⟨h1, h2, h3, h4⟩ := of_decide_eq_true h
  refine ⟨c, c', by decide +kernel, ⟨List.replicate 7 (), [], rfl, hc, hc'⟩, h1, h2, h3, h4, fun hf => ?_⟩
  have hclock := hf.clock
  rw [h1, h2] at hclock
  exact absurd hclock (by decide)

end Cmpsc473.Paging
