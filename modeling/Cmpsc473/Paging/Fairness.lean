import Cmpsc473.Paging.Slice
/-!
# Turns

What is ready is served in order. Up to `schedulingRR` a round dispatches
nothing, and what becomes ready meanwhile goes to the end (`Admits`);
`schedulingRR` then dispatches the first ready process (`Turn`). So a ready
process runs after as many rounds as its place says, each round takes a bounded
time, and it returns if its disk interrupt finds a blocked process (`DiskReady`).
-/

namespace Cmpsc473.Paging

open Runs Function

variable {sp : SysParam} {s s' u : Sim} {n p i : Nat} {pause : Pause} {fuel : Nat} {stopTime : UInt64}

/-! ## The ready list grows at its end -/

/-- Nothing was dispatched, and what became ready went to the end. -/
structure Admits (s u : Sim) : Prop where
  executionOrder : u.executionOrder = s.executionOrder
  readyProcess : s.readyProcess <+: u.readyProcess

theorem Admits.refl (s : Sim) : Admits s s := ⟨rfl, List.prefix_rfl⟩

theorem Admits.trans (h : Admits s u) (h' : Admits u s') : Admits s s' :=
  ⟨h'.executionOrder.trans h.executionOrder, h.readyProcess.trans h'.readyProcess⟩

theorem readPage_admits (sp : SysParam) (s : Sim) (p : Nat) (stopTime : UInt64) : Admits s (readPage sp s p stopTime).1 := by
  have hready := (readPage_charged sp s p stopTime).lists.readyProcess
  refine ⟨?_, hready ▸ List.prefix_rfl⟩
  have hnonmem : ∀ t, (chargeNonmem sp s p t).executionOrder = s.executionOrder := by
    intro t
    obtain ⟨timeNeeded, -, ⟨-, h⟩ | ⟨-, h⟩⟩ := chargeNonmem_cases sp s p t <;> rw [h] <;> rfl
  have hmem : ∀ t, (chargeMem sp s p t).executionOrder = s.executionOrder := by
    intro t
    obtain ⟨-, h⟩ | ⟨-, h⟩ := chargeMem_cases sp s p t <;> rw [h] <;> rfl
  cases hread : readPage sp s p stopTime with
  | mk u ret =>
  cases readPage_reads hread with
  | nothing => rfl
  | nonmem => exact hnonmem _
  | last => exact hmem _
  | looked _ _ _ hl => cases lookup_looks hl <;> exact hmem _

theorem runSlice_admits (h : runSlice sp stopTime fuel s = some (u, pause)) : Admits s u := by
  induction fuel generalizing s with
  | zero => cases h
  | succ fuel ih =>
    unfold runSlice at h
    split at h
    · split at h
      · cases h
      · rename_i p _
        have hread := readPage_admits sp s p stopTime
        dsimp only at h
        split at h
        · cases h
          exact hread
        · split at h
          · cases h
            exact hread.trans ⟨rfl, List.prefix_rfl⟩
          · exact hread.trans (ih h)
        · exact hread.trans (ih h)
    · cases h
      exact .refl _

theorem processSimulator_admits (h : processSimulator sp fuel s = some (u, pause)) : Admits s u := by
  unfold processSimulator at h
  split at h
  · split at h
    · cases h
      exact ⟨rfl, List.prefix_rfl⟩
    · exact runSlice_admits h
  · cases h
    exact .refl _

theorem newQuanta_admits (s : Sim) : Admits s (newQuanta s) := by
  unfold newQuanta
  split <;> exact ⟨rfl, List.prefix_rfl⟩

theorem transfer_admits (s : Sim) : Admits s (transfer s) := by
  apply transfer_keeps (Admits s)
  · intro u p _ h
    exact h.trans ⟨rfl, List.prefix_append _ _⟩
  · exact .refl s

theorem requeue_admits (s : Sim) : Admits s (requeue s) := by
  unfold requeue
  split
  · exact ⟨rfl, List.prefix_append _ _⟩
  · exact .refl s

theorem diskToMemory_admits (h : diskToMemory sp s = some u) : Admits s u := by
  obtain ⟨p, addr, rest, -, -, ⟨-, rfl⟩ | ⟨-, rfl⟩⟩ := diskToMemory_cases h
  · exact ⟨rfl, List.prefix_rfl⟩
  · exact ⟨rfl, List.prefix_append _ _⟩

theorem handlePause_admits (h : handlePause sp pause s = some u) : Admits s u := by
  cases pause with
  | diskInterrupt =>
    rw [handlePause_disk] at h
    obtain ⟨v, hv, rfl⟩ := Option.map_eq_some_iff.1 h
    exact (diskToMemory_admits hv).trans (requeue_admits v)
  | pageFault =>
    cases h
    exact ⟨rfl, List.prefix_rfl⟩
  | traceEnds =>
    simp only [handlePause, cleanUpProcess, Option.bind_eq_bind] at h
    split at h <;> cases h
    exact ⟨rfl, List.prefix_rfl⟩
  | quantaFinishes =>
    cases h
    exact (requeue_admits s).trans ⟨rfl, List.prefix_rfl⟩
  | noProcess =>
    cases h
    exact .refl s

/-! ## What a round takes -/

/-- The longest time from one dispatch to the next. -/
def turnTime (sp : SysParam) : Nat := max quantum.toNat sp.swapLatency.toNat + contextSwitchTime.toNat

theorem readPage_clock (p : Nat) (hle : s.currentTime ≤ stopTime) : (readPage sp s p stopTime).1.currentTime ≤ stopTime := by
  cases hread : readPage sp s p stopTime with
  | mk u ret =>
  obtain ⟨d, hd, ht⟩ := readPage_ticked hread
  rw [UInt64.le_iff_toNat_le, UInt64.toNat_sub_of_le _ _ hle] at hd
  rw [UInt64.le_iff_toNat_le] at hle ⊢
  have hlt := stopTime.toNat_lt
  rw [ht.currentTime, UInt64.toNat_add, Nat.mod_eq_of_lt (by omega)]
  omega

theorem runSlice_clock (hle : s.currentTime ≤ stopTime) (h : runSlice sp stopTime fuel s = some (u, pause)) :
    u.currentTime ≤ stopTime ∧ pause ≠ .diskInterrupt := by
  induction fuel generalizing s with
  | zero => cases h
  | succ fuel ih =>
    unfold runSlice at h
    split at h
    · split at h
      · cases h
      · rename_i p _
        have hread := @readPage_clock sp s stopTime p hle
        dsimp only at h
        split at h
        · cases h
          exact ⟨hread, by decide⟩
        · split at h
          · cases h
            exact ⟨hread, by decide⟩
          · exact ih hread h
        · exact ih hread h
    · cases h
      exact ⟨hle, by decide⟩

/-- A slice takes no more than the quantum, and a disk interrupt is found before any time has passed. -/
theorem processSimulator_clock (hq : s.currentTime.toNat + quantum.toNat < 18446744073709551616)
    (h : processSimulator sp fuel s = some (u, pause)) :
    u.currentTime.toNat ≤ s.currentTime.toNat + if pause = .diskInterrupt then 0 else quantum.toNat := by
  unfold processSimulator at h
  split at h
  · split at h
    · cases h
      exact Nat.le_refl _
    · have hstop : (s.currentTime + quantum).toNat = s.currentTime.toNat + quantum.toNat := by
        rw [UInt64.toNat_add, Nat.mod_eq_of_lt hq]
      have hstart : s.currentTime ≤ s.currentTime + quantum := by
        rw [UInt64.le_iff_toNat_le, hstop]
        exact Nat.le_add_right _ _
      obtain ⟨hle, hpause⟩ := runSlice_clock hstart h
      rw [if_neg hpause]
      rwa [UInt64.le_iff_toNat_le, hstop] at hle
  · cases h
    exact Nat.le_add_right _ _

/-- Swapping in is the only thing that takes time. -/
theorem handlePause_clock (h : handlePause sp pause s = some u)
    (hfit : pause = .diskInterrupt → s.currentTime.toNat + sp.swapLatency.toNat < 18446744073709551616) :
    u.currentTime.toNat ≤ s.currentTime.toNat + if pause = .diskInterrupt then sp.swapLatency.toNat else 0 := by
  cases pause with
  | diskInterrupt =>
    rw [handlePause_disk] at h
    obtain ⟨v, hv, rfl⟩ := Option.map_eq_some_iff.1 h
    rw [(requeue_clock v).currentTime]
    obtain ⟨p, addr, rest, -, -, ⟨-, rfl⟩ | ⟨-, rfl⟩⟩ := diskToMemory_cases hv
    · exact Nat.le_add_right _ _
    · have hclock : (swapIn sp s p addr).currentTime = s.currentTime + sp.swapLatency := rfl
      rw [hclock, UInt64.toNat_add, Nat.mod_eq_of_lt (hfit rfl)]
      exact Nat.le_refl _
  | pageFault =>
    cases h
    exact Nat.le_refl _
  | traceEnds =>
    simp only [handlePause, cleanUpProcess, Option.bind_eq_bind] at h
    split at h <;> cases h
    exact Nat.le_refl _
  | quantaFinishes =>
    cases h
    exact Nat.le_of_eq (congrArg UInt64.toNat (requeue_clock s).currentTime)
  | noProcess =>
    cases h
    exact Nat.le_refl _

/-! ## A turn -/

/-- A round in which `p`, the first ready process, gets the processor. -/
structure Turn (s : Sim) (p : Nat) (s' : Sim) : Prop where
  executionOrder : s'.executionOrder = s.executionOrder ++ [p]
  readyProcess : gllPop s.readyProcess <+: s'.readyProcess
  running : gllFirst s'.runningProcess = some p

theorem schedulingRR_turn (hp : gllFirst s.readyProcess = some p) :
    Turn s p (schedulingRR s) := by
  unfold schedulingRR
  rw [hp]
  exact ⟨rfl, List.prefix_rfl, rfl⟩

theorem Admits.first (h : Admits s u) (hp : gllFirst s.readyProcess = some p) : gllFirst u.readyProcess = some p := by
  obtain ⟨l, hl⟩ := h.readyProcess
  rw [← hl, first_some hp]
  rfl

theorem Admits.turn (h : Admits s u) (hp : gllFirst s.readyProcess = some p) (ht : Turn u p s') : Turn s p s' := by
  refine ⟨by rw [ht.executionOrder, h.executionOrder], ?_, ht.running⟩
  refine List.IsPrefix.trans ?_ ht.readyProcess
  obtain ⟨l, hl⟩ := h.readyProcess
  rw [← hl, first_some hp]
  exact List.prefix_append _ _

theorem Turn.not_idle (h : Turn s p s') : gllFirst s'.runningProcess ≠ none := by
  rw [h.running]
  exact Option.some_ne_none p

/-- Up to `schedulingRR` a round only adds to the ready list, so the first ready
process is dispatched. -/
theorem pause_turn {w : Sim} (hp : gllFirst s.readyProcess = some p)
    (hsim : processSimulator sp fuel s = some (u, pause))
    (hpause : handlePause sp pause (transfer (newQuanta u)) = some w) : Turn s p (schedulingRR w) := by
  have hadmits : Admits s w := (processSimulator_admits hsim).trans
    (((newQuanta_admits u).trans (transfer_admits _)).trans (handlePause_admits hpause))
  exact hadmits.turn hp (schedulingRR_turn (hadmits.first hp))

theorem schedulingRR_clock (s : Sim) (hfit : s.currentTime.toNat + contextSwitchTime.toNat < 18446744073709551616) :
    (schedulingRR s).currentTime.toNat ≤ s.currentTime.toNat + contextSwitchTime.toNat := by
  unfold schedulingRR
  dsimp only
  split
  · exact Nat.le_add_right _ _
  · rw [UInt64.toNat_add, Nat.mod_eq_of_lt hfit]

/-- A round serves the first ready process, in bounded time. -/
theorem step_turn (hp : gllFirst s.readyProcess = some p) (h : step sp s fuel = some s') :
    Turn s p s' ∧ (s.currentTime.toNat + turnTime sp < 18446744073709551616 →
      s'.currentTime.toNat ≤ s.currentTime.toNat + turnTime sp) := by
  unfold step at h
  split at h
  · rename_i v hround
    cases h
    unfold round at hround
    simp only [Option.bind_eq_bind, Option.bind_eq_some_iff] at hround
    obtain ⟨⟨u, pause⟩, hsim, w, hpause, hend⟩ := hround
    have hturn := pause_turn hp hsim hpause
    rw [if_neg (hturn.not_idle ·.1)] at hend
    cases hend
    refine ⟨hturn, fun hfit => ?_⟩
    have hclock : (transfer (newQuanta u)).currentTime = u.currentTime :=
      (transfer_clock _).currentTime.trans (newQuanta_clock u).currentTime
    have hq : quantum.toNat ≤ max quantum.toNat sp.swapLatency.toNat := Nat.le_max_left _ _
    have hl : sp.swapLatency.toNat ≤ max quantum.toNat sp.swapLatency.toNat := Nat.le_max_right _ _
    rw [turnTime] at hfit ⊢
    have hu := processSimulator_clock (by omega) hsim
    have hw := handlePause_clock hpause
    rw [hclock] at hw
    by_cases hdisk : pause = .diskInterrupt
    · rw [if_pos hdisk] at hu hw
      have hswap := hw fun _ => by omega
      have hs := schedulingRR_clock w (by omega)
      omega
    · rw [if_neg hdisk] at hu hw
      have hstill := hw fun h => absurd h hdisk
      have hs := schedulingRR_clock w (by omega)
      omega
  · cases h

theorem step_inv (hinv : Inv n s) (h : step sp s fuel = some s') : Inv n s' := by
  unfold step at h
  split at h
  · rename_i v hround
    cases h
    exact round_inv hinv hround
  · cases h

/-- A process is ready before the one at `i`, or it is that one. -/
theorem Inv.ready_first (hinv : Inv n s) (hp : s.readyProcess[i]? = some (some p)) : ∃ q, gllFirst s.readyProcess = some q := by
  rw [← Option.ne_none_iff_exists']
  intro hnone
  rw [eq_nil_of_first hinv.ready_solid hnone] at hp
  cases hp

/-- With each turn a ready process moves on by one place. -/
theorem Turn.moves {q : Nat} (ht : Turn s q u) (hq : gllFirst s.readyProcess = some q)
    (hp : s.readyProcess[i + 1]? = some (some p)) :
    u.readyProcess[i]? = some (some p) ∧ u.readyProcess.take (i + 1) = (gllPop s.readyProcess).take (i + 1) := by
  obtain ⟨l, hl⟩ := ht.readyProcess
  rw [first_some hq, List.getElem?_cons_succ] at hp
  obtain ⟨hi, -⟩ := List.getElem?_eq_some_iff.1 hp
  rw [← hl, List.getElem?_append_left hi, List.take_append_of_le_length hi]
  exact ⟨hp, rfl⟩

/-- From `s`, where `i` processes were ready before `p`, they were dispatched in
their order, once each, and then `p` was, in bounded time. -/
structure Served (sp : SysParam) (s : Sim) (i p : Nat) (s' : Sim) : Prop where
  running : gllFirst s'.runningProcess = some p
  executionOrder : s'.executionOrder.map some = s.executionOrder.map some ++ s.readyProcess.take (i + 1)
  currentTime : s.currentTime.toNat + (i + 1) * turnTime sp < 18446744073709551616 →
    s'.currentTime.toNat ≤ s.currentTime.toNat + (i + 1) * turnTime sp

/-- The processes ahead of a ready one are dispatched before it, each in its round. -/
theorem exec_turns (hinv : Inv n s) (hp : s.readyProcess[i]? = some (some p)) {fuels : List Nat}
    (hlen : fuels.length = i + 1) (h : exec (step sp) s fuels = some s') : Served sp s i p s' := by
  induction i generalizing s fuels with
  | zero =>
    obtain ⟨fuel, rfl⟩ := List.length_eq_one_iff.1 hlen
    obtain ⟨u, hu, hs⟩ := Option.bind_eq_some_iff.1 h
    cases hs
    have hfirst : gllFirst s.readyProcess = some p := by rw [gllFirst, List.headD_eq_head?_getD, List.head?_eq_getElem?, hp]; rfl
    obtain ⟨hturn, hclock⟩ := step_turn hfirst hu
    refine ⟨hturn.running, ?_, ?_⟩
    · rw [hturn.executionOrder, List.map_append, first_some hfirst]
      rfl
    · simpa only [Nat.zero_add, Nat.one_mul] using hclock
  | succ i ih =>
    obtain ⟨fuel, fuels, rfl⟩ := List.exists_cons_of_length_eq_add_one hlen
    obtain ⟨u, hu, hrest⟩ := Option.bind_eq_some_iff.1 h
    -- a process is ahead of `p`
    obtain ⟨q, hfirst⟩ := hinv.ready_first hp
    obtain ⟨hturn, hclock⟩ := step_turn hfirst hu
    obtain ⟨hnext, htake⟩ := hturn.moves hfirst hp
    obtain ⟨hrun, horder, htime⟩ := ih (step_inv hinv hu) hnext (Nat.succ.inj hlen) hrest
    refine ⟨hrun, ?_, fun hfit => ?_⟩
    · rw [horder, hturn.executionOrder, htake, first_some hfirst, List.take_succ_cons, List.map_append, List.append_assoc]
      rfl
    · rw [Nat.succ_mul] at hfit ⊢
      have hu' := hclock (by omega)
      have hs' := htime (by omega)
      omega

/-! ## The rounds return -/

/-- A disk interrupt that is due finds a blocked process with an instruction. -/
def DiskReady (s : Sim) : Prop :=
  gllFirst s.runningProcess ≠ none → s.nextDiskReadTime < s.currentTime →
    ∃ p, gllFirst s.blockedProcess = some p ∧ (s.pcb p).memReq ≠ []

/-- What `processSimulator` returns, and that `simulate` finds what it needs for it. -/
theorem pause_found (sp : SysParam) (hd : DiskReady s) (hq : s.currentTime.toNat + quantum.toNat < 18446744073709551616) :
    ∃ fuel u pause, processSimulator sp fuel s = some (u, pause) ∧
      (pause = .diskInterrupt → ∃ p, gllFirst u.blockedProcess = some p ∧ (u.pcb p).memReq ≠ []) ∧
      (pause = .traceEnds → gllFirst u.runningProcess ≠ none) := by
  by_cases hrun : gllFirst s.runningProcess = none
  · refine ⟨0, s, .noProcess, ?_, ?_, ?_⟩
    · rw [processSimulator, if_neg (not_not.2 hrun)]
    · rintro ⟨⟩
    · rintro ⟨⟩
  · by_cases hdisk : s.currentTime > s.nextDiskReadTime
    · refine ⟨0, { s with numberOfDiskInt := s.numberOfDiskInt + 1 }, .diskInterrupt, ?_, fun _ => hd hrun hdisk, ?_⟩
      · rw [processSimulator, if_pos hrun, if_pos hdisk]
      · rintro ⟨⟩
    · obtain ⟨p, hp⟩ := Option.ne_none_iff_exists'.1 hrun
      have hlt : s.currentTime < s.currentTime + quantum := by
        have h0 : 0 < quantum.toNat := by decide
        rw [UInt64.lt_iff_toNat_lt, UInt64.toNat_add, Nat.mod_eq_of_lt hq]
        omega
      obtain ⟨u, pause, v, d, hloop, hends⟩ := @runSlice_ends sp p (s.currentTime + quantum) _ s hp le_rfl
        (UInt64.le_of_lt hlt) fun h => absurd hlt h
      refine ⟨(s.pcb p).memReq.length + 2, u, pause, ?_, fun h => ?_, fun h => ?_⟩
      · rw [processSimulator, if_pos hrun, if_neg hdisk]
        exact hloop _ (Nat.lt_succ_self _)
      · rcases hends.pause with ⟨rfl, -⟩ | ⟨rfl, -⟩ | ⟨rfl, -⟩ <;> cases h
      · obtain ⟨rfl, -⟩ | ⟨-, rfl, -⟩ | ⟨rfl, -⟩ := hends.pause
        · cases h
        · rw [hends.spent.lists.runningProcess]
          exact hrun
        · cases h

/-- `simulate` comes to `schedulingRR`. -/
theorem handlePause_returns {pause : Pause}
    (hdisk : pause = .diskInterrupt → ∃ p, gllFirst s.blockedProcess = some p ∧ (s.pcb p).memReq ≠ [])
    (hends : pause = .traceEnds → gllFirst s.runningProcess ≠ none) : ∃ u, handlePause sp pause s = some u := by
  cases pause with
  | diskInterrupt =>
    obtain ⟨p, hp, hne⟩ := hdisk rfl
    obtain ⟨addr, rest, hreq⟩ := List.exists_cons_of_ne_nil hne
    obtain ⟨u, hu⟩ := Option.ne_none_iff_exists'.1 (@diskToMemory_found sp s p addr rest hp hreq)
    rw [handlePause_disk, hu]
    exact ⟨_, rfl⟩
  | traceEnds =>
    obtain ⟨p, hp⟩ := Option.ne_none_iff_exists'.1 (hends rfl)
    simp [handlePause, cleanUpProcess, hp]
  | pageFault | quantaFinishes | noProcess => exact ⟨_, rfl⟩

/-- What is blocked, what runs, and the instructions of the blocked stay when processes become ready. -/
theorem arrive_keeps (s : Sim) : (transfer (newQuanta s)).blockedProcess = s.blockedProcess ∧
    (transfer (newQuanta s)).runningProcess = s.runningProcess ∧
      ∀ p, (s.pcb p).memReq ≠ [] → ((transfer (newQuanta s)).pcb p).memReq ≠ [] := by
  apply transfer_keeps fun u => u.blockedProcess = s.blockedProcess ∧ u.runningProcess = s.runningProcess ∧
    ∀ p, (s.pcb p).memReq ≠ [] → (u.pcb p).memReq ≠ []
  · rintro u q - ⟨hb, hr, hreq⟩
    exact ⟨hb, hr, fun p hp => makeReady_memReq u q (hreq p hp)⟩
  · unfold newQuanta
    split <;> exact ⟨rfl, rfl, fun _ h => h⟩

/-- A round returns if a process is ready and the disk interrupt finds what it needs. -/
theorem step_returns (sp : SysParam) (hp : gllFirst s.readyProcess = some p) (hd : DiskReady s)
    (hq : s.currentTime.toNat + quantum.toNat < 18446744073709551616) : ∃ fuel s', step sp s fuel = some s' := by
  obtain ⟨fuel, u, pause, hsim, hdisk, hends⟩ := pause_found sp hd hq
  obtain ⟨hb, hr, hreq⟩ := arrive_keeps u
  obtain ⟨w, hw⟩ : ∃ w, handlePause sp pause (transfer (newQuanta u)) = some w := by
    apply handlePause_returns
    · intro h
      obtain ⟨p, hp, hne⟩ := hdisk h
      exact ⟨p, by rw [hb, hp], hreq p hne⟩
    · intro h
      rw [hr]
      exact hends h
  have hturn := pause_turn hp hsim hw
  refine ⟨fuel, schedulingRR w, ?_⟩
  have hround : round sp fuel s = some (.next (schedulingRR w)) := by
    simp only [round, hsim, hw, Option.bind_eq_bind, Option.bind_some]
    rw [if_neg (hturn.not_idle ·.1)]
    rfl
  rw [step, hround]

/-- The rounds up to the turn of `p` return, or one of them takes a disk interrupt
that does not find what it needs. -/
theorem exec_returns (hinv : Inv n s) (hp : s.readyProcess[i]? = some (some p))
    (hfit : s.currentTime.toNat + (i + 1) * turnTime sp < 18446744073709551616) :
    ∃ fuels s', exec (step sp) s fuels = some s' ∧ (fuels.length = i + 1 ∨ fuels.length ≤ i ∧ ¬DiskReady s') := by
  induction i generalizing s with
  | zero =>
    obtain ⟨q, hfirst⟩ := hinv.ready_first hp
    by_cases hd : DiskReady s
    · have hq : quantum.toNat ≤ turnTime sp := le_add_right (Nat.le_max_left _ _)
      obtain ⟨fuel, u, hu⟩ := step_returns sp hfirst hd (by omega)
      refine ⟨[fuel], u, ?_, .inl rfl⟩
      rw [exec, hu]
      rfl
    · exact ⟨[], s, rfl, .inr ⟨Nat.le_refl _, hd⟩⟩
  | succ i ih =>
    obtain ⟨q, hfirst⟩ := hinv.ready_first hp
    by_cases hd : DiskReady s
    · have hq : quantum.toNat ≤ turnTime sp := le_add_right (Nat.le_max_left _ _)
      rw [Nat.succ_mul] at hfit
      obtain ⟨fuel, u, hu⟩ := step_returns sp hfirst hd (by omega)
      obtain ⟨hturn, hclock⟩ := step_turn hfirst hu
      have hle := hclock (by omega)
      obtain ⟨fuels, s', hrest, hend⟩ := ih (step_inv hinv hu) (hturn.moves hfirst hp).1 (by omega)
      refine ⟨fuel :: fuels, s', ?_, ?_⟩
      · rw [exec, hu]
        exact hrest
      · rw [List.length_cons]
        obtain hlen | ⟨hlen, hstop⟩ := hend
        · exact .inl (by omega)
        · exact .inr ⟨by omega, hstop⟩
    · exact ⟨[], s, rfl, .inr ⟨Nat.zero_le _, hd⟩⟩

/-- A ready process with `i` processes ahead of it waits for no more than `i`
turns: every run of `i + 1` rounds serves the processes ahead of it and then it.
The rounds return, unless one of them takes a disk interrupt that finds no
blocked process, or one without instructions. -/
theorem bounded_waiting {ws : List Process} {s0 : Sim} (h0 : simulateStart sp ws = some s0)
    (h : Reach (step sp) Any s0 s) (hp : s.readyProcess[i]? = some (some p)) :
    (∀ fuels s', fuels.length = i + 1 → exec (step sp) s fuels = some s' → Served sp s i p s') ∧
      (s.currentTime.toNat + (i + 1) * turnTime sp < 18446744073709551616 →
        ∃ fuels s', exec (step sp) s fuels = some s' ∧
          (fuels.length = i + 1 ∧ Served sp s i p s' ∨ fuels.length ≤ i ∧ ¬DiskReady s')) := by
  have hinv := inv_reach h0 h
  refine ⟨fun fuels s' hlen hr => exec_turns hinv hp hlen hr, fun hfit => ?_⟩
  obtain ⟨fuels, s', hr, hlen | hstop⟩ := exec_returns hinv hp hfit
  · exact ⟨fuels, s', hr, .inl ⟨hlen, exec_turns hinv hp hlen hr⟩⟩
  · exact ⟨fuels, s', hr, .inr hstop⟩

/-- Three processes that arrive together: the last is ready with one ahead of it. -/
theorem bounded_waiting_three : ∃ s0 s', simulateStart smallSysParam (List.replicate 3 (process 0 [nonmem, nonmem])) = some s0 ∧
    exec (step smallSysParam) s0 [50, 50] = some s' ∧ gllFirst s'.runningProcess = some 2 ∧
    s'.executionOrder.map some = s0.executionOrder.map some ++ [some 1, some 2] := by
  have hrun : (simulateStart smallSysParam (List.replicate 3 (process 0 [nonmem, nonmem]))).any (fun s0 =>
      s0.readyProcess = [some 1, some 2] ∧ (exec (step smallSysParam) s0 [50, 50]).isSome) = true := by
    decide +kernel
  obtain ⟨s0, h0, h⟩ := (Option.any_eq_true _ _).1 hrun
  obtain ⟨hready, hsome⟩ := of_decide_eq_true h
  obtain ⟨s', hs'⟩ := Option.isSome_iff_exists.1 hsome
  have hlast : s0.readyProcess[1]? = some (some 2) := by rw [hready]; rfl
  have hserved := (bounded_waiting h0 .refl hlast).1 _ s' rfl hs'
  have horder := hserved.executionOrder
  rw [hready] at horder
  exact ⟨s0, s', h0, hs', hserved.running, horder⟩

end Cmpsc473.Paging
