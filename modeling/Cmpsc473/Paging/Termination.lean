import Cmpsc473.Paging.Fairness
import Cmpsc473.Paging.Slice
import Cmpsc473.Paging.Statistics
/-!
# The simulation ends

`toDo` is what the processes still have to do: every call of `readPage` and of
`diskToMemory` lowers it, and so do an arrival and the end of a process. Between
two such steps the others take at most the places that `Pc.rank` counts. The
loop that lets the quanta pass before an arrival is counted by `Pc.wait`.
-/

namespace Cmpsc473.Paging

open Runs Function

variable {sp : SysParam} {s s' u : Sim} {n p : Nat} {pc pc' : Pc} {evs : List Event}

/-! ## What is left to do -/

/-- What the first instruction takes if it is a `NONMEM`. -/
def Pcb.headTime (sp : SysParam) (q : Pcb) : Nat := (if q.fracLeft > 0 then q.fracLeft else sp.nonMemInstLength).toNat

/-- More than any instruction takes. -/
def instWork (sp : SysParam) : Nat := sp.nonMemInstLength.toNat + 1

/-- What a process that has arrived has to do. -/
def Pcb.toDo (sp : SysParam) (q : Pcb) : Nat := instWork sp * q.memReq.length + q.headTime sp

/-- What is to be done about a process that has not arrived. -/
def Pcb.arrival (sp : SysParam) (q : Pcb) : Nat := instWork sp * q.memoryFile.length + q.startTime.toNat + 1

/-- What all processes have to do. -/
def toDo (sp : SysParam) (n : Nat) (s : Sim) : Nat :=
  ∑ i ∈ Finset.range n, (s.pcb i).toDo sp + ((held s.processList).map fun i => (s.pcb i).arrival sp).sum +
    (n - s.finished.length)

/-- A step that changes one block at most, and neither the process list nor
what is finished, changes the work by that of the block. -/
theorem toDo_block (hp : p < n) (hlist : p ∉ held s.processList) (hothers : ∀ q, q ≠ p → s'.pcb q = s.pcb q)
    (hl : s'.processList = s.processList) (hf : s'.finished = s.finished) :
    toDo sp n s' + (s.pcb p).toDo sp = toDo sp n s + (s'.pcb p).toDo sp := by
  have hmem := Finset.mem_range.2 hp
  have hrest : ∑ i ∈ (Finset.range n).erase p, (s'.pcb i).toDo sp = ∑ i ∈ (Finset.range n).erase p, (s.pcb i).toDo sp :=
    Finset.sum_congr rfl fun i hi => by rw [hothers i (Finset.ne_of_mem_erase hi)]
  have harrival : (held s.processList).map (fun i => (s'.pcb i).arrival sp) =
      (held s.processList).map fun i => (s.pcb i).arrival sp :=
    Multiset.map_congr rfl fun i hi => by rw [hothers i fun he => hlist (he ▸ hi)]
  rw [toDo, toDo, ← Finset.add_sum_erase _ _ hmem, ← Finset.add_sum_erase _ (fun i => (s.pcb i).toDo sp) hmem, hrest, hl,
    hf, harrival]
  omega

theorem toDo_congr (hp : s'.pcb = s.pcb) (hl : s'.processList = s.processList) (hf : s'.finished = s.finished) :
    toDo sp n s' = toDo sp n s := by
  rw [toDo, toDo, hp, hl, hf]

theorem requeue_toDo (s : Sim) : toDo sp n (requeue s) = toDo sp n s := by
  unfold requeue
  split <;> exact toDo_congr rfl rfl rfl

/-- What is blocked has arrived. -/
theorem Inv.blocked_arrived (hi : Inv n s) (hp : gllFirst s.blockedProcess = some p) :
    p < n ∧ p ∉ held s.processList := by
  have hmem : p ∈ held s.blockedProcess := by
    rw [held_first hp]
    exact Multiset.mem_add.2 (.inl (Multiset.mem_singleton_self p))
  refine ⟨(hi.live (Multiset.mem_add.2 (.inr hmem))).1, fun hq => ?_⟩
  have hnd := hi.nodup.1
  rw [Sim.unfinished, Multiset.nodup_add] at hnd
  exact Multiset.disjoint_left.1 hnd.2.2 (Multiset.mem_add.2 (.inl (Multiset.mem_add.2 (.inl hq)))) hmem

theorem Pcb.toDo_pop {q q' : Pcb} {addr : NextMem} {rest : List NextMem} (h : q.memReq = addr :: rest)
    (h' : q'.memReq = rest) (hle : q'.headTime sp ≤ sp.nonMemInstLength.toNat ∨ q'.headTime sp = q.headTime sp) :
    q'.toDo sp < q.toDo sp := by
  rw [Pcb.toDo, Pcb.toDo, h, h', List.length_cons, Nat.mul_succ, instWork]
  omega

theorem Pcb.headTime_congr {q q' : Pcb} (h : q'.fracLeft = q.fracLeft) : q'.headTime sp = q.headTime sp := by
  rw [Pcb.headTime, Pcb.headTime, h]

/-- A call of `readPage` with time left, where a `MEM` takes one unit at most,
does something, unless no instruction is left. -/
theorem Work.lowers {t d : UInt64} {q q' : Pcb} (h : Work sp t d q q') (hmem : memTime sp ≤ 1) (ht : 0 < t) :
    q'.toDo sp < q.toDo sp ∨ q.memReq = [] ∧ q'.toDo sp = q.toDo sp := by
  cases h with
  | nothing h1 h2 h3 _ =>
    right
    exact ⟨h1, by rw [Pcb.toDo, Pcb.toDo, h1, h2, Pcb.headTime_congr h3]⟩
  | @cut addr rest timeNeeded h1 _ h3 h4 _ h6 h7 =>
    left
    have hfrac : (timeNeeded - t).toNat = timeNeeded.toNat - t.toNat := UInt64.toNat_sub_of_le _ _ (UInt64.le_of_lt h4)
    rw [UInt64.lt_iff_toNat_lt] at h4 ht
    have hhead : q'.headTime sp = timeNeeded.toNat - t.toNat := by
      rw [Pcb.headTime, h7, if_pos (UInt64.lt_iff_toNat_lt.2 (by rw [hfrac]; exact Nat.sub_pos_of_lt h4)), hfrac]
    rw [Pcb.toDo, Pcb.toDo, h6, hhead, Pcb.headTime, ← h3]
    rw [UInt64.toNat_zero] at ht
    omega
  | whole h1 _ _ _ _ h6 h7 =>
    left
    apply Pcb.toDo_pop h1 h6
    left
    rw [Pcb.headTime, h7]
    exact Nat.le_refl _
  | cutMem _ _ h3 =>
    rw [UInt64.lt_iff_toNat_lt] at h3 ht
    rw [UInt64.le_iff_toNat_le, UInt64.toNat_one] at hmem
    rw [UInt64.toNat_zero] at ht
    omega
  | wholeMem h1 _ _ _ h5 h6 =>
    left
    exact Pcb.toDo_pop h1 h5 (.inr (Pcb.headTime_congr h6))

/-! ## What the steps do of it -/

/-- A call of `readPage` in a slice. -/
theorem readPage_toDo {stopTime : UInt64} {ret : Read} (hi : Inv n s) (hmem : memTime sp ≤ 1)
    (hlt : s.currentTime < stopTime) (hp : gllFirst s.runningProcess = some p)
    (h : readPage sp s p stopTime = (u, ret)) :
    toDo sp n u < toDo sp n s ∨ ret = .traceEnds ∧ toDo sp n u = toDo sp n s := by
  obtain ⟨d, hspent, hwork, hret⟩ := readPage_works h
  have hlive := (hi.live (unfinished_of_running hp)).1
  have hblock : toDo sp n u + (s.pcb p).toDo sp = toDo sp n s + (u.pcb p).toDo sp :=
    toDo_block hlive (hi.running_arrived hp).1 hspent.others hspent.lists.processList hspent.lists.finished
  have htime : 0 < stopTime - s.currentTime := by
    rw [UInt64.lt_iff_toNat_lt, UInt64.toNat_sub_of_le _ _ (UInt64.le_of_lt hlt), UInt64.toNat_zero]
    exact Nat.sub_pos_of_lt (UInt64.lt_iff_toNat_lt.1 hlt)
  rcases hwork.lowers hmem htime with hless | ⟨hnil, hsame⟩
  · left
    omega
  · right
    refine ⟨hret.2 ?_, by omega⟩
    have hleft := (hwork.facts).2.1
    rw [hnil] at hleft
    exact List.suffix_nil.1 hleft

/-- A call of `diskToMemory`. -/
theorem diskToMemory_toDo (hi : Inv n s) (h : diskToMemory sp s = some u) : toDo sp n u < toDo sp n s := by
  obtain ⟨p, addr, rest, hp, hreq, hu⟩ := diskToMemory_cases h
  obtain ⟨hlive, hlist⟩ := hi.blocked_arrived hp
  have hpop : (u.pcb p).memReq = rest ∧ (u.pcb p).fracLeft = (s.pcb p).fracLeft ∧ u.processList = s.processList ∧
      u.finished = s.finished := by
    rcases hu with ⟨-, rfl⟩ | ⟨-, rfl⟩
    · simp [Pcb.popReq, hreq, Sim.modify]
    · simp [swapIn, Pcb.popReq, hreq, Sim.modify]
  obtain ⟨h1, h2, h3, h4⟩ := hpop
  have hblock : toDo sp n u + (s.pcb p).toDo sp = toDo sp n s + (u.pcb p).toDo sp :=
    toDo_block hlive hlist (fun q hq => diskToMemory_others h hp hq) h3 h4
  have hless : (u.pcb p).toDo sp < (s.pcb p).toDo sp := Pcb.toDo_pop hreq h1 (.inr (Pcb.headTime_congr h2))
  omega

/-- An arrival. -/
theorem makeReady_toDo (hi : Inv n s) (hp : gllFirst s.processList = some p) :
    toDo sp n (makeReady s p) + (s.pcb p).startTime.toNat + 1 = toDo sp n s := by
  have hmem : p ∈ Finset.range n := by
    apply Finset.mem_range.2 (hi.live _).1
    rw [Sim.unfinished, held_first hp]
    simp
  have hothers : ∀ q, q ≠ p → (makeReady s p).pcb q = s.pcb q := fun q hq => update_of_ne hq _ _
  have hself : ((makeReady s p).pcb p).toDo sp = (s.pcb p).toDo sp + instWork sp * (s.pcb p).memoryFile.length := by
    have hpcb : (makeReady s p).pcb p = { s.pcb p with memReq := (s.pcb p).memReq ++ (s.pcb p).memoryFile } := by
      simp [makeReady, Sim.modify]
    rw [hpcb, Pcb.toDo, Pcb.toDo, List.length_append, Nat.mul_add, Nat.add_right_comm]
    rfl
  have hrest : ∑ i ∈ (Finset.range n).erase p, ((makeReady s p).pcb i).toDo sp =
      ∑ i ∈ (Finset.range n).erase p, (s.pcb i).toDo sp :=
    Finset.sum_congr rfl fun i hi => by rw [hothers i (Finset.ne_of_mem_erase hi)]
  have harrival : (held (gllPop s.processList)).map (fun i => ((makeReady s p).pcb i).arrival sp) =
      (held (gllPop s.processList)).map fun i => (s.pcb i).arrival sp :=
    Multiset.map_congr rfl fun i hin => by rw [hothers i fun he => (hi.waiting_once hp).1 (he ▸ hin)]
  have hlist : (makeReady s p).processList = gllPop s.processList := rfl
  have hfinished : (makeReady s p).finished = s.finished := rfl
  rw [toDo, toDo, ← Finset.add_sum_erase _ _ hmem, ← Finset.add_sum_erase _ (fun i => (s.pcb i).toDo sp) hmem, hrest,
    hself, hlist, harrival, hfinished, held_first hp, Multiset.map_add, Multiset.sum_add, Multiset.map_singleton,
    Multiset.sum_singleton, Pcb.arrival]
  omega

theorem transfer_toDo (hi : Inv n s) : toDo sp n (transfer s) ≤ toDo sp n s := by
  have h : Inv n (transfer s) ∧ toDo sp n (transfer s) ≤ toDo sp n s := by
    apply transfer_keeps fun u => Inv n u ∧ toDo sp n u ≤ toDo sp n s
    · rintro u p hp ⟨hu, hle⟩
      have harrival := @makeReady_toDo sp u n p hu hp
      exact ⟨hu.makeReady hp, by omega⟩
    · exact ⟨hi, Nat.le_refl _⟩
  exact h.2

/-- A process is finished. -/
theorem finish_toDo (hi : Inv n s') (hpcb : s'.pcb = s.pcb) (hl : s'.processList = s.processList)
    (hf : s'.finished = s.finished ++ [p]) : toDo sp n s' < toDo sp n s := by
  have hcard := congrArg Multiset.card hi.places
  rw [Multiset.card_add, Multiset.coe_card, Multiset.card_range, hf, List.length_append, List.length_singleton] at hcard
  rw [toDo, toDo, hpcb, hl, hf, List.length_append, List.length_singleton]
  omega

/-! ## A measure -/

/-- How far `pc` is from the next step that does something. -/
def Pc.rank (s : Sim) : Pc → Nat
  | .start => 13
  | .jump .. => 12
  | .top => if gllFirst s.runningProcess = none then 11 else 3
  | .paused .noProcess => 10
  | .admitted .noProcess => 9
  | .slice stopTime => if s.currentTime < stopTime then 2 else 8
  | .paused .quantaFinishes | .paused .pageFault => 7
  | .admitted .quantaFinishes | .admitted .pageFault => 6
  | .scheduling => 5
  | .idle => 4
  | .catchUp => 3
  | .paused .traceEnds | .paused .diskInterrupt => 1
  | .admitted .traceEnds | .admitted .diskInterrupt | .returned => 0

/-- How long the loop that lets the quanta pass before an arrival still goes on. -/
def Pc.wait (s : Sim) : Pc → Nat
  | .jump p _ => (s.pcb p).startTime.toNat - s.nextQuanta.toNat
  | _ => 0

/-- The measure of a run. -/
def stepsLeft (sp : SysParam) (n : Nat) (pc : Pc) (s : Sim) : Nat := 16 * (toDo sp n s + pc.wait s) + pc.rank s

/-- The end of the quantum that the step computes is below `2^64`. -/
def QuantaFit (s : Sim) : Pc → Prop
  | .top => s.currentTime.toNat + quantum.toNat < 2 ^ 64
  | .jump p _ => s.nextQuanta < (s.pcb p).startTime → s.nextQuanta.toNat + quantum.toNat < 2 ^ 64
  | _ => True

instance (s : Sim) : (pc : Pc) → Decidable (QuantaFit s pc)
  | .top => inferInstanceAs (Decidable (_ < _))
  | .jump _ _ => inferInstanceAs (Decidable (_ → _))
  | .start | .slice _ | .paused _ | .admitted _ | .scheduling | .idle | .catchUp | .returned => isTrue trivial

/-- A process that is ready was scheduled, and the branches that wait for a
blocked process have set the clock back. -/
def Pc.Settled (s : Sim) : Pc → Prop
  | .idle => gllFirst s.runningProcess = none → gllFirst s.readyProcess = none
  | .catchUp => s.currentTime = 0
  | _ => True

theorem schedulingRR_settled (hi : Inv n s) (h : gllFirst (schedulingRR s).runningProcess = none) :
    gllFirst (schedulingRR s).readyProcess = none := by
  cases hp : gllFirst s.readyProcess with
  | none =>
    have hnil := eq_nil_of_first hi.ready_solid hp
    simp [schedulingRR, hnil, gllFirst, gllPush, gllPop]
  | some p =>
    rw [(schedulingRR_turn hp).running] at h
    cases h

theorem effect_settled (hi : Inv n s) (h : pc.Settled s) (he : Effect sp s pc pc' s' evs) : pc'.Settled s' := by
  cases he with
  | schedule => exact schedulingRR_settled hi
  | awaitDisk => rfl
  | catchUp hlt =>
    have hzero : s.currentTime = 0 := h
    rw [hzero] at hlt
    exact absurd hlt UInt64.not_lt_zero
  | _ => trivial

theorem Pc.rank_lt (s : Sim) (pc : Pc) : pc.rank s < 16 := by
  unfold Pc.rank
  split
  case h_3 | h_6 => split <;> omega
  all_goals omega

theorem Pc.rank_top (s : Sim) : Pc.top.rank s ≤ 11 := by
  rw [Pc.rank]
  split <;> omega

/-- Every step short of the end lowers the measure. -/
theorem effect_lowers (hi : Inv n s) (hi' : Inv n s') (hs : pc.Settled s) (hfit : QuantaFit s pc) (hmem : memTime sp ≤ 1)
    (hpc : pc ≠ .returned) (he : Effect sp s pc pc' s' evs) : stepsLeft sp n pc' s' < stepsLeft sp n pc s := by
  -- the steps that leave the work as it is go down the ranks
  have down : ∀ {pc pc' s'}, toDo sp n s' ≤ toDo sp n s → pc'.wait s' = 0 → pc'.rank s' < pc.rank s →
      stepsLeft sp n pc' s' < stepsLeft sp n pc s := by
    intro pc pc' s' h1 h2 h3
    rw [stepsLeft, stepsLeft, h2]
    omega
  have same : ∀ {pc pc' s'}, s'.pcb = s.pcb → s'.processList = s.processList → s'.finished = s.finished →
      pc'.wait s' = 0 → pc'.rank s' < pc.rank s → stepsLeft sp n pc' s' < stepsLeft sp n pc s :=
    fun h1 h2 h3 => down (toDo_congr h1 h2 h3).le
  -- the others may go anywhere
  have up : ∀ {pc pc' s'}, toDo sp n s' < toDo sp n s → pc'.wait s' = 0 → stepsLeft sp n pc' s' < stepsLeft sp n pc s := by
    intro pc pc' s' h1 h2
    have h3 := pc'.rank_lt s'
    rw [stepsLeft, stepsLeft, h2]
    omega
  cases he with
  | started hp =>
    refine same rfl rfl rfl rfl ?_
    exact (Pc.rank_top _).trans_lt (by simp [Pc.rank])
  | noProcess hp => exact same rfl rfl rfl rfl (by simp [Pc.rank, hp])
  | diskInterrupt hp => exact same rfl rfl rfl rfl (by simp [Pc.rank, hp])
  | slice hp =>
    have hlt : s.currentTime < s.currentTime + quantum := by
      have h0 : 0 < quantum.toNat := by decide
      have hsum : s.currentTime.toNat + quantum.toNat < 2 ^ 64 := hfit
      rw [UInt64.lt_iff_toNat_lt, UInt64.toNat_add, Nat.mod_eq_of_lt hsum]
      omega
    exact same rfl rfl rfl rfl (by simp [Pc.rank, hp, hlt])
  | quantaFinishes hlt => exact same rfl rfl rfl rfl (by simp [Pc.rank, hlt])
  | traceEnds hlt hp hread =>
    rcases readPage_toDo hi hmem hlt hp hread with hless | ⟨-, hsame⟩
    · exact up hless rfl
    · exact down hsame.le rfl (by simp [Pc.rank, hlt])
  | pageFault hlt hp hread =>
    rcases readPage_toDo hi hmem hlt hp hread with hless | ⟨hret, -⟩
    · exact up hless rfl
    · cases hret
  | success hlt hp hread =>
    rcases readPage_toDo hi hmem hlt hp hread with hless | ⟨hret, -⟩
    · exact up hless rfl
    · cases hret
  | @transferred simPause =>
    have hle : toDo sp n (transfer (newQuanta s)) ≤ toDo sp n s := by
      have hq : toDo sp n (newQuanta s) = toDo sp n s := by
        unfold newQuanta
        split <;> exact toDo_congr rfl rfl rfl
      exact hq ▸ transfer_toDo (newQuanta_inv hi).1
    apply down hle rfl
    cases simPause <;> simp [Pc.rank]
  | swapIn hu => exact up ((requeue_toDo _).trans_lt (diskToMemory_toDo hi hu)) rfl
  | setDisk => exact same rfl rfl rfl rfl (by simp [Pc.rank])
  | cleanUp hp hu =>
    unfold cleanUpProcess at hu
    split at hu <;> cases hu
    exact up (finish_toDo hi' rfl rfl rfl) rfl
  | timer =>
    have hsame : toDo sp n { requeue s with nextQuanta := (requeue s).currentTime + quantum } = toDo sp n (requeue s) :=
      toDo_congr rfl rfl rfl
    exact down (hsame.trans (requeue_toDo s)).le rfl (by simp [Pc.rank])
  | noneRan => exact same rfl rfl rfl rfl (by simp [Pc.rank])
  | schedule =>
    have hsame : toDo sp n (schedulingRR s) = toDo sp n s := by
      unfold schedulingRR
      dsimp only
      split <;> exact toDo_congr rfl rfl rfl
    exact down hsame.le rfl (by simp [Pc.rank])
  | again hsome =>
    have hrun : gllFirst s.runningProcess ≠ none := fun hnone => hsome ⟨hnone, hs hnone⟩
    exact same rfl rfl rfl rfl (by simp [Pc.rank, hrun])
  | allDone => exact same rfl rfl rfl rfl (by simp [Pc.rank])
  | @awaitArrival p _ _ _ hp =>
    have harrival := @makeReady_toDo sp s n p hi hp
    have hstart := makeReady_startTime s p p
    have hwait : (Pc.jump p true).wait (makeReady s p) ≤ (s.pcb p).startTime.toNat := by
      rw [Pc.wait, hstart]
      exact Nat.sub_le _ _
    have hrank : (Pc.jump p true).rank (makeReady s p) = 12 := rfl
    rw [stepsLeft, stepsLeft, hrank]
    omega
  | awaitDisk => exact same rfl rfl rfl rfl (by simp [Pc.rank])
  | @jump p twice hlt =>
    have hsum : s.nextQuanta.toNat + quantum.toNat < 2 ^ 64 := hfit hlt
    have hnext : (s.nextQuanta + quantum).toNat = s.nextQuanta.toNat + quantum.toNat := by
      rw [UInt64.toNat_add, Nat.mod_eq_of_lt hsum]
    have h0 : 0 < quantum.toNat := by decide
    rw [UInt64.lt_iff_toNat_lt] at hlt
    have hsame : toDo sp n { s with currentTime := s.nextQuanta, nextQuanta := s.nextQuanta + quantum } = toDo sp n s :=
      toDo_congr rfl rfl rfl
    rw [stepsLeft, stepsLeft, hsame]
    simp only [Pc.wait, Pc.rank, hnext]
    omega
  | @arrive p twice _ =>
    have hsame : toDo sp n (arrive (s.pcb p).startTime twice s) = toDo sp n s := by
      cases twice <;> exact toDo_congr rfl rfl rfl
    apply down hsame.le rfl
    exact (Pc.rank_top _).trans_lt (by simp [Pc.rank])
  | catchUp hlt =>
    have hzero : s.currentTime = 0 := hs
    rw [hzero] at hlt
    exact absurd hlt UInt64.not_lt_zero
  | readDisk _ hu => exact up (diskToMemory_toDo hi hu) rfl
  | stay => exact absurd rfl hpc

/-! ## The end -/

/-- A step can be taken: `DiskOk` says that it follows no `NULL` pointer, and
`QuantaFit` that the quantum it computes is a time. -/
def Proceeds (c : Cfg) (_ : Unit) : Prop := DiskOk c.sim c.pc ∧ QuantaFit c.sim c.pc

instance (c : Cfg) (l : Unit) : Decidable (Proceeds c l) := inferInstanceAs (Decidable (_ ∧ _))

/-- A bound on the steps of a run, from the workload. -/
def stepBound (sp : SysParam) (ws : List Process) : Nat :=
  16 * ((ws.map fun w => instWork sp * (w.trace.length + 1) + w.startTime.toNat).sum + ws.length) + 13

theorem sum_getD {α : Type} (f : α → Nat) (d : α) (l : List α) :
    ∑ i ∈ Finset.range l.length, f (l.getD i d) = (l.map f).sum := by
  induction l with
  | nil => rfl
  | cons a l ih =>
    rw [List.length_cons, Finset.sum_range_succ', List.map_cons, List.sum_cons, ← ih, Nat.add_comm]
    rfl

theorem begin_stepsLeft (sp : SysParam) (ws : List Process) :
    stepsLeft sp ws.length (begin sp ws).pc (begin sp ws).sim ≤ stepBound sp ws := by
  have hle : toDo sp ws.length (begin sp ws).sim ≤ toDo sp ws.length (initState sp ws) :=
    transfer_toDo (initState_inv sp ws)
  have hlist : held (initState sp ws).processList = (Finset.range ws.length).val := by
    simp [initState, held, List.filterMap_map, Multiset.range]
  have hinit : toDo sp ws.length (initState sp ws) =
      ∑ i ∈ Finset.range ws.length, (instWork sp * ((pcbs ws i).memoryFile.length + 1) + (pcbs ws i).startTime.toNat) +
        ws.length := by
    have hone : ∀ i, (pcbs ws i).toDo sp + (pcbs ws i).arrival sp =
        instWork sp * ((pcbs ws i).memoryFile.length + 1) + (pcbs ws i).startTime.toNat := by
      intro i
      have hhead : (pcbs ws i).headTime sp = sp.nonMemInstLength.toNat := rfl
      have hreq : (pcbs ws i).memReq = [] := rfl
      rw [Pcb.toDo, Pcb.arrival, hhead, hreq, List.length_nil, Nat.mul_succ, instWork]
      omega
    have harrival : ((Finset.range ws.length).val.map fun i => (pcbs ws i).arrival sp).sum =
        ∑ i ∈ Finset.range ws.length, (pcbs ws i).arrival sp := rfl
    rw [← Finset.sum_congr rfl fun i _ => hone i, Finset.sum_add_distrib, ← harrival, ← hlist]
    rfl
  rw [hinit] at hle
  rw [stepBound, ← sum_getD _
    { startTime := 0, trace := [], ptHitCount := 0, ptMissCount := 0, numberOfDiskInt := 0, numberPageFaults := 0 }]
  exact Nat.add_le_add_right (Nat.mul_le_mul_left 16 hle) 13

theorem Found.of_finds (hr : pc.Running s) (hp : Pending s) (hf : pc.Finds s) : Found s pc := by
  refine ⟨?_, ?_, ?_, fun hcalls => ?_⟩
  · rintro rfl
    exact hf
  · rintro stopTime rfl
    exact hr
  · rintro rfl
    exact hr
  · have hblocked : gllFirst s.blockedProcess ≠ none := by
      unfold CallsDisk at hcalls
      split at hcalls
      · exact hf
      · exact hf
      · exact hcalls.elim
    obtain ⟨p, hfirst⟩ := Option.ne_none_iff_exists'.1 hblocked
    have hmem : p ∈ held s.blockedProcess := by
      rw [held_first hfirst]
      exact Multiset.mem_add.2 (.inl (Multiset.mem_singleton_self p))
    obtain ⟨addr, rest, hreq⟩ := List.exists_cons_of_ne_nil (hp p hmem)
    exact ⟨p, addr, rest, hfirst, hreq⟩

/-- What holds in every state of a run whose steps can be taken. -/
structure Sound (n : Nat) (c : Cfg) : Prop where
  good : Good n c
  pending : Pending c.sim
  finds : c.pc.Finds c.sim
  settled : c.pc.Settled c.sim

theorem begin_sound {ws : List Process} (sp : SysParam) (hws : ws ≠ []) (h0 : (ws.head hws).startTime = 0) :
    Sound ws.length (begin sp ws) := by
  refine ⟨begin_good sp ws, (transfer_pending ?_).1, begin_ready sp hws h0, trivial⟩
  intro p hp
  exact absurd hp (Multiset.notMem_zero p)

/-- A step that can be taken brings the end nearer. -/
theorem Sound.step {c : Cfg} (h : Sound n c) (hp : Proceeds c ()) (hmem : memTime sp ≤ 1) (hpc : c.pc ≠ .returned) :
    ∃ c', tick sp c () = some c' ∧ Sound n c' ∧ stepsLeft sp n c'.pc c'.sim < stepsLeft sp n c.pc c.sim := by
  obtain ⟨hgood, hpending, hfinds, hsettled⟩ := h
  have hsome : tick sp c () ≠ none := fun hnone =>
    micro_ne_none (.of_finds hgood.running hpending hfinds) hgood.running (Option.map_eq_none_iff.1 hnone)
  obtain ⟨c', ht⟩ := Option.ne_none_iff_exists'.1 hsome
  obtain ⟨evs, he, -⟩ := tick_effect ht
  have hgood' := tick_good hgood ht
  obtain ⟨hpending', hfinds'⟩ := effect_pending hgood.inv hgood.running hpending hfinds hp.1 he
  exact ⟨c', ht, ⟨hgood', hpending', hfinds', effect_settled hgood.inv hsettled he⟩,
    effect_lowers hgood.inv hgood'.inv hsettled hp.2 hmem hpc he⟩

/-- `simulate` ends: within `stepBound` steps it has returned and every process
is finished, or it is at a step that follows a `NULL` pointer of `pointers_found`
or whose quantum ends past `2^64`. -/
theorem simulate_ends {ws : List Process} (hws : ws ≠ []) (h0 : (ws.head hws).startTime = 0) (hmem : memTime sp ≤ 1) :
    ∃ k ≤ stepBound sp ws, ∃ c, exec (tick sp) (begin sp ws) (List.replicate k ()) = some c ∧
      Reach (tick sp) Proceeds (begin sp ws) c ∧
      ((c.pc = .returned ∧ ∀ i < ws.length, i ∈ c.sim.finished) ∨ ¬Proceeds c ()) := by
  obtain ⟨k, hk, c, hc, hreach, hsound, hend⟩ := exists_end (Sound ws.length)
    (fun c => stepsLeft sp ws.length c.pc c.sim) () (fun c hs hp hpc => hs.step hp hmem hpc) (begin_sound sp hws h0)
  refine ⟨k, hk.trans (begin_stepsLeft sp ws), c, hc, hreach, hend.imp_left fun hpc => ⟨hpc, fun i hi => ?_⟩⟩
  obtain ⟨st, hst, hname⟩ := returned_record (exec_reach hc fun _ _ _ => trivial) hpc hi
  rw [← hsound.good.inv.stats, ← hname]
  exact List.mem_map_of_mem hst

/-- Two processes, the second of which is waited for. -/
def oneLate : List Process := [process 0 [nonmem], process 5 [nonmem]]

/-- `simulate_ends` for them: `simulate` returns. -/
theorem simulate_ends_two : ∃ k c, exec (tick smallSysParam) (begin smallSysParam oneLate) (List.replicate k ()) = some c ∧
    c.pc = .returned ∧ ∀ i < 2, i ∈ c.sim.finished := by
  have halong : along (tick smallSysParam) Proceeds (begin smallSysParam oneLate)
      (List.replicate (stepBound smallSysParam oneLate + 1) ()) = true := by
    decide +kernel
  have hsome : (exec (tick smallSysParam) (begin smallSysParam oneLate)
      (List.replicate (stepBound smallSysParam oneLate + 1) ())).isSome = true := by
    decide +kernel
  have hmem : memTime smallSysParam ≤ 1 := by decide +kernel
  have hws : oneLate ≠ [] := List.cons_ne_nil _ _
  obtain ⟨k, hk, c, hc, -, hend⟩ := simulate_ends hws rfl hmem
  obtain ⟨d, hd⟩ := Option.isSome_iff_exists.1 hsome
  -- the run goes on after `c`, and each of its steps can be taken
  obtain ⟨e, he⟩ := takes_replicate hd hk hc
  obtain ⟨hpc, hfinished⟩ := hend.resolve_right (not_not.2 (takes_along halong c () e he))
  exact ⟨k, c, hc, hpc, hfinished⟩

end Cmpsc473.Paging
