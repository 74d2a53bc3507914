import Cmpsc473.Lib.Runs
import Cmpsc473.Paging.Invariants
/-!
# Theorems about the simulator

A state is reachable if it occurs at the top of `simulate`'s `while(1)`. The
label of a step is the number of rounds that the inner loops may take, so that a
reachable state is one that some number of rounds leads to.
-/

namespace Cmpsc473.Paging

open Runs

variable {sp : SysParam} {ws : List Process} {s0 s s' : Sim} {n : Nat}

/-- A round that does not break the loop. -/
def step (sp : SysParam) (s : Sim) (fuel : Nat) : Option Sim :=
  match round sp fuel s with
  | some (.next s') => some s'
  | _ => none

theorem inv_reach (h0 : simulateStart sp ws = some s0) (h : Reach (step sp) Any s0 s) : Inv ws.length s := by
  refine Reach.inv (Inv ws.length) (fun t fuel u ht _ hstep => ?_) h (simulateStart_inv h0)
  unfold step at hstep
  split at hstep
  · rename_i v hr
    cases hstep
    exact round_inv ht hr
  · cases hstep

/-! ## No process is lost -/

/-- Each block is in one of the four lists or finished, once. At most one runs.
The finished blocks have one record each and the others have none. -/
structure Placed (n : Nat) (s : Sim) : Prop where
  once : ∀ i < n, (held s.processList).count i + (held s.readyProcess).count i + (held s.runningProcess).count i +
    (held s.blockedProcess).count i + s.finished.count i = 1
  oneRuns : (held s.runningProcess).card ≤ 1
  records : ∀ i < n, (s.perProcessStats.map Stats.processName).count i = if i ∈ s.finished then 1 else 0

theorem Inv.placed (h : Inv n s) : Placed n s := by
  refine ⟨fun i hi => ?_, ?_, fun i _ => ?_⟩
  · have hone : (Multiset.range n).count i = 1 :=
      Multiset.count_eq_one_of_mem (Multiset.nodup_range n) (Multiset.mem_range.2 hi)
    rw [← h.places] at hone
    simpa only [Sim.unfinished, Multiset.count_add, Multiset.coe_count] using hone
  · have hrest := held_eq_zero h.behind
    cases hr : gllFirst s.runningProcess with
    | none => rw [held_eq_zero (h.vacant hr)]; exact Nat.zero_le 1
    | some p => rw [held_first hr, hrest]; exact le_rfl
  · rw [h.stats]
    split
    · rename_i hmem
      exact List.count_eq_one_of_mem h.nodup.2.1 hmem
    · rename_i hmem
      exact List.count_eq_zero_of_not_mem hmem

theorem Inv.all_finished (h : Inv n s) (h0 : s.unfinished = 0) {i : Nat} (hi : i < n) : i ∈ s.finished := by
  have hp := h.places
  rw [h0, zero_add] at hp
  exact Multiset.mem_coe.1 (hp ▸ Multiset.mem_range.2 hi)

/-- No block is lost or doubled, and when the loop breaks every block is finished. -/
theorem no_process_lost (h0 : simulateStart sp ws = some s0) (h : Reach (step sp) Any s0 s) :
    Placed ws.length s ∧ ∀ fuel s', round sp fuel s = some (.done s') →
      Placed ws.length s' ∧ ∀ i < ws.length, i ∈ s'.finished := by
  have hinv := inv_reach h0 h
  refine ⟨hinv.placed, fun fuel s' hr => ?_⟩
  obtain ⟨hdone, hnone⟩ : (Outcome.done s').Inv ws.length := round_inv hinv hr
  exact ⟨hdone.placed, fun i hi => hdone.all_finished hnone hi⟩

/-- One entry in the TLB; a `NONMEM` takes one unit of time. -/
def smallSysParam : SysParam :=
  { nonMemInstLength := 1, swapLatency := 5, swapInterruptHandlingTime := 1, tlbSizeInEntries := 1, fracMemInst := 0 }

/-- The same with 30 entries. Where DRAM-size-in-MB is 30 too, the tables that
`init` allocates have room for all entries. -/
def fullSysParam : SysParam := { smallSysParam with tlbSizeInEntries := 30 }

/-- A process with three instructions, and one that arrives later. -/
def twoProcesses : List Process :=
  let nonmem : NextMem := { self := 4096, type := .nonmem, address := [], addressPtr := 0 }
  let mem : NextMem := { self := 4112, type := .mem, address := [48, 120, 49, 97], addressPtr := 4128 }
  let left : UInt64 := 0
  [{ startTime := 0, trace := [nonmem, mem, mem, nonmem], ptHitCount := left, ptMissCount := left,
     numberOfDiskInt := left, numberPageFaults := left },
   { startTime := 2, trace := [nonmem, nonmem], ptHitCount := left, ptMissCount := left,
     numberOfDiskInt := left, numberPageFaults := left }]

theorem twoProcesses_run : ∃ s0 s, simulateStart smallSysParam twoProcesses = some s0 ∧
    exec (step smallSysParam) s0 [50, 50, 50] = some s ∧ s.finished = [0] ∧ s.userTime = 2 := by
  have hrun : (simulateStart smallSysParam twoProcesses).any (fun s0 =>
      (exec (step smallSysParam) s0 [50, 50, 50]).any fun s => s.finished = [0] ∧ s.userTime = 2) = true := by
    decide +kernel
  obtain ⟨s0, h0, h⟩ := (Option.any_eq_true _ _).1 hrun
  obtain ⟨s, hs, hf⟩ := (Option.any_eq_true _ _).1 h
  exact ⟨s0, s, h0, hs, of_decide_eq_true hf⟩

/-- `no_process_lost` after three rounds, with one process finished. -/
theorem no_process_lost_two : ∃ s0 s, simulateStart smallSysParam twoProcesses = some s0 ∧
    exec (step smallSysParam) s0 [50, 50, 50] = some s ∧ s.finished = [0] ∧ Placed 2 s := by
  obtain ⟨s0, s, h0, hs, hf, -⟩ := twoProcesses_run
  exact ⟨s0, s, h0, hs, hf, (no_process_lost h0 (exec_reach hs fun _ _ _ => trivial)).1⟩

/-! ## User time is conserved -/

/-- The user time is that of the unfinished blocks and that of the records, modulo `2^64`. -/
def TimeConserved (n : Nat) (s : Sim) : Prop :=
  s.userTime.toNat = (∑ i ∈ Finset.range n with i ∉ s.finished, (s.pcb i).userTime.toNat +
    (s.perProcessStats.map (·.userTime.toNat)).sum) % 18446744073709551616

theorem Inv.sum_finished (h : Inv n s) :
    ∑ i ∈ Finset.range n with i ∈ s.finished, (s.pcb i).userTime.toNat =
      (s.perProcessStats.map (·.userTime.toNat)).sum := by
  have hset : (Finset.range n).filter (· ∈ s.finished) = s.finished.toFinset := by
    ext i
    simp only [Finset.mem_filter, Finset.mem_range, List.mem_toFinset, and_iff_right_iff_imp]
    intro hi
    exact Multiset.mem_range.1 (h.places ▸ Multiset.mem_add.2 (.inr hi))
  rw [hset, List.sum_toFinset _ h.nodup.2.1, ← h.stats, List.map_map]
  exact congrArg List.sum (List.map_congr_left fun st hst => (congrArg UInt64.toNat (h.booked st hst)).symm)

theorem Inv.timeConserved (h : Inv n s) : TimeConserved n s := by
  have ht := h.time
  rw [← Finset.sum_filter_add_sum_filter_not _ (· ∈ s.finished), h.sum_finished, Nat.add_comm] at ht
  exact (Nat.mod_eq_of_lt s.userTime.toNat_lt).symm.trans ht

/-- User time is conserved in every reachable state, also between the calls of a
round; after a run that ends, the reported total is the sum of the reported times. -/
theorem user_time_conserved (h0 : simulateStart sp ws = some s0) (h : Reach (step sp) Any s0 s) :
    TimeConserved ws.length s ∧ (∀ fuel s', Passes sp fuel s s' → TimeConserved ws.length s') ∧
      ∀ fuel s', round sp fuel s = some (.done s') →
        (statsUpdate s').userModeTime.toNat =
          (s'.perProcessStats.map (·.userTime.toNat)).sum % 18446744073709551616 := by
  have hinv := inv_reach h0 h
  refine ⟨hinv.timeConserved, fun fuel s' hp => (passes_inv hinv hp).timeConserved, fun fuel s' hr => ?_⟩
  obtain ⟨hdone, hnone⟩ : (Outcome.done s').Inv ws.length := round_inv hinv hr
  have ht := hdone.timeConserved
  have hempty : (Finset.range ws.length).filter (· ∉ s'.finished) = ∅ :=
    Finset.filter_eq_empty_iff.2 fun i hi hn => hn (hdone.all_finished hnone (Finset.mem_range.1 hi))
  rw [TimeConserved, hempty, Finset.sum_empty, zero_add] at ht
  exact ht

/-- `user_time_conserved` after three rounds, with one process finished. -/
theorem user_time_conserved_two : ∃ s0 s, simulateStart smallSysParam twoProcesses = some s0 ∧
    exec (step smallSysParam) s0 [50, 50, 50] = some s ∧ s.userTime = 2 ∧ TimeConserved 2 s := by
  obtain ⟨s0, s, h0, hs, -, ht⟩ := twoProcesses_run
  exact ⟨s0, s, h0, hs, ht, (user_time_conserved h0 (exec_reach hs fun _ _ _ => trivial)).1⟩

end Cmpsc473.Paging
