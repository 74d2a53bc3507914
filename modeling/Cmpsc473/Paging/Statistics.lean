import Cmpsc473.Paging.Execution
/-!
# What the statistics count

The records and the totals against the history of the run. The totals are never
counted, so they agree with the run only if there was nothing to count: if every
`MEM` that `readPage` looked for was in the TLB (`stats_agree`).
-/

namespace Cmpsc473.Paging

open Runs Function

variable {sp : SysParam} {s s' u : Sim} {n p : Nat} {pc pc' : Pc} {evs : List Event} {ws : List Process}
  {stopTime : UInt64} {ret : Read}

/-- `readPage` returned -1 for `p`. -/
def Event.faulted (p : Nat) : Event → Bool
  | .read q _ _ _ _ ret => q = p ∧ ret = .pageFault
  | .swap .. => false

/-- `readPage` looked in the TLB for `p` in vain. -/
def Event.missed (p : Nat) : Event → Bool
  | .read q _ _ _ missed _ => q = p ∧ missed
  | .swap .. => false

/-- How often `readPage` returned -1 for `p`. -/
def faults (p : Nat) (h : List Event) : Nat := h.countP (Event.faulted p)

/-- How many lookups for `p` found no TLB entry. -/
def misses (p : Nat) (h : List Event) : Nat := h.countP (Event.missed p)

/-- The records and the totals agree with the history. -/
structure StatsAgree (c : Cfg) : Prop where
  faults : ∀ st ∈ c.sim.perProcessStats, st.numberOfPgFaults.toNat = faults st.processName c.history
  misses : ∀ st ∈ c.sim.perProcessStats, st.numberOfTLBmiss.toNat = misses st.processName c.history
  totalPgFaults : (statsUpdate c.sim).totalPgFaults = (c.sim.perProcessStats.map (·.numberOfPgFaults.toNat)).sum
  totalTLBmiss : (statsUpdate c.sim).totalTLBmiss = (c.sim.perProcessStats.map (·.numberOfTLBmiss.toNat)).sum

/-- The step looks for a `MEM` that is not in the TLB. The last `MEM` is only
looked for if it does not fit the slice. -/
def MissesTlb (sp : SysParam) (s : Sim) : Pc → Prop
  | .slice stopTime => s.currentTime < stopTime ∧ ∃ p ∈ gllFirst s.runningProcess, ∃ addr ∈ (s.pcb p).memReq.head?,
      addr.type = .mem ∧ ((s.pcb p).memReq.tail ≠ [] ∨ stopTime - s.currentTime < memTime sp) ∧ ¬inTlb sp s addr
  | _ => False

instance (sp : SysParam) (s : Sim) (pc : Pc) : Decidable (MissesTlb sp s pc) := by
  unfold MissesTlb
  split <;> infer_instance

/-! ## What is never counted -/

/-- The totals of `statsUpdate` are the same. -/
structure SameTotals (s s' : Sim) : Prop where
  totalPgFaults : s'.totalPgFaults = s.totalPgFaults
  totalTLBmiss : s'.totalTLBmiss = s.totalTLBmiss

theorem SameTotals.trans {s'' : Sim} (h : SameTotals s s') (h' : SameTotals s' s'') : SameTotals s s'' :=
  ⟨h'.totalPgFaults.trans h.totalPgFaults, h'.totalTLBmiss.trans h.totalTLBmiss⟩

theorem chargeMem_totals (s : Sim) (p : Nat) (t : UInt64) : SameTotals s (chargeMem sp s p t) := by
  obtain ⟨-, h⟩ | ⟨-, h⟩ := chargeMem_cases sp s p t <;> rw [h] <;> exact ⟨rfl, rfl⟩

theorem Looks.totals {addr : NextMem} (h : Looks sp s p addr u ret) : SameTotals s u := by
  cases h <;> exact ⟨rfl, rfl⟩

theorem readPage_totals (h : readPage sp s p stopTime = (u, ret)) : SameTotals s u := by
  cases readPage_reads h with
  | nothing => exact ⟨rfl, rfl⟩
  | nonmem =>
    obtain ⟨timeNeeded, -, ⟨-, h⟩ | ⟨-, h⟩⟩ := chargeNonmem_cases sp s p (stopTime - s.currentTime) <;> rw [h] <;>
      exact ⟨rfl, rfl⟩
  | last => exact chargeMem_totals s p _
  | looked _ _ _ hl =>
    exact (chargeMem_totals s p _).trans (lookup_looks hl).totals

theorem transfer_totals (s : Sim) : SameTotals s (transfer s) := by
  apply transfer_keeps (SameTotals s)
  · exact fun u p _ h => ⟨h.totalPgFaults, h.totalTLBmiss⟩
  · exact ⟨rfl, rfl⟩

theorem diskToMemory_totals (h : diskToMemory sp s = some u) : SameTotals s u := by
  obtain ⟨p, addr, rest, -, -, ⟨-, rfl⟩ | ⟨-, rfl⟩⟩ := diskToMemory_cases h <;> exact ⟨rfl, rfl⟩

theorem requeue_totals (s : Sim) : SameTotals s (requeue s) := by
  unfold requeue
  split <;> exact ⟨rfl, rfl⟩

theorem effect_totals (he : Effect sp s pc pc' s' evs) : SameTotals s s' := by
  cases he with
  | started | noProcess | diskInterrupt | slice | quantaFinishes | setDisk | noneRan | again | allDone | awaitArrival
  | awaitDisk | jump | catchUp | stay => exact ⟨rfl, rfl⟩
  | traceEnds _ _ hread | success _ _ hread => exact readPage_totals hread
  | pageFault _ _ hread => exact (readPage_totals hread).trans ⟨rfl, rfl⟩
  | transferred =>
    refine SameTotals.trans ?_ (transfer_totals (newQuanta s))
    unfold newQuanta
    split <;> exact ⟨rfl, rfl⟩
  | swapIn hu => exact (diskToMemory_totals hu).trans (requeue_totals _)
  | cleanUp _ hu =>
    unfold cleanUpProcess at hu
    split at hu <;> cases hu
    exact ⟨rfl, rfl⟩
  | timer => exact (requeue_totals s).trans ⟨rfl, rfl⟩
  | schedule =>
    unfold schedulingRR
    dsimp only
    split <;> exact ⟨rfl, rfl⟩
  | @arrive p twice _ => cases twice <;> exact ⟨rfl, rfl⟩
  | readDisk _ hu => exact diskToMemory_totals hu

/-- The totals are still those of `init`. -/
def NoTotals (c : Cfg) : Prop := c.sim.totalPgFaults = 0 ∧ c.sim.totalTLBmiss = 0

theorem tick_noTotals {c c' : Cfg} (h : NoTotals c) (ht : tick sp c () = some c') : NoTotals c' := by
  obtain ⟨evs, he, -⟩ := tick_effect ht
  have hs := effect_totals he
  exact ⟨hs.totalPgFaults.trans h.1, hs.totalTLBmiss.trans h.2⟩

theorem begin_noTotals (sp : SysParam) (ws : List Process) : NoTotals (begin sp ws) :=
  have hs := transfer_totals (initState sp ws)
  ⟨hs.totalPgFaults, hs.totalTLBmiss⟩

/-! ## Runs that end -/

/-- When `simulate` has returned, no process is in a list. -/
def Pc.Emptied (s : Sim) (pc : Pc) : Prop := pc = .returned → s.unfinished = 0

theorem effect_emptied (hi : Inv n s) (h : pc.Emptied s) (he : Effect sp s pc pc' s' evs) : pc'.Emptied s' := by
  cases he with
  | allDone h1 h2 h3 h4 =>
    intro _
    rw [Sim.unfinished, eq_nil_of_first hi.process_solid h4, eq_nil_of_first hi.ready_solid h2,
      held_eq_zero (hi.vacant h1), eq_nil_of_first hi.blocked_solid h3]
    rfl
  | stay => exact h
  | _ =>
    intro hpc
    cases hpc

/-- When `simulate` has returned, every process has its record. -/
theorem returned_record {c : Cfg} (h : Reach (tick sp) Any (begin sp ws) c) (hpc : c.pc = .returned)
    (hp : p < ws.length) : ∃ st ∈ c.sim.perProcessStats, st.processName = p := by
  obtain ⟨hgood, hempty⟩ : Good ws.length c ∧ c.pc.Emptied c.sim := by
    refine Reach.inv (fun c => Good ws.length c ∧ c.pc.Emptied c.sim) (fun c _ c' hi _ ht => ?_) h
      ⟨begin_good sp ws, ?_⟩
    · obtain ⟨evs, he, -⟩ := tick_effect ht
      exact ⟨tick_good hi.1 ht, effect_emptied hi.1.inv hi.2 he⟩
    · intro hpc
      cases hpc
  have hmem := hgood.inv.all_finished (hempty hpc) hp
  rw [← hgood.inv.stats] at hmem
  exact List.mem_map.1 hmem

/-- The history only grows. -/
theorem history_prefix {P : Cfg → Unit → Prop} {c c' : Cfg} (h : Reach (tick sp) P c c') : c.history <+: c'.history := by
  refine Reach.inv (fun d => c.history <+: d.history) (fun d _ d' hd _ ht => ?_) h (List.prefix_refl _)
  obtain ⟨evs, -, he⟩ := tick_effect ht
  rw [he]
  exact hd.trans (List.prefix_append _ _)

/-! ## What is counted -/

/-- The search finds what is in the TLB. -/
theorem tlbScan_found (sp : SysParam) (addr : NextMem) (p : Nat) (s : Sim) :
    (tlbScan addr p sp.tlbSizeInEntries.toNat s).2 = decide (inTlb sp s addr) := by
  rw [tlbScan_eq]
  by_cases hin : inTlb sp s addr
  · rw [if_pos (inTlb_iff.1 hin), decide_eq_true hin]
  · rw [if_neg (fun h => hin (inTlb_iff.2 h)), decide_eq_false hin]

/-- `chargeMem` leaves no instruction only if it removes the last. -/
theorem chargeMem_left (s : Sim) (p : Nat) (t : UInt64) :
    ((chargeMem sp s p t).pcb p).memReq ≠ [] ↔
      (s.pcb p).memReq ≠ [] ∧ ((s.pcb p).memReq.tail ≠ [] ∨ t < memTime sp) := by
  obtain ⟨hlt, h⟩ | ⟨hle, h⟩ := chargeMem_cases sp s p t
  · rw [h, modify_pcb, charge_pcb]
    simp only [hlt, or_true, and_true]
  · rw [h, charge_pcb, modify_pcb]
    simp only [Pcb.popReq, UInt64.not_lt.2 hle, or_false]
    exact ⟨fun hne => ⟨fun hnil => hne (by rw [hnil]; rfl), hne⟩, And.right⟩

theorem missesTlb_iff : missesTlb sp s p stopTime = true ↔ ∃ addr ∈ (s.pcb p).memReq.head?, addr.type = .mem ∧
    ((s.pcb p).memReq.tail ≠ [] ∨ stopTime - s.currentTime < memTime sp) ∧ ¬inTlb sp s addr := by
  unfold missesTlb
  cases hreq : (s.pcb p).memReq with
  | nil => simp
  | cons addr rest =>
    obtain ⟨htlb, -⟩ := chargeMem_facts sp s p (stopTime - s.currentTime)
    have hin : inTlb sp (chargeMem sp s p (stopTime - s.currentTime)) addr ↔ inTlb sp s addr := by
      rw [inTlb, inTlb, htlb]
    simp [tlbScan_found, chargeMem_left, hreq, hin, and_assoc]

/-! ## Runs without a miss -/

/-- What a step leaves alone when it counts nothing. -/
structure SameCounts (s s' : Sim) : Prop where
  blockedProcess : s'.blockedProcess = s.blockedProcess
  numberPageFaults : s'.numberPageFaults = s.numberPageFaults
  missCount : ∀ p, (s'.pcb p).missCount = (s.pcb p).missCount
  stats : s'.perProcessStats = s.perProcessStats

theorem SameCounts.trans {s'' : Sim} (h : SameCounts s s') (h' : SameCounts s' s'') : SameCounts s s'' :=
  ⟨h'.blockedProcess.trans h.blockedProcess, h'.numberPageFaults.trans h.numberPageFaults,
    fun p => (h'.missCount p).trans (h.missCount p), h'.stats.trans h.stats⟩

theorem modify_counts (s : Sim) (p : Nat) {f : Pcb → Pcb} (hf : ∀ q, (f q).missCount = q.missCount) :
    SameCounts s (s.modify p f) := by
  refine ⟨rfl, rfl, fun q => ?_, rfl⟩
  by_cases hq : q = p
  · rw [hq, modify_pcb, hf]
  · exact congrArg Pcb.missCount (update_of_ne hq _ _)

theorem charge_counts (s : Sim) (p : Nat) (t : UInt64) : SameCounts s (s.charge p t) := by
  refine ⟨rfl, rfl, fun q => ?_, rfl⟩
  by_cases hq : q = p
  · rw [hq, charge_pcb]
  · exact congrArg Pcb.missCount (update_of_ne hq _ _)

theorem chargeNonmem_counts (s : Sim) (p : Nat) (t : UInt64) : SameCounts s (chargeNonmem sp s p t) := by
  obtain ⟨timeNeeded, -, ⟨-, h⟩ | ⟨-, h⟩⟩ := chargeNonmem_cases sp s p t <;> rw [h]
  · exact (charge_counts s p t).trans (modify_counts _ p fun _ => rfl)
  · refine ((modify_counts s p ?_).trans (charge_counts _ p _)).trans (modify_counts _ p fun _ => rfl)
    exact fun _ => rfl

theorem chargeMem_counts (s : Sim) (p : Nat) (t : UInt64) : SameCounts s (chargeMem sp s p t) := by
  obtain ⟨-, h⟩ | ⟨-, h⟩ := chargeMem_cases sp s p t <;> rw [h]
  · exact (charge_counts s p t).trans (modify_counts _ p fun _ => rfl)
  · refine (modify_counts s p ?_).trans (charge_counts _ p _)
    exact fun _ => rfl

/-- Where the lookup does not miss, `readPage` counts nothing and does not fault. -/
theorem readPage_counts (hread : readPage sp s p stopTime = (u, ret)) (hmiss : missesTlb sp s p stopTime = false) :
    SameCounts s u ∧ ret ≠ .pageFault := by
  cases readPage_reads hread with
  | nothing => exact ⟨⟨rfl, rfl, fun _ => rfl, rfl⟩, nofun⟩
  | nonmem _ _ hret =>
    refine ⟨chargeNonmem_counts s p _, ?_⟩
    rw [hret]
    split <;> nofun
  | last => exact ⟨chargeMem_counts s p _, nofun⟩
  | @looked addr rest _ _ hreq htype hne hl =>
    have hin : inTlb sp (chargeMem sp s p (stopTime - s.currentTime)) addr := by
      by_contra hin
      rw [inTlb, (chargeMem_facts sp s p (stopTime - s.currentTime)).1] at hin
      have hfound := missesTlb_iff.2
        ⟨addr, by rw [hreq]; rfl, htype, ((chargeMem_left s p _).1 hne).2, hin⟩
      rw [hmiss] at hfound
      cases hfound
    cases lookup_looks hl with
    | hit => exact ⟨(chargeMem_counts s p _).trans (modify_counts _ p fun _ => rfl), nofun⟩
    | ptHit hmiss' | fault hmiss' => exact absurd hin hmiss'

/-- Nothing was ever counted. -/
structure Quiet (s : Sim) (h : List Event) : Prop where
  blocked : s.blockedProcess = []
  numberPageFaults : s.numberPageFaults = 0
  missCount : ∀ p, (s.pcb p).missCount = 0
  records : ∀ st ∈ s.perProcessStats, st.numberOfPgFaults = 0 ∧ st.numberOfTLBmiss = 0
  history : ∀ e ∈ h, ∀ p, e.faulted p = false ∧ e.missed p = false

theorem Quiet.same {h : List Event} (hq : Quiet s h) (hs : SameCounts s s') : Quiet s' h :=
  ⟨hs.blockedProcess.trans hq.blocked, hs.numberPageFaults.trans hq.numberPageFaults,
    fun p => (hs.missCount p).trans (hq.missCount p), hs.stats ▸ hq.records, hq.history⟩

theorem Quiet.read {h : List Event} (hq : Quiet s h) (hlt : s.currentTime < stopTime)
    (hp : gllFirst s.runningProcess = some p) (hread : readPage sp s p stopTime = (u, ret))
    (hm : ¬MissesTlb sp s (.slice stopTime)) : Quiet u (h ++ [readEvent sp s p stopTime]) ∧ ret ≠ .pageFault := by
  have hmiss : missesTlb sp s p stopTime = false := by
    rw [Bool.eq_false_iff]
    exact fun hmiss => hm ⟨hlt, p, hp, missesTlb_iff.1 hmiss⟩
  obtain ⟨hs, hret⟩ := readPage_counts hread hmiss
  obtain ⟨h1, h2, h3, h4, h5⟩ := hq.same hs
  refine ⟨⟨h1, h2, h3, h4, fun e he q => ?_⟩, hret⟩
  rcases List.mem_append.1 he with he | he
  · exact h5 e he q
  · rw [List.mem_singleton.1 he]
    simp [readEvent, hread, Event.faulted, Event.missed, hret, hmiss]

theorem makeReady_counts (s : Sim) (p : Nat) : SameCounts s (makeReady s p) := by
  have h : SameCounts s (s.modify p fun q => { q with memReq := q.memReq ++ q.memoryFile }) :=
    modify_counts s p fun _ => rfl
  exact ⟨rfl, rfl, h.missCount, rfl⟩

theorem newQuanta_counts (s : Sim) : SameCounts s (newQuanta s) := by
  unfold newQuanta
  split <;> exact ⟨rfl, rfl, fun _ => rfl, rfl⟩

theorem transfer_counts (s : Sim) : SameCounts s (transfer s) := by
  apply transfer_keeps (SameCounts s)
  · exact fun u p _ h => h.trans (makeReady_counts u p)
  · exact ⟨rfl, rfl, fun _ => rfl, rfl⟩

theorem requeue_counts (s : Sim) : SameCounts s (requeue s) := by
  unfold requeue
  split <;> exact ⟨rfl, rfl, fun _ => rfl, rfl⟩

theorem effect_quiet {h : List Event} (hq : Quiet s h) (hm : ¬MissesTlb sp s pc) (he : Effect sp s pc pc' s' evs) :
    Quiet s' (h ++ evs) := by
  cases he with
  | started | noProcess | diskInterrupt | slice | quantaFinishes | setDisk | noneRan | again | allDone | awaitDisk
  | jump | catchUp | stay =>
    rw [List.append_nil]
    exact hq.same ⟨rfl, rfl, fun _ => rfl, rfl⟩
  | traceEnds hlt hp hread | success hlt hp hread => exact (hq.read hlt hp hread hm).1
  | pageFault hlt hp hread => exact absurd rfl (hq.read hlt hp hread hm).2
  | transferred =>
    rw [List.append_nil]
    exact hq.same ((newQuanta_counts s).trans (transfer_counts _))
  | swapIn hu | readDisk _ hu =>
    obtain ⟨p, addr, rest, hp, -⟩ := diskToMemory_cases hu
    rw [hq.blocked] at hp
    cases hp
  | cleanUp hp hu =>
    rw [List.append_nil]
    unfold cleanUpProcess at hu
    split at hu <;> cases hu
    refine ⟨hq.blocked, hq.numberPageFaults, hq.missCount, fun st hst => ?_, hq.history⟩
    rcases List.mem_append.1 hst with hst | hst
    · exact hq.records st hst
    · rw [List.mem_singleton.1 hst]
      exact ⟨hq.numberPageFaults, by rw [hq.missCount]; rfl⟩
  | timer =>
    rw [List.append_nil]
    exact (hq.same (requeue_counts s)).same ⟨rfl, rfl, fun _ => rfl, rfl⟩
  | schedule =>
    rw [List.append_nil]
    unfold schedulingRR
    dsimp only
    split <;> exact hq.same ⟨rfl, rfl, fun _ => rfl, rfl⟩
  | @awaitArrival p =>
    rw [List.append_nil]
    exact hq.same (makeReady_counts s p)
  | @arrive p twice _ =>
    rw [List.append_nil]
    cases twice <;> exact hq.same ⟨rfl, rfl, fun _ => rfl, rfl⟩

theorem begin_quiet (sp : SysParam) (ws : List Process) : Quiet (begin sp ws).sim (begin sp ws).history := by
  have hinit : Quiet (initState sp ws) [] :=
    ⟨rfl, rfl, fun _ => rfl, fun _ hst => absurd hst List.not_mem_nil, fun _ he => absurd he List.not_mem_nil⟩
  exact hinit.same (transfer_counts _)

theorem quiet_reach {c : Cfg} (h : Reach (tick sp) (fun c _ => ¬MissesTlb sp c.sim c.pc) (begin sp ws) c) :
    Quiet c.sim c.history := by
  refine Reach.inv (fun c => Quiet c.sim c.history) (fun c _ c' hq hm ht => ?_) h (begin_quiet sp ws)
  obtain ⟨evs, he, hevs⟩ := tick_effect ht
  rw [hevs]
  exact effect_quiet hq hm he

/-! ## The statistics agree with the run -/

theorem NoTotals.stats {c : Cfg} (h : NoTotals c) :
    (statsUpdate c.sim).totalPgFaults = 0 ∧ (statsUpdate c.sim).totalTLBmiss = 0 := by
  simp only [statsUpdate, h.1, h.2]
  decide

theorem Quiet.statsAgree {c : Cfg} (hq : Quiet c.sim c.history) (h0 : NoTotals c) : StatsAgree c := by
  have hfaults : ∀ p, faults p c.history = 0 := fun p =>
    List.countP_eq_zero.2 fun e he => by rw [(hq.history e he p).1]; exact Bool.false_ne_true
  have hmisses : ∀ p, misses p c.history = 0 := fun p =>
    List.countP_eq_zero.2 fun e he => by rw [(hq.history e he p).2]; exact Bool.false_ne_true
  have hrecords := hq.records
  refine ⟨fun st hst => ?_, fun st hst => ?_, ?_, ?_⟩
  · rw [(hrecords st hst).1, hfaults]
    rfl
  · rw [(hrecords st hst).2, hmisses]
    rfl
  · rw [h0.stats.1, List.sum_eq_zero]
    · rfl
    · intro k hk
      obtain ⟨st, hst, rfl⟩ := List.mem_map.1 hk
      rw [(hrecords st hst).1]
      rfl
  · rw [h0.stats.2, List.sum_eq_zero]
    · rfl
    · intro k hk
      obtain ⟨st, hst, rfl⟩ := List.mem_map.1 hk
      rw [(hrecords st hst).2]
      rfl

/-- A step that misses is in the history. -/
theorem tick_missed {t u : Cfg} (ht : tick sp t () = some u) (hm : MissesTlb sp t.sim t.pc) :
    ∃ p, gllFirst t.sim.runningProcess = some p ∧ ∃ e ∈ u.history, e.missed p = true := by
  obtain ⟨r, -, rfl⟩ := Option.map_eq_some_iff.1 ht
  cases hpc : t.pc with
  | slice stopTime =>
    rw [hpc] at hm
    obtain ⟨hlt, p, hp, hmiss⟩ := hm
    refine ⟨p, hp, readEvent sp t.sim p stopTime, ?_, ?_⟩
    · have hev : events sp (.slice stopTime) t.sim = [readEvent sp t.sim p stopTime] := by
        rw [events_slice, if_pos hlt, hp]
        rfl
      rw [hev]
      exact List.mem_append_right _ List.mem_cons_self
    · simp [readEvent, Event.missed, missesTlb_iff.2 hmiss]
  | _ =>
    rw [hpc] at hm
    exact hm.elim

/-- After a run that ends, the statistics agree with it if and only if no lookup
of the run missed the TLB. -/
theorem stats_agree {labels : List Unit} {c : Cfg} (h : exec (tick sp) (begin sp ws) labels = some c)
    (hdone : c.pc = .returned) :
    StatsAgree c ↔ ∀ t l u, Takes (tick sp) (begin sp ws) labels t l u → ¬MissesTlb sp t.sim t.pc := by
  have hreach : Reach (tick sp) Any (begin sp ws) c := exec_reach h fun _ _ _ => trivial
  have htotals : NoTotals c := Reach.inv NoTotals (fun _ _ _ h0 _ ht => tick_noTotals h0 ht) hreach (begin_noTotals sp ws)
  constructor
  · intro hagree t l u ht hm
    have hgood := good_reach ht.reach
    obtain ⟨before, after, rfl, hb, hstep⟩ := ht
    obtain ⟨p, hp, e, he, hmissed⟩ := tick_missed hstep hm
    -- the process has a record, which says that nothing was missed
    obtain ⟨st, hst, hname⟩ := returned_record hreach hdone (hgood.inv.live (unfinished_of_running hp)).1
    have hsum := hagree.totalTLBmiss
    rw [htotals.stats.2] at hsum
    have hzero := List.sum_eq_zero_iff.1 (Int.ofNat_inj.1 hsum).symm _ (List.mem_map_of_mem hst)
    rw [hagree.misses st hst, hname] at hzero
    rw [exec_append, hb, Option.bind_some, exec, hstep, Option.bind_some] at h
    have hpre := history_prefix (exec_reach h fun _ _ _ => (trivial : Any _ _))
    exact List.countP_eq_zero.1 hzero e (hpre.subset he) hmissed
  · intro hall
    exact (quiet_reach (reach_of_takes h hall)).statsAgree htotals

/-- `stats_agree` for two processes that look for nothing. -/
theorem stats_agree_two : ∃ c, exec (tick smallSysParam)
    (begin smallSysParam [process 0 [nonmem, mem], process 0 [nonmem]]) (List.replicate 14 ()) = some c ∧
    c.pc = .returned ∧ StatsAgree c := by
  have hrun : (exec (tick smallSysParam) (begin smallSysParam [process 0 [nonmem, mem], process 0 [nonmem]])
      (List.replicate 14 ())).any (fun c => c.pc = .returned) = true := by
    decide +kernel
  have hok : along (tick smallSysParam) (fun c _ => ¬MissesTlb smallSysParam c.sim c.pc)
      (begin smallSysParam [process 0 [nonmem, mem], process 0 [nonmem]]) (List.replicate 14 ()) = true := by
    decide +kernel
  obtain ⟨c, hc, hpc⟩ := (Option.any_eq_true _ _).1 hrun
  exact ⟨c, hc, of_decide_eq_true hpc, (stats_agree hc (of_decide_eq_true hpc)).2 (takes_along hok)⟩

/-- A process that faults once: its record says 2, and the totals say 0. -/
theorem stats_agree_fails : ∃ c, Reach (tick fullSysParam) Any (begin fullSysParam [process 0 [nonmem, mem, mem]]) c ∧
    c.pc = .returned ∧ faults 0 c.history = 1 ∧ c.sim.perProcessStats.map (·.numberOfPgFaults) = [2] ∧
    (statsUpdate c.sim).totalPgFaults = 0 ∧ ¬StatsAgree c := by
  have hrun : (exec (tick fullSysParam) (begin fullSysParam [process 0 [nonmem, mem, mem]]) (List.replicate 20 ())).any
      (fun c => c.pc = .returned ∧ faults 0 c.history = 1 ∧ c.sim.perProcessStats.map (·.numberOfPgFaults) = [2] ∧
        (statsUpdate c.sim).totalPgFaults = 0) = true := by
    decide +kernel
  obtain ⟨c, hc, h⟩ := (Option.any_eq_true _ _).1 hrun
  obtain ⟨hpc, hfaults, hrecords, htotal⟩ := of_decide_eq_true h
  refine ⟨c, exec_reach hc fun _ _ _ => trivial, hpc, hfaults, hrecords, htotal, fun hagree => ?_⟩
  have hsum := hagree.totalPgFaults
  rw [htotal] at hsum
  have hrecords' : c.sim.perProcessStats.map (·.numberOfPgFaults.toNat) = [2] := by
    have := congrArg (List.map UInt64.toNat) hrecords
    rwa [List.map_map] at this
  rw [hrecords'] at hsum
  cases hsum

end Cmpsc473.Paging
