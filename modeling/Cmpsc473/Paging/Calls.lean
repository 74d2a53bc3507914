import Cmpsc473.Paging.Invariants
/-!
# What `readPage` and `diskToMemory` do

The two functions that take instructions off `memReq`, case by case. `Reads` and
`diskToMemory_cases` list the paths through them; below, what each path does to
the clock, to the block and to the tables.
-/

namespace Cmpsc473.Paging

open Function

variable {sp : SysParam} {s s' : Sim} {p : Nat} {t stopTime : UInt64}

/-! ## The paths -/

/-- `diskToMemory` for the `MEM` instruction `addr` of the blocked block `p`. -/
def swapIn (sp : SysParam) (s : Sim) (p : Nat) (addr : NextMem) : Sim :=
  let s := { s with currentTime := s.currentTime + sp.swapLatency }
  let s := { s with tlb := tlbHandler sp addr s }
  let s := { s with pt := ptHandler addr s }
  let s := { s with
    nextDiskReadTime := s.nextDiskReadTime + 1000
    numberPageFaults := s.numberPageFaults + 1 }
  let s := s.modify p fun q => { q with osTime := q.osTime + sp.swapInterruptHandlingTime }
  let s := s.modify p Pcb.popReq
  { s with
    readyProcess := gllPushBack s.readyProcess (some p)
    blockedProcess := gllPop s.blockedProcess }

/-- `diskToMemory` finds a blocked block and its next instruction, and drops a
`NONMEM` or swaps in a `MEM`. -/
theorem diskToMemory_cases (h : diskToMemory sp s = some s') :
    ∃ p addr rest, gllFirst s.blockedProcess = some p ∧ (s.pcb p).memReq = addr :: rest ∧
      (addr.type = .nonmem ∧ s' = s.modify p Pcb.popReq ∨ addr.type = .mem ∧ s' = swapIn sp s p addr) := by
  unfold diskToMemory at h
  split at h
  · cases h
  · rename_i p hp
    split at h
    · cases h
    · rename_i addr rest hreq
      refine ⟨p, addr, rest, hp, hreq, ?_⟩
      split at h
      · cases h
        exact .inl ⟨‹_›, rfl⟩
      · cases h
        exact .inr ⟨‹_›, rfl⟩

/-- The call of `readPage` looks in the TLB and does not find the address there. -/
def missesTlb (sp : SysParam) (s : Sim) (p : Nat) (stopTime : UInt64) : Bool :=
  match (s.pcb p).memReq with
  | [] => false
  | addr :: _ =>
    let s := chargeMem sp s p (stopTime - s.currentTime)
    addr.type = .mem && (s.pcb p).memReq ≠ [] && !(tlbScan addr p sp.tlbSizeInEntries.toNat s).2

/-- The paths through `readPage`. -/
inductive Reads (sp : SysParam) (s : Sim) (p : Nat) (t : UInt64) : Sim → Read → Prop where
  | nothing : (s.pcb p).memReq = [] → Reads sp s p t s .traceEnds
  | nonmem {addr rest ret} : (s.pcb p).memReq = addr :: rest → addr.type = .nonmem →
      (ret = if ((chargeNonmem sp s p t).pcb p).memReq = [] then .traceEnds else .success) →
      Reads sp s p t (chargeNonmem sp s p t) ret
  | last {addr rest} : (s.pcb p).memReq = addr :: rest → addr.type = .mem →
      ((chargeMem sp s p t).pcb p).memReq = [] → Reads sp s p t (chargeMem sp s p t) .traceEnds
  | looked {addr rest u ret} : (s.pcb p).memReq = addr :: rest → addr.type = .mem →
      ((chargeMem sp s p t).pcb p).memReq ≠ [] → lookup sp addr (chargeMem sp s p t) p = (u, ret) →
      Reads sp s p t u ret

theorem readPage_reads {u : Sim} {ret : Read} (h : readPage sp s p stopTime = (u, ret)) :
    Reads sp s p (stopTime - s.currentTime) u ret := by
  unfold readPage at h
  split at h
  · cases h
    exact .nothing ‹_›
  · rename_i addr rest hreq
    dsimp only at h
    split at h
    · rename_i htype
      split at h <;> cases h
      · exact .nonmem hreq htype (if_pos ‹_›).symm
      · exact .nonmem hreq htype (if_neg ‹_›).symm
    · rename_i htype
      split at h
      · cases h
        exact .last hreq htype ‹_›
      · exact .looked hreq htype ‹_› h

@[simp] theorem modify_pcb (s : Sim) (p : Nat) (f : Pcb → Pcb) : (s.modify p f).pcb p = f (s.pcb p) := update_self ..

@[simp] theorem charge_pcb (s : Sim) (p : Nat) (t : UInt64) :
    (s.charge p t).pcb p = { s.pcb p with userTime := (s.pcb p).userTime + t } := update_self ..

theorem modify_id (s : Sim) (p : Nat) {f : Pcb → Pcb} (hf : f (s.pcb p) = s.pcb p) : s.modify p f = s := by
  unfold Sim.modify
  rw [hf, update_eq_self]

theorem modify_modify (s : Sim) (p : Nat) (f g : Pcb → Pcb) : (s.modify p f).modify p g = s.modify p (g ∘ f) := by
  unfold Sim.modify
  simp only [update_self, update_idem, comp_apply]

/-- What the TLB holds in the entry that `readPage` looks at. -/
def inTlb (sp : SysParam) (s : Sim) (addr : NextMem) : Prop :=
  0 < sp.tlbSizeInEntries ∧ s.tlb.head?.map (·.memAddress.toNat) = some addr.self

instance (sp : SysParam) (s : Sim) (addr : NextMem) : Decidable (inTlb sp s addr) :=
  inferInstanceAs (Decidable (_ ∧ _))

theorem inTlb_iff {addr : NextMem} :
    inTlb sp s addr ↔ 0 < sp.tlbSizeInEntries.toNat ∧ s.tlb.head?.map (·.memAddress.toNat) = some addr.self := by
  unfold inTlb
  rw [Int.pos_iff_toNat_pos]

/-- The first entry is the address, or all rounds miss. -/
theorem tlbScan_eq (addr : NextMem) (p k : Nat) (s : Sim) :
    tlbScan addr p k s =
      if 0 < k ∧ s.tlb.head?.map (·.memAddress.toNat) = some addr.self then
        (s.modify p fun q => { q with hitCount := q.hitCount + 1 }, true)
      else (s.modify p fun q => { q with missCount := q.missCount + k }, false) := by
  induction k generalizing s with
  | zero =>
    rw [if_neg (fun h => Nat.lt_irrefl 0 h.1), modify_id]
    · rfl
    · simp
  | succ k ih =>
    unfold tlbScan
    split
    · rename_i hit
      rw [if_pos ⟨Nat.succ_pos k, hit⟩]
    · rename_i hmiss
      rw [ih, if_neg (fun h => hmiss h.2), if_neg (fun h => hmiss h.2), modify_modify]
      congr 2
      funext q
      simp only [comp_apply]
      rw [show q.missCount + 1 + (k : Int) = q.missCount + ((k + 1 : Nat) : Int) by push_cast; ring]

/-- The paths through the lookup, with what each counts. -/
inductive Looks (sp : SysParam) (s : Sim) (p : Nat) (addr : NextMem) : Sim → Read → Prop where
  | hit : inTlb sp s addr → Looks sp s p addr (s.modify p fun q => { q with hitCount := q.hitCount + 1 }) .success
  | ptHit : ¬inTlb sp s addr → s.pt.head?.map (·.memAddress) = some addr.addressPtr →
      Looks sp s p addr (s.modify p fun q =>
        { q with missCount := q.missCount + sp.tlbSizeInEntries.toNat, ptHitCount := q.ptHitCount + 1 }) .success
  | fault : ¬inTlb sp s addr → s.pt.head?.map (·.memAddress) ≠ some addr.addressPtr →
      Looks sp s p addr (s.modify p fun q =>
        { q with
          missCount := q.missCount + sp.tlbSizeInEntries.toNat
          numberPageFaults := q.numberPageFaults + 1
          ptMissCount := q.ptMissCount + 1 }) .pageFault

theorem lookup_looks {addr : NextMem} {u : Sim} {ret : Read} (h : lookup sp addr s p = (u, ret)) :
    Looks sp s p addr u ret := by
  unfold lookup at h
  simp only [tlbScan_eq, ← inTlb_iff] at h
  by_cases hhit : inTlb sp s addr
  · rw [if_pos hhit] at h
    cases h
    exact .hit hhit
  · rw [if_neg hhit] at h
    simp only [Bool.false_eq_true, if_false, modify_modify] at h
    split at h <;> cases h
    · exact .ptHit hhit ‹_›
    · exact .fault hhit ‹_›

/-- The branches of `readPage` for `NONMEM`. -/
theorem chargeNonmem_cases (sp : SysParam) (s : Sim) (p : Nat) (t : UInt64) :
    ∃ timeNeeded, (timeNeeded = if (s.pcb p).fracLeft > 0 then (s.pcb p).fracLeft else sp.nonMemInstLength) ∧
      (t < timeNeeded ∧
          chargeNonmem sp s p t = (s.charge p t).modify p (fun q => { q with fracLeft := timeNeeded - t }) ∨
        timeNeeded ≤ t ∧ chargeNonmem sp s p t =
          ((s.modify p Pcb.popReq).charge p timeNeeded).modify p fun q => { q with fracLeft := 0 }) := by
  refine ⟨_, rfl, ?_⟩
  by_cases hlt : t < if (s.pcb p).fracLeft > 0 then (s.pcb p).fracLeft else sp.nonMemInstLength
  · exact .inl ⟨hlt, if_pos hlt⟩
  · exact .inr ⟨UInt64.not_lt.1 hlt, if_neg hlt⟩

/-- The time that a `MEM` takes: `uint64_t timeNeeded = sysParam->Frac_mem_inst`. -/
def memTime (sp : SysParam) : UInt64 := UInt64.ofNat ⌊sp.fracMemInst⌋.toNat

/-- The branches of `readPage` for `MEM`. -/
theorem chargeMem_cases (sp : SysParam) (s : Sim) (p : Nat) (t : UInt64) :
    t < memTime sp ∧ chargeMem sp s p t = (s.charge p t).modify p (fun q => { q with fracLeft := memTime sp - t }) ∨
      memTime sp ≤ t ∧ chargeMem sp s p t = (s.modify p Pcb.popReq).charge p (memTime sp) := by
  unfold chargeMem
  extract_lets timeNeeded
  split
  · exact .inl ⟨‹_›, rfl⟩
  · exact .inr ⟨UInt64.not_lt.1 ‹_›, rfl⟩

/-! ## Time -/

/-- The clock and the user time moved on by `d`. -/
structure Ticked (s s' : Sim) (d : UInt64) : Prop where
  currentTime : s'.currentTime = s.currentTime + d
  userTime : s'.userTime = s.userTime + d
  osTime : s'.osTime = s.osTime

theorem Looks.ticked {addr : NextMem} {ret : Read} {d : UInt64} {s'' : Sim} (h : Ticked s s' d)
    (hl : Looks sp s' p addr s'' ret) : Ticked s s'' d := by
  cases hl <;> exact ⟨h.currentTime, h.userTime, h.osTime⟩

theorem chargeNonmem_ticked (s : Sim) (p : Nat) (t : UInt64) : ∃ d ≤ t, Ticked s (chargeNonmem sp s p t) d := by
  obtain ⟨timeNeeded, -, ⟨-, h⟩ | ⟨hle, h⟩⟩ := chargeNonmem_cases sp s p t
  · exact ⟨t, UInt64.le_refl t, by rw [h]; exact ⟨rfl, rfl, rfl⟩⟩
  · exact ⟨timeNeeded, hle, by rw [h]; exact ⟨rfl, rfl, rfl⟩⟩

theorem chargeMem_ticked (s : Sim) (p : Nat) (t : UInt64) : ∃ d ≤ t, Ticked s (chargeMem sp s p t) d := by
  obtain ⟨-, h⟩ | ⟨hle, h⟩ := chargeMem_cases sp s p t
  · exact ⟨t, UInt64.le_refl t, by rw [h]; exact ⟨rfl, rfl, rfl⟩⟩
  · exact ⟨memTime sp, hle, by rw [h]; exact ⟨rfl, rfl, rfl⟩⟩

/-- `readPage` books what it takes as user time, and takes at most what is
left of the slice. -/
theorem readPage_ticked {u : Sim} {ret : Read} (h : readPage sp s p stopTime = (u, ret)) :
    ∃ d ≤ stopTime - s.currentTime, Ticked s u d := by
  cases readPage_reads h with
  | nothing => exact ⟨0, UInt64.zero_le, (UInt64.add_zero _).symm, (UInt64.add_zero _).symm, rfl⟩
  | nonmem => exact chargeNonmem_ticked s p _
  | last => exact chargeMem_ticked s p _
  | looked _ _ _ hl =>
    obtain ⟨d, hd, hc⟩ := @chargeMem_ticked sp s p (stopTime - s.currentTime)
    exact ⟨d, hd, (lookup_looks hl).ticked hc⟩

/-! ## Instructions -/

/-- A lookup counts, and leaves the rest of the block and the tables alone. -/
structure SameWork (s s' : Sim) (p : Nat) : Prop where
  memReq : (s'.pcb p).memReq = (s.pcb p).memReq
  fracLeft : (s'.pcb p).fracLeft = (s.pcb p).fracLeft
  userTime : (s'.pcb p).userTime = (s.pcb p).userTime
  tlb : s'.tlb = s.tlb
  pt : s'.pt = s.pt

theorem Looks.sameWork {addr : NextMem} {ret : Read} (h : Looks sp s p addr s' ret) : SameWork s s' p := by
  cases h <;> exact ⟨by rw [modify_pcb], by rw [modify_pcb], by rw [modify_pcb], rfl, rfl⟩

/-- A process that faults has instructions left. -/
theorem memReq_of_fault {u : Sim} (h : readPage sp s p stopTime = (u, .pageFault)) : (u.pcb p).memReq ≠ [] := by
  cases readPage_reads h with
  | nonmem _ _ hret => split at hret <;> cases hret
  | looked _ _ hne hl => exact (lookup_looks hl).sameWork.memReq ▸ hne

/-- `diskToMemory` changes the blocked block only. -/
theorem diskToMemory_others {u : Sim} (h : diskToMemory sp s = some u) (hp : gllFirst s.blockedProcess = some p)
    {q : Nat} (hq : q ≠ p) : u.pcb q = s.pcb q := by
  obtain ⟨p', addr, rest, hp', -, ⟨-, rfl⟩ | ⟨-, rfl⟩⟩ := diskToMemory_cases h
  · obtain rfl : p = p' := Option.some.inj (hp.symm.trans hp')
    exact update_of_ne hq _ _
  · obtain rfl : p = p' := Option.some.inj (hp.symm.trans hp')
    exact (update_of_ne hq _ _).trans (update_of_ne hq _ _)

end Cmpsc473.Paging
