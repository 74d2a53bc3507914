import Cmpsc473.Paging.Slice
/-!
# What a trace is charged

`due` is what a process still has to pay for the instructions it has left. Every
call of `readPage` charges a part of it, whatever its stop time and whatever the
lookup says, so preemption does not change the total (`charged_in_full`).
-/

namespace Cmpsc473.Paging

open Function Runs

variable {sp : SysParam} {s u : Sim} {p : Nat} {t d : UInt64} {q q' : Pcb}

/-- A call of `readPage`: its stop time, and what the tables hold by then. -/
structure ReadCall where
  stopTime : UInt64
  tlb : List TlbEntry
  pt : List PtEntry

/-- The call, for the process `p`. -/
def readCall (sp : SysParam) (p : Nat) (s : Sim) (c : ReadCall) : Sim × Read :=
  readPage sp { s with tlb := c.tlb, pt := c.pt } p c.stopTime

/-- The call as a step. -/
def readStep (sp : SysParam) (p : Nat) (s : Sim) (c : ReadCall) : Option Sim := some (readCall sp p s c).1

/-- What the first instruction still costs: the rest of a `NONMEM` that was cut. -/
def headDue (sp : SysParam) (q : Pcb) (addr : NextMem) : Nat :=
  if addr.type = .nonmem ∧ q.fracLeft > 0 then q.fracLeft.toNat else (cost sp addr).toNat

/-- What the instructions left cost. -/
def due (sp : SysParam) (q : Pcb) : Nat :=
  match q.memReq with
  | [] => 0
  | addr :: rest => headDue sp q addr + (rest.map fun a => (cost sp a).toNat).sum

/-- `fracLeft` is not zero only while the first instruction is a `NONMEM` of
which a part was charged. -/
def Partly (sp : SysParam) (q : Pcb) : Prop :=
  q.fracLeft ≠ 0 → ∃ addr rest, q.memReq = addr :: rest ∧ addr.type = .nonmem ∧ q.fracLeft < sp.nonMemInstLength

theorem due_nil (h : q.memReq = []) : due sp q = 0 := by rw [due, h]

theorem due_cons {addr : NextMem} {rest : List NextMem} (h : q.memReq = addr :: rest) :
    due sp q = headDue sp q addr + (rest.map fun a => (cost sp a).toNat).sum := by
  rw [due, h]

/-- Without a cut instruction every instruction left is due in full. -/
theorem due_fresh (h : q.fracLeft = 0) : due sp q = (q.memReq.map fun a => (cost sp a).toNat).sum := by
  cases hreq : q.memReq with
  | nil => exact due_nil hreq
  | cons addr rest =>
    rw [due_cons hreq, headDue, h, if_neg (fun hn => UInt64.lt_irrefl 0 hn.2)]
    rfl

theorem headDue_nonmem {addr : NextMem} (htype : addr.type = .nonmem) :
    headDue sp q addr = (if q.fracLeft > 0 then q.fracLeft else sp.nonMemInstLength).toNat := by
  by_cases hfrac : q.fracLeft > 0 <;> simp [headDue, cost, htype, hfrac]

theorem headDue_mem {addr : NextMem} (htype : addr.type = .mem) : headDue sp q addr = (memTime sp).toNat := by
  simp [headDue, cost, htype]

theorem Partly.eq_zero {addr : NextMem} {rest : List NextMem} (h : Partly sp q) (hreq : q.memReq = addr :: rest)
    (htype : addr.type = .mem) : q.fracLeft = 0 := by
  by_contra hne
  obtain ⟨addr', rest', hreq', htype', -⟩ := h hne
  cases hreq.symm.trans hreq'
  rw [htype] at htype'
  cases htype'

/-- A call charges a part of what is due. A `MEM` is never cut: it takes one
unit of time at most, and there is one. -/
theorem Work.due (h : Work sp t d q q') (hmem : (memTime sp).toNat ≤ 1) (ht : 0 < t) (hq : Partly sp q) :
    due sp q = d.toNat + due sp q' ∧ Partly sp q' := by
  rw [UInt64.lt_iff_toNat_lt, UInt64.toNat_zero] at ht
  cases h with
  | nothing h1 h2 h3 h4 =>
    refine ⟨by rw [due_nil h1, due_nil h2, h4]; rfl, fun hne => ?_⟩
    rw [h3] at hne
    obtain ⟨addr, rest, hreq, -⟩ := hq hne
    rw [h1] at hreq
    cases hreq
  | @cut addr rest timeNeeded h1 htype hneed hlt hd h6 h7 =>
    have hsub : q'.fracLeft.toNat = timeNeeded.toNat - t.toNat := by
      rw [h7, UInt64.toNat_sub_of_le _ _ (UInt64.le_of_lt hlt)]
    rw [UInt64.lt_iff_toNat_lt] at hlt
    have hpos : q'.fracLeft > 0 := by
      rw [gt_iff_lt, UInt64.lt_iff_toNat_lt, UInt64.toNat_zero]
      omega
    refine ⟨?_, fun _ => ⟨addr, rest, h6.trans h1, htype, ?_⟩⟩
    · rw [due_cons h1, due_cons (h6.trans h1), headDue_nonmem htype, headDue_nonmem htype, ← hneed, if_pos hpos, hsub, hd]
      omega
    · have hle : timeNeeded.toNat ≤ sp.nonMemInstLength.toNat := by
        rw [hneed]
        split
        · rename_i hfrac
          have hne : q.fracLeft ≠ 0 := by
            intro he
            rw [he] at hfrac
            exact UInt64.lt_irrefl 0 hfrac
          obtain ⟨-, -, -, -, hless⟩ := hq hne
          exact UInt64.le_iff_toNat_le.1 (UInt64.le_of_lt hless)
        · exact Nat.le_refl _
      rw [UInt64.lt_iff_toNat_lt, hsub]
      omega
  | whole h1 htype hneed hle hd h6 h7 =>
    refine ⟨?_, fun hne => absurd h7 hne⟩
    rw [due_cons h1, headDue_nonmem htype, ← hneed, hd, due_fresh h7, h6]
  | cutMem h1 htype hlt =>
    rw [UInt64.lt_iff_toNat_lt] at hlt
    omega
  | wholeMem h1 htype hle hd h5 h6 =>
    have hfrac : q'.fracLeft = 0 := h6.trans (hq.eq_zero h1 htype)
    refine ⟨?_, fun hne => absurd hfrac hne⟩
    rw [due_cons h1, headDue_mem htype, hd, due_fresh hfrac, h5]

/-- What was charged for `p` on the way from `s` to `u`: `n` units, on the clock
without wrapping around. -/
structure Paid (s u : Sim) (p n : Nat) : Prop where
  clock : u.currentTime.toNat = s.currentTime.toNat + n
  userTime : u.userTime = s.userTime + UInt64.ofNat n
  process : (u.pcb p).userTime = (s.pcb p).userTime + UInt64.ofNat n

theorem Paid.trans {v : Sim} {m n : Nat} (h : Paid s u p m) (h' : Paid u v p n) : Paid s v p (m + n) := by
  refine ⟨?_, ?_, ?_⟩
  · rw [h'.clock, h.clock, Nat.add_assoc]
  · rw [h'.userTime, h.userTime, UInt64.ofNat_add, UInt64.add_assoc]
  · rw [h'.process, h.process, UInt64.ofNat_add, UInt64.add_assoc]

/-- One call pays a part of what is due. -/
theorem readCall_pays (hmem : (memTime sp).toNat ≤ 1) {c : ReadCall} (hlt : s.currentTime < c.stopTime)
    (hq : Partly sp (s.pcb p)) :
    ∃ n, Paid s (readCall sp p s c).1 p n ∧ due sp (s.pcb p) = n + due sp ((readCall sp p s c).1.pcb p) ∧
      Partly sp ((readCall sp p s c).1.pcb p) ∧
      ((readCall sp p s c).2 = .traceEnds ↔ ((readCall sp p s c).1.pcb p).memReq = []) := by
  obtain ⟨d, hs, hw, hret⟩ := @readPage_works sp { s with tlb := c.tlb, pt := c.pt } _ p c.stopTime _ rfl
  obtain ⟨hdue, hpartly⟩ := hw.due hmem (sub_pos_of_lt hlt) hq
  obtain ⟨hclock, -⟩ := hs.within hw.facts.1 (UInt64.le_of_lt hlt)
  refine ⟨d.toNat, ⟨hclock, ?_, ?_⟩, hdue, hpartly, hret⟩
  · rw [UInt64.ofNat_toNat]
    exact hs.userTime
  · rw [UInt64.ofNat_toNat]
    exact hs.process

/-- A sequence of calls pays what is no longer due. -/
theorem readCalls_pay (hmem : (memTime sp).toNat ≤ 1) (cs : List ReadCall) : ∀ {s : Sim},
    (∀ v c w, Takes (readStep sp p) s cs v c w → v.currentTime < c.stopTime) → Partly sp (s.pcb p) →
    (∃ n, Paid s (calls (readCall sp p) s cs).1 p n ∧
      due sp (s.pcb p) = n + due sp ((calls (readCall sp p) s cs).1.pcb p)) ∧
    (∀ v c w, Takes (readStep sp p) s cs v c w → Partly sp (w.pcb p)) ∧
    ((calls (readCall sp p) s cs).2.getLast? = some .traceEnds → ((calls (readCall sp p) s cs).1.pcb p).memReq = []) := by
  induction cs with
  | nil =>
    intro s _ _
    refine ⟨⟨0, ⟨rfl, ?_, ?_⟩, (Nat.zero_add _).symm⟩, ?_, fun hl => by cases hl⟩
    · exact (UInt64.add_zero _).symm
    · exact (UInt64.add_zero _).symm
    · rintro v c w ⟨before, after, he, -⟩
      simp at he
  | cons c cs ih =>
    intro s hahead hq
    obtain ⟨m, hpaid, hdue, hpartly, hret⟩ := readCall_pays hmem (hahead s c _ (takes_cons.2 (.inl ⟨rfl, rfl, rfl⟩))) hq
    obtain ⟨⟨n, hpaid', hdue'⟩, hall, hlast⟩ := @ih (readCall sp p s c).1
      (fun v c' w hv => hahead v c' w (takes_cons.2 (.inr ⟨_, rfl, hv⟩))) hpartly
    refine ⟨⟨m + n, hpaid.trans hpaid', ?_⟩, ?_, ?_⟩
    · rw [hdue, hdue', Nat.add_assoc]
      rfl
    · intro v c' w hv
      rcases takes_cons.1 hv with ⟨rfl, rfl, hstep⟩ | ⟨w', hw', hv⟩
      · cases hstep
        exact hpartly
      · cases hw'
        exact hall v c' w hv
    · intro hl
      rw [calls, List.getLast?_cons] at hl
      cases hrest : (calls (readCall sp p) (readCall sp p s c).1 cs).2.getLast? with
      | some r =>
        rw [hrest] at hl
        exact hlast (hrest.trans hl)
      | none =>
        rw [hrest] at hl
        have hnil : cs = [] := by
          cases cs with
          | nil => rfl
          | cons c' cs => simp [calls] at hrest
        subst hnil
        exact hret.1 (Option.some.inj hl)

/-- The costs of a trace, added up. -/
theorem sum_costs (sp : SysParam) (trace : List NextMem) : (trace.map fun a => (cost sp a).toNat).sum =
    trace.countP (·.type = .nonmem) * sp.nonMemInstLength.toNat + trace.countP (·.type = .mem) * (memTime sp).toNat := by
  induction trace with
  | nil => simp
  | cons addr rest ih =>
    rw [List.map_cons, List.sum_cons, ih]
    cases htype : addr.type <;> simp [cost, htype] <;> ring

/-- `Frac-mem-inst` lies between 0 and 1, so a `MEM` takes its floor. -/
theorem toNat_memTime (h0 : 0 ≤ sp.fracMemInst) (h1 : sp.fracMemInst ≤ 1) :
    ((memTime sp).toNat : Int) = ⌊sp.fracMemInst⌋ ∧ (memTime sp).toNat ≤ 1 := by
  have hle : ⌊sp.fracMemInst⌋ ≤ 1 := by
    have := Int.floor_mono h1
    rwa [Int.floor_one] at this
  have hge : 0 ≤ ⌊sp.fracMemInst⌋ := Int.floor_nonneg.2 h0
  have hn : (memTime sp).toNat = ⌊sp.fracMemInst⌋.toNat := by
    rw [memTime, UInt64.toNat_ofNat', Nat.mod_eq_of_lt (by omega)]
  rw [hn]
  exact ⟨Int.toNat_of_nonneg hge, by omega⟩

/-- A process that is called until its trace ends is charged its `NONMEM`
instructions and the floor of `Frac-mem-inst` for each `MEM`, wherever the stop
times cut and whatever the tables hold. -/
theorem charged_in_full (h0 : 0 ≤ sp.fracMemInst) (h1 : sp.fracMemInst ≤ 1) (hfresh : (s.pcb p).fracLeft = 0)
    {cs : List ReadCall} (hahead : ∀ v c w, Takes (readStep sp p) s cs v c w → v.currentTime < c.stopTime)
    (hends : (calls (readCall sp p) s cs).2.getLast? = some .traceEnds) :
    (∃ n : Nat, (n : Int) = (s.pcb p).memReq.countP (·.type = .nonmem) * (sp.nonMemInstLength.toNat : Int) +
        (s.pcb p).memReq.countP (·.type = .mem) * ⌊sp.fracMemInst⌋ ∧
      Paid s (calls (readCall sp p) s cs).1 p n) ∧
      ∀ v c w, Takes (readStep sp p) s cs v c w → Partly sp (w.pcb p) := by
  obtain ⟨htime, hle⟩ := toNat_memTime h0 h1
  obtain ⟨⟨n, hpaid, hdue⟩, hall, hlast⟩ := readCalls_pay hle cs hahead fun hne => absurd hfresh hne
  refine ⟨⟨n, ?_, hpaid⟩, hall⟩
  rw [due_fresh hfresh, sum_costs, due_nil (hlast hends), Nat.add_zero] at hdue
  rw [← hdue, ← htime]
  push_cast
  rfl

/-- A trace of two `NONMEM` and a `MEM`, cut twice, is charged six units if a
`NONMEM` takes three. -/
theorem charged_in_full_cut :
    let sp : SysParam := { smallSysParam with nonMemInstLength := 3 }
    let s := makeReady (initState sp [process 0 [nonmem, mem, nonmem]]) 0
    let cs : List ReadCall := [⟨2, [], []⟩, ⟨10, [], []⟩, ⟨10, [], []⟩, ⟨4, [], []⟩, ⟨10, [], []⟩]
    (calls (readCall sp 0) s cs).2 = [.success, .success, .pageFault, .success, .traceEnds] ∧
      Paid s (calls (readCall sp 0) s cs).1 0 6 := by
  intro sp s cs
  have hrets : (calls (readCall sp 0) s cs).2 = [.success, .success, .pageFault, .success, .traceEnds] := by
    decide +kernel
  have hfloor : ⌊sp.fracMemInst⌋ = 0 := Int.floor_zero
  have hahead : along (readStep sp 0) (fun v c => v.currentTime < c.stopTime) s cs = true := by decide +kernel
  obtain ⟨⟨n, hn, hpaid⟩, -⟩ := @charged_in_full sp s 0 (le_refl _) (by decide) rfl cs (takes_along hahead)
    (by rw [hrets]; rfl)
  have h6 : n = 6 := by
    rw [hfloor] at hn
    have : (n : Int) = 6 := hn.trans (by decide +kernel)
    omega
  exact ⟨hrets, h6 ▸ hpaid⟩

end Cmpsc473.Paging
