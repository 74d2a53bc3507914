import Cmpsc473.Paging.Execution
/-!
# Slices

A call of `readPage` cuts its instruction at `stopTime` or takes it off whole:
`readPage_works` says which, and what it charges. A slice is then bounded by the
quantum (`slice_bounded`), because a call that removes nothing reaches the end
of the slice.
-/

namespace Cmpsc473.Paging

open Function Runs

variable {sp : SysParam} {s u v : Sim} {p : Nat} {stopTime t d e : UInt64} {ret : Read}

/-! ## What a call charges -/

/-- Time went by for the block `p`: the clock, the user time and the block's own
moved on by `d`, and no other block and no list changed. -/
structure Spent (s u : Sim) (p : Nat) (d : UInt64) : Prop where
  currentTime : u.currentTime = s.currentTime + d
  userTime : u.userTime = s.userTime + d
  process : (u.pcb p).userTime = (s.pcb p).userTime + d
  others : ∀ q, q ≠ p → u.pcb q = s.pcb q
  lists : SameLists s u

theorem Spent.refl (s : Sim) (p : Nat) : Spent s s p 0 :=
  ⟨(UInt64.add_zero _).symm, (UInt64.add_zero _).symm, (UInt64.add_zero _).symm, fun _ _ => rfl, .refl s⟩

theorem Spent.trans (h : Spent s u p d) (h' : Spent u v p e) : Spent s v p (d + e) := by
  refine ⟨?_, ?_, ?_, fun q hq => (h'.others q hq).trans (h.others q hq), h.lists.trans h'.lists⟩
  · rw [h'.currentTime, h.currentTime, UInt64.add_assoc]
  · rw [h'.userTime, h.userTime, UInt64.add_assoc]
  · rw [h'.process, h.process, UInt64.add_assoc]

/-- What a call with the time `t` does to the instructions of a block, where `d`
is charged. -/
inductive Work (sp : SysParam) (t d : UInt64) (q q' : Pcb) : Prop where
  | nothing : q.memReq = [] → q'.memReq = [] → q'.fracLeft = q.fracLeft → d = 0 → Work sp t d q q'
  | cut {addr rest timeNeeded} : q.memReq = addr :: rest → addr.type = .nonmem →
      (timeNeeded = if q.fracLeft > 0 then q.fracLeft else sp.nonMemInstLength) → t < timeNeeded → d = t →
      q'.memReq = q.memReq → q'.fracLeft = timeNeeded - t → Work sp t d q q'
  | whole {addr rest timeNeeded} : q.memReq = addr :: rest → addr.type = .nonmem →
      (timeNeeded = if q.fracLeft > 0 then q.fracLeft else sp.nonMemInstLength) → timeNeeded ≤ t → d = timeNeeded →
      q'.memReq = rest → q'.fracLeft = 0 → Work sp t d q q'
  | cutMem {addr rest} : q.memReq = addr :: rest → addr.type = .mem → t < memTime sp → d = t →
      q'.memReq = q.memReq → q'.fracLeft = memTime sp - t → Work sp t d q q'
  | wholeMem {addr rest} : q.memReq = addr :: rest → addr.type = .mem → memTime sp ≤ t → d = memTime sp →
      q'.memReq = rest → q'.fracLeft = q.fracLeft → Work sp t d q q'

theorem chargeNonmem_works {addr : NextMem} {rest : List NextMem} (hreq : (s.pcb p).memReq = addr :: rest)
    (htype : addr.type = .nonmem) (t : UInt64) :
    ∃ d, Spent s (chargeNonmem sp s p t) p d ∧ Work sp t d (s.pcb p) ((chargeNonmem sp s p t).pcb p) := by
  obtain ⟨hlists, hothers, -⟩ := @chargeNonmem_charged sp s p t
  obtain ⟨timeNeeded, hneed, ⟨hlt, h⟩ | ⟨hle, h⟩⟩ := chargeNonmem_cases sp s p t <;> rw [h] at hlists hothers ⊢
  · refine ⟨t, ⟨rfl, rfl, ?_, hothers, hlists⟩, .cut hreq htype hneed hlt rfl ?_ ?_⟩
    · rw [modify_pcb, charge_pcb]
    · rw [modify_pcb, charge_pcb]
    · rw [modify_pcb]
  · refine ⟨timeNeeded, ⟨rfl, rfl, ?_, hothers, hlists⟩, .whole hreq htype hneed hle rfl ?_ ?_⟩
    · rw [modify_pcb, charge_pcb, modify_pcb]
      rfl
    · rw [modify_pcb, charge_pcb, modify_pcb, Pcb.popReq, hreq]
      rfl
    · rw [modify_pcb]

theorem chargeMem_works {addr : NextMem} {rest : List NextMem} (hreq : (s.pcb p).memReq = addr :: rest)
    (htype : addr.type = .mem) (t : UInt64) :
    ∃ d, Spent s (chargeMem sp s p t) p d ∧ Work sp t d (s.pcb p) ((chargeMem sp s p t).pcb p) := by
  obtain ⟨hlists, hothers, -⟩ := @chargeMem_charged sp s p t
  obtain ⟨hlt, h⟩ | ⟨hle, h⟩ := chargeMem_cases sp s p t <;> rw [h] at hlists hothers ⊢
  · refine ⟨t, ⟨rfl, rfl, ?_, hothers, hlists⟩, .cutMem hreq htype hlt rfl ?_ ?_⟩
    · rw [modify_pcb, charge_pcb]
    · rw [modify_pcb, charge_pcb]
    · rw [modify_pcb]
  · refine ⟨memTime sp, ⟨rfl, rfl, ?_, hothers, hlists⟩, .wholeMem hreq htype hle rfl ?_ ?_⟩
    · rw [charge_pcb, modify_pcb]
      rfl
    · rw [charge_pcb, modify_pcb, Pcb.popReq, hreq]
      rfl
    · rw [charge_pcb, modify_pcb]
      rfl

/-- A lookup charges nothing and leaves the instructions alone. -/
theorem Looks.works {addr : NextMem} {q : Pcb} (h : Looks sp u p addr v ret) (hs : Spent s u p d)
    (hw : Work sp t d q (u.pcb p)) : Spent s v p d ∧ Work sp t d q (v.pcb p) := by
  have hsame := h.sameWork
  have hspent : Spent u v p 0 := by
    obtain ⟨hlists, hothers, -⟩ : Charged u v p := by
      cases h <;> exact modify_charged u p fun _ => rfl
    have hz : ∀ x : UInt64, x = x + 0 := fun x => (UInt64.add_zero x).symm
    refine ⟨?_, ?_, hsame.userTime.trans (hz _), hothers, hlists⟩
    · cases h <;> exact hz _
    · cases h <;> exact hz _
  constructor
  · have := hs.trans hspent
    rwa [UInt64.add_zero] at this
  · cases hw with
    | nothing h1 h2 h3 h4 => exact .nothing h1 (hsame.memReq.trans h2) (hsame.fracLeft.trans h3) h4
    | cut h1 h2 h3 h4 h5 h6 h7 => exact .cut h1 h2 h3 h4 h5 (hsame.memReq.trans h6) (hsame.fracLeft.trans h7)
    | whole h1 h2 h3 h4 h5 h6 h7 => exact .whole h1 h2 h3 h4 h5 (hsame.memReq.trans h6) (hsame.fracLeft.trans h7)
    | cutMem h1 h2 h3 h4 h5 h6 => exact .cutMem h1 h2 h3 h4 (hsame.memReq.trans h5) (hsame.fracLeft.trans h6)
    | wholeMem h1 h2 h3 h4 h5 h6 => exact .wholeMem h1 h2 h3 h4 (hsame.memReq.trans h5) (hsame.fracLeft.trans h6)

/-- All that a call of `readPage` does to the clock and to its block. It returns
0 exactly when no instruction is left. -/
theorem readPage_works (h : readPage sp s p stopTime = (u, ret)) :
    ∃ d, Spent s u p d ∧ Work sp (stopTime - s.currentTime) d (s.pcb p) (u.pcb p) ∧
      (ret = .traceEnds ↔ (u.pcb p).memReq = []) := by
  cases readPage_reads h with
  | nothing hnil => exact ⟨0, .refl s p, .nothing hnil hnil rfl rfl, iff_of_true rfl hnil⟩
  | nonmem hreq htype hret =>
    obtain ⟨d, hs, hw⟩ := @chargeNonmem_works sp s p _ _ hreq htype (stopTime - s.currentTime)
    refine ⟨d, hs, hw, ?_⟩
    rw [hret]
    split <;> simp_all
  | last hreq htype hnil =>
    obtain ⟨d, hs, hw⟩ := @chargeMem_works sp s p _ _ hreq htype (stopTime - s.currentTime)
    exact ⟨d, hs, hw, iff_of_true rfl hnil⟩
  | looked hreq htype hne hl =>
    obtain ⟨d, hs, hw⟩ := @chargeMem_works sp s p _ _ hreq htype (stopTime - s.currentTime)
    have hlook := lookup_looks hl
    obtain ⟨hs', hw'⟩ := hlook.works hs hw
    refine ⟨d, hs', hw', iff_of_false ?_ (hlook.sameWork.memReq ▸ hne)⟩
    cases hlook <;> nofun

/-- No more than the time there is; and the instruction stays only if all of it
was charged. -/
theorem Work.facts {q q' : Pcb} (h : Work sp t d q q') :
    d ≤ t ∧ q'.memReq <:+ q.memReq ∧ (q'.memReq ≠ [] → d = t ∨ q'.memReq.length < q.memReq.length) := by
  cases h with
  | nothing h1 h2 _ h4 => exact ⟨h4 ▸ UInt64.zero_le, by rw [h1, h2], fun hne => absurd h2 hne⟩
  | cut _ _ _ _ h5 h6 | cutMem _ _ _ h5 h6 => exact ⟨h5 ▸ UInt64.le_refl t, h6 ▸ List.suffix_rfl, fun _ => .inl h5⟩
  | whole h1 _ _ h4 h5 h6 | wholeMem h1 _ h4 h5 h6 =>
    refine ⟨h5 ▸ h4, ?_, fun _ => .inr ?_⟩
    · rw [h1, h6]
      exact List.suffix_cons _ _
    · rw [h1, h6, List.length_cons]
      exact Nat.lt_succ_self _

/-! ## A slice -/

/-- How the loop of `processSimulator` ends: in the state `v`, before a process
that faulted was moved. -/
structure Ends (s : Sim) (p : Nat) (stopTime : UInt64) (u : Sim) (pause : Pause) (v : Sim) (d : UInt64) : Prop where
  spent : Spent s v p d
  bound : s.currentTime.toNat + d.toNat ≤ stopTime.toNat
  left : (v.pcb p).memReq <:+ (s.pcb p).memReq
  pause : pause = .quantaFinishes ∧ u = v ∧ v.currentTime = stopTime ∧ (v.pcb p).memReq ≠ [] ∨
    pause = .traceEnds ∧ u = v ∧ (v.pcb p).memReq = [] ∨ pause = .pageFault ∧ u = block v

theorem runSlice_stop (sp : SysParam) {fuel : Nat} (h0 : 0 < fuel) (hstop : ¬s.currentTime < stopTime) :
    runSlice sp stopTime fuel s = some (s, .quantaFinishes) := by
  obtain ⟨fuel, rfl⟩ := Nat.exists_eq_succ_of_ne_zero (Nat.pos_iff_ne_zero.1 h0)
  rw [runSlice, if_neg hstop]

/-- Time spent within the slice. -/
theorem Spent.within (h : Spent s u p d) (hd : d ≤ stopTime - s.currentTime) (hle : s.currentTime ≤ stopTime) :
    u.currentTime.toNat = s.currentTime.toNat + d.toNat ∧ s.currentTime.toNat + d.toNat ≤ stopTime.toNat := by
  rw [UInt64.le_iff_toNat_le, UInt64.toNat_sub_of_le _ _ hle] at hd
  rw [UInt64.le_iff_toNat_le] at hle
  have hlt := stopTime.toNat_lt
  refine ⟨?_, by omega⟩
  rw [h.currentTime, UInt64.toNat_add, Nat.mod_eq_of_lt (by omega)]

/-- The loop ends: each round removes an instruction or reaches `stopTime`. -/
theorem runSlice_ends (k : Nat) : ∀ {s : Sim}, gllFirst s.runningProcess = some p → (s.pcb p).memReq.length ≤ k →
    s.currentTime ≤ stopTime → (¬s.currentTime < stopTime → (s.pcb p).memReq ≠ []) →
    ∃ u pause v d, (∀ fuel, k + 1 < fuel → runSlice sp stopTime fuel s = some (u, pause)) ∧ Ends s p stopTime u pause v d := by
  induction k using Nat.strong_induction_on with
  | _ k ih =>
  intro s hrun hlen hle hstop
  by_cases hlt : s.currentTime < stopTime
  · cases hread : readPage sp s p stopTime with
    | mk w ret =>
    obtain ⟨d, hs, hw, hret⟩ := readPage_works hread
    obtain ⟨hd, hleft, hshort⟩ := hw.facts
    obtain ⟨hclock, hbound⟩ := hs.within hd hle
    have hrun' : gllFirst w.runningProcess = some p := by rw [hs.lists.runningProcess, hrun]
    have hloop : ∀ fuel, k + 1 < fuel + 1 → runSlice sp stopTime (fuel + 1) s =
        match ret with
        | .traceEnds => some (w, .traceEnds)
        | .pageFault => some (block w, .pageFault)
        | .success => runSlice sp stopTime fuel w := by
      intro fuel _
      rw [runSlice, if_pos hlt, hrun]
      simp only [hread]
      cases ret with
      | traceEnds | success => rfl
      | pageFault => rw [hrun', if_pos (Option.some_ne_none p)]; simp only [block, hrun']
    cases ret with
    | traceEnds =>
      refine ⟨w, .traceEnds, w, d, fun fuel hf => ?_, hs, hbound, hleft, .inr (.inl ⟨rfl, rfl, hret.1 rfl⟩)⟩
      obtain ⟨fuel, rfl⟩ := Nat.exists_eq_succ_of_ne_zero (show fuel ≠ 0 by omega)
      exact hloop fuel hf
    | pageFault =>
      refine ⟨block w, .pageFault, w, d, fun fuel hf => ?_, hs, hbound, hleft, .inr (.inr ⟨rfl, rfl⟩)⟩
      obtain ⟨fuel, rfl⟩ := Nat.exists_eq_succ_of_ne_zero (show fuel ≠ 0 by omega)
      exact hloop fuel hf
    | success =>
      have hne : (w.pcb p).memReq ≠ [] := fun hnil => by cases hret.2 hnil
      rcases hshort hne with hfull | hless
      -- cut: the slice is over
      · have hend : w.currentTime = stopTime := by rw [hs.currentTime, hfull, sub_add_self]
        refine ⟨w, .quantaFinishes, w, d, fun fuel hf => ?_, hs, hbound, hleft, .inl ⟨rfl, rfl, hend, hne⟩⟩
        obtain ⟨fuel, rfl⟩ := Nat.exists_eq_succ_of_ne_zero (show fuel ≠ 0 by omega)
        rw [hloop fuel hf]
        exact runSlice_stop sp (by omega) (by rw [hend]; exact UInt64.lt_irrefl stopTime)
      · have hle' : w.currentTime ≤ stopTime := by rw [UInt64.le_iff_toNat_le, hclock]; exact hbound
        obtain ⟨u, pause, v, e, hrest, hends⟩ := ih (k - 1) (by omega) hrun' (by omega) hle' fun _ => hne
        refine ⟨u, pause, v, d + e, fun fuel hf => ?_, hs.trans hends.spent, ?_, hends.left.trans hleft, hends.pause⟩
        · obtain ⟨fuel, rfl⟩ := Nat.exists_eq_succ_of_ne_zero (show fuel ≠ 0 by omega)
          rw [hloop fuel hf]
          exact hrest fuel (by omega)
        · have hb := hends.bound
          rw [hclock] at hb
          rw [UInt64.toNat_add, Nat.mod_eq_of_lt (by have := stopTime.toNat_lt; omega)]
          omega
  · have hend : s.currentTime = stopTime := UInt64.le_antisymm hle (UInt64.not_lt.1 hlt)
    refine ⟨s, .quantaFinishes, s, 0, fun fuel hf => runSlice_stop sp (by omega) hlt, .refl s p, ?_, List.suffix_rfl,
      .inl ⟨rfl, rfl, hend, hstop hlt⟩⟩
    rw [hend]
    exact Nat.le_refl _

/-- What each return value of `processSimulator` says about the lists and the
clock, where `p` was running. -/
def Promises (s : Sim) (p : Nat) (u : Sim) : Pause → Prop
  | .quantaFinishes => u.currentTime.toNat = s.currentTime.toNat + quantum.toNat ∧ (u.pcb p).memReq ≠ [] ∧ SameLists s u
  | .traceEnds => (u.pcb p).memReq = [] ∧ SameLists s u
  | .pageFault =>
    SameLists { s with
      blockedProcess := gllPushBack s.blockedProcess (some p)
      runningProcess := gllPop s.runningProcess } u
  | .noProcess => False
  | .diskInterrupt => u = { s with numberOfDiskInt := s.numberOfDiskInt + 1 }

/-- A slice of `p` from `s` that ended in `u`. -/
structure Bounded (s : Sim) (p : Nat) (u : Sim) (pause : Pause) : Prop where
  entry : s.currentTime.toNat ≤ u.currentTime.toNat
  bound : u.currentTime.toNat ≤ s.currentTime.toNat + quantum.toNat
  userTime : u.userTime = s.userTime + (u.currentTime - s.currentTime)
  process : (u.pcb p).userTime = (s.pcb p).userTime + (u.currentTime - s.currentTime)
  consumed : (u.pcb p).memReq <:+ (s.pcb p).memReq
  others : ∀ q, q ≠ p → u.pcb q = s.pcb q
  ret : Promises s p u pause

theorem Ends.bounded {pause : Pause} (h : Ends s p (s.currentTime + quantum) u pause v d)
    (hrun : gllFirst s.runningProcess = some p) (hq : s.currentTime.toNat + quantum.toNat < 18446744073709551616) :
    Bounded s p u pause := by
  obtain ⟨hs, hbound, hleft, hpause⟩ := h
  have hstop : (s.currentTime + quantum).toNat = s.currentTime.toNat + quantum.toNat := by
    rw [UInt64.toNat_add, Nat.mod_eq_of_lt hq]
  have hclock : v.currentTime.toNat = s.currentTime.toNat + d.toNat := by
    rw [hs.currentTime, UInt64.toNat_add, Nat.mod_eq_of_lt (by omega)]
  have helapsed : v.currentTime - s.currentTime = d := by rw [hs.currentTime, add_sub_self]
  have hfacts : Promises s p u pause → u.currentTime = v.currentTime → u.userTime = v.userTime → u.pcb = v.pcb →
      Bounded s p u pause := by
    intro hret h1 h2 h3
    refine ⟨?_, ?_, ?_, ?_, ?_, ?_, hret⟩
    · rw [h1]
      omega
    · rw [h1]
      omega
    · rw [h1, h2, helapsed, hs.userTime]
    · rw [h1, h3, helapsed, hs.process]
    · rw [h3]
      exact hleft
    · rw [h3]
      exact hs.others
  rcases hpause with ⟨rfl, rfl, hend, hne⟩ | ⟨rfl, rfl, hnil⟩ | ⟨rfl, rfl⟩
  · exact hfacts ⟨by rw [hend, hstop], hne, hs.lists⟩ rfl rfl rfl
  · exact hfacts ⟨hnil, hs.lists⟩ rfl rfl rfl
  · obtain ⟨h1, h2, h3, h4, h5, h6⟩ := hs.lists
    refine hfacts ⟨h1, h2, ?_, ?_, h5, h6⟩ rfl rfl rfl
    · rw [block, h3]
    · rw [block, h3, h4, hrun]

/-- A slice of a running process ends, within the quantum, and what it returns
is true: whatever the trace and the tables hold, as long as the end of the
quantum is a time. -/
theorem slice_bounded (hrun : gllFirst s.runningProcess = some p)
    (hq : s.currentTime.toNat + quantum.toNat < 18446744073709551616) :
    ∃ u pause, (∀ fuel, (s.pcb p).memReq.length + 1 < fuel → processSimulator sp fuel s = some (u, pause)) ∧
      Bounded s p u pause := by
  by_cases hdisk : s.currentTime > s.nextDiskReadTime
  · refine ⟨{ s with numberOfDiskInt := s.numberOfDiskInt + 1 }, .diskInterrupt, fun fuel _ => ?_, ?_⟩
    · rw [processSimulator, hrun, if_pos (Option.some_ne_none p), if_pos hdisk]
    · refine ⟨Nat.le_refl _, Nat.le_add_right _ _, ?_, ?_, List.suffix_rfl, fun _ _ => rfl, rfl⟩
      · rw [UInt64.sub_self, UInt64.add_zero]
      · rw [UInt64.sub_self, UInt64.add_zero]
  · have hlt : s.currentTime < s.currentTime + quantum := by
      have h0 : 0 < quantum.toNat := by decide
      rw [UInt64.lt_iff_toNat_lt, UInt64.toNat_add, Nat.mod_eq_of_lt hq]
      omega
    obtain ⟨u, pause, v, d, hloop, hends⟩ := @runSlice_ends sp p (s.currentTime + quantum) _ s hrun le_rfl
      (UInt64.le_of_lt hlt) fun h => absurd hlt h
    refine ⟨u, pause, fun fuel hf => ?_, hends.bounded hrun hq⟩
    rw [processSimulator, hrun, if_pos (Option.some_ne_none p), if_neg hdisk]
    exact hloop fuel hf

/-- `slice_bounded` for a process with two instructions of one unit each. -/
theorem slice_bounded_two : ∃ s u, simulateStart smallSysParam [process 0 [nonmem, nonmem]] = some s ∧
    processSimulator smallSysParam 4 s = some (u, .traceEnds) ∧ u.currentTime = 2 ∧ Bounded s 0 u .traceEnds := by
  have hstart : (simulateStart smallSysParam [process 0 [nonmem, nonmem]]).any (fun s =>
      gllFirst s.runningProcess = some 0 ∧ s.currentTime = 0 ∧ (s.pcb 0).memReq.length = 2 ∧
        (processSimulator smallSysParam 4 s).any fun r => r.2 = .traceEnds ∧ r.1.currentTime = 2) = true := by
    decide +kernel
  obtain ⟨s, hs, h⟩ := (Option.any_eq_true _ _).1 hstart
  obtain ⟨hrun, h0, hlen, hslice⟩ := of_decide_eq_true h
  obtain ⟨⟨u, pause⟩, hu, hends⟩ := (Option.any_eq_true _ _).1 hslice
  obtain ⟨rfl, hclock⟩ := of_decide_eq_true hends
  obtain ⟨u', pause', hloop, hb⟩ := @slice_bounded smallSysParam s 0 hrun (by rw [h0]; decide)
  cases hu.symm.trans (hloop 4 (by omega))
  exact ⟨s, u, hs, hu, hclock, hb⟩

end Cmpsc473.Paging
