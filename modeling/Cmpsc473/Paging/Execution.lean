import Cmpsc473.Paging.Pointers
/-!
# What becomes of the instructions

An `Account` of a process, folded over the history, says for each instruction
that was removed from `memReq` who removed it and what the process was charged
for it. As long as `diskToMemory` is not called, `readPage` removes each
instruction of the trace in order and for its cost (`executed_once`), and a call
of `diskToMemory` removes one that `readPage` has not.
-/

namespace Cmpsc473.Paging

open Runs Function

variable {sp : SysParam} {s s' u : Sim} {n p : Nat} {pc pc' : Pc} {evs : List Event} {ws : List Process}
  {stopTime : UInt64} {ret : Read} {h : List Event}

/-! ## Accounts -/

/-- An instruction removed, whether by `readPage`, and what was charged for it. -/
structure Removal where
  byReadPage : Bool
  addr : NextMem
  charged : UInt64
  deriving DecidableEq

/-- What was removed so far, and what was charged since. -/
structure Account where
  removed : List Removal
  charged : UInt64
  deriving DecidableEq

/-- An event in the account of `p`. -/
def Account.add (p : Nat) (a : Account) : Event → Account
  | .read q addr t removed _ _ =>
    if q = p then
      match removed, addr with
      | true, some addr => { removed := a.removed ++ [⟨true, addr, a.charged + t⟩], charged := 0 }
      | _, _ => { a with charged := a.charged + t }
    else a
  | .swap q addr => if q = p then { removed := a.removed ++ [⟨false, addr, a.charged⟩], charged := 0 } else a

/-- The account of `p` after a history. -/
def account (p : Nat) (h : List Event) : Account := h.foldl (Account.add p) { removed := [], charged := 0 }

theorem account_concat (p : Nat) (h : List Event) (e : Event) : account p (h ++ [e]) = (account p h).add p e := by
  rw [account, List.foldl_append]
  rfl

/-- What an instruction costs. -/
def cost (sp : SysParam) (addr : NextMem) : UInt64 :=
  match addr.type with
  | .nonmem => sp.nonMemInstLength
  | .mem => memTime sp

/-- What was removed and what is left is the trace, and `readPage` removed each
for its cost. -/
structure InOrder (sp : SysParam) (trace : List NextMem) (q : Pcb) (a : Account) : Prop where
  trace : a.removed.map Removal.addr ++ q.memReq = trace
  each : ∀ r ∈ a.removed, r.byReadPage = true ∧ r.charged = cost sp r.addr

/-- Nothing is charged, or a `NONMEM` in part, and `fracLeft` is the rest. -/
def Owed (sp : SysParam) (q : Pcb) (a : Account) : Prop :=
  (q.fracLeft = 0 ∧ a.charged = 0) ∨
    (0 < q.fracLeft ∧ (∀ addr ∈ q.memReq.head?, addr.type = .nonmem) ∧ a.charged + q.fracLeft = sp.nonMemInstLength)

/-- The tables are as `init` left them. -/
structure Untouched (sp : SysParam) (s : Sim) : Prop where
  tlb : ∀ e ∈ s.tlb, e.memAddress = 0
  pt : ∀ e ∈ s.pt, e.memAddress = 0

/-- The pointers that `readNextMem` wrote through. -/
def Allocated (ws : List Process) : Prop :=
  ∀ w ∈ ws, ∀ addr ∈ w.trace, addr.self ≠ 0 ∧ (addr.type = .mem → addr.addressPtr ≠ 0)

/-! ## A call of `readPage` -/

theorem add_sub_self (a b : UInt64) : a + b - a = b := by rw [UInt64.add_comm, UInt64.add_sub_cancel]

theorem sub_add_self {a b : UInt64} : a + (b - a) = b := by rw [UInt64.add_comm, UInt64.sub_add_cancel]

theorem sub_pos_of_lt {a b : UInt64} (h : a < b) : 0 < b - a := by
  rw [UInt64.lt_iff_toNat_lt, UInt64.toNat_sub_of_le _ _ (UInt64.le_of_lt h), UInt64.toNat_zero]
  have := UInt64.lt_iff_toNat_lt.1 h
  omega

/-- `readPage` charged `t` and left the instruction. -/
theorem account_kept {addr : NextMem} {rest : List NextMem} {a : Account} {t : UInt64}
    (hread : readPage sp s p stopTime = (u, ret)) (hreq : (s.pcb p).memReq = addr :: rest)
    (hleft : (u.pcb p).memReq = addr :: rest) (htime : (u.pcb p).userTime = (s.pcb p).userTime + t) :
    a.add p (readEvent sp s p stopTime) = { a with charged := a.charged + t } := by
  have hlt : ¬rest.length + 1 < rest.length + 1 := Nat.lt_irrefl _
  simp only [readEvent, hread, hreq, hleft, htime, add_sub_self, Account.add, if_true, List.head?_cons, List.length_cons,
    hlt, decide_false]

/-- `readPage` charged `t` and removed the instruction. -/
theorem account_removed {addr : NextMem} {rest : List NextMem} {a : Account} {t : UInt64}
    (hread : readPage sp s p stopTime = (u, ret)) (hreq : (s.pcb p).memReq = addr :: rest)
    (hleft : (u.pcb p).memReq = rest) (htime : (u.pcb p).userTime = (s.pcb p).userTime + t) :
    a.add p (readEvent sp s p stopTime) = { removed := a.removed ++ [⟨true, addr, a.charged + t⟩], charged := 0 } := by
  have hlt : rest.length < rest.length + 1 := Nat.lt_succ_self _
  simp only [readEvent, hread, hreq, hleft, htime, add_sub_self, Account.add, if_true, List.head?_cons, List.length_cons,
    hlt, decide_true]

theorem InOrder.kept {trace : List NextMem} {q q' : Pcb} {a : Account} {t : UInt64} (h : InOrder sp trace q a)
    (hq : q'.memReq = q.memReq) : InOrder sp trace q' { a with charged := t } :=
  ⟨hq ▸ h.trace, h.each⟩

theorem InOrder.removed {trace rest : List NextMem} {q q' : Pcb} {a : Account} {addr : NextMem} {t : UInt64}
    (h : InOrder sp trace q a) (hq : q.memReq = addr :: rest) (hq' : q'.memReq = rest) (ht : t = cost sp addr) :
    InOrder sp trace q' { removed := a.removed ++ [⟨true, addr, t⟩], charged := 0 } := by
  refine ⟨?_, fun r hr => ?_⟩
  · rw [hq', ← h.trace, hq, List.map_append, List.append_assoc]
    rfl
  · rcases List.mem_append.1 hr with hr | hr
    · exact h.each r hr
    · rw [List.mem_singleton.1 hr]
      exact ⟨rfl, ht⟩

/-- Where the tables are untouched, a lookup faults. -/
theorem Looks.faults {addr : NextMem} (h : Looks sp s p addr u ret) (hu : Untouched sp s) (h1 : addr.self ≠ 0)
    (h2 : addr.addressPtr ≠ 0) : ret = .pageFault := by
  cases h with
  | hit hin =>
    obtain ⟨e, he, hself⟩ := Option.map_eq_some_iff.1 hin.2
    rw [hu.tlb e (List.mem_of_head? he), UInt8.toNat_zero] at hself
    exact absurd hself.symm h1
  | ptHit _ hpt =>
    obtain ⟨e, he, hself⟩ := Option.map_eq_some_iff.1 hpt
    rw [hu.pt e (List.mem_of_head? he)] at hself
    exact absurd hself.symm h2
  | fault => rfl

/-- What is charged and what is left make the length of a `NONMEM`. -/
theorem Owed.add {q : Pcb} {a : Account} {timeNeeded : UInt64} (h : Owed sp q a)
    (hneed : timeNeeded = if q.fracLeft > 0 then q.fracLeft else sp.nonMemInstLength) :
    a.charged + timeNeeded = sp.nonMemInstLength := by
  rcases h with ⟨hfrac, hcharged⟩ | ⟨hfrac, -, hsum⟩
  · rw [hneed, hfrac, if_neg (UInt64.lt_irrefl 0), hcharged, UInt64.zero_add]
  · rw [hneed, if_pos hfrac, hsum]

/-- Nothing is charged for a `MEM` yet. -/
theorem Owed.of_mem {q : Pcb} {a : Account} {addr : NextMem} {rest : List NextMem} (h : Owed sp q a)
    (hreq : q.memReq = addr :: rest) (htype : addr.type = .mem) : q.fracLeft = 0 ∧ a.charged = 0 := by
  rcases h with h | ⟨-, hhead, -⟩
  · exact h
  · have := hhead addr (by rw [hreq]; rfl)
    rw [htype] at this
    cases this

/-- What `chargeMem` does: it charges some time and leaves the instruction, or
charges the whole time and removes it. -/
theorem chargeMem_facts (sp : SysParam) (s : Sim) (p : Nat) (t : UInt64) :
    (chargeMem sp s p t).tlb = s.tlb ∧ (chargeMem sp s p t).pt = s.pt ∧ ∃ d,
      ((chargeMem sp s p t).pcb p).userTime = (s.pcb p).userTime + d ∧
      (((chargeMem sp s p t).pcb p).memReq = (s.pcb p).memReq ∨
        d = memTime sp ∧ ((chargeMem sp s p t).pcb p).memReq = (s.pcb p).memReq.tail ∧
          ((chargeMem sp s p t).pcb p).fracLeft = (s.pcb p).fracLeft) := by
  obtain ⟨-, hc⟩ | ⟨-, hc⟩ := chargeMem_cases sp s p t <;> rw [hc]
  · refine ⟨rfl, rfl, t, ?_, .inl ?_⟩
    · rw [modify_pcb, charge_pcb]
    · rw [modify_pcb, charge_pcb]
  · refine ⟨rfl, rfl, memTime sp, ?_, .inr ⟨rfl, ?_, ?_⟩⟩
    · rw [charge_pcb, modify_pcb]
      rfl
    · rw [charge_pcb, modify_pcb]
      rfl
    · rw [charge_pcb, modify_pcb]
      rfl

/-- What `chargeNonmem` does: it charges what time there is and leaves the
instruction with the rest, or charges what is needed and removes it. -/
theorem chargeNonmem_facts (sp : SysParam) (s : Sim) (p : Nat) (t : UInt64) :
    (chargeNonmem sp s p t).tlb = s.tlb ∧ (chargeNonmem sp s p t).pt = s.pt ∧ ∃ timeNeeded,
      (timeNeeded = if (s.pcb p).fracLeft > 0 then (s.pcb p).fracLeft else sp.nonMemInstLength) ∧
      (t < timeNeeded ∧ ((chargeNonmem sp s p t).pcb p).userTime = (s.pcb p).userTime + t ∧
          ((chargeNonmem sp s p t).pcb p).memReq = (s.pcb p).memReq ∧
          ((chargeNonmem sp s p t).pcb p).fracLeft = timeNeeded - t ∨
        ((chargeNonmem sp s p t).pcb p).userTime = (s.pcb p).userTime + timeNeeded ∧
          ((chargeNonmem sp s p t).pcb p).memReq = (s.pcb p).memReq.tail ∧
          ((chargeNonmem sp s p t).pcb p).fracLeft = 0) := by
  obtain ⟨timeNeeded, hneed, ⟨hlt, hc⟩ | ⟨-, hc⟩⟩ := chargeNonmem_cases sp s p t <;> rw [hc]
  · refine ⟨rfl, rfl, timeNeeded, hneed, .inl ⟨hlt, ?_, ?_, ?_⟩⟩
    · rw [modify_pcb, charge_pcb]
    · rw [modify_pcb, charge_pcb]
    · rw [modify_pcb]
  · refine ⟨rfl, rfl, timeNeeded, hneed, .inr ⟨?_, ?_, ?_⟩⟩
    · rw [modify_pcb, charge_pcb, modify_pcb]
      rfl
    · rw [modify_pcb, charge_pcb, modify_pcb]
      rfl
    · rw [modify_pcb]

theorem Untouched.congr (h : Untouched sp s) (ht : u.tlb = s.tlb) (hp : u.pt = s.pt) : Untouched sp u :=
  ⟨ht ▸ h.tlb, hp ▸ h.pt⟩

/-- What `readPage` does to the account of the process it runs: it faults, or
what is owed stays in order. At the end of the trace nothing is left. -/
theorem read_account {trace : List NextMem} {a : Account} (hread : readPage sp s p stopTime = (u, ret))
    (ha : InOrder sp trace (s.pcb p) a) (ho : Owed sp (s.pcb p) a) (hu : Untouched sp s)
    (hptr : ∀ addr ∈ trace, addr.self ≠ 0 ∧ (addr.type = .mem → addr.addressPtr ≠ 0)) :
    InOrder sp trace (u.pcb p) (a.add p (readEvent sp s p stopTime)) ∧ Untouched sp u ∧
      (ret = .pageFault ∨ Owed sp (u.pcb p) (a.add p (readEvent sp s p stopTime))) ∧
      (ret = .traceEnds → (u.pcb p).memReq = []) := by
  cases readPage_reads hread with
  | nothing hnil =>
    have hadd : a.add p (readEvent sp s p stopTime) = a := by
      simp only [readEvent, hread, hnil, Account.add, if_true, List.head?_nil, List.length_nil, Nat.lt_irrefl,
        decide_false, UInt64.sub_self, UInt64.add_zero]
    rw [hadd]
    exact ⟨ha, hu, .inr ho, fun _ => hnil⟩
  | @nonmem addr rest _ hreq htype hret =>
    have hends : ret = .traceEnds → ((chargeNonmem sp s p (stopTime - s.currentTime)).pcb p).memReq = [] := by
      intro he
      rw [he] at hret
      by_contra hne
      rw [if_neg hne] at hret
      cases hret
    obtain ⟨h1, h2, timeNeeded, hneed, ⟨hlt, htime, hleft, hfrac⟩ | ⟨htime, hleft, hfrac⟩⟩ :=
      chargeNonmem_facts sp s p (stopTime - s.currentTime)
    · -- charged in part: the instruction stays, and the rest of it is owed
      rw [account_kept hread hreq (hleft.trans hreq) htime]
      refine ⟨ha.kept hleft, hu.congr h1 h2, .inr (.inr ⟨?_, ?_, ?_⟩), hends⟩
      · rw [hfrac]
        exact sub_pos_of_lt hlt
      · rw [hleft, hreq]
        rintro _ ⟨⟩
        exact htype
      · rw [hfrac, UInt64.add_assoc, sub_add_self]
        exact ho.add hneed
    · -- charged in full, and removed
      rw [hreq, List.tail_cons] at hleft
      rw [account_removed hread hreq hleft htime]
      refine ⟨ha.removed hreq hleft ?_, hu.congr h1 h2, .inr (.inl ⟨hfrac, rfl⟩), hends⟩
      rw [cost, htype]
      exact ho.add hneed
  | @last addr rest hreq htype hnil =>
    obtain ⟨h1, h2, d, htime, hleft | ⟨rfl, hleft, hfrac⟩⟩ := chargeMem_facts sp s p (stopTime - s.currentTime)
    · rw [hnil, hreq] at hleft
      cases hleft
    · obtain ⟨hzero, hcharged⟩ := ho.of_mem hreq htype
      rw [hreq, List.tail_cons] at hleft
      rw [account_removed hread hreq hleft htime]
      refine ⟨ha.removed hreq hleft ?_, hu.congr h1 h2, .inr (.inl ⟨hfrac.trans hzero, rfl⟩), fun _ => hnil⟩
      rw [hcharged, UInt64.zero_add, cost, htype]
  | @looked addr rest _ _ hreq htype hne hl =>
    obtain ⟨h1, h2, d, htime, hleft⟩ := chargeMem_facts sp s p (stopTime - s.currentTime)
    have hlook := lookup_looks hl
    have hsame := hlook.sameWork
    have hmem : addr ∈ trace := by
      rw [← ha.trace, hreq]
      exact List.mem_append_right _ List.mem_cons_self
    have hun : Untouched sp (chargeMem sp s p (stopTime - s.currentTime)) := hu.congr h1 h2
    have hfault : ret = .pageFault := hlook.faults hun (hptr addr hmem).1 ((hptr addr hmem).2 htype)
    refine ⟨?_, hun.congr hsame.tlb hsame.pt, .inl hfault, fun he => by rw [hfault] at he; cases he⟩
    rw [← hsame.userTime] at htime
    rw [← hsame.memReq] at hleft
    rcases hleft with hleft | ⟨rfl, hleft, -⟩
    · rw [account_kept hread hreq (hleft.trans hreq) htime]
      exact ha.kept hleft
    · rw [hreq, List.tail_cons] at hleft
      rw [account_removed hread hreq hleft htime]
      apply ha.removed hreq hleft
      rw [(ho.of_mem hreq htype).2, UInt64.zero_add, cost, htype]

/-! ## Runs without `diskToMemory` -/

/-- What runs has arrived and is not finished. -/
theorem Inv.running_arrived (hi : Inv n s) (hp : gllFirst s.runningProcess = some p) :
    p ∉ held s.processList ∧ p ∉ s.finished := by
  refine ⟨fun hq => ?_, (hi.live (unfinished_of_running hp)).2⟩
  have hnd := hi.nodup.1
  rw [Sim.unfinished, Multiset.nodup_add] at hnd
  have hlists := hnd.1
  rw [Multiset.nodup_add] at hlists
  apply Multiset.disjoint_left.1 hlists.2.2 (Multiset.mem_add.2 (.inl hq))
  rw [held_first hp]
  exact Multiset.mem_add.2 (.inl (Multiset.mem_singleton_self p))

/-- What waits to arrive waits once, and is not finished. -/
theorem Inv.waiting_once (hi : Inv n s) (hp : gllFirst s.processList = some p) :
    p ∉ held (gllPop s.processList) ∧ p ∉ s.finished := by
  have hnd := hi.nodup.1
  rw [Sim.unfinished, Multiset.nodup_add] at hnd
  have hlists := hnd.1
  rw [Multiset.nodup_add, Multiset.nodup_add, held_first hp, Multiset.nodup_add] at hlists
  refine ⟨Multiset.disjoint_left.1 hlists.1.1.2.2 (Multiset.mem_singleton_self p), (hi.live ?_).2⟩
  rw [Sim.unfinished, held_first hp]
  simp

/-- Where the simulator is with each trace, as long as `diskToMemory` is not
called: the processes that wait to arrive have not begun, the others are in
order, and those that are not blocked owe the rest of one `NONMEM` at most. -/
structure Executing (sp : SysParam) (ws : List Process) (s : Sim) (h : List Event) : Prop where
  tables : Untouched sp s
  waiting : ∀ p ∈ held s.processList, (s.pcb p).memReq = [] ∧ (s.pcb p).fracLeft = 0 ∧
    (s.pcb p).memoryFile = (pcbs ws p).memoryFile ∧ account p h = { removed := [], charged := 0 }
  order : ∀ p, p ∉ held s.processList → InOrder sp (pcbs ws p).memoryFile (s.pcb p) (account p h)
  owed : ∀ p, p ∉ held s.processList → p ∉ held s.blockedProcess → Owed sp (s.pcb p) (account p h)
  done : ∀ p ∈ s.finished, (s.pcb p).memReq = []

theorem Executing.congr (he : Executing sp ws s h) (h1 : s'.tlb = s.tlb) (h2 : s'.pt = s.pt)
    (h3 : s'.processList = s.processList) (h4 : s'.blockedProcess = s.blockedProcess) (h5 : s'.finished = s.finished)
    (h6 : s'.pcb = s.pcb) : Executing sp ws s' h := by
  obtain ⟨⟨ht1, ht2⟩, hw, ho, hd, hf⟩ := he
  constructor
  · exact ⟨h1 ▸ ht1, h2 ▸ ht2⟩
  · rwa [h3, h6]
  · rwa [h3, h6]
  · rwa [h3, h4, h6]
  · rwa [h5, h6]

theorem account_other {q : Nat} (hq : p ≠ q) (a : Account) : a.add q (readEvent sp s p stopTime) = a := by
  simp only [readEvent, Account.add, hq, if_false]

theorem pcbs_allocated (hptr : Allocated ws) (p : Nat) :
    ∀ addr ∈ (pcbs ws p).memoryFile, addr.self ≠ 0 ∧ (addr.type = .mem → addr.addressPtr ≠ 0) := by
  intro addr hmem
  rw [pcbs, List.getD_eq_getElem?_getD] at hmem
  cases hw : ws[p]? with
  | none =>
    rw [hw] at hmem
    cases hmem
  | some w =>
    rw [hw] at hmem
    exact hptr w (List.mem_of_getElem? hw) addr hmem

/-- After `readPage` all is as before, but the process it ran owes nothing only
if it did not fault. -/
theorem Executing.read (he : Executing sp ws s h) (hi : Inv n s) (hptr : Allocated ws)
    (hp : gllFirst s.runningProcess = some p) (hread : readPage sp s p stopTime = (u, ret)) :
    (ret = .pageFault ∨ Executing sp ws u (h ++ [readEvent sp s p stopTime])) ∧
      (ret = .pageFault → Executing sp ws (block u) (h ++ [readEvent sp s p stopTime])) ∧
      (ret = .traceEnds → (u.pcb p).memReq = []) := by
  obtain ⟨hw, hf⟩ := hi.running_arrived hp
  obtain ⟨horder, htables, howed, hends⟩ :=
    read_account hread (he.order p hw) (he.owed p hw (hi.running_not_blocked hp)) he.tables (pcbs_allocated hptr p)
  obtain ⟨-, hc, hp'⟩ := readPage_good hi hp hread
  have hlists := hc.lists
  have hacc : ∀ q, q ≠ p → account q (h ++ [readEvent sp s p stopTime]) = account q h := fun q hq => by
    rw [account_concat, account_other hq.symm]
  have hwaiting : ∀ q ∈ held s.processList, (u.pcb q).memReq = [] ∧ (u.pcb q).fracLeft = 0 ∧
      (u.pcb q).memoryFile = (pcbs ws q).memoryFile ∧
      account q (h ++ [readEvent sp s p stopTime]) = { removed := [], charged := 0 } := by
    intro q hq
    have hne : q ≠ p := fun e => hw (e ▸ hq)
    rw [hc.others q hne, hacc q hne]
    exact he.waiting q hq
  have horders : ∀ q, q ∉ held s.processList →
      InOrder sp (pcbs ws q).memoryFile (u.pcb q) (account q (h ++ [readEvent sp s p stopTime])) := by
    intro q hq
    by_cases hne : q = p
    · rw [hne, account_concat]
      exact horder
    · rw [hc.others q hne, hacc q hne]
      exact he.order q hq
  have howes : ∀ q, q ∉ held s.processList → q ∉ held s.blockedProcess → q ≠ p →
      Owed sp (u.pcb q) (account q (h ++ [readEvent sp s p stopTime])) := by
    intro q hq hb hne
    rw [hc.others q hne, hacc q hne]
    exact he.owed q hq hb
  have hdone : ∀ q ∈ s.finished, (u.pcb q).memReq = [] := by
    intro q hq
    rw [hc.others q fun e => hf (e ▸ hq)]
    exact he.done q hq
  refine ⟨?_, fun _ => ?_, hends⟩
  · rcases howed with hfault | howed
    · exact .inl hfault
    · refine .inr ⟨htables, hlists.processList ▸ hwaiting, hlists.processList ▸ horders, ?_, hlists.finished ▸ hdone⟩
      rw [hlists.processList, hlists.blockedProcess]
      intro q hq hb
      by_cases hne : q = p
      · rw [hne, account_concat]
        exact howed
      · exact howes q hq hb hne
  · have hblocked : held (block u).blockedProcess = held s.blockedProcess + {p} := by
      show held (gllPushBack u.blockedProcess (gllFirst u.runningProcess)) = _
      rw [hp', held_pushBack, hlists.blockedProcess]
    refine ⟨⟨htables.tlb, htables.pt⟩, ?_, ?_, ?_, ?_⟩
    · show ∀ q ∈ held u.processList, _
      rw [hlists.processList]
      exact hwaiting
    · show ∀ q, q ∉ held u.processList → _
      rw [hlists.processList]
      exact horders
    · show ∀ q, q ∉ held u.processList → _
      rw [hlists.processList, hblocked]
      intro q hq hb
      rw [Multiset.mem_add, Multiset.mem_singleton, not_or] at hb
      exact howes q hq hb.1 hb.2
    · show ∀ q ∈ u.finished, _
      rw [hlists.finished]
      exact hdone

/-- A process that arrives starts on its trace. -/
theorem Executing.makeReady (he : Executing sp ws s h) (hi : Inv n s) (hp : gllFirst s.processList = some p) :
    Executing sp ws (makeReady s p) h := by
  obtain ⟨hw, hf⟩ := hi.waiting_once hp
  have hheld := held_first hp
  obtain ⟨hreq, hfrac, hfile, hacc⟩ := he.waiting p (by rw [hheld]; simp)
  have hother : ∀ q, q ≠ p → (Paging.makeReady s p).pcb q = s.pcb q := fun q hq => update_of_ne hq _ _
  have hself : (Paging.makeReady s p).pcb p = { s.pcb p with memReq := (pcbs ws p).memoryFile } := by
    simp only [Paging.makeReady, modify_pcb, hreq, hfile, List.nil_append]
  have hout : ∀ q, q ≠ p → q ∉ held (gllPop s.processList) → q ∉ held s.processList := by
    intro q hne hq
    rw [hheld, Multiset.mem_add, Multiset.mem_singleton, not_or]
    exact ⟨hne, hq⟩
  refine ⟨⟨he.tables.tlb, he.tables.pt⟩, fun q hq => ?_, fun q hq => ?_, fun q hq hb => ?_, fun q hq => ?_⟩
  · have hq : q ∈ held (gllPop s.processList) := hq
    rw [hother q fun e => hw (e ▸ hq)]
    exact he.waiting q (by rw [hheld]; exact Multiset.mem_add.2 (.inr hq))
  · have hq : q ∉ held (gllPop s.processList) := hq
    by_cases hne : q = p
    · rw [hne, hself, hacc]
      exact ⟨rfl, fun r hr => absurd hr List.not_mem_nil⟩
    · rw [hother q hne]
      exact he.order q (hout q hne hq)
  · have hq : q ∉ held (gllPop s.processList) := hq
    by_cases hne : q = p
    · rw [hne, hself, hacc]
      exact .inl ⟨hfrac, rfl⟩
    · rw [hother q hne]
      exact he.owed q (hout q hne hq) hb
  · have hq : q ∈ s.finished := hq
    rw [hother q fun e => hf (e ▸ hq)]
    exact he.done q hq

/-- The processes that have arrived start on their traces, and what runs is not
one of them. -/
theorem transferred_executing (he : Executing sp ws s h) (hi : Inv n s) :
    Executing sp ws (transfer s) h ∧ ∀ q ∉ held s.processList, (transfer s).pcb q = s.pcb q := by
  obtain ⟨-, h1, -, h2⟩ : Inv n (transfer s) ∧ Executing sp ws (transfer s) h ∧
      (∀ q ∈ held (transfer s).processList, q ∈ held s.processList) ∧
      ∀ q ∉ held s.processList, (transfer s).pcb q = s.pcb q := by
    apply transfer_keeps fun u => Inv n u ∧ Executing sp ws u h ∧ (∀ q ∈ held u.processList, q ∈ held s.processList) ∧
      ∀ q ∉ held s.processList, u.pcb q = s.pcb q
    · rintro u p hp ⟨hu, heu, hsub, hpcb⟩
      have hheld := held_first hp
      have hin : p ∈ held s.processList := hsub p (by rw [hheld]; simp)
      refine ⟨hu.makeReady hp, heu.makeReady hu hp, fun q hq => hsub q ?_, fun q hq => ?_⟩
      · rw [hheld]
        exact Multiset.mem_add.2 (.inr hq)
      · have hne : q ≠ p := fun e => hq (e ▸ hin)
        exact (update_of_ne hne _ _).trans (hpcb q hq)
    · exact ⟨hi, he, fun _ hq => hq, fun _ _ => rfl⟩
  exact ⟨h1, h2⟩

/-- What runs has no instruction left when it is about to be cleaned up. -/
def Pc.Ended (s : Sim) : Pc → Prop
  | .paused .traceEnds | .admitted .traceEnds => ∀ p, gllFirst s.runningProcess = some p → (s.pcb p).memReq = []
  | _ => True

theorem transfer_executing {simPause : Pause} (he : Executing sp ws s h) (hi : Inv n s)
    (hend : (Pc.paused simPause).Ended s) :
    Executing sp ws (transfer (newQuanta s)) h ∧ (Pc.admitted simPause).Ended (transfer (newQuanta s)) := by
  have hsame : SameLists s (newQuanta s) ∧ (newQuanta s).pcb = s.pcb ∧ Executing sp ws (newQuanta s) h := by
    unfold newQuanta
    split <;> exact ⟨⟨rfl, rfl, rfl, rfl, rfl, rfl⟩, rfl, he.congr rfl rfl rfl rfl rfl rfl⟩
  obtain ⟨hlists, hpcb, hnew⟩ := hsame
  obtain ⟨h1, h2⟩ := transferred_executing hnew (newQuanta_inv hi).1
  refine ⟨h1, ?_⟩
  cases simPause with
  | traceEnds =>
    intro p hp
    have hp : gllFirst s.runningProcess = some p := by rwa [(newQuanta_transfer hi).2] at hp
    have hw : p ∉ held (newQuanta s).processList := hlists.processList ▸ (hi.running_arrived hp).1
    rw [h2 p hw, hpcb]
    exact hend p hp
  | _ => trivial

theorem effect_executing (hptr : Allocated ws) (hi : Inv n s) (he : Executing sp ws s h) (hend : pc.Ended s)
    (hd : ¬CallsDisk s pc) (heff : Effect sp s pc pc' s' evs) : Executing sp ws s' (h ++ evs) ∧ pc'.Ended s' := by
  cases heff with
  | started | noProcess | diskInterrupt | slice | quantaFinishes | setDisk | noneRan | again | allDone | awaitDisk
  | jump | catchUp | stay =>
    rw [List.append_nil]
    exact ⟨he.congr rfl rfl rfl rfl rfl rfl, trivial⟩
  | @traceEnds stopTime p u _ hp hread =>
    obtain ⟨h1, -, h3⟩ := he.read hi hptr hp hread
    obtain ⟨-, -, hp'⟩ := readPage_good hi hp hread
    refine ⟨h1.resolve_left (nomatch ·), fun q hq => ?_⟩
    rw [hp'] at hq
    cases hq
    exact h3 rfl
  | pageFault _ hp hread => exact ⟨(he.read hi hptr hp hread).2.1 rfl, trivial⟩
  | success _ hp hread => exact ⟨(he.read hi hptr hp hread).1.resolve_left (nomatch ·), trivial⟩
  | transferred =>
    rw [List.append_nil]
    exact transfer_executing he hi hend
  | swapIn => exact absurd trivial hd
  | @cleanUp p u hp hu =>
    rw [List.append_nil]
    unfold cleanUpProcess at hu
    split at hu <;> cases hu
    refine ⟨⟨⟨he.tables.tlb, he.tables.pt⟩, he.waiting, he.order, he.owed, fun q hq => ?_⟩, trivial⟩
    rcases List.mem_append.1 hq with hq | hq
    · exact he.done q hq
    · rw [List.mem_singleton.1 hq]
      exact hend p hp
  | timer =>
    rw [List.append_nil]
    unfold requeue
    split <;> exact ⟨he.congr rfl rfl rfl rfl rfl rfl, trivial⟩
  | schedule =>
    rw [List.append_nil]
    unfold schedulingRR
    dsimp only
    split <;> exact ⟨he.congr rfl rfl rfl rfl rfl rfl, trivial⟩
  | awaitArrival _ _ _ hp =>
    rw [List.append_nil]
    exact ⟨he.makeReady hi hp, trivial⟩
  | @arrive p twice _ =>
    rw [List.append_nil]
    cases twice <;> exact ⟨he.congr rfl rfl rfl rfl rfl rfl, trivial⟩
  | readDisk hge => exact absurd hge hd

theorem begin_executing (sp : SysParam) (ws : List Process) :
    Executing sp ws (begin sp ws).sim (begin sp ws).history := by
  refine (transferred_executing ⟨⟨?_, ?_⟩, ?_, ?_, ?_, ?_⟩ (initState_inv sp ws)).1
  · intro e he
    rw [List.eq_of_mem_replicate he]
  · intro e he
    rw [List.eq_of_mem_replicate he]
  · exact fun p _ => ⟨rfl, rfl, rfl, rfl⟩
  · intro p hp
    refine ⟨?_, fun r hr => absurd hr List.not_mem_nil⟩
    -- there is no such process, and no trace
    have hge : ws.length ≤ p := by
      by_contra hlt
      apply hp
      have hmem : p ∈ List.range ws.length := List.mem_range.2 (Nat.not_le.1 hlt)
      simpa [initState, held] using hmem
    rw [pcbs, List.getD_eq_getElem?_getD, List.getElem?_eq_none hge]
    show (pcbs ws p).memReq = []
    rfl
  · exact fun p _ _ => .inl ⟨rfl, rfl⟩
  · intro p hp
    cases hp

/-! ## Every instruction is executed once -/

/-- `readPage` removed all that was removed, each instruction for its cost and
in the order of the trace, and all of a trace when the process is cleaned up.
`diskToMemory` worked on instructions that `readPage` had faulted on. -/
structure ExecutedOnce (sp : SysParam) (ws : List Process) (c : Cfg) : Prop where
  byReadPage : ∀ p, ∀ r ∈ (account p c.history).removed, r.byReadPage = true ∧ r.charged = cost sp r.addr
  order : ∀ p, (account p c.history).removed.map Removal.addr <+: (pcbs ws p).memoryFile
  all : ∀ p ∈ c.sim.finished, (account p c.history).removed.map Removal.addr = (pcbs ws p).memoryFile
  resident : ∀ p addr, .swap p addr ∈ c.history →
    ∃ t removed missed, .read p (some addr) t removed missed .pageFault ∈ c.history

theorem Executing.executedOnce {c : Cfg} (he : Executing sp ws c.sim c.history) (hi : Inv n c.sim)
    (hswap : ∀ p addr, .swap p addr ∉ c.history) : ExecutedOnce sp ws c := by
  have hother : ∀ p,
      p ∈ held c.sim.processList ∨ InOrder sp (pcbs ws p).memoryFile (c.sim.pcb p) (account p c.history) :=
    fun p => (em _).imp_right (he.order p)
  refine ⟨fun p => ?_, fun p => ?_, fun p hp => ?_, fun p addr hmem => absurd hmem (hswap p addr)⟩
  · rcases hother p with hw | ho
    · rw [(he.waiting p hw).2.2.2]
      exact fun r hr => absurd hr List.not_mem_nil
    · exact ho.each
  · rcases hother p with hw | ho
    · rw [(he.waiting p hw).2.2.2]
      exact List.nil_prefix
    · exact ⟨_, ho.trace⟩
  · have hw : p ∉ held c.sim.processList := fun hw =>
      (hi.live (by rw [Sim.unfinished]; simp [hw])).2 hp
    have htrace := (he.order p hw).trace
    rwa [he.done p hp, List.append_nil] at htrace

/-- A call of `diskToMemory` removes an instruction. -/
theorem account_swap {u : Sim} (hd : diskToMemory sp s = some u) (h : List Event) :
    ∃ p, ∃ r ∈ (account p (h ++ swapEvent s)).removed, r.byReadPage = false := by
  obtain ⟨p, addr, rest, hp, hreq, -⟩ := diskToMemory_cases hd
  have hev : swapEvent s = [.swap p addr] := by
    simp only [swapEvent, hp, hreq, List.head?_cons, Option.toList_some, List.map_cons, List.map_nil]
  refine ⟨p, ⟨false, addr, (account p h).charged⟩, ?_, rfl⟩
  rw [hev, account_concat, Account.add, if_pos rfl]
  exact List.mem_append_right _ List.mem_cons_self

theorem Effect.disk (heff : Effect sp s pc pc' s' evs) (hd : CallsDisk s pc) :
    ∃ u, diskToMemory sp s = some u ∧ evs = swapEvent s := by
  cases heff with
  | swapIn hu => exact ⟨_, hu, rfl⟩
  | readDisk _ hu => exact ⟨_, hu, rfl⟩
  | catchUp hlt => exact absurd hlt hd
  | _ => exact hd.elim

/-- The other steps record no call of `diskToMemory`. -/
theorem Effect.noSwap (heff : Effect sp s pc pc' s' evs) (hd : ¬CallsDisk s pc) (p : Nat) (addr : NextMem) :
    .swap p addr ∉ evs := by
  cases heff with
  | swapIn => exact absurd trivial hd
  | readDisk hge => exact absurd hge hd
  | traceEnds | pageFault | success => exact fun hmem => nomatch List.mem_singleton.1 hmem
  | _ => exact List.not_mem_nil

theorem reach_executedOnce (hptr : Allocated ws) {c : Cfg}
    (h : Reach (tick sp) (fun c _ => ¬CallsDisk c.sim c.pc) (begin sp ws) c) : ExecutedOnce sp ws c := by
  obtain ⟨hgood, he, -, hswap⟩ : Good ws.length c ∧ Executing sp ws c.sim c.history ∧ c.pc.Ended c.sim ∧
      ∀ p addr, .swap p addr ∉ c.history := by
    refine Reach.inv (fun c => Good ws.length c ∧ Executing sp ws c.sim c.history ∧ c.pc.Ended c.sim ∧
        ∀ p addr, .swap p addr ∉ c.history)
      (fun c _ c' hi hd ht => ?_) h ⟨begin_good sp ws, begin_executing sp ws, trivial, fun _ _ => List.not_mem_nil⟩
    obtain ⟨hgood, he, hend, hswap⟩ := hi
    obtain ⟨evs, heff, hevs⟩ := tick_effect ht
    obtain ⟨he', hend'⟩ := effect_executing hptr hgood.inv he hend hd heff
    rw [hevs]
    refine ⟨tick_good hgood ht, he', hend', fun p addr hmem => ?_⟩
    rcases List.mem_append.1 hmem with hmem | hmem
    · exact hswap p addr hmem
    · exact heff.noSwap hd p addr hmem
  exact he.executedOnce hgood.inv hswap

/-- Along a run, `readPage` executes every instruction once if and only if no
step calls `diskToMemory`. -/
theorem executed_once (hptr : Allocated ws) {labels : List Unit} :
    (∀ t l u, Takes (tick sp) (begin sp ws) labels t l u → ExecutedOnce sp ws u) ↔
      ∀ t l u, Takes (tick sp) (begin sp ws) labels t l u → ¬CallsDisk t.sim t.pc := by
  constructor
  · intro hall t l u ht hd
    obtain ⟨-, -, -, -, hstep⟩ := id ht
    obtain ⟨evs, heff, hevs⟩ := tick_effect hstep
    obtain ⟨v, hv, rfl⟩ := heff.disk hd
    obtain ⟨p, r, hr, hfalse⟩ := account_swap hv t.history
    rw [← hevs] at hr
    have htrue := ((hall t l u ht).byReadPage p r hr).1
    rw [hfalse] at htrue
    cases htrue
  · intro hall t l u ht
    obtain ⟨before, hb, hpre⟩ := ht.prefix
    have hreach := reach_of_takes hb fun v l' w hv => hall v l' w (hpre v l' w hv)
    obtain ⟨-, -, -, -, hstep⟩ := id ht
    exact reach_executedOnce hptr (Reach.tail hreach (hall t l u ht) hstep)

/-- `executed_once` for two processes that are cleaned up. -/
theorem executed_once_two :
    (exec (tick smallSysParam) (begin smallSysParam [process 0 [nonmem, mem], process 0 [nonmem]])
      (List.replicate 17 ())).any (fun c => c.sim.finished = [0, 1]) = true ∧
    ∀ t l u, Takes (tick smallSysParam) (begin smallSysParam [process 0 [nonmem, mem], process 0 [nonmem]])
      (List.replicate 17 ()) t l u → ExecutedOnce smallSysParam [process 0 [nonmem, mem], process 0 [nonmem]] u := by
  have hptr : Allocated [process 0 [nonmem, mem], process 0 [nonmem]] := by
    unfold Allocated
    decide
  have hok : along (tick smallSysParam) (fun c _ => ¬CallsDisk c.sim c.pc)
      (begin smallSysParam [process 0 [nonmem, mem], process 0 [nonmem]]) (List.replicate 17 ()) = true := by
    decide +kernel
  exact ⟨by decide +kernel, (executed_once hptr).2 (takes_along hok)⟩

/-- A process whose second `MEM` is never executed: `diskToMemory` removes it,
and the process is cleaned up. -/
theorem executed_once_fails : ∃ c,
    Reach (tick fullSysParam) Any (begin fullSysParam [process 0 [nonmem, mem, mem]]) c ∧
    c.sim.finished = [0] ∧ (account 0 c.history).removed.map Removal.byReadPage = [true, true, false] ∧
    ¬ExecutedOnce fullSysParam [process 0 [nonmem, mem, mem]] c := by
  have hrun : (exec (tick fullSysParam) (begin fullSysParam [process 0 [nonmem, mem, mem]]) (List.replicate 18 ())).any
      (fun c => c.sim.finished = [0] ∧ (account 0 c.history).removed.map Removal.byReadPage = [true, true, false]) = true := by
    decide +kernel
  obtain ⟨c, hc, h⟩ := (Option.any_eq_true _ _).1 hrun
  obtain ⟨hfinished, hremoved⟩ := of_decide_eq_true h
  refine ⟨c, exec_reach hc fun _ _ _ => trivial, hfinished, hremoved, fun honce => ?_⟩
  have hmem : false ∈ (account 0 c.history).removed.map Removal.byReadPage := by
    rw [hremoved]
    decide
  obtain ⟨r, hr, hfalse⟩ := List.mem_map.1 hmem
  rw [(honce.byReadPage 0 r hr).1] at hfalse
  cases hfalse

end Cmpsc473.Paging
