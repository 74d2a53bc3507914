import Cmpsc473.Paging.Statistics
import Cmpsc473.Paging.Slice
/-!
# What a lookup finds and counts

An entry holds an address if it is not empty and holds what `diskToMemory`
stores for it: the low byte of a pointer in the TLB, the parsed number in the
page table. `readPage` compares the first entry of each table only, whether it
is empty or not, and counts a miss for each entry of the TLB. `lookup_exact`
says when that comes to the same.
-/

namespace Cmpsc473.Paging

open Runs Function

variable {sp : SysParam} {s s' u : Sim} {p : Nat} {pc pc' : Pc} {evs : List Event} {ws : List Process}
  {stopTime : UInt64} {ret : Read} {addr : NextMem} {rest : List NextMem}

/-- What `diskToMemory` stores in the TLB for an address. -/
def tlbCode (addr : NextMem) : UInt8 := UInt8.ofNat addr.self

/-- What `diskToMemory` stores in the page table for an address. -/
def ptCode (addr : NextMem) : UInt64 := UInt64.ofInt (toInt (strtol16 addr.address))

/-- A non-empty TLB entry holds the address. -/
def TlbHolds (s : Sim) (addr : NextMem) : Prop := ∃ e ∈ s.tlb, e.empty = false ∧ e.memAddress = tlbCode addr

/-- A non-empty page table entry holds the address. -/
def PtHolds (s : Sim) (addr : NextMem) : Prop := ∃ e ∈ s.pt, e.empty = false ∧ e.memAddress = ptCode addr

instance (s : Sim) (addr : NextMem) : Decidable (TlbHolds s addr) :=
  inferInstanceAs (Decidable (∃ e ∈ s.tlb, e.empty = false ∧ e.memAddress = tlbCode addr))

instance (s : Sim) (addr : NextMem) : Decidable (PtHolds s addr) :=
  inferInstanceAs (Decidable (∃ e ∈ s.pt, e.empty = false ∧ e.memAddress = ptCode addr))

/-- The call charges the `MEM` instruction `addr` in full, and it is not the last. -/
structure FullLookup (sp : SysParam) (s : Sim) (p : Nat) (stopTime : UInt64) (addr : NextMem) : Prop where
  head : (s.pcb p).memReq.head? = some addr
  type : addr.type = .mem
  notLast : (s.pcb p).memReq.tail ≠ []
  full : memTime sp ≤ stopTime - s.currentTime

/-- The lookup goes by what the tables hold, and counts once. -/
def Exact (sp : SysParam) (s : Sim) (p : Nat) (stopTime : UInt64) (addr : NextMem) : Prop :=
  let r := readPage sp s p stopTime
  let q := s.pcb p
  let q' := r.1.pcb p
  if TlbHolds s addr then r.2 = .success ∧ q'.hitCount = q.hitCount + 1 ∧ q'.missCount = q.missCount
  else
    (q'.hitCount = q.hitCount ∧ q'.missCount = q.missCount + 1) ∧
      if PtHolds s addr then r.2 = .success ∧ q'.ptHitCount = q.ptHitCount + 1
      else r.2 = .pageFault ∧ q'.ptMissCount = q.ptMissCount + 1

instance (sp : SysParam) (s : Sim) (p : Nat) (stopTime : UInt64) (addr : NextMem) :
    Decidable (Exact sp s p stopTime addr) := by
  unfold Exact
  infer_instance

/-- What `readPage` compares the page table with. -/
def inPt (s : Sim) (addr : NextMem) : Prop := s.pt.head?.map (·.memAddress) = some addr.addressPtr

instance (s : Sim) (addr : NextMem) : Decidable (inPt s addr) :=
  inferInstanceAs (Decidable (s.pt.head?.map (·.memAddress) = some addr.addressPtr))

/-- What `readPage` looks at says what the tables hold. The first case does not come
about for a pointer that `malloc` returns: `mem_address` is a byte, and it is
compared with the pointer itself. -/
def Telling (sp : SysParam) (s : Sim) (addr : NextMem) : Prop :=
  TlbHolds s addr ∧ inTlb sp s addr ∨
    ¬TlbHolds s addr ∧ ¬inTlb sp s addr ∧ sp.tlbSizeInEntries = 1 ∧ (PtHolds s addr ↔ inPt s addr)

/-! ## One lookup -/

/-- The counters of a block. -/
structure SameCounters (q q' : Pcb) : Prop where
  hitCount : q'.hitCount = q.hitCount
  missCount : q'.missCount = q.missCount
  ptHitCount : q'.ptHitCount = q.ptHitCount
  ptMissCount : q'.ptMissCount = q.ptMissCount

theorem chargeMem_counters (sp : SysParam) (s : Sim) (p : Nat) (t : UInt64) :
    SameCounters (s.pcb p) ((chargeMem sp s p t).pcb p) := by
  obtain ⟨-, h⟩ | ⟨-, h⟩ := chargeMem_cases sp s p t <;> rw [h]
  · rw [modify_pcb, charge_pcb]
    exact ⟨rfl, rfl, rfl, rfl⟩
  · rw [charge_pcb, modify_pcb]
    exact ⟨rfl, rfl, rfl, rfl⟩

/-- What a lookup adds to the counters: it goes by the first entries. -/
theorem FullLookup.looks (h : FullLookup sp s p stopTime addr) (hread : readPage sp s p stopTime = (u, ret)) :
    (inTlb sp s addr ∧ ret = .success ∧ (u.pcb p).hitCount = (s.pcb p).hitCount + 1 ∧
        (u.pcb p).missCount = (s.pcb p).missCount) ∨
      (¬inTlb sp s addr ∧ (u.pcb p).hitCount = (s.pcb p).hitCount ∧
        (u.pcb p).missCount = (s.pcb p).missCount + sp.tlbSizeInEntries.toNat ∧
        (inPt s addr ∧ ret = .success ∧ (u.pcb p).ptHitCount = (s.pcb p).ptHitCount + 1 ∨
          ¬inPt s addr ∧ ret = .pageFault ∧ (u.pcb p).ptMissCount = (s.pcb p).ptMissCount + 1)) := by
  obtain ⟨hhead, htype, hne, hfull⟩ := h
  obtain ⟨rest, hreq⟩ := List.head?_eq_some_iff.1 hhead
  cases readPage_reads hread with
  | nothing hnil =>
    rw [hreq] at hnil
    cases hnil
  | nonmem hreq' htype' =>
    cases hreq.symm.trans hreq'
    rw [htype] at htype'
    cases htype'
  | last hreq' _ hnil =>
    exact absurd hnil ((chargeMem_left s p _).2 ⟨by rw [hreq]; exact List.cons_ne_nil _ _, .inl hne⟩)
  | looked hreq' _ _ hl =>
    cases hreq.symm.trans hreq'
    obtain ⟨htlb, hpt, -⟩ := chargeMem_facts sp s p (stopTime - s.currentTime)
    obtain ⟨h1, h2, h3, h4⟩ := chargeMem_counters sp s p (stopTime - s.currentTime)
    have hin : inTlb sp (chargeMem sp s p (stopTime - s.currentTime)) addr ↔ inTlb sp s addr := by
      rw [inTlb, inTlb, htlb]
    cases lookup_looks hl with
    | hit hit =>
      refine .inl ⟨hin.1 hit, rfl, ?_, ?_⟩
      · rw [modify_pcb, h1]
      · rw [modify_pcb, h2]
    | ptHit hmiss hpt' =>
      rw [hpt] at hpt'
      refine .inr ⟨fun hit => hmiss (hin.2 hit), ?_, ?_, .inl ⟨hpt', rfl, ?_⟩⟩
      · rw [modify_pcb, h1]
      · rw [modify_pcb, h2]
      · rw [modify_pcb, h3]
    | fault hmiss hpt' =>
      rw [hpt] at hpt'
      refine .inr ⟨fun hit => hmiss (hin.2 hit), ?_, ?_, .inr ⟨hpt', rfl, ?_⟩⟩
      · rw [modify_pcb, h1]
      · rw [modify_pcb, h2]
      · rw [modify_pcb, h4]

theorem exact_iff (h : FullLookup sp s p stopTime addr) : Exact sp s p stopTime addr ↔ Telling sp s addr := by
  have hone : (sp.tlbSizeInEntries.toNat : Int) = 1 ↔ sp.tlbSizeInEntries = 1 := by omega
  cases hread : readPage sp s p stopTime with
  | mk u ret =>
  simp only [Exact, Telling, hread]
  by_cases htlb : TlbHolds s addr
  · simp only [htlb, if_true, true_and, not_true_eq_false, false_and, or_false]
    rcases h.looks hread with ⟨hin, h1, h2, h3⟩ | ⟨hin, h2, -⟩
    · exact iff_of_true ⟨h1, h2, h3⟩ hin
    · refine iff_of_false ?_ hin
      rintro ⟨-, h2', -⟩
      omega
  · simp only [htlb, if_false, false_and, not_false_eq_true, true_and, false_or]
    rcases h.looks hread with ⟨hin, -, h2, -⟩ | ⟨hin, h2, h3, hpt⟩
    · refine iff_of_false ?_ fun hn => hn.1 hin
      rintro ⟨⟨h2', -⟩, -⟩
      omega
    · have hmiss : (u.pcb p).hitCount = (s.pcb p).hitCount ∧ (u.pcb p).missCount = (s.pcb p).missCount + 1 ↔
          sp.tlbSizeInEntries = 1 := by
        rw [h3, ← hone]
        constructor
        · rintro ⟨-, he⟩
          omega
        · intro he
          exact ⟨h2, by rw [he]⟩
      rw [hmiss]
      simp only [hin, not_false_eq_true, true_and]
      refine and_congr_right fun _ => ?_
      by_cases hholds : PtHolds s addr
      · simp only [hholds, if_true, true_iff]
        rcases hpt with ⟨hpt, h4, h5⟩ | ⟨hpt, h4, -⟩
        · exact iff_of_true ⟨h4, h5⟩ hpt
        · refine iff_of_false ?_ hpt
          rw [h4]
          rintro ⟨he, -⟩
          cases he
      · simp only [hholds, if_false, false_iff]
        rcases hpt with ⟨hpt, h4, -⟩ | ⟨hpt, h4, h5⟩
        · refine iff_of_false ?_ (not_not.2 hpt)
          rw [h4]
          rintro ⟨he, -⟩
          cases he
        · exact iff_of_true ⟨h4, h5⟩ hpt

/-! ## The sum over a run -/

/-- The hits and misses counted for `p`. -/
def counted (s : Sim) (p : Nat) : Int := (s.pcb p).hitCount + (s.pcb p).missCount

/-- `readPage` took a `MEM` of `p` off whole, and it was not the last. -/
def Event.lookedUp (p : Nat) : Event → Bool
  | .read q addr _ removed _ ret => q = p ∧ addr.any (·.type = .mem) ∧ removed ∧ ret ≠ .traceEnds
  | .swap .. => false

/-- How many fully charged `MEM` instructions of `p` were looked up. -/
def lookups (p : Nat) (h : List Event) : Nat := h.countP (Event.lookedUp p)

/-- The call of `readPage` adds to the counters what it adds to the lookups: a
`MEM` that is charged in full hits or the TLB has one entry; one that is cut is
looked up too, and must not be counted at all. -/
def CallCountsOnce (sp : SysParam) (s : Sim) (stopTime : UInt64) : Prop :=
  s.currentTime < stopTime → ∀ p ∈ gllFirst s.runningProcess, ∀ addr ∈ (s.pcb p).memReq.head?, addr.type = .mem →
    if memTime sp ≤ stopTime - s.currentTime then
      (s.pcb p).memReq.tail = [] ∨ inTlb sp s addr ∨ sp.tlbSizeInEntries = 1
    else ¬inTlb sp s addr ∧ sp.tlbSizeInEntries ≤ 0

instance (sp : SysParam) (s : Sim) (stopTime : UInt64) : Decidable (CallCountsOnce sp s stopTime) := by
  unfold CallCountsOnce
  infer_instance

/-- A step that calls `readPage` counts once. -/
def CountsOnce (sp : SysParam) (s : Sim) : Pc → Prop
  | .slice stopTime => CallCountsOnce sp s stopTime
  | _ => True

instance (sp : SysParam) (s : Sim) : (pc : Pc) → Decidable (CountsOnce sp s pc)
  | .slice stopTime => (inferInstance : Decidable (CallCountsOnce sp s stopTime))
  | .start | .top | .paused _ | .admitted _ | .scheduling | .idle | .jump _ _ | .catchUp | .returned => isTrue trivial

/-- The counters of every process are the same. -/
def KeepsCount (s s' : Sim) : Prop :=
  ∀ p, (s'.pcb p).hitCount = (s.pcb p).hitCount ∧ (s'.pcb p).missCount = (s.pcb p).missCount

theorem KeepsCount.of_pcb (h : ∀ p, s'.pcb p = s.pcb p) : KeepsCount s s' := by
  intro p
  rw [h]
  exact ⟨rfl, rfl⟩

theorem KeepsCount.trans (h : KeepsCount s u) (h' : KeepsCount u s') : KeepsCount s s' := fun p =>
  ⟨(h' p).1.trans (h p).1, (h' p).2.trans (h p).2⟩

theorem KeepsCount.counted (h : KeepsCount s s') (p : Nat) : counted s' p = counted s p := by
  rw [Paging.counted, (h p).1, (h p).2]
  rfl

theorem modify_keepsCount (s : Sim) (p : Nat) {f : Pcb → Pcb}
    (hf : ∀ q, (f q).hitCount = q.hitCount ∧ (f q).missCount = q.missCount) : KeepsCount s (s.modify p f) := by
  intro q
  by_cases hq : q = p
  · subst hq
    rw [modify_pcb]
    exact hf _
  · have hpcb : (s.modify p f).pcb q = s.pcb q := update_of_ne hq _ _
    rw [hpcb]
    exact ⟨rfl, rfl⟩

theorem makeReady_keepsCount (s : Sim) (p : Nat) : KeepsCount s (makeReady s p) := by
  have h : KeepsCount s (s.modify p fun q => { q with memReq := q.memReq ++ q.memoryFile }) :=
    modify_keepsCount s p fun _ => ⟨rfl, rfl⟩
  exact h

theorem newQuanta_keepsCount (s : Sim) : KeepsCount s (newQuanta s) := by
  unfold newQuanta
  split <;> exact .of_pcb fun _ => rfl

theorem transfer_keepsCount (s : Sim) : KeepsCount s (transfer s) := by
  apply transfer_keeps (KeepsCount s)
  · exact fun u p _ h => h.trans (makeReady_keepsCount u p)
  · exact .of_pcb fun _ => rfl

theorem diskToMemory_keepsCount (h : diskToMemory sp s = some u) : KeepsCount s u := by
  obtain ⟨p, addr, rest, -, -, ⟨-, rfl⟩ | ⟨-, rfl⟩⟩ := diskToMemory_cases h
  · exact modify_keepsCount s p fun _ => ⟨rfl, rfl⟩
  · unfold swapIn
    extract_lets s1 s2 s3 s4 s5 s6
    have h4 : KeepsCount s s4 := .of_pcb fun _ => rfl
    have h5 : KeepsCount s4 s5 := modify_keepsCount s4 p fun _ => ⟨rfl, rfl⟩
    have h6 : KeepsCount s5 s6 := modify_keepsCount s5 p fun _ => ⟨rfl, rfl⟩
    exact (h4.trans h5).trans h6

theorem requeue_keepsCount (s : Sim) : KeepsCount s (requeue s) := by
  unfold requeue
  split <;> exact .of_pcb fun _ => rfl

theorem swapEvent_lookups (s : Sim) (p : Nat) : lookups p (swapEvent s) = 0 := by
  refine List.countP_eq_zero.2 fun e he => ?_
  unfold swapEvent at he
  split at he
  · exact absurd he List.not_mem_nil
  · obtain ⟨addr, -, rfl⟩ := List.mem_map.1 he
    exact Bool.false_ne_true

/-- A step calls `readPage`, or leaves the counters alone. -/
theorem effect_reads (he : Effect sp s pc pc' s' evs) :
    (KeepsCount s s' ∧ (∀ q, lookups q evs = 0) ∧ CountsOnce sp s pc) ∨
      ∃ stopTime p u ret, pc = .slice stopTime ∧ s.currentTime < stopTime ∧ gllFirst s.runningProcess = some p ∧
        readPage sp s p stopTime = (u, ret) ∧ KeepsCount u s' ∧ evs = [readEvent sp s p stopTime] := by
  cases he with
  | started | noProcess | diskInterrupt | slice | setDisk | noneRan | again | allDone | awaitDisk | jump | catchUp | stay =>
    exact .inl ⟨.of_pcb fun _ => rfl, fun _ => rfl, trivial⟩
  | quantaFinishes hlt => exact .inl ⟨.of_pcb fun _ => rfl, fun _ => rfl, fun hlt' => absurd hlt' hlt⟩
  | traceEnds hlt hp hread | success hlt hp hread =>
    exact .inr ⟨_, _, _, _, rfl, hlt, hp, hread, .of_pcb fun _ => rfl, rfl⟩
  | pageFault hlt hp hread => exact .inr ⟨_, _, _, _, rfl, hlt, hp, hread, .of_pcb fun _ => rfl, rfl⟩
  | transferred => exact .inl ⟨(newQuanta_keepsCount s).trans (transfer_keepsCount _), fun _ => rfl, trivial⟩
  | swapIn hu =>
    exact .inl ⟨(diskToMemory_keepsCount hu).trans (requeue_keepsCount _), swapEvent_lookups s, trivial⟩
  | cleanUp _ hu =>
    unfold cleanUpProcess at hu
    split at hu <;> cases hu
    exact .inl ⟨.of_pcb fun _ => rfl, fun _ => rfl, trivial⟩
  | timer => exact .inl ⟨(requeue_keepsCount s).trans (.of_pcb fun _ => rfl), fun _ => rfl, trivial⟩
  | schedule =>
    refine .inl ⟨?_, fun _ => rfl, trivial⟩
    unfold schedulingRR
    dsimp only
    split <;> exact .of_pcb fun _ => rfl
  | @awaitArrival p => exact .inl ⟨makeReady_keepsCount s p, fun _ => rfl, trivial⟩
  | @arrive p twice _ =>
    refine .inl ⟨?_, fun _ => rfl, trivial⟩
    cases twice <;> exact .of_pcb fun _ => rfl
  | readDisk _ hu => exact .inl ⟨diskToMemory_keepsCount hu, swapEvent_lookups s, trivial⟩

/-- What a call of `readPage` adds to the counters of its process, and whether
it is one of the lookups. -/
theorem readPage_adds (hread : readPage sp s p stopTime = (u, ret)) :
    ((readEvent sp s p stopTime).lookedUp p = false ∧
        ((u.pcb p).hitCount = (s.pcb p).hitCount ∧ (u.pcb p).missCount = (s.pcb p).missCount) ∧
        ∀ addr ∈ (s.pcb p).memReq.head?, addr.type = .mem →
          memTime sp ≤ stopTime - s.currentTime ∧ (s.pcb p).memReq.tail = []) ∨
      ∃ addr ∈ (s.pcb p).memReq.head?, addr.type = .mem ∧
        ((u.pcb p).hitCount = (s.pcb p).hitCount + (if inTlb sp s addr then 1 else 0) ∧
          (u.pcb p).missCount = (s.pcb p).missCount + (if inTlb sp s addr then 0 else sp.tlbSizeInEntries.toNat)) ∧
        (memTime sp ≤ stopTime - s.currentTime ∧ (s.pcb p).memReq.tail ≠ [] ∧
            (readEvent sp s p stopTime).lookedUp p = true ∨
          ¬memTime sp ≤ stopTime - s.currentTime ∧ (readEvent sp s p stopTime).lookedUp p = false) := by
  cases readPage_reads hread with
  | nothing hnil =>
    refine .inl ⟨?_, ⟨rfl, rfl⟩, ?_⟩
    · simp [readEvent, Event.lookedUp, hnil]
    · simp [hnil]
  | nonmem hreq htype hret =>
    refine .inl ⟨?_, ?_, ?_⟩
    · simp [readEvent, Event.lookedUp, hreq, htype]
    · obtain ⟨timeNeeded, -, ⟨-, h⟩ | ⟨-, h⟩⟩ := chargeNonmem_cases sp s p (stopTime - s.currentTime) <;> rw [h]
      · rw [modify_pcb, charge_pcb]
        exact ⟨rfl, rfl⟩
      · rw [modify_pcb, charge_pcb, modify_pcb]
        exact ⟨rfl, rfl⟩
    · simp [hreq, htype]
  | @last addr' rest hreq htype hnil =>
    obtain ⟨h1, h2, -⟩ := chargeMem_counters sp s p (stopTime - s.currentTime)
    have hleft := mt (chargeMem_left s p (stopTime - s.currentTime)).2 (not_not.2 hnil)
    rw [hreq] at hleft
    refine .inl ⟨?_, ⟨h1, h2⟩, fun addr haddr _ => ?_⟩
    · simp [readEvent, Event.lookedUp, hread]
    · rw [hreq]
      by_contra hn
      refine hleft ⟨List.cons_ne_nil _ _, ?_⟩
      by_cases htail : (addr' :: rest).tail = []
      · exact .inr (UInt64.not_le.1 fun hle => hn ⟨hle, htail⟩)
      · exact .inl htail
  | @looked addr rest _ _ hreq htype hne hl =>
    obtain ⟨htlb, -, -⟩ := chargeMem_facts sp s p (stopTime - s.currentTime)
    obtain ⟨h1, h2, -⟩ := chargeMem_counters sp s p (stopTime - s.currentTime)
    have hin : inTlb sp (chargeMem sp s p (stopTime - s.currentTime)) addr ↔ inTlb sp s addr := by
      rw [inTlb, inTlb, htlb]
    have hlook := lookup_looks hl
    have hends : ret ≠ .traceEnds := by
      intro h
      cases hlook <;> cases h
    refine .inr ⟨addr, by rw [hreq]; rfl, htype, ?_, ?_⟩
    · cases hlook with
      | hit hit =>
        rw [if_pos (hin.1 hit), if_pos (hin.1 hit), modify_pcb, h1, h2]
        exact ⟨rfl, (add_zero _).symm⟩
      | ptHit hmiss | fault hmiss =>
        have hout : ¬inTlb sp s addr := fun h => hmiss (hin.2 h)
        rw [if_neg hout, if_neg hout, modify_pcb, h1, h2]
        exact ⟨(add_zero _).symm, rfl⟩
    · have hleft := hlook.sameWork.memReq
      have htail := ((chargeMem_left s p _).1 hne).2
      obtain ⟨hlt, h⟩ | ⟨hle, h⟩ := chargeMem_cases sp s p (stopTime - s.currentTime)
      · refine .inr ⟨UInt64.not_le.2 hlt, ?_⟩
        rw [h, modify_pcb, charge_pcb] at hleft
        simp [readEvent, Event.lookedUp, hread, hleft]
      · refine .inl ⟨hle, htail.resolve_right (UInt64.not_lt.2 hle), ?_⟩
        rw [h, charge_pcb, modify_pcb, Pcb.popReq, hreq] at hleft
        simp [readEvent, Event.lookedUp, hread, hleft, hreq, htype, hends]

/-- A call of `readPage` keeps the sum right if and only if it counts once. -/
theorem readPage_sum_iff {h : List Event} (hlt : s.currentTime < stopTime) (hp : gllFirst s.runningProcess = some p)
    (hread : readPage sp s p stopTime = (u, ret)) (hsum : ∀ q, counted s q = lookups q h) :
    (∀ q, counted u q = lookups q (h ++ [readEvent sp s p stopTime])) ↔ CountsOnce sp s (.slice stopTime) := by
  have hother : ∀ q, q ≠ p → counted u q = lookups q (h ++ [readEvent sp s p stopTime]) := by
    intro q hq
    have hpcb := (readPage_charged sp s p stopTime).others q hq
    rw [hread] at hpcb
    rw [counted, hpcb, lookups, List.countP_append]
    simp only [readEvent, Event.lookedUp, List.countP_singleton, Ne.symm hq, false_and, decide_false,
      Bool.false_eq_true, if_false, Nat.add_zero]
    exact hsum q
  have hthis : (∀ q, counted u q = lookups q (h ++ [readEvent sp s p stopTime])) ↔
      counted u p = counted s p + if (readEvent sp s p stopTime).lookedUp p then 1 else 0 := by
    have hl : ((lookups p (h ++ [readEvent sp s p stopTime]) : Nat) : Int) =
        counted s p + if (readEvent sp s p stopTime).lookedUp p then 1 else 0 := by
      rw [lookups, List.countP_append, List.countP_singleton, hsum p, lookups]
      split <;> simp
    constructor
    · intro hall
      rw [hall p, hl]
    · intro hcount q
      by_cases hq : q = p
      · rw [hq, hcount, hl]
      · exact hother q hq
  rw [hthis]
  simp only [CountsOnce, CallCountsOnce, hlt, true_implies, hp, Option.mem_some_iff, forall_eq']
  rcases readPage_adds hread with ⟨hno, hsame, hmem⟩ | ⟨addr, haddr, htype, hadd, ⟨hfull, htail, hev⟩ | ⟨hcut, hev⟩⟩
  · refine iff_of_true ?_ ?_
    · rw [hno, counted, hsame.1, hsame.2]
      simp [counted]
    · intro addr haddr htype
      obtain ⟨hfull, htail⟩ := hmem addr haddr htype
      rw [if_pos hfull]
      exact .inl htail
  · obtain ⟨rest, hreq⟩ := List.head?_eq_some_iff.1 haddr
    rw [hev, counted, hadd.1, hadd.2, counted, hreq]
    rw [hreq] at htail
    simp only [List.head?_cons, Option.mem_some_iff, forall_eq', htype, true_implies, hfull, if_true, htail, false_or]
    by_cases hin : inTlb sp s addr
    · simp only [hin, if_true, true_or, iff_true]
      omega
    · simp only [hin, if_false, false_or]
      omega
  · obtain ⟨rest, hreq⟩ := List.head?_eq_some_iff.1 haddr
    rw [hev, counted, hadd.1, hadd.2, counted, hreq]
    simp only [List.head?_cons, Option.mem_some_iff, forall_eq', htype, true_implies, hcut, if_false]
    by_cases hin : inTlb sp s addr <;> simp [hin]

/-- A step keeps the sum right if and only if it counts once. -/
theorem effect_sum_iff {h : List Event} (hsum : ∀ q, counted s q = lookups q h) (he : Effect sp s pc pc' s' evs) :
    (∀ q, counted s' q = lookups q (h ++ evs)) ↔ CountsOnce sp s pc := by
  obtain ⟨hkeep, hevs, honce⟩ | ⟨stopTime, p, u, ret, rfl, hlt, hp, hread, hkeep, rfl⟩ := effect_reads he
  · refine iff_of_true (fun q => ?_) honce
    have hl : lookups q (h ++ evs) = lookups q h + lookups q evs := List.countP_append
    rw [hl, hevs, Nat.add_zero, hkeep.counted, hsum q]
  · simp only [hkeep.counted]
    exact readPage_sum_iff hlt hp hread hsum

theorem begin_sum (sp : SysParam) (ws : List Process) (q : Nat) :
    counted (begin sp ws).sim q = lookups q (begin sp ws).history :=
  (transfer_keepsCount (initState sp ws)).counted q

/-- The counters of each process lie between 0 and `n`. -/
def CountsWithin (n : Nat) (s : Sim) : Prop :=
  ∀ q, 0 ≤ (s.pcb q).hitCount ∧ 0 ≤ (s.pcb q).missCount ∧ counted s q ≤ n

theorem KeepsCount.within {n : Nat} (h : KeepsCount s s') (hs : CountsWithin n s) : CountsWithin n s' := by
  intro q
  rw [h.counted, (h q).1, (h q).2]
  exact hs q

/-- A step counts at most one hit, or a miss for each entry of the TLB. -/
theorem effect_within {n : Nat} (h : CountsWithin n s) (he : Effect sp s pc pc' s' evs) :
    CountsWithin (n + max 1 sp.tlbSizeInEntries.toNat) s' := by
  have hmore : ∀ {u : Sim} {q : Nat}, 0 ≤ (u.pcb q).hitCount ∧ 0 ≤ (u.pcb q).missCount ∧ counted u q ≤ n →
      0 ≤ (u.pcb q).hitCount ∧ 0 ≤ (u.pcb q).missCount ∧
        counted u q ≤ (n + max 1 sp.tlbSizeInEntries.toNat : Nat) := by
    rintro u q ⟨h1, h2, h3⟩
    exact ⟨h1, h2, h3.trans (by omega)⟩
  obtain ⟨hkeep, -, -⟩ | ⟨stopTime, p, u, ret, -, -, -, hread, hkeep, -⟩ := effect_reads he
  · exact fun q => hmore (hkeep.within h q)
  · refine hkeep.within fun q => ?_
    by_cases hq : q = p
    · subst hq
      obtain ⟨h1, h2, h3⟩ := h q
      obtain ⟨-, hsame, -⟩ | ⟨addr, -, -, hadd, -⟩ := readPage_adds hread
      · apply hmore
        rw [counted, hsame.1, hsame.2]
        exact ⟨h1, h2, h3⟩
      · rw [counted] at h3 ⊢
        rw [hadd.1, hadd.2]
        split <;> omega
    · have hpcb := (readPage_charged sp s p stopTime).others q hq
      rw [hread] at hpcb
      apply hmore
      rw [counted, hpcb]
      exact h q

/-- A lookup goes by what the tables hold and counts once if and only if the
first entries are telling. Over a run of `simulate`, hits and misses add up to
the lookups as long as every step counts once, and no longer. The counters are
`int`, and a run too short to count to `2^31` keeps them within it. -/
theorem lookup_exact (sp : SysParam) :
    (∀ s p stopTime addr, FullLookup sp s p stopTime addr → (Exact sp s p stopTime addr ↔ Telling sp s addr)) ∧
      (∀ (ws : List Process) (labels : List Unit),
        (∀ t l u, Takes (tick sp) (begin sp ws) labels t l u → ∀ q, counted u.sim q = lookups q u.history) ↔
          ∀ t l u, Takes (tick sp) (begin sp ws) labels t l u → CountsOnce sp t.sim t.pc) ∧
      ∀ (ws : List Process) (labels : List Unit) c, exec (tick sp) (begin sp ws) labels = some c →
        labels.length * max 1 sp.tlbSizeInEntries.toNat ≤ 2147483647 →
          ∀ q, 0 ≤ (c.sim.pcb q).hitCount ∧ 0 ≤ (c.sim.pcb q).missCount ∧ counted c.sim q ≤ intMax := by
  refine ⟨fun s p stopTime addr h => exact_iff h, fun ws labels => ?_, fun ws labels c hc hshort q => ?_⟩
  · refine takes_iff_while (fun c : Cfg => ∀ q, counted c.sim q = lookups q c.history) ?_ (fun _ _ _ _ _ h => h)
      (begin_sum sp ws) labels
    intro t l u hsum ht
    obtain ⟨evs, he, hevs⟩ := tick_effect ht
    rw [hevs]
    exact effect_sum_iff hsum he
  · have h0 : CountsWithin 0 (begin sp ws).sim := (transfer_keepsCount (initState sp ws)).within fun _ => ⟨le_rfl, le_rfl, le_rfl⟩
    obtain ⟨h1, h2, h3⟩ := exec_grows (fun n (c : Cfg) => CountsWithin n c.sim) (fun n c l c' h ht => by
      obtain ⟨evs, he, -⟩ := tick_effect ht
      exact effect_within h he) hc h0 q
    refine ⟨h1, h2, h3.trans ?_⟩
    unfold intMax
    omega

/-- A process with a `MEM` that is looked up, in the first slice. -/
def firstLookup (sp : SysParam) : Sim := makeReady (initState sp [process 0 [mem, nonmem]]) 0

theorem firstLookup_full (tlbSizeInEntries : Int) :
    FullLookup { smallSysParam with tlbSizeInEntries := tlbSizeInEntries }
      (firstLookup { smallSysParam with tlbSizeInEntries := tlbSizeInEntries }) 0 quantum mem := by
  refine ⟨rfl, rfl, List.cons_ne_nil _ _, ?_⟩
  have hzero : memTime { smallSysParam with tlbSizeInEntries := tlbSizeInEntries } = 0 := by
    show UInt64.ofNat ⌊(0 : ℚ)⌋.toNat = 0
    rw [Int.floor_zero]
    rfl
  rw [hzero]
  exact UInt64.zero_le

/-- `lookup_exact` with one entry in the TLB: a lookup that finds nothing, and a
run in which a process faults. -/
theorem lookup_exact_one :
    Exact smallSysParam (firstLookup smallSysParam) 0 quantum mem ∧
      (exec (tick smallSysParam) (begin smallSysParam [process 0 [nonmem, mem, mem]]) (List.replicate 20 ())).isSome ∧
      ∀ t l u, Takes (tick smallSysParam) (begin smallSysParam [process 0 [nonmem, mem, mem]]) (List.replicate 20 ()) t l u →
        ∀ q, counted u.sim q = lookups q u.history := by
  have hall := lookup_exact smallSysParam
  have htell : Telling smallSysParam (firstLookup smallSysParam) mem := by
    refine .inr ⟨by decide +kernel, by decide +kernel, rfl, ?_⟩
    exact iff_of_false (by decide +kernel) (by decide +kernel)
  have hok : along (tick smallSysParam) (fun c _ => CountsOnce smallSysParam c.sim c.pc)
      (begin smallSysParam [process 0 [nonmem, mem, mem]]) (List.replicate 20 ()) = true := by
    decide +kernel
  exact ⟨(hall.1 _ _ _ _ (firstLookup_full 1)).2 htell, by decide +kernel, (hall.2.1 _ _).2 (takes_along hok)⟩

/-- With 16 entries, as in the documented input, that lookup adds 16 misses; with
30 it adds 30. -/
theorem lookup_exact_fails_default : ∃ sp : SysParam, sp = { smallSysParam with tlbSizeInEntries := 16 } ∧
    FullLookup sp (firstLookup sp) 0 quantum mem ∧ ((firstLookup sp).pcb 0).missCount = 0 ∧
    ((readPage sp (firstLookup sp) 0 quantum).1.pcb 0).missCount = 16 ∧ ¬Exact sp (firstLookup sp) 0 quantum mem ∧
    ((readPage fullSysParam (firstLookup fullSysParam) 0 quantum).1.pcb 0).missCount = 30 ∧
    ¬Exact fullSysParam (firstLookup fullSysParam) 0 quantum mem :=
  ⟨_, rfl, firstLookup_full 16, rfl, by decide +kernel, by decide +kernel, by decide +kernel, by decide +kernel⟩

end Cmpsc473.Paging
