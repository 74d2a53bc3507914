import Cmpsc473.Lib.Lru
import Cmpsc473.Paging.Lookups
/-!
# Loading a page

Both handlers of `diskToMemory` are the scan of `Lru.pageIn`, with 1 and 100000
standing for infinity. So a load is one by least recent use exactly where
`Lru.Fits` says, and never while an entry is empty: the tables of a run of
`simulate` stay empty for good (`blank_reach`).
-/

namespace Cmpsc473.Paging

open Runs Function Lru

variable {sp : SysParam} {s s' u : Sim} {p : Nat} {pc pc' : Pc} {evs : List Event} {ws : List Process}
  {stopTime : UInt64} {ret : Read} {addr : NextMem} {rest : List NextMem}

/-! ## The handlers are scans -/

/-- An entry of the TLB as a slot. -/
def TlbEntry.slot (e : TlbEntry) : Slot UInt8 := { empty := e.empty, time := e.accessTime, addr := e.memAddress }

/-- An entry of the page table as a slot. -/
def PtEntry.slot (e : PtEntry) : Slot UInt64 := { empty := e.empty, time := e.accessTime, addr := e.memAddress }

/-- The TLB as a table of slots. -/
def tlbSlots (s : Sim) : List (Slot UInt8) := s.tlb.map TlbEntry.slot

/-- The page table as a table of slots. -/
def ptSlots (s : Sim) : List (Slot UInt64) := s.pt.map PtEntry.slot

/-- The tables have the entries that the loops over them visit. -/
structure Dimensioned (sp : SysParam) (s : Sim) : Prop where
  tlb : s.tlb.length = sp.tlbSizeInEntries.toNat
  pt : s.pt.length = pageTableEntries

/-- The clock when the disk has been read, as an `int`. -/
def swapTime (sp : SysParam) (s : Sim) : Int := toInt (s.currentTime + sp.swapLatency).toNat

theorem leastRecentTime_slots {β : Type} (limit : Int) (es : List β) (time : β → Int) {α : Type} {slot : β → Slot α}
    (htime : ∀ e, (slot e).time = time e) : leastRecentTime limit (es.map time) = least limit ((es.map slot).map Slot.time) := by
  rw [leastRecentTime, least, List.map_map]
  exact congrArg _ (List.map_congr_left fun e _ => (htime e).symm)

/-- The TLB handler. -/
theorem tlbHandler_scan (hlen : s.tlb.length = sp.tlbSizeInEntries.toNat) (addr : NextMem) :
    (tlbHandler sp addr s).map TlbEntry.slot = pageIn 1 (toInt s.currentTime.toNat) (tlbCode addr) (tlbSlots s) := by
  have hcount : (s.tlb.filter fun e => !e.empty).length = s.tlb.length ↔ Full (tlbSlots s) :=
    @length_filter_iff _ _ s.tlb TlbEntry.slot
  unfold tlbHandler
  extract_lets now put tlb leastRecent
  by_cases hf : Full (tlbSlots s)
  · have hsame : tlb = s.tlb := map_empty_of_full hf
    have hleast : leastRecent = least 1 ((tlbSlots s).map Slot.time) := by
      rw [tlbSlots, ← leastRecentTime_slots 1 s.tlb TlbEntry.accessTime fun _ => rfl, ← hsame]
    have hall := hcount.2 hf
    split
    · rw [hsame, hleast]
      exact map_slot_of_full hf fun _ => rfl
    -- the size is negative: there is no entry
    · have hnil : s.tlb = [] := by
        rw [← List.length_eq_zero_iff]
        omega
      rw [hsame, tlbSlots, hnil]
      rfl
  · have hne : ((s.tlb.filter fun e => !e.empty).length : Int) ≠ sp.tlbSizeInEntries := by
      intro h
      refine hf (hcount.1 ?_)
      omega
    rw [if_neg hne]
    exact map_slot_of_not_full hf fun _ => rfl

/-- The page table handler. -/
theorem ptHandler_scan (hlen : s.pt.length = pageTableEntries) (addr : NextMem) :
    (ptHandler addr s).map PtEntry.slot = pageIn 100000 (toInt s.currentTime.toNat) (ptCode addr) (ptSlots s) := by
  have hcount : (s.pt.filter fun e => !e.empty).length = pageTableEntries ↔ Full (ptSlots s) := by
    rw [← hlen]
    exact @length_filter_iff _ _ s.pt PtEntry.slot
  unfold ptHandler
  extract_lets now vaddr put pt leastRecent
  by_cases hf : Full (ptSlots s)
  · have hsame : pt = s.pt := map_empty_of_full hf
    have hleast : leastRecent = least 100000 ((ptSlots s).map Slot.time) := by
      rw [ptSlots, ← leastRecentTime_slots 100000 s.pt PtEntry.accessTime fun _ => rfl, ← hsame]
    rw [if_pos (hcount.2 hf), hsame, hleast]
    exact map_slot_of_full hf fun _ => rfl
  · rw [if_neg fun h => hf (hcount.1 h)]
    exact map_slot_of_not_full hf fun _ => rfl

/-! ## One load -/

/-- `diskToMemory` loads the address into both tables. -/
structure Loads (s u : Sim) (addr : NextMem) : Prop where
  tlb : PagedIn (tlbSlots s) (tlbSlots u) (tlbCode addr)
  pt : PagedIn (ptSlots s) (ptSlots u) (ptCode addr)

/-- Both scans fit their tables. -/
def CanLoad (sp : SysParam) (s : Sim) (addr : NextMem) : Prop :=
  Fits 1 (swapTime sp s) (tlbCode addr) (tlbSlots s) ∧ Fits 100000 (swapTime sp s) (ptCode addr) (ptSlots s)

/-- The head of the blocked processes has the instruction `addr` first, a `MEM`. -/
structure Requests (s : Sim) (p : Nat) (addr : NextMem) : Prop where
  blocked : gllFirst s.blockedProcess = some p
  memReq : (s.pcb p).memReq.head? = some addr
  type : addr.type = .mem

theorem Requests.swapIn (h : Requests s p addr) : diskToMemory sp s = some (swapIn sp s p addr) := by
  obtain ⟨rest, hreq⟩ := List.head?_eq_some_iff.1 h.memReq
  unfold diskToMemory
  simp only [h.blocked, hreq, h.type]
  rfl

theorem tlbSlots_swapIn (hd : Dimensioned sp s) : tlbSlots (swapIn sp s p addr) =
    pageIn 1 (swapTime sp s) (tlbCode addr) (tlbSlots s) :=
  tlbHandler_scan (s := { s with currentTime := s.currentTime + sp.swapLatency }) hd.tlb addr

theorem ptSlots_swapIn (hd : Dimensioned sp s) : ptSlots (swapIn sp s p addr) =
    pageIn 100000 (swapTime sp s) (ptCode addr) (ptSlots s) := by
  unfold swapIn
  extract_lets s1 s2
  exact ptHandler_scan (s := s2) hd.pt addr

theorem loads_iff (hd : Dimensioned sp s) : Loads s (swapIn sp s p addr) addr ↔ CanLoad sp s addr := by
  rw [CanLoad, ← pagedIn_iff, ← pagedIn_iff, ← tlbSlots_swapIn (p := p) hd, ← ptSlots_swapIn (p := p) hd]
  exact ⟨fun h => ⟨h.tlb, h.pt⟩, fun h => ⟨h.1, h.2⟩⟩

/-! ## The tables of a run -/

/-- The tables have their size, and every entry is empty. -/
structure Blank (sp : SysParam) (s : Sim) : Prop extends Dimensioned sp s where
  tlbEmpty : ∀ b ∈ (tlbSlots s).map Slot.empty, b = true
  ptEmpty : ∀ b ∈ (ptSlots s).map Slot.empty, b = true

theorem not_resident {α : Type} {table : List (Slot α)} (h : ∀ b ∈ table.map Slot.empty, b = true) (a : α) :
    ¬Resident table a := by
  rintro ⟨e, he, hempty, -⟩
  have htrue := h e.empty (List.mem_map_of_mem he)
  rw [hempty] at htrue
  cases htrue

/-- The tables are the same. -/
structure SameTables (s s' : Sim) : Prop where
  tlb : s'.tlb = s.tlb
  pt : s'.pt = s.pt

theorem SameTables.trans {s'' : Sim} (h : SameTables s s') (h' : SameTables s' s'') : SameTables s s'' :=
  ⟨h'.tlb.trans h.tlb, h'.pt.trans h.pt⟩

theorem Blank.same (h : Blank sp s) (hs : SameTables s s') : Blank sp s' := by
  obtain ⟨⟨h1, h2⟩, h3, h4⟩ := h
  rw [tlbSlots, ← hs.tlb] at h3
  rw [ptSlots, ← hs.pt] at h4
  exact ⟨⟨hs.tlb ▸ h1, hs.pt ▸ h2⟩, h3, h4⟩

theorem readPage_tables (h : readPage sp s p stopTime = (u, ret)) : SameTables s u := by
  cases readPage_reads h with
  | nothing => exact ⟨rfl, rfl⟩
  | nonmem =>
    obtain ⟨h1, h2, -⟩ := chargeNonmem_facts sp s p (stopTime - s.currentTime)
    exact ⟨h1, h2⟩
  | last =>
    obtain ⟨h1, h2, -⟩ := chargeMem_facts sp s p (stopTime - s.currentTime)
    exact ⟨h1, h2⟩
  | looked _ _ _ hl =>
    obtain ⟨h1, h2, -⟩ := chargeMem_facts sp s p (stopTime - s.currentTime)
    refine SameTables.trans ⟨h1, h2⟩ ?_
    cases lookup_looks hl <;> exact ⟨rfl, rfl⟩

theorem transfer_tables (s : Sim) : SameTables s (transfer s) := by
  apply transfer_keeps (SameTables s)
  · exact fun u p _ h => ⟨h.tlb, h.pt⟩
  · exact ⟨rfl, rfl⟩

theorem requeue_tables (s : Sim) : SameTables s (requeue s) := by
  unfold requeue
  split <;> exact ⟨rfl, rfl⟩

theorem diskToMemory_blank (hb : Blank sp s) (h : diskToMemory sp s = some u) : Blank sp u := by
  obtain ⟨p, addr, rest, -, -, ⟨-, rfl⟩ | ⟨-, rfl⟩⟩ := diskToMemory_cases h
  · exact hb.same ⟨rfl, rfl⟩
  · have htlb := congrArg (List.map Slot.empty) (@tlbSlots_swapIn sp s p addr hb.toDimensioned)
    have hpt := congrArg (List.map Slot.empty) (@ptSlots_swapIn sp s p addr hb.toDimensioned)
    rw [map_empty_pageIn] at htlb hpt
    have htlbLen := congrArg List.length htlb
    have hptLen := congrArg List.length hpt
    simp only [tlbSlots, ptSlots, List.length_map] at htlbLen hptLen
    exact ⟨⟨htlbLen.trans hb.tlb, hptLen.trans hb.pt⟩, htlb ▸ hb.tlbEmpty, hpt ▸ hb.ptEmpty⟩

/-- No step fills an entry. -/
theorem effect_blank (hb : Blank sp s) (he : Effect sp s pc pc' s' evs) : Blank sp s' := by
  cases he with
  | started | noProcess | diskInterrupt | slice | quantaFinishes | setDisk | noneRan | again | allDone | awaitArrival
  | awaitDisk | jump | catchUp | stay => exact hb.same ⟨rfl, rfl⟩
  | traceEnds _ _ hread | success _ _ hread => exact hb.same (readPage_tables hread)
  | pageFault _ _ hread => exact hb.same ((readPage_tables hread).trans ⟨rfl, rfl⟩)
  | transferred =>
    refine hb.same (SameTables.trans ?_ (transfer_tables (newQuanta s)))
    unfold newQuanta
    split <;> exact ⟨rfl, rfl⟩
  | swapIn hu => exact (diskToMemory_blank hb hu).same (requeue_tables _)
  | cleanUp _ hu =>
    unfold cleanUpProcess at hu
    split at hu <;> cases hu
    exact hb.same ⟨rfl, rfl⟩
  | timer => exact hb.same ((requeue_tables s).trans ⟨rfl, rfl⟩)
  | schedule =>
    unfold schedulingRR
    dsimp only
    split <;> exact hb.same ⟨rfl, rfl⟩
  | @arrive p twice _ => cases twice <;> exact hb.same ⟨rfl, rfl⟩
  | readDisk _ hu => exact diskToMemory_blank hb hu

theorem begin_blank (sp : SysParam) (ws : List Process) : Blank sp (begin sp ws).sim := by
  refine Blank.same (s := initState sp ws) ?_ (transfer_tables _)
  refine ⟨⟨List.length_replicate, List.length_replicate⟩, ?_, ?_⟩
  · simp [tlbSlots, initState, TlbEntry.slot]
  · simp [ptSlots, initState, PtEntry.slot]

/-! ## The most recent loads -/

/-- The instruction whose page the event loads. -/
def Event.loads : Event → Option NextMem
  | .swap _ addr => if addr.type = .mem then some addr else none
  | .read .. => none

/-- The instructions whose pages were loaded, in order. -/
def loaded (h : List Event) : List NextMem := h.filterMap Event.loads

/-- The table holds the most recent of the codes, as many as it has room for. -/
def HoldsRecent {α : Type} [DecidableEq α] (table : List (Slot α)) (capacity : Nat) (codes : List α) : Prop :=
  ∀ b, Resident table b ↔ b ∈ codes.dedup.reverse.take capacity

/-- Both tables hold the most recent of the pages loaded. -/
structure Recent (sp : SysParam) (c : Cfg) : Prop where
  tlb : HoldsRecent (tlbSlots c.sim) sp.tlbSizeInEntries.toNat ((loaded c.history).map tlbCode)
  pt : HoldsRecent (ptSlots c.sim) pageTableEntries ((loaded c.history).map ptCode)

/-- Blank tables hold the most recent pages while none has been loaded. -/
theorem Blank.recent_iff {c : Cfg} (hb : Blank sp c.sim) : Recent sp c ↔ loaded c.history = [] := by
  constructor
  · intro h
    by_contra hne
    have hcodes : ((loaded c.history).map ptCode).dedup.reverse ≠ [] := by
      simpa [List.dedup_eq_nil] using hne
    obtain ⟨b, bs, hbs⟩ := List.exists_cons_of_ne_nil hcodes
    refine not_resident hb.ptEmpty b ((h.pt b).2 ?_)
    rw [hbs]
    exact List.mem_cons_self
  · intro h
    constructor <;> intro b <;> rw [h]
    · simpa using not_resident hb.tlbEmpty b
    · simpa using not_resident hb.ptEmpty b

/-- The step loads no page. -/
def LoadsNone (s : Sim) (pc : Pc) : Prop := CallsDisk s pc → findsMem s = false

instance (s : Sim) (pc : Pc) : Decidable (LoadsNone s pc) := inferInstanceAs (Decidable (_ → _))

theorem loaded_swapEvent (s : Sim) : loaded (swapEvent s) = [] ↔ findsMem s = false := by
  rw [findsMem, swapEvent]
  cases gllFirst s.blockedProcess with
  | none => exact ⟨fun _ => rfl, fun _ => rfl⟩
  | some p =>
    cases hreq : (s.pcb p).memReq.head? with
    | none => simp [loaded, hreq]
    | some addr => simp [loaded, Event.loads, hreq]

theorem effect_loaded (he : Effect sp s pc pc' s' evs) : loaded evs = [] ↔ LoadsNone s pc := by
  by_cases hd : CallsDisk s pc
  · obtain ⟨u, -, hevs⟩ := he.disk hd
    rw [hevs, loaded_swapEvent]
    exact ⟨fun h _ => h, fun h => h hd⟩
  · refine iff_of_true ?_ fun h => absurd h hd
    rw [loaded, List.filterMap_eq_nil_iff]
    intro e hmem
    cases e with
    | read => rfl
    | swap p addr => exact absurd hmem (he.noSwap hd p addr)

/-- `diskToMemory` loads a page by least recent use if and only if its scans fit
the tables, and the tables of a run hold the most recent pages if and only if
none is loaded. -/
theorem lru_exact (sp : SysParam) :
    (∀ s p addr, Dimensioned sp s → Requests s p addr →
        ∃ u, diskToMemory sp s = some u ∧ (Loads s u addr ↔ CanLoad sp s addr)) ∧
      ∀ (ws : List Process) (labels : List Unit),
        (∀ t l u, Takes (tick sp) (begin sp ws) labels t l u → Recent sp u) ↔
          ∀ t l u, Takes (tick sp) (begin sp ws) labels t l u → LoadsNone t.sim t.pc := by
  refine ⟨fun s p addr hd hr => ⟨_, hr.swapIn, loads_iff hd⟩, fun ws labels => ?_⟩
  refine takes_iff_while (fun c : Cfg => Blank sp c.sim ∧ loaded c.history = []) ?_ ?_ ⟨begin_blank sp ws, rfl⟩ labels
  · rintro t l u ⟨hb, hnil⟩ ht
    obtain ⟨evs, he, hevs⟩ := tick_effect ht
    rw [(effect_blank hb he).recent_iff, hevs, loaded, List.filterMap_append, ← loaded, hnil, List.nil_append]
    exact effect_loaded he
  · rintro t l u ⟨hb, -⟩ ht h
    obtain ⟨evs, he, -⟩ := tick_effect ht
    exact ⟨effect_blank hb he, (effect_blank hb he).recent_iff.1 h⟩

/-- Full tables, with a process that waits for the disk. -/
def fullTables : Sim :=
  { firstLookup smallSysParam with
    blockedProcess := [some 0]
    tlb := [{ empty := false, accessTime := 0, memAddress := 7 }]
    pt := (List.range pageTableEntries).map fun k => { empty := false, accessTime := k, memAddress := 7 } }

/-- `lru_exact` for full tables, and for a run that stays away from the disk. -/
theorem lru_exact_full :
    (∃ u, diskToMemory smallSysParam fullTables = some u ∧ Loads fullTables u mem) ∧
      (exec (tick smallSysParam) (begin smallSysParam [process 0 [nonmem, mem]]) (List.replicate 20 ())).isSome ∧
      ∀ t l u, Takes (tick smallSysParam) (begin smallSysParam [process 0 [nonmem, mem]]) (List.replicate 20 ()) t l u →
        Recent smallSysParam u := by
  have hall := lru_exact smallSysParam
  have hd : Dimensioned smallSysParam fullTables := ⟨rfl, by decide⟩
  have hr : Requests fullTables 0 mem := ⟨rfl, rfl, rfl⟩
  have hcan : CanLoad smallSysParam fullTables mem := by
    refine ⟨fits_of_nodup (by decide) (by decide) (by decide), fits_of_nodup (by decide) (by decide) (by decide)⟩
  have hok : along (tick smallSysParam) (fun c _ => LoadsNone c.sim c.pc)
      (begin smallSysParam [process 0 [nonmem, mem]]) (List.replicate 20 ()) = true := by
    decide +kernel
  obtain ⟨u, hu, hiff⟩ := hall.1 _ _ _ hd hr
  exact ⟨⟨u, hu, hiff.2 hcan⟩, by decide +kernel, (hall.2 _ _).2 (takes_along hok)⟩

/-- A process that faults: the page is not resident after it was read. -/
theorem lru_exact_fails : ∃ c,
    Reach (tick fullSysParam) Any (begin fullSysParam [process 0 [nonmem, mem, mem]]) c ∧
    CallsDisk c.sim c.pc ∧ Requests c.sim 0 mem ∧
    ∀ u, diskToMemory fullSysParam c.sim = some u → ¬Resident (ptSlots u) (ptCode mem) := by
  have hrun : (exec (tick fullSysParam) (begin fullSysParam [process 0 [nonmem, mem, mem]]) (List.replicate 8 ())).any
      (fun c => CallsDisk c.sim c.pc ∧ gllFirst c.sim.blockedProcess = some 0 ∧
        (c.sim.pcb 0).memReq.head? = some mem) = true := by
    decide +kernel
  obtain ⟨c, hc, h⟩ := (Option.any_eq_true _ _).1 hrun
  obtain ⟨hcalls, hblocked, hreq⟩ := of_decide_eq_true h
  have hreach : Reach (tick fullSysParam) Any (begin fullSysParam [process 0 [nonmem, mem, mem]]) c :=
    exec_reach hc fun _ _ _ => trivial
  have hblank : Blank fullSysParam c.sim := by
    refine hreach.inv (fun c => Blank fullSysParam c.sim) (fun t l u hb _ ht => ?_) (begin_blank _ _)
    obtain ⟨evs, he, -⟩ := tick_effect ht
    exact effect_blank hb he
  refine ⟨c, hreach, hcalls, ⟨hblocked, hreq, rfl⟩, fun u hu => ?_⟩
  exact not_resident (diskToMemory_blank hblank hu).ptEmpty _

end Cmpsc473.Paging
