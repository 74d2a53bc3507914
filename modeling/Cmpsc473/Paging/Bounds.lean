import Cmpsc473.Paging.Files
import Cmpsc473.Paging.Machine
/-!
# What the simulator touches

The program from its start: `init` with the files it reads and the tables it
allocates, then the steps of `simulate`, with what each touches. Each table is
allocated with the number of entries and the entry size of another one, and each
string goes into a block as large as a pointer or two.
-/

namespace Cmpsc473.Paging

open Runs FileIO Touch

/-! ## The tables -/

/-- `sizeof(p_table_t)`. -/
def sizeofPt : Nat := 24

/-- `sizeof(tlb_cache_t)`. -/
def sizeofTlb : Nat := 16

/-- `sizeof(dram_t)`. -/
def sizeofDram : Nat := 16

/-- What `calloc` returns. A negative count is a `size_t` for which there is no memory. -/
def callocBytes (n : Int) (size : Nat) : Nat := n.toNat * size

variable (sp : Params)

/-- `pt = calloc(sysParam->TLB_size_in_entries, sizeof(tlb_cache_t))`. -/
def ptBytes : Nat := callocBytes sp.tlbSizeInEntries sizeofTlb

/-- `tlb = calloc(sysParam->DRAM_size_in_MB, sizeof(dram_t))`. -/
def tlbBytes : Nat := callocBytes sp.dramSizeInMB sizeofDram

/-- `dram = calloc(page_table_entries, sizeof(p_table_t))`. -/
def dramBytes : Nat := callocBytes pageTableEntries sizeofPt

/-- The loop of `init` or `diskToMemory` over the page table. -/
def ptElements : List Access := elements (ptBytes sp) sizeofPt pageTableEntries

/-- The loop of `init` or `diskToMemory` over the TLB. -/
def tlbElements : List Access := elements (tlbBytes sp) sizeofTlb sp.tlbSizeInEntries.toNat

/-- The loop of `init` over the DRAM. -/
def dramElements : List Access := elements dramBytes sizeofDram sp.dramSizeInMB.toNat

/-- The end of `init`. -/
def initTables : List Access := ptElements sp ++ tlbElements sp ++ dramElements sp

/-- `readPage`: every round of its loops looks at the first entry. -/
def readPageTables (s : Sim) (p : Nat) (stopTime : UInt64) : List Access :=
  match (s.pcb p).memReq with
  | [] => []
  | addr :: _ =>
    if addr.type = .mem ∧ ((chargeMem sp.toSysParam s p (stopTime - s.currentTime)).pcb p).memReq ≠ [] then
      (if 0 < sp.tlbSizeInEntries then [element (tlbBytes sp) sizeofTlb 0] else []) ++
        if missesTlb sp.toSysParam s p stopTime then [element (ptBytes sp) sizeofPt 0] else []
    else []

/-- `diskToMemory`: a `MEM` goes through both tables. -/
def diskTables (s : Sim) : List Access := if findsMem s then tlbElements sp ++ ptElements sp else []

/-- The entries that the next step of `simulate` touches. -/
def touched (c : Cfg) : List Access :=
  match c.pc with
  | .slice stopTime =>
    if c.sim.currentTime < stopTime then
      (gllFirst c.sim.runningProcess).toList.flatMap fun p => readPageTables sp c.sim p stopTime
    else []
  | pc => if CallsDisk c.sim pc then diskTables sp c.sim else []

/-- The sizes for which no table is larger than its block: 20 entries of 24 bytes
in the block of `pt`, the entries of the TLB in that of `tlb`, and those of the
DRAM in that of `dram`, which has 480 bytes. -/
structure TablesFit : Prop where
  tlbSizeInEntries : sp.tlbSizeInEntries = 30
  dramSizeInMB : sp.dramSizeInMB = 30

variable {sp}

theorem pt_inBounds : (∀ a ∈ ptElements sp, a.InBounds) ↔ 30 ≤ sp.tlbSizeInEntries := by
  have hbytes : ptBytes sp = sp.tlbSizeInEntries.toNat * 16 := rfl
  have hneed : pageTableEntries * sizeofPt = 480 := rfl
  rw [ptElements, elements_inBounds, hbytes, hneed]
  omega

theorem tlb_inBounds : (∀ a ∈ tlbElements sp, a.InBounds) ↔ sp.tlbSizeInEntries.toNat ≤ sp.dramSizeInMB.toNat := by
  have hbytes : tlbBytes sp = sp.dramSizeInMB.toNat * 16 := rfl
  have hsize : sizeofTlb = 16 := rfl
  rw [tlbElements, elements_inBounds, hbytes, hsize]
  omega

theorem dram_inBounds : (∀ a ∈ dramElements sp, a.InBounds) ↔ sp.dramSizeInMB ≤ 30 := by
  have hbytes : dramBytes = 480 := rfl
  have hsize : sizeofDram = 16 := rfl
  rw [dramElements, elements_inBounds, hbytes, hsize]
  omega

theorem initTables_inBounds : (∀ a ∈ initTables sp, a.InBounds) ↔ TablesFit sp := by
  simp only [initTables, List.forall_mem_append, pt_inBounds, tlb_inBounds, dram_inBounds]
  constructor
  · rintro ⟨⟨hpt, htlb⟩, hdram⟩
    constructor <;> omega
  · rintro ⟨htlb, hdram⟩
    omega

/-- `readPage` and `diskToMemory` touch what `init` has touched. -/
theorem touched_subset (c : Cfg) : touched sp c ⊆ initTables sp := by
  have hread : ∀ p stopTime, readPageTables sp c.sim p stopTime ⊆ initTables sp := by
    intro p stopTime a ha
    unfold readPageTables at ha
    split at ha
    · cases ha
    · split at ha
      · rcases List.mem_append.1 ha with ha | ha
        · split at ha
          · rename_i hpos
            rw [List.mem_singleton.1 ha]
            apply List.mem_append_left
            apply List.mem_append_right
            exact element_mem _ _ (Int.pos_iff_toNat_pos.1 hpos)
          · cases ha
        · split at ha
          · rw [List.mem_singleton.1 ha]
            apply List.mem_append_left
            apply List.mem_append_left
            exact element_mem _ _ (by decide)
          · cases ha
      · cases ha
  have hdisk : diskTables sp c.sim ⊆ initTables sp := by
    intro a ha
    unfold diskTables at ha
    split at ha
    · apply List.mem_append_left
      exact List.mem_append.2 (List.mem_append.1 ha).symm
    · cases ha
  intro a ha
  unfold touched at ha
  split at ha
  · split at ha
    · obtain ⟨p, -, ha⟩ := List.mem_flatMap.1 ha
      exact hread p _ ha
    · cases ha
  · split at ha
    · exact hdisk ha
    · cases ha

/-! ## The program -/

/-- Where the program is, and what it has read. -/
inductive Stage where
  /-- `init` is about to open the trace file. -/
  | opening
  /-- At `readSysParam`. -/
  | params (fptr : File)
  /-- In the loop of `readNextTrace`. -/
  | traces (sp : Params) (fptr : File) (ts : List Trace)
  /-- In the loop that makes processes ready; the traces of `pending` are to be read. -/
  | loading (sp : Params) (ts : List Trace) (pending : List Nat)
  /-- About to allocate the tables. -/
  | tables (sp : Params) (ts : List Trace)
  /-- In `simulate`; the traces of `pending` are to be read before its next step. -/
  | simulating (sp : Params) (ts : List Trace) (pending : List Nat) (c : Cfg)

/-- The processes that `transferLoop` makes ready. -/
def arrivals (s : Sim) : Gll → List Nat
  | some temp :: rest => if (s.pcb temp).startTime ≤ s.currentTime then temp :: arrivals s rest else []
  | _ => []

/-- The processes that the next step of `simulate` makes ready. -/
def opens (sp : SysParam) (c : Cfg) : List Nat :=
  match c.pc with
  | .paused _ => arrivals (newQuanta c.sim) (newQuanta c.sim).processList
  | .idle =>
    match micro sp .idle c.sim with
    | some (.jump p _, _) => [p]
    | _ => []
  | _ => []

theorem arrivals_makeReady (s : Sim) (p : Nat) (pl : Gll) : arrivals (makeReady s p) pl = arrivals s pl := by
  induction pl with
  | nil => rfl
  | cons x pl ih =>
    cases x with
    | none => rfl
    | some temp =>
      have htime : (makeReady s p).currentTime = s.currentTime := rfl
      simp only [arrivals, makeReady_startTime, htime, ih]

/-- The processes that become ready are the arrivals. -/
theorem transferLoop_arrivals (pl : Gll) (s : Sim) :
    (transferLoop pl s).readyProcess = s.readyProcess ++ (arrivals s pl).map some := by
  induction pl generalizing s with
  | nil => simp [transferLoop, arrivals]
  | cons x pl ih =>
    cases x with
    | none => simp [transferLoop, arrivals]
    | some temp =>
      simp only [transferLoop, arrivals]
      split
      · rw [ih, arrivals_makeReady]
        simp [makeReady, gllPushBack, Sim.modify]
      · simp

/-- What becomes ready in these steps is what is read before them. -/
theorem tick_ready {sp : SysParam} {c c' : Cfg} (h : tick sp c () = some c')
    (hpc : (∃ simPause, c.pc = .paused simPause) ∨ c.pc = .idle) :
    c'.sim.readyProcess = c.sim.readyProcess ++ (opens sp c).map some := by
  obtain ⟨⟨pc', s'⟩, hr, rfl⟩ := Option.map_eq_some_iff.1 h
  obtain ⟨pc, s, history⟩ := c
  rcases hpc with ⟨simPause, rfl⟩ | rfl
  · cases hr
    have hready : (newQuanta s).readyProcess = s.readyProcess := by
      unfold newQuanta
      split <;> rfl
    rw [← hready]
    exact transferLoop_arrivals _ _
  · cases micro_effect hr with
    | again hne => simp [opens, hr]
    | allDone => simp [opens, hr]
    | awaitArrival => simp [opens, hr, makeReady, gllPushBack, Sim.modify]
    | awaitDisk => simp [opens, hr, startWait]

variable (w : Workload)

/-- The list of processes, each with the instructions in its file. -/
def processes (ts : List Trace) : List Process :=
  ts.mapIdx fun p t => { w.pcb p with startTime := t.startTime, trace := (loadTrace w p t).result.getD [] }

/-- The instructions of a process are those that its trace is read to. -/
theorem pcbs_processes {ts : List Trace} {p : Nat} {t : Trace} (h : ts[p]? = some t) {memReq : List NextMem}
    (hload : (loadTrace w p t).result = some memReq) : (pcbs (processes w ts) p).memoryFile = memReq := by
  have hget : (processes w ts)[p]? = some { w.pcb p with startTime := t.startTime, trace := memReq } := by
    simp [processes, h, hload]
  simp [pcbs, Paging.readNextTrace, List.getD, hget]

/-- The trace of process `p` is read. -/
def load (ts : List Trace) (p : Nat) : Touch (List NextMem) := do
  let temp ← ofOption ts[p]?
  loadTrace w p temp

/-- The first transfer of `init`. -/
def loadFirst (sp : Params) (ts : List Trace) : Stage :=
  let s := initState sp.toSysParam (processes w ts)
  .loading sp ts (arrivals s s.processList)

/-- The next step of the program. -/
def Stage.run : Stage → Touch Stage
  | .opening => do
    let fptr ← openTrace w w.traceFileName
    return .params fptr
  | .params fptr => do
    let r ← ofOption (readSysParam w.atof fptr)
    return .traces r.1 r.2 []
  | .traces sp [] ts => if ts = [] then exit else return loadFirst w sp ts
  | .traces sp (line :: fptr) ts => do
    let temp ← FileIO.readNextTrace line
    match temp with
    | some t => return .traces sp fptr (ts ++ [t])
    | none => if ts = [] then exit else return loadFirst w sp ts
  | .loading sp ts (p :: pending) => do
    let _memReq ← load w ts p
    return .loading sp ts pending
  | .loading sp ts [] => return .tables sp ts
  | .tables sp ts => do
    touch (initTables sp)
    let c := begin sp.toSysParam (processes w ts)
    return .simulating sp ts (opens sp.toSysParam c) c
  | .simulating sp ts (p :: pending) c => do
    let _memReq ← load w ts p
    return .simulating sp ts pending c
  | .simulating sp ts [] c => do
    touch (touched sp c)
    let c ← ofOption (tick sp.toSysParam c ())
    return .simulating sp ts (opens sp.toSysParam c) c

/-- A step of the program, which makes no choices. -/
def advance (t : Stage) (_ : Unit) : Option Stage := (t.run w).result

/-- What is to be read next fits: the name of the trace file, the name of a
process, the trace of a process, and before the tables are allocated, their
sizes. -/
def Stage.Fits : Stage → Prop
  | .opening => w.traceFileName.strlen ≤ 9
  | .traces _ (line :: _) _ =>
    ∀ token, (strtok 32 line).token = some token → token.bytes ∉ noData → token.strlen ≤ 12
  | .loading _ ts (p :: _) | .simulating _ ts (p :: _) _ => ∀ t, ts[p]? = some t → TraceFits w p t
  | .tables sp _ => TablesFit sp
  | _ => True

variable {w}

theorem load_safe (ts : List Trace) (p : Nat) : (load w ts p).Safe ↔ ∀ t, ts[p]? = some t → TraceFits w p t := by
  simp only [load, safe_bind, safe_ofOption, result_ofOption, loadTrace_safe, true_and]

/-- A step that is safe fits. -/
theorem Stage.Fits.of_safe {t : Stage} (h : (t.run w).Safe) : t.Fits w := by
  cases t with
  | opening => exact (openTrace_safe w _).1 ((safe_bind_pure _ _).1 h)
  | params fptr => trivial
  | traces sp fptr ts =>
    cases fptr with
    | nil => trivial
    | cons line fptr => exact (readNextTrace_safe line).1 ((safe_bind _ _).1 h).1
  | loading sp ts pending =>
    cases pending with
    | nil => trivial
    | cons p pending => exact (load_safe ts p).1 ((safe_bind_pure _ _).1 h)
  | tables sp ts => exact initTables_inBounds.1 ((safe_bind_pure _ _).1 h)
  | simulating sp ts pending c =>
    cases pending with
    | nil => trivial
    | cons p pending => exact (load_safe ts p).1 ((safe_bind_pure _ _).1 h)

/-- The tables are allocated with sizes that fit. -/
def Stage.Allocated : Stage → Prop
  | .simulating sp _ _ _ => TablesFit sp
  | _ => True

/-- A step that fits is safe: in `simulate` it touches what `init` has touched. -/
theorem Stage.Fits.safe {t : Stage} (h : t.Fits w) (ha : t.Allocated) : (t.run w).Safe := by
  cases t with
  | opening => exact (safe_bind_pure _ _).2 ((openTrace_safe w _).2 h)
  | params fptr => exact (safe_bind_pure _ _).2 (safe_ofOption _)
  | traces sp fptr ts =>
    cases fptr with
    | nil => simp [Stage.run, safe_ite]
    | cons line fptr =>
      apply (safe_bind _ _).2
      refine ⟨(readNextTrace_safe line).2 h, fun temp _ => ?_⟩
      cases temp with
      | none => simp [safe_ite]
      | some temp => exact safe_pure _
  | loading sp ts pending =>
    cases pending with
    | nil => exact safe_pure _
    | cons p pending => exact (safe_bind_pure _ _).2 ((load_safe ts p).2 h)
  | tables sp ts => exact (safe_bind_pure _ _).2 (initTables_inBounds.2 h)
  | simulating sp ts pending c =>
    cases pending with
    | nil =>
      apply (safe_bind _ _).2
      refine ⟨fun a hm => initTables_inBounds.2 ha a (touched_subset c hm), fun _ _ => ?_⟩
      exact (safe_bind_pure _ _).2 (safe_ofOption _)
    | cons p pending => exact (safe_bind_pure _ _).2 ((load_safe ts p).2 h)

/-- What a step of the program does, for each way it can go on. -/
inductive Stage.Effect (w : Workload) : Stage → Stage → Prop
  | opened {content : List UInt8} (hfile : w.files (strcat foldername w.traceFileName).bytes = some content) :
    Effect w .opening (.params (lines content))
  | configured {fptr : File} {r : Params × File} (hread : readSysParam w.atof fptr = some r) :
    Effect w (.params fptr) (.traces r.1 r.2 [])
  | listed {sp : Params} {line : List UInt8} {fptr : File} {ts : List Trace} {t : Trace}
    (hread : ( FileIO.readNextTrace line).result = some (some t)) :
    Effect w (.traces sp (line :: fptr) ts) (.traces sp fptr (ts ++ [t]))
  | listEnds {sp : Params} {fptr : File} {ts : List Trace} (hne : ts ≠ []) : Effect w (.traces sp fptr ts) (loadFirst w sp ts)
  | loaded {sp : Params} {ts : List Trace} {p : Nat} {pending : List Nat} :
    Effect w (.loading sp ts (p :: pending)) (.loading sp ts pending)
  | loadEnds {sp : Params} {ts : List Trace} : Effect w (.loading sp ts []) (.tables sp ts)
  | allocated {sp : Params} {ts : List Trace} :
    Effect w (.tables sp ts) (.simulating sp ts (opens sp.toSysParam (begin sp.toSysParam (processes w ts)))
      (begin sp.toSysParam (processes w ts)))
  | opensTrace {sp : Params} {ts : List Trace} {p : Nat} {pending : List Nat} {c : Cfg} :
    Effect w (.simulating sp ts (p :: pending) c) (.simulating sp ts pending c)
  | ticks {sp : Params} {ts : List Trace} {b c : Cfg} (htick : tick sp.toSysParam b () = some c) :
    Effect w (.simulating sp ts [] b) (.simulating sp ts (opens sp.toSysParam c) c)

theorem advance_effect {t u : Stage} (h : advance w t () = some u) : Stage.Effect w t u := by
  cases t with
  | opening =>
    obtain ⟨fptr, hopen, h⟩ := Option.bind_eq_some_iff.1 h
    cases h
    rw [openTrace_result] at hopen
    obtain ⟨content, hcontent, rfl⟩ := Option.map_eq_some_iff.1 hopen
    exact .opened hcontent
  | params fptr =>
    obtain ⟨r, hr, h⟩ := Option.bind_eq_some_iff.1 h
    cases h
    exact .configured hr
  | traces sp fptr ts =>
    cases fptr with
    | nil =>
      simp only [advance, Stage.run] at h
      split at h
      · cases h
      · cases h
        exact .listEnds ‹_›
    | cons line fptr =>
      obtain ⟨temp, htemp, h⟩ := Option.bind_eq_some_iff.1 h
      cases temp with
      | none =>
        dsimp only at h
        split at h
        · cases h
        · cases h
          exact .listEnds ‹_›
      | some temp =>
        cases h
        exact .listed htemp
  | loading sp ts pending =>
    cases pending with
    | nil =>
      cases h
      exact .loadEnds
    | cons p pending =>
      obtain ⟨memReq, -, h⟩ := Option.bind_eq_some_iff.1 h
      cases h
      exact .loaded
  | tables sp ts =>
    cases h
    exact .allocated
  | simulating sp ts pending c =>
    cases pending with
    | nil =>
      obtain ⟨-, -, h⟩ := Option.bind_eq_some_iff.1 h
      obtain ⟨b, hb, h⟩ := Option.bind_eq_some_iff.1 h
      cases h
      exact .ticks hb
    | cons p pending =>
      obtain ⟨memReq, -, h⟩ := Option.bind_eq_some_iff.1 h
      cases h
      exact .opensTrace

theorem advance_allocated {t u : Stage} (h : t.Fits w) (ha : t.Allocated) (ht : advance w t () = some u) :
    u.Allocated := by
  cases advance_effect ht with
  | allocated => exact h
  | opensTrace | ticks => exact ha
  | _ => trivial

/-- Where every step fits, every step is safe. -/
theorem safe_of_fits (h : ∀ t, Reach (advance w) Any .opening t → t.Fits w) {t : Stage}
    (ht : Reach (advance w) Any .opening t) : (t.run w).Safe := by
  have hrun : Reach (advance w) (fun t _ => t.Fits w) .opening t :=
    Reach.mono (Reach (advance w) Any .opening) (fun _ _ _ hr _ hs => hr.tail trivial hs) (fun t _ hr _ => h t hr) ht .refl
  have hallocated : t.Allocated :=
    Reach.inv Stage.Allocated (fun _ _ _ ha hf hs => advance_allocated hf ha hs) hrun trivial
  exact (h t ht).safe hallocated

/-- The simulator stays inside what it allocates, in the files it reads and in
its tables, exactly if each step of its run fits. -/
theorem stays_inside (w : Workload) :
    (∀ t, Reach (advance w) Any .opening t → (t.run w).Safe) ↔ ∀ t, Reach (advance w) Any .opening t → t.Fits w := by
  constructor
  · intro h t ht
    exact .of_safe (h t ht)
  · intro h t ht
    exact safe_of_fits h ht

/-! ## Files that fit -/

/-- The name in a line of the process list fits, and so does the trace it names. -/
structure LineFits (w : Workload) (line : List UInt8) : Prop where
  name : ( FileIO.readNextTrace line).Safe
  trace : ∀ t, ( FileIO.readNextTrace line).result = some (some t) → ∀ p, TraceFits w p t

/-- All that can be read fits: a condition on the files, not on the run. -/
structure FilesFit (w : Workload) : Prop where
  traceFileName : w.traceFileName.strlen ≤ 9
  traceFile : ∀ content ∈ w.files (strcat foldername w.traceFileName).bytes, ∀ r ∈ readSysParam w.atof (lines content),
    TablesFit r.1 ∧ ∀ line ∈ r.2, LineFits w line

/-- What is ahead of a stage fits. -/
def Stage.Ahead (w : Workload) : Stage → Prop
  | .opening => True
  | .params fptr => ∀ r ∈ readSysParam w.atof fptr, TablesFit r.1 ∧ ∀ line ∈ r.2, LineFits w line
  | .traces sp fptr ts => TablesFit sp ∧ (∀ line ∈ fptr, LineFits w line) ∧ ∀ t ∈ ts, ∀ p, TraceFits w p t
  | .loading sp ts _ | .tables sp ts | .simulating sp ts _ _ => TablesFit sp ∧ ∀ t ∈ ts, ∀ p, TraceFits w p t

theorem Stage.Ahead.fits {t : Stage} (hf : FilesFit w) (h : t.Ahead w) : t.Fits w := by
  have hread : ∀ {ts : List Trace} p, (∀ t ∈ ts, ∀ p, TraceFits w p t) → ∀ t, ts[p]? = some t → TraceFits w p t :=
    fun p hts t ht => hts t (List.mem_of_getElem? ht) p
  cases t with
  | opening => exact hf.traceFileName
  | params fptr => trivial
  | traces sp fptr ts =>
    cases fptr with
    | nil => trivial
    | cons line fptr => exact (readNextTrace_safe line).1 (h.2.1 line List.mem_cons_self).name
  | loading sp ts pending | simulating sp ts pending c =>
    cases pending with
    | nil => trivial
    | cons p pending => exact hread p h.2
  | tables sp ts => exact h.1

theorem advance_ahead {t u : Stage} (hf : FilesFit w) (h : t.Ahead w) (ht : advance w t () = some u) : u.Ahead w := by
  cases advance_effect ht with
  | opened hfile => exact hf.traceFile _ hfile
  | configured hread =>
    obtain ⟨htables, hlines⟩ := h _ hread
    exact ⟨htables, hlines, fun _ hn => absurd hn List.not_mem_nil⟩
  | listed hread =>
    obtain ⟨htables, hlines, hts⟩ := h
    rw [List.forall_mem_cons] at hlines
    refine ⟨htables, hlines.2, fun t ht => ?_⟩
    rcases List.mem_append.1 ht with ht | ht
    · exact hts t ht
    · rw [List.mem_singleton.1 ht]
      exact hlines.1.trace _ hread
  | listEnds => exact ⟨h.1, h.2.2⟩
  | loaded | loadEnds | allocated | opensTrace | ticks => exact h

/-- Where all that can be read fits, every step of the run fits. -/
theorem fits_of_files {t : Stage} (hf : FilesFit w) (h : Reach (advance w) Any .opening t) : t.Fits w :=
  (Reach.inv (Stage.Ahead w) (fun _ _ _ ha _ ht => advance_ahead hf ha ht) h trivial).fits hf

/-! ## A workload of the shipped kind -/

/-- The sizes in the trace file are positive. -/
def PositiveSizes (w : Workload) : Prop :=
  ∀ content ∈ w.files (strcat foldername w.traceFileName).bytes, ∀ r ∈ readSysParam w.atof (lines content),
    0 < r.1.tlbSizeInEntries ∧ 0 < r.1.dramSizeInMB

instance (w : Workload) : Decidable (PositiveSizes w) := by
  unfold PositiveSizes
  infer_instance

/-- 16 TLB entries and 4 MB, as in most trace files. -/
def parameters : List String :=
  ["# list of system parameters", "# parameters that will remain the same", "Non-mem-inst-length 1",
    "Virtual-addr-size-in-bits 32", "DRAM-size-in-MB 4", "TLB-size-in-entries 16", "TLB-latency 1",
    "DRAM-latency 100", "Swap-latency 10000000", "Page-fault-trap-handling-time 10000", "Swap-interrupt-handling-time 10000",
    "TLB-type FullyAssociative", "TLB-replacement-policy LRU", "# parameters that may vary", "P-in-bits 12",
    "Frac-mem-inst 0", "Num-pagetable-levels 3", "N1-in-bits 8", "N2-in-bits 8", "N3-in-bits 4",
    "Page-replacement-policy LRU", "Num-procs 1", "# trace-file-name arrival-time-of-process"]

/-- The bytes of a file with these lines. -/
def fileOf (ls : List String) : List UInt8 := ls.flatMap fun l => text l ++ text "\n"

/-- One process, with a trace of two `NONMEM`. -/
def oneProcess (traceFileName : CStr) (process : String) : Workload where
  traceFileName := traceFileName
  files file :=
    if file = (strcat foldername traceFileName).bytes then some (fileOf (parameters ++ [process]))
    else some (fileOf ["Total-num-instr 2", "NONMEM", "NONMEM"])
  atof _ := 0
  pcb _ :=
    { startTime := 0, trace := [], ptHitCount := 0, ptMissCount := 0, numberOfDiskInt := 0, numberPageFaults := 0 }
  blocks _ _ := { self := 0, addressPtr := 0, behind := [] }

/-- Called as the shipped trace files are. -/
def inputOne : Workload := oneProcess ⟨text "input1.txt", by decide⟩ "process1 0"

/-- The same with names that fit. -/
def shortNames : Workload := oneProcess ⟨text "in1.txt", by decide⟩ "p1 0"

/-- The same with 30 entries and 30 MB, and a `MEM` in the trace. -/
def fullSizes : Workload :=
  { shortNames with
    files := fun file =>
      if file = text "traces/in1.txt" then
        some (fileOf (((parameters.set 4 "DRAM-size-in-MB 30").set 5 "TLB-size-in-entries 30") ++ ["p1 0"]))
      else some (fileOf ["Total-num-instr 3", "NONMEM", "MEM 0x1a", "NONMEM"]) }

theorem fullSizes_fit : FilesFit fullSizes := by
  have hfile : (fullSizes.files (strcat foldername fullSizes.traceFileName).bytes).all (fun content =>
      (readSysParam fullSizes.atof (lines content)).all fun r =>
        r.1.tlbSizeInEntries = 30 ∧ r.1.dramSizeInMB = 30 ∧ r.2 = [text "p1 0\n"]) = true := by decide +kernel
  have hname : ( FileIO.readNextTrace (text "p1 0\n")).Safe := by decide +kernel
  have htrace : ( FileIO.readNextTrace (text "p1 0\n")).result.all (fun o => o.all fun t =>
      decide (loadTrace fullSizes 0 t).Safe) = true := by decide +kernel
  refine ⟨by decide +kernel, fun content hcontent r hr => ?_⟩
  rw [Option.mem_def.1 hcontent, Option.all_some, Option.mem_def.1 hr, Option.all_some] at hfile
  obtain ⟨htlb, hdram, hlines⟩ := of_decide_eq_true hfile
  refine ⟨⟨htlb, hdram⟩, fun line hline => ?_⟩
  rw [hlines] at hline
  obtain rfl := List.mem_singleton.1 hline
  refine ⟨hname, fun t ht p => ?_⟩
  rw [ht, Option.all_some, Option.all_some] at htrace
  -- the blocks are the same for each process
  have hsafe : (loadTrace fullSizes p t).Safe := of_decide_eq_true htrace
  exact (loadTrace_safe fullSizes p t).1 hsafe

/-- `stays_inside` for these files, of which the program comes to run the process. -/
theorem stays_inside_full : PositiveSizes fullSizes ∧
    (∃ sp ts c, Reach (advance fullSizes) Any .opening (.simulating sp ts [] c) ∧ c.sim.finished = [0]) ∧
    ∀ t, Reach (advance fullSizes) Any .opening t → (t.run fullSizes).Safe := by
  have hrun : (exec (advance fullSizes) .opening (List.replicate 20 ())).any (fun t =>
      match t with
      | .simulating _ _ [] c => decide (c.sim.finished = [0])
      | _ => false) = true := by decide +kernel
  refine ⟨by decide +kernel, ?_, (stays_inside fullSizes).2 fun t ht => fits_of_files fullSizes_fit ht⟩
  obtain ⟨t, ht, hdone⟩ := (Option.any_eq_true _ _).1 hrun
  split at hdone
  · rename_i sp ts c
    exact ⟨sp, ts, c, exec_reach ht fun _ _ _ => trivial, of_decide_eq_true hdone⟩
  · exact absurd hdone Bool.false_ne_true

/-- The name of the trace file is too long for its block; where it is not, the
tables are too large for theirs. -/
theorem stays_inside_fails :
    (PositiveSizes inputOne ∧ ¬∀ t, Reach (advance inputOne) Any .opening t → (t.run inputOne).Safe) ∧
      PositiveSizes shortNames ∧ ∃ sp ts, Reach (advance shortNames) Any .opening (.tables sp ts) ∧
        ¬((Stage.tables sp ts).run shortNames).Safe := by
  have hlong : PositiveSizes inputOne := by decide +kernel
  have hshort : PositiveSizes shortNames := by decide +kernel
  have hname : ¬(Stage.opening.run inputOne).Safe := by decide +kernel
  have htables : (exec (advance shortNames) .opening (List.replicate 6 ())).any (fun t =>
      match t with
      | .tables sp ts => decide ¬((Stage.tables sp ts).run shortNames).Safe
      | _ => false) = true := by decide +kernel
  obtain ⟨t, ht, hsafe⟩ := (Option.any_eq_true _ _).1 htables
  refine ⟨⟨hlong, fun h => hname (h _ .refl)⟩, hshort, ?_⟩
  cases t with
  | tables sp ts => exact ⟨sp, ts, exec_reach ht fun _ _ _ => trivial, of_decide_eq_true hsafe⟩
  | _ => exact absurd hsafe Bool.false_ne_true

end Cmpsc473.Paging
