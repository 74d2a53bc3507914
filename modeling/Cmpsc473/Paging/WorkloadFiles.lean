import Cmpsc473.Lib.Scanf
import Cmpsc473.Paging.Bounds
/-!
# Writing the files

The files that describe a workload, in the format of `INPUTEXPLAINED.md`, with or
without a newline at the end. `init` reads them back: the program comes to
`simulate`, and there it runs the processes that the files describe.
-/

namespace Cmpsc473.Paging.FileIO

open Touch Runs

/-! ## What is written -/

/-- What stands on a line. -/
structure Line where
  bytes : List UInt8
  plain : ∀ c ∈ bytes, c ≠ 10 ∧ c ≠ 0

/-- What `strtok` takes for one token. -/
structure Word extends Line where
  ne_nil : bytes ≠ []
  noSpace : 32 ∉ bytes

/-- An `int`. -/
def CInt : Type := { v : Int // -2147483648 ≤ v ∧ v ≤ intMax }

/-- A parameter and its value, a process and its arrival. -/
def entry (key value : Word) : Line where
  bytes := key.bytes ++ 32 :: value.bytes
  plain := by
    intro c hc
    rcases List.mem_append.1 hc with hc | hc
    · exact key.plain c hc
    · rcases List.mem_cons.1 hc with rfl | hc
      · decide
      · exact value.plain c hc

/-- A character of a number. -/
theorem mem_formatInt {v : Int} {c : UInt8} (hc : c ∈ formatInt v) : isdigit c = true ∨ c = 45 := by
  rcases lt_or_ge v 0 with hneg | hpos
  · rw [formatInt_neg hneg] at hc
    rcases List.mem_cons.1 hc with rfl | hc
    · exact .inr rfl
    · exact .inl (isdigit_digits hc)
  · obtain ⟨n, rfl⟩ := Int.eq_ofNat_of_zero_le hpos
    rw [formatInt_nat] at hc
    exact .inl (isdigit_digits hc)

theorem formatInt_ne_nil {v : Int} : formatInt v ≠ [] := by
  rcases lt_or_ge v 0 with hneg | hpos
  · rw [formatInt_neg hneg]
    exact List.cons_ne_nil _ _
  · obtain ⟨n, rfl⟩ := Int.eq_ofNat_of_zero_le hpos
    rw [formatInt_nat]
    exact digits_ne_nil

/-- A number as `%d` prints it. -/
def number (v : Int) : Word where
  bytes := formatInt v
  plain := by
    intro c hc
    rcases mem_formatInt hc with hdigit | rfl
    · constructor <;> rintro rfl <;> exact absurd hdigit (by decide)
    · decide
  ne_nil := formatInt_ne_nil
  noSpace := by
    intro hc
    rcases mem_formatInt hc with hdigit | hc
    · exact absurd hdigit (by decide)
    · exact absurd hc (by decide)

/-- The system parameters, with the lines that are comments. -/
structure Settings where
  about : Line
  same : Line
  nonMemInstLength : CInt
  virtualAddrSizeInBits : CInt
  dramSizeInMB : CInt
  tlbSizeInEntries : CInt
  tlbLatency : CInt
  dramLatency : CInt
  swapLatency : CInt
  pageFaultTrapHandlingTime : CInt
  swapInterruptHandlingTime : CInt
  tlbType : Word
  tlbReplacementPolicy : Word
  vary : Line
  pInBits : CInt
  fracMemInst : Word
  numPagetableLevels : CInt
  n1InBits : CInt
  n2InBits : CInt
  n3InBits : CInt
  pageReplacementPolicy : Word
  numProcs : CInt
  processes : Line

/-- One token, as a test. -/
def isWord (bytes : List UInt8) : Bool := !bytes.isEmpty && bytes.all fun c => c ≠ 10 && c ≠ 0 && c ≠ 32

/-- The word that a literal spells. -/
def key (s : String) (h : isWord (text s) = true) : Word where
  bytes := text s
  plain := by
    simp only [isWord, Bool.and_eq_true, List.all_eq_true, decide_eq_true_eq] at h
    exact fun c hc => (h.2 c hc).1
  ne_nil := by
    rintro hnil
    rw [hnil] at h
    cases h
  noSpace := by
    simp only [isWord, Bool.and_eq_true, List.all_eq_true, decide_eq_true_eq] at h
    exact fun hc => (h.2 32 hc).2 rfl

/-- The lines of the parameters. -/
def Settings.lines (s : Settings) : List Line :=
  [s.about, s.same,
    entry (key "Non-mem-inst-length" (by decide)) (number s.nonMemInstLength.1),
    entry (key "Virtual-addr-size-in-bits" (by decide)) (number s.virtualAddrSizeInBits.1),
    entry (key "DRAM-size-in-MB" (by decide)) (number s.dramSizeInMB.1),
    entry (key "TLB-size-in-entries" (by decide)) (number s.tlbSizeInEntries.1),
    entry (key "TLB-latency" (by decide)) (number s.tlbLatency.1),
    entry (key "DRAM-latency" (by decide)) (number s.dramLatency.1),
    entry (key "Swap-latency" (by decide)) (number s.swapLatency.1),
    entry (key "Page-fault-trap-handling-time" (by decide)) (number s.pageFaultTrapHandlingTime.1),
    entry (key "Swap-interrupt-handling-time" (by decide)) (number s.swapInterruptHandlingTime.1),
    entry (key "TLB-type" (by decide)) s.tlbType,
    entry (key "TLB-replacement-policy" (by decide)) s.tlbReplacementPolicy,
    s.vary,
    entry (key "P-in-bits" (by decide)) (number s.pInBits.1),
    entry (key "Frac-mem-inst" (by decide)) s.fracMemInst,
    entry (key "Num-pagetable-levels" (by decide)) (number s.numPagetableLevels.1),
    entry (key "N1-in-bits" (by decide)) (number s.n1InBits.1),
    entry (key "N2-in-bits" (by decide)) (number s.n2InBits.1),
    entry (key "N3-in-bits" (by decide)) (number s.n3InBits.1),
    entry (key "Page-replacement-policy" (by decide)) s.pageReplacementPolicy,
    entry (key "Num-procs" (by decide)) (number s.numProcs.1),
    s.processes]

/-- What `readSysParam` makes of them. -/
def Settings.params (s : Settings) (atof : List UInt8 → ℚ) : Params :=
  { nonMemInstLength := UInt64.ofInt s.nonMemInstLength.1
    swapLatency := UInt64.ofInt s.swapLatency.1
    swapInterruptHandlingTime := UInt64.ofInt s.swapInterruptHandlingTime.1
    tlbSizeInEntries := s.tlbSizeInEntries.1
    fracMemInst := atof (s.fracMemInst.bytes ++ [10])
    dramSizeInMB := s.dramSizeInMB.1 }

/-- A line of a trace: `NONMEM`, or `MEM` with an address. -/
inductive Instruction where
  | nonmem
  | mem (address : Line)

def Instruction.line : Instruction → Line
  | .nonmem => (key "NONMEM" (by decide)).toLine
  | .mem address =>
    { bytes := (key "MEM" (by decide)).bytes ++ 32 :: address.bytes
      plain := by
        intro c hc
        rcases List.mem_append.1 hc with hc | hc
        · exact (key "MEM" (by decide)).plain c hc
        · rcases List.mem_cons.1 hc with rfl | hc
          · decide
          · exact address.plain c hc }

/-- What `readNextMem` makes of it. -/
def Instruction.nextMem (b : LineBlocks) : Instruction → NextMem
  | .nonmem => { self := b.self, type := .nonmem, address := [], addressPtr := 0 }
  | .mem address => { self := b.self, type := .mem, address := address.bytes, addressPtr := b.addressPtr }

/-- A process: its name, its arrival and its instructions. -/
structure Job where
  name : Word
  startTime : CInt
  instructions : List Instruction

/-- Its line in the list of processes. -/
def Job.line (j : Job) : Line := entry j.name (number j.startTime.1)

/-- The lines of its trace. -/
def Job.trace (j : Job) : List Line :=
  entry (key "Total-num-instr" (by decide)) (number j.instructions.length) :: j.instructions.map (·.line)

/-- A file with these lines, and `e` behind the last one. -/
def fileText (e : List UInt8) : List Line → List UInt8
  | [] => []
  | [l] => l.bytes ++ e
  | l :: l' :: ls => l.bytes ++ 10 :: fileText e (l' :: ls)

/-- A parameter file and a trace for each process. -/
structure Description where
  settings : Settings
  jobs : List Job
  ne_nil : jobs ≠ []

/-- The lines of the parameter file. -/
def Description.lines (d : Description) : List Line := d.settings.lines ++ d.jobs.map (·.line)

/-- The bytes behind the last line. -/
def AtEnd (e : List UInt8) : Prop := e = [] ∨ e = [10]

/-- The files of the workload are those of the description. -/
structure Describes (w : Workload) (d : Description) : Prop where
  parameters : ∃ e, AtEnd e ∧ w.files (foldername.bytes ++ w.traceFileName.bytes) = some (fileText e d.lines)
  traces : ∀ j ∈ d.jobs, ∃ e, AtEnd e ∧
    w.files (foldername.bytes ++ (j.name.bytes ++ extension.bytes)) = some (fileText e j.trace)

/-! ## What is read -/

variable {e : List UInt8} {ls ls' : List Line} {fptr : File}

/-- The lines as `getline` delivers them. -/
def delivered (e : List UInt8) : List Line → File
  | [] => []
  | [l] => [l.bytes ++ e]
  | l :: l' :: ls => (l.bytes ++ [10]) :: delivered e (l' :: ls)

theorem lines_newline {l r : List UInt8} (hl : 10 ∉ l) : lines (l ++ 10 :: r) = (l ++ [10]) :: lines r := by
  induction l with
  | nil => simp [lines]
  | cons b l ih =>
    rw [List.mem_cons, not_or] at hl
    rw [List.cons_append, lines, if_neg (Ne.symm hl.1), ih hl.2]
    rfl

theorem lines_last {l : List UInt8} (hl : 10 ∉ l) (hne : l ≠ []) : lines l = [l] := by
  induction l with
  | nil => exact absurd rfl hne
  | cons b l ih =>
    rw [List.mem_cons, not_or] at hl
    rw [lines, if_neg (Ne.symm hl.1)]
    cases l with
    | nil => rfl
    | cons c l => rw [ih hl.2 (List.cons_ne_nil c l)]

theorem Line.newline (l : Line) : 10 ∉ l.bytes := fun h => (l.plain 10 h).1 rfl

theorem lines_fileText (he : AtEnd e) (hne : ∀ l ∈ ls.getLast?, l.bytes ≠ []) :
    lines (fileText e ls) = delivered e ls := by
  induction ls with
  | nil => rfl
  | cons l ls ih =>
    cases ls with
    | nil =>
      rcases he with rfl | rfl
      · rw [fileText, delivered, List.append_nil, lines_last l.newline (hne l rfl)]
      · rw [fileText, delivered, lines_newline l.newline]
        rfl
    | cons l' ls =>
      rw [fileText, delivered, lines_newline l.newline, ih]
      simpa using hne

theorem delivered_append (hne : ls' ≠ []) :
    delivered e (ls ++ ls') = ls.map (fun l => l.bytes ++ [10]) ++ delivered e ls' := by
  induction ls with
  | nil => rfl
  | cons l ls ih =>
    rw [List.map_cons, List.cons_append, List.cons_append, ← ih]
    cases h : ls ++ ls' with
    | nil => exact absurd (List.append_eq_nil_iff.1 h).2 hne
    | cons l' rest => rfl

/-- A word with the end of its line is one token. -/
theorem Word.token (v : Word) (he : AtEnd e) :
    v.bytes ++ e ≠ [] ∧ ∀ c ∈ v.bytes ++ e, c ≠ 32 ∧ c ≠ 0 := by
  refine ⟨fun h => v.ne_nil (List.append_eq_nil_iff.1 h).1, fun c hc => ?_⟩
  rcases List.mem_append.1 hc with hc | hc
  · exact ⟨fun h => v.noSpace (h ▸ hc), (v.plain c hc).2⟩
  · rcases he with rfl | rfl
    · cases hc
    · rw [List.mem_singleton.1 hc]
      decide

/-- The tokens of a line. -/
theorem strtok_entry (k v : Word) (he : AtEnd e) : ∃ first second,
    (strtok 32 ((entry k v).bytes ++ e)).token = some first ∧ first.bytes = k.bytes ∧
      (strtok 32 (strtok 32 ((entry k v).bytes ++ e)).rest).token = some second ∧ second.bytes = v.bytes ++ e := by
  have hk : ∀ c ∈ k.bytes, c ≠ 32 ∧ c ≠ 0 := fun c hc => ⟨fun h => k.noSpace (h ▸ hc), (k.plain c hc).2⟩
  obtain ⟨hfirst, hrest⟩ := strtok_word k.ne_nil hk (v.bytes ++ e)
  obtain ⟨hne, hv⟩ := v.token he
  have hsecond := strtok_last hne hv
  have hbytes : (entry k v).bytes ++ e = k.bytes ++ 32 :: (v.bytes ++ e) := by simp [entry]
  obtain ⟨first, hfirst, hfirst'⟩ := Option.map_eq_some_iff.1 hfirst
  obtain ⟨second, hsecond, hsecond'⟩ := Option.map_eq_some_iff.1 hsecond
  rw [hbytes, hrest]
  exact ⟨first, second, hfirst, hfirst', hsecond, hsecond'⟩

theorem readParam_entry (k v : Word) :
    readParam (((entry k v).bytes ++ [10]) :: fptr) = some (v.bytes ++ [10], fptr) := by
  obtain ⟨-, second, -, -, hsecond, hbytes⟩ := strtok_entry k v (.inr rfl)
  rw [readParam, secondToken, hsecond, Option.map_some, hbytes]

theorem atoi_number (v : CInt) (he : AtEnd e) : atoi ((number v.1).bytes ++ e) = v.1 := by
  apply atoi_formatInt v.2.1 v.2.2
  rcases he with rfl | rfl
  · exact fun _ h => absurd h (by simp)
  · simp
    decide

theorem bind_entry {β : Type} (k v : Word) (f : List UInt8 × File → Option β) :
    (readParam (((entry k v).bytes ++ [10]) :: fptr)).bind f = f (v.bytes ++ [10], fptr) := by
  rw [readParam_entry, Option.bind_some]

/-- `readSysParam` reads the parameters. -/
theorem readSysParam_lines (s : Settings) (atof : List UInt8 → ℚ) :
    readSysParam atof (s.lines.map (fun l => l.bytes ++ [10]) ++ fptr) = some (s.params atof, fptr) := by
  have hvalue : ∀ v : CInt, atoi ((number v.1).bytes ++ [10]) = v.1 := fun v => atoi_number v (.inr rfl)
  -- one step for each parameter
  iterate 19 refine (bind_entry _ _ _).trans ?_
  simp only [hvalue, Settings.params]
  rfl

theorem delivered_cons (he : AtEnd e) (l : Line) (ls : List Line) :
    ∃ e', AtEnd e' ∧ delivered e (l :: ls) = (l.bytes ++ e') :: delivered e ls := by
  cases ls with
  | nil => exact ⟨e, he, rfl⟩
  | cons l' ls => exact ⟨[10], .inr rfl, rfl⟩

def Word.cstr (v : Word) : CStr where
  bytes := v.bytes
  noNul h := (v.plain 0 h).2 rfl

/-- What `readNextTrace` makes of the line of a process. -/
def Job.read (j : Job) : Trace :=
  { name := j.name.cstr
    memoryFilename := strcat j.name.cstr extension
    startTime := UInt64.ofInt j.startTime.1 }

/-- The list that `readNextMem` fills for a process. -/
def Job.memReq (blocks : Nat → LineBlocks) (j : Job) : List NextMem :=
  j.instructions.zipIdx.map fun x => x.1.nextMem (blocks x.2)

/-- `readNextTrace` reads a process. -/
theorem readNextTrace_line (j : Job) (he : AtEnd e) : (readNextTrace (j.line.bytes ++ e)).result = some (some j.read) := by
  obtain ⟨first, second, hfirst, hname, hsecond, hstart⟩ := strtok_entry j.name (number j.startTime.1) he
  obtain rfl : first = j.name.cstr := CStr.ext_bytes hname
  have hdata : j.name.cstr.bytes ∉ noData := by
    intro h
    rcases List.mem_cons.1 h with h | h
    · exact j.name.ne_nil h
    · have hbytes : j.name.bytes = text "\n" ∨ j.name.bytes = text " " :=
        (List.mem_cons.1 h).imp_right List.mem_singleton.1
      rcases hbytes with h | h
      · exact j.name.newline (h ▸ List.mem_cons_self)
      · exact j.name.noSpace (h ▸ List.mem_cons_self)
  simp only [readNextTrace, Job.line, hfirst, hsecond, result_bind, result_ofOption, Option.bind_some, if_neg hdata, hstart,
    atoi_number _ he, copyString, result_touch, result_pure, Job.read]

/-- The newline of a line is overwritten. -/
theorem buffer_line (b : LineBlocks) (l : Line) (he : AtEnd e) : ∃ j, b.buffer (l.bytes ++ e) = l.bytes ++ 0 :: j := by
  have hall : l.bytes.takeWhile (fun c => decide (c ≠ 10) && decide (c ≠ 0)) = l.bytes := by
    rw [List.takeWhile_eq_self_iff]
    intro c hc
    simpa using l.plain c hc
  rcases he with rfl | rfl
  · refine ⟨b.behind, ?_⟩
    have hstop : ∀ c ∈ (0 :: b.behind).head?, (decide (c ≠ 10) && decide (c ≠ 0)) = false := by simp
    simp only [LineBlocks.buffer, List.append_nil, List.append_assoc, List.cons_append, List.nil_append,
      takeWhile_append_stop _ hstop, hall]
    rw [List.set_append_right _ _ le_rfl, Nat.sub_self, List.set_cons_zero]
  · refine ⟨0 :: b.behind, ?_⟩
    have hstop : ∀ c ∈ (10 :: 0 :: b.behind).head?, (decide (c ≠ 10) && decide (c ≠ 0)) = false := by simp
    simp only [LineBlocks.buffer, List.append_assoc, List.cons_append, List.nil_append,
      takeWhile_append_stop _ hstop, hall]
    rw [List.set_append_right _ _ le_rfl, Nat.sub_self, List.set_cons_zero]

theorem cstr_line {l : List UInt8} (hl : ∀ c ∈ l, c ≠ 0) (j : List UInt8) : cstr (l ++ 0 :: j) = l := by
  rw [cstr, takeWhile_append_stop _ (by simp), List.takeWhile_eq_self_iff]
  exact fun c hc => by simpa using hl c hc

/-- `readNextMem` reads an instruction. -/
theorem readNextMem_line (b : LineBlocks) (i : Instruction) (he : AtEnd e) :
    (readNextMem b (i.line.bytes ++ e)).result = some (i.nextMem b) := by
  obtain ⟨j, hj⟩ := buffer_line b i.line he
  have hcstr : cstr (b.buffer (i.line.bytes ++ e)) = i.line.bytes := by
    rw [hj]
    exact cstr_line (fun c hc => (i.line.plain c hc).2) j
  cases i with
  | nonmem =>
    simp only [readNextMem, hcstr]
    rfl
  | mem address =>
    have hne : (Instruction.mem address).line.bytes ≠ text "NONMEM" := by
      intro h
      have hhead : some (77 : UInt8) = some 78 := congrArg List.head? h
      exact absurd hhead (by decide)
    have hdrop : cstr ((b.buffer ((Instruction.mem address).line.bytes ++ e)).drop 4) = address.bytes := by
      rw [hj]
      exact cstr_line (fun c hc => (address.plain c hc).2) j
    simp only [readNextMem, hcstr, if_neg hne, hdrop]
    rfl

/-- The instructions of a trace. -/
theorem readMems_lines (blocks : Nat → LineBlocks) (is : List Instruction) (i : Nat) (he : AtEnd e) :
    (readMems blocks i (delivered e (is.map (·.line)))).result =
      some ((is.zipIdx i).map fun x => x.1.nextMem (blocks x.2)) := by
  induction is generalizing i with
  | nil => rfl
  | cons ins is ih =>
    obtain ⟨e', he', hcons⟩ := delivered_cons he ins.line (is.map (·.line))
    rw [List.map_cons, hcons, readMems, result_bind, readNextMem_line _ _ he', Option.bind_some, result_bind, ih]
    rfl

/-! ## The run -/

/-- The processes of a description, in the blocks that `malloc` returns for them. -/
def Description.processes (w : Workload) (d : Description) : List Process :=
  d.jobs.mapIdx fun p j => { w.pcb p with startTime := UInt64.ofInt j.startTime.1, trace := j.memReq (w.blocks p) }

variable {w : Workload} {d : Description}

theorem trace_ne_nil {j : Job} {l : Line} (hl : l ∈ j.trace) : l.bytes ≠ [] := by
  rcases List.mem_cons.1 hl with rfl | hl
  · exact fun h => List.cons_ne_nil _ _ (List.append_eq_nil_iff.1 h).2
  · obtain ⟨ins, -, rfl⟩ := List.mem_map.1 hl
    cases ins with
    | nonmem => exact (key "NONMEM" (by decide)).ne_nil
    | mem address => exact fun h => List.cons_ne_nil _ _ (List.append_eq_nil_iff.1 h).2

/-- The lines of a trace. -/
theorem Describes.traceLines (h : Describes w d) {j : Job} (hj : j ∈ d.jobs) : ∃ content e numOfIns, AtEnd e ∧
    w.files (strcat foldername j.read.memoryFilename).bytes = some content ∧
      readNumIns (lines content) = some (numOfIns, delivered e (j.instructions.map (·.line))) := by
  obtain ⟨e, he, hfile⟩ := h.traces j hj
  have hlines : lines (fileText e j.trace) = delivered e j.trace :=
    lines_fileText he fun l hl => trace_ne_nil (List.mem_of_getLast? hl)
  obtain ⟨e', he', hcons⟩ := delivered_cons he (entry (key "Total-num-instr" (by decide)) (number j.instructions.length))
    (j.instructions.map (·.line))
  obtain ⟨-, second, -, -, hsecond, -⟩ :=
    strtok_entry (key "Total-num-instr" (by decide)) (number j.instructions.length) he'
  refine ⟨_, e, atoi second.bytes, he, hfile, ?_⟩
  rw [hlines, Job.trace, hcons, readNumIns, secondToken, hsecond, Option.map_some]

/-- The trace of a process is read. -/
theorem Describes.reads (h : Describes w d) {j : Job} (hj : j ∈ d.jobs) (p : Nat) :
    (loadTrace w p j.read).result = some (j.memReq (w.blocks p)) := by
  obtain ⟨content, e, numOfIns, he, hfile, hnum⟩ := h.traceLines hj
  have hopen : (openTrace w j.read.memoryFilename).result = some (lines content) := by
    rw [openTrace_result, hfile, Option.map_some]
  simp only [loadTrace, result_bind, hopen, Option.bind_some, result_ofOption, hnum,
    readMems_lines _ _ _ he, Job.memReq]

theorem Describes.processes (h : Describes w d) : Paging.processes w (d.jobs.map Job.read) = d.processes w := by
  apply List.ext_getElem
  · simp [Paging.processes, Description.processes]
  · intro p hp hp'
    simp only [Paging.processes, Description.processes, List.getElem_mapIdx, List.getElem_map]
    rw [h.reads (List.getElem_mem _)]
    rfl

/-- The list of processes is read. -/
theorem reach_traces (sp : Params) (js : List Job) (ts : List Trace) (he : AtEnd e) :
    Reach (advance w) Any (.traces sp (delivered e (js.map (·.line))) ts) (.traces sp [] (ts ++ js.map Job.read)) := by
  induction js generalizing ts with
  | nil =>
    rw [List.map_nil, List.map_nil, List.append_nil]
    exact .refl
  | cons j js ih =>
    obtain ⟨e', he', hcons⟩ := delivered_cons he j.line (js.map (·.line))
    have hstep : advance w (.traces sp (delivered e ((j :: js).map (·.line))) ts) () =
        some (.traces sp (delivered e (js.map (·.line))) (ts ++ [j.read])) := by
      rw [List.map_cons, hcons, advance, Stage.run, result_bind, readNextTrace_line _ he']
      rfl
    have hrest := ih (ts ++ [j.read])
    rw [List.append_assoc] at hrest
    exact .head ⟨(), trivial, hstep⟩ hrest

/-- The traces of the processes that are ready are read. -/
theorem Describes.reach_loading (h : Describes w d) (sp : Params) {pending : List Nat}
    (hp : ∀ p ∈ pending, p < d.jobs.length) :
    Reach (advance w) Any (.loading sp (d.jobs.map Job.read) pending) (.loading sp (d.jobs.map Job.read) []) := by
  induction pending with
  | nil => exact .refl
  | cons p pending ih =>
    rw [List.forall_mem_cons] at hp
    have hload : (load w (d.jobs.map Job.read) p).result = some (d.jobs[p].memReq (w.blocks p)) := by
      rw [load, result_bind, result_ofOption, List.getElem?_map, List.getElem?_eq_getElem hp.1]
      exact h.reads (List.getElem_mem _) p
    have hstep : advance w (.loading sp (d.jobs.map Job.read) (p :: pending)) () =
        some (.loading sp (d.jobs.map Job.read) pending) := by
      rw [advance, Stage.run, result_bind, hload]
      rfl
    exact .head ⟨(), trivial, hstep⟩ (ih hp.2)

theorem arrivals_mem {s : Sim} {pl : Gll} {p : Nat} (h : p ∈ arrivals s pl) : some p ∈ pl := by
  induction pl with
  | nil => cases h
  | cons x pl ih =>
    cases x with
    | none => cases h
    | some temp =>
      rw [arrivals] at h
      split at h
      · rcases List.mem_cons.1 h with rfl | h
        · exact List.mem_cons_self
        · exact List.mem_cons_of_mem _ (ih h)
      · cases h

theorem length_processes (w : Workload) (ts : List Trace) : (Paging.processes w ts).length = ts.length :=
  List.length_mapIdx

/-- The lines of the parameter file. -/
theorem Describes.parameterLines (h : Describes w d) : ∃ content e, AtEnd e ∧
    w.files (strcat foldername w.traceFileName).bytes = some content ∧
      readSysParam w.atof (lines content) = some (d.settings.params w.atof, delivered e (d.jobs.map (·.line))) := by
  obtain ⟨e, he, hfile⟩ := h.parameters
  have hne : d.jobs.map (·.line) ≠ [] := by simpa using d.ne_nil
  have hlast : ∀ l ∈ d.lines.getLast?, l.bytes ≠ [] := by
    intro l hl
    rw [Description.lines, List.getLast?_append_of_ne_nil _ hne] at hl
    obtain ⟨j, -, rfl⟩ := List.mem_map.1 (List.mem_of_getLast? hl)
    exact fun h => List.cons_ne_nil _ _ (List.append_eq_nil_iff.1 h).2
  have hlines : lines (fileText e d.lines) =
      d.settings.lines.map (fun l => l.bytes ++ [10]) ++ delivered e (d.jobs.map (·.line)) :=
    (lines_fileText he hlast).trans (delivered_append hne)
  exact ⟨_, e, he, hfile, by rw [hlines, readSysParam_lines]⟩

/-- The parameter file is read. -/
theorem Describes.reach_params (h : Describes w d) : ∃ e, AtEnd e ∧
    Reach (advance w) Any .opening
      (.traces (d.settings.params w.atof) (delivered e (d.jobs.map (·.line))) []) := by
  obtain ⟨content, e, he, hfile, hread⟩ := h.parameterLines
  have hopen : advance w .opening () = some (.params (lines content)) := by
    have hresult : (openTrace w w.traceFileName).result = some (lines content) := by
      rw [openTrace_result, hfile, Option.map_some]
    rw [advance, Stage.run, result_bind, hresult]
    rfl
  have hparams : advance w (.params (lines content)) () =
      some (.traces (d.settings.params w.atof) (delivered e (d.jobs.map (·.line))) []) := by
    rw [advance, Stage.run, result_bind, result_ofOption, hread]
    rfl
  exact ⟨e, he, (Reach.tail .refl trivial hopen).tail trivial hparams⟩

/-- `init` reads what the files describe, and `simulate` is entered. -/
theorem Describes.reach (h : Describes w d) :
    let sp := d.settings.params w.atof
    let c := begin sp.toSysParam (d.processes w)
    Reach (advance w) Any .opening (.simulating sp (d.jobs.map Job.read) (opens sp.toSysParam c) c) := by
  intro sp c
  obtain ⟨e, he, hparams⟩ := h.reach_params
  have htraces := reach_traces (w := w) sp d.jobs [] he
  rw [List.nil_append] at htraces
  have hne : d.jobs.map Job.read ≠ [] := by simpa using d.ne_nil
  have hend : advance w (.traces sp [] (d.jobs.map Job.read)) () = some (loadFirst w sp (d.jobs.map Job.read)) := by
    rw [advance, Stage.run, if_neg hne]
    rfl
  have hpending : ∀ p ∈ arrivals (initState sp.toSysParam (Paging.processes w (d.jobs.map Job.read)))
      (initState sp.toSysParam (Paging.processes w (d.jobs.map Job.read))).processList, p < d.jobs.length := by
    intro p hp
    obtain ⟨q, hq, hpq⟩ := List.mem_map.1 (arrivals_mem hp)
    cases hpq
    rw [List.mem_range, length_processes, List.length_map] at hq
    exact hq
  have hload := h.reach_loading sp hpending
  have hbegin : advance w (.tables sp (d.jobs.map Job.read)) () =
      some (.simulating sp (d.jobs.map Job.read) (opens sp.toSysParam c) c) := by
    show some _ = some _
    rw [h.processes]
  refine (hparams.trans htraces).trans (.head ⟨(), trivial, hend⟩ (hload.trans ?_))
  exact .head ⟨(), trivial, rfl⟩ (.single ⟨(), trivial, hbegin⟩)

end Cmpsc473.Paging.FileIO
