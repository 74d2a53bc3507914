import Mathlib.Data.Rat.Floor
import Cmpsc473.Lib.CData
import Cmpsc473.Paging.Gll
/-!
# The paging simulator (`simulator.c`)

The state of the simulator is its globals: the process control blocks, the four
lists, the tables, the clock and the counters. A function that would follow a
`NULL` pointer, and a loop that does not end within `fuel` rounds, give `none`.

A workload is what the trace files hold: `readNextTrace` makes a block of each
`Process`, and its instructions are read when it becomes ready.
-/

namespace Cmpsc473.Paging

open Function

/-! ## Data -/

/-- The fields of `struct SystemParameters` that the simulator reads. -/
structure SysParam where
  nonMemInstLength : UInt64
  swapLatency : UInt64
  swapInterruptHandlingTime : UInt64
  tlbSizeInEntries : Int
  fracMemInst : ℚ

inductive InsType where
  | nonmem
  | mem
  deriving DecidableEq

/-- `struct NextMem`: its own address, its type, and for `MEM` the string at
`address`, without its NUL, and the pointer to it. -/
structure NextMem where
  self : Nat
  type : InsType
  address : List UInt8
  addressPtr : UInt64
  deriving DecidableEq

/-- `struct PCB`. `memoryFile` is what `readNextMem` delivers from the file. -/
structure Pcb where
  startTime : UInt64
  memoryFile : List NextMem
  memReq : List NextMem
  hitCount : Int
  missCount : Int
  fracLeft : UInt64
  osTime : UInt64
  userTime : UInt64
  ptHitCount : UInt64
  ptMissCount : UInt64
  numberOfDiskInt : UInt64
  numberPageFaults : UInt64

/-- `struct Stats`. The name is a pointer that belongs to one block. -/
structure Stats where
  processName : Nat
  hitCount : UInt64
  missCount : UInt64
  ptHitCount : UInt64
  ptMissCount : UInt64
  userTime : UInt64
  osTime : UInt64
  numberOfDiskInt : UInt64
  numberOfPgFaults : UInt64
  numberOfContextSwitch : UInt64
  numberOfTLBmiss : UInt64
  duration : UInt64

/-- `tlb_cache_t`. -/
structure TlbEntry where
  empty : Bool
  accessTime : Int
  memAddress : UInt8

/-- `p_table_t`. -/
structure PtEntry where
  empty : Bool
  accessTime : Int
  memAddress : UInt64

/-- The globals. `finished` is not one of them: it lists the blocks that
`simulate` took off the running list for good. -/
structure Sim where
  pcb : Nat → Pcb
  processList : Gll
  readyProcess : Gll
  runningProcess : Gll
  blockedProcess : Gll
  tlb : List TlbEntry
  pt : List PtEntry
  currentTime : UInt64
  nextDiskReadTime : UInt64
  nextQuanta : UInt64
  osTime : UInt64
  userTime : UInt64
  numberOfDiskInt : UInt64
  totalPgFaults : UInt64
  totalTLBmiss : UInt64
  numberContextSwitch : UInt64
  numberPageFaults : UInt64
  perProcessStats : List Stats
  executionOrder : List Nat
  finished : List Nat

/-- `contextSwitchTime`. -/
def contextSwitchTime : UInt64 := 1000

/-- `quantum`. -/
def quantum : UInt64 := 10000

/-- `page_table_entries`. -/
def pageTableEntries : Nat := 20

/-- What `readPage` returns: 1, 0 or -1. -/
inductive Read where
  | success
  | traceEnds
  | pageFault
  deriving DecidableEq

/-- What `processSimulator` returns: 0, 1, -1, 2 or 4. -/
inductive Pause where
  | pageFault
  | quantaFinishes
  | traceEnds
  | noProcess
  | diskInterrupt
  deriving DecidableEq

/-- A change to the block `p`. -/
def Sim.modify (s : Sim) (p : Nat) (f : Pcb → Pcb) : Sim := { s with pcb := update s.pcb p (f (s.pcb p)) }

/-- The clock, `userTime` and `p->user_time` move on by `t`. -/
def Sim.charge (s : Sim) (p : Nat) (t : UInt64) : Sim :=
  { s with
    currentTime := s.currentTime + t
    userTime := s.userTime + t
    pcb := update s.pcb p { s.pcb p with userTime := (s.pcb p).userTime + t } }

/-- `gll_pop(p->memReq)`. -/
def Pcb.popReq (q : Pcb) : Pcb := { q with memReq := q.memReq.tail }

variable (sp : SysParam)

/-! ## Running a process -/

/-- The scan of the TLB in `readPage`. Every round looks at the first entry,
and compares its `uint8_t` with the pointer `addr`. -/
def tlbScan (addr : NextMem) (p : Nat) : Nat → Sim → Sim × Bool
  | 0, s => (s, false)
  | n + 1, s =>
    if s.tlb.head?.map (·.memAddress.toNat) = some addr.self then
      (s.modify p fun q => { q with hitCount := q.hitCount + 1 }, true)
    else tlbScan addr p n (s.modify p fun q => { q with missCount := q.missCount + 1 })

/-- `readPage` for `NONMEM`, up to its last test: the instruction is charged in
part and stays, or in full and goes. -/
def chargeNonmem (s : Sim) (p : Nat) (timeAvailable : UInt64) : Sim :=
  let timeNeeded := if (s.pcb p).fracLeft > 0 then (s.pcb p).fracLeft else sp.nonMemInstLength
  if timeAvailable < timeNeeded then
    (s.charge p timeAvailable).modify p fun q => { q with fracLeft := timeNeeded - timeAvailable }
  else ((s.modify p Pcb.popReq).charge p timeNeeded).modify p fun q => { q with fracLeft := 0 }

/-- `readPage` for `MEM`, up to its last test. -/
def chargeMem (s : Sim) (p : Nat) (timeAvailable : UInt64) : Sim :=
  let timeNeeded := UInt64.ofNat ⌊sp.fracMemInst⌋.toNat
  if timeAvailable < timeNeeded then
    (s.charge p timeAvailable).modify p fun q => { q with fracLeft := timeNeeded - timeAvailable }
  else (s.modify p Pcb.popReq).charge p timeNeeded

/-- The lookup in `readPage`. The loop over the page table returns in its first
round. -/
def lookup (addr : NextMem) (s : Sim) (p : Nat) : Sim × Read :=
  let r := tlbScan addr p sp.tlbSizeInEntries.toNat s
  let s := r.1
  if r.2 then (s, .success)
  else if s.pt.head?.map (·.memAddress) = some addr.addressPtr then
    (s.modify p fun q => { q with ptHitCount := q.ptHitCount + 1 }, .success)
  else
    (s.modify p fun q =>
      { q with numberPageFaults := q.numberPageFaults + 1, ptMissCount := q.ptMissCount + 1 }, .pageFault)

/-- `readPage`. -/
def readPage (s : Sim) (p : Nat) (stopTime : UInt64) : Sim × Read :=
  match (s.pcb p).memReq with
  | [] => (s, .traceEnds)
  | addr :: _ =>
    let timeAvailable := stopTime - s.currentTime
    match addr.type with
    | .nonmem =>
      let s := chargeNonmem sp s p timeAvailable
      if (s.pcb p).memReq = [] then (s, .traceEnds) else (s, .success)
    | .mem =>
      let s := chargeMem sp s p timeAvailable
      if (s.pcb p).memReq = [] then (s, .traceEnds) else lookup sp addr s p

/-- The `while` loop of `processSimulator`. -/
def runSlice (stopTime : UInt64) : Nat → Sim → Option (Sim × Pause)
  | 0, _ => none
  | fuel + 1, s =>
    if s.currentTime < stopTime then
      match gllFirst s.runningProcess with
      | none => none
      | some p =>
        let r := readPage sp s p stopTime
        let s := r.1
        match r.2 with
        | .traceEnds => some (s, .traceEnds)
        | .pageFault =>
          if gllFirst s.runningProcess ≠ none then
            some ({ s with
              blockedProcess := gllPushBack s.blockedProcess (gllFirst s.runningProcess)
              runningProcess := gllPop s.runningProcess
              numberPageFaults := s.numberPageFaults + 1 }, .pageFault)
          else runSlice stopTime fuel s
        | .success => runSlice stopTime fuel s
    else some (s, .quantaFinishes)

/-- `processSimulator`. -/
def processSimulator (fuel : Nat) (s : Sim) : Option (Sim × Pause) :=
  if gllFirst s.runningProcess ≠ none then
    if s.currentTime > s.nextDiskReadTime then
      some ({ s with numberOfDiskInt := s.numberOfDiskInt + 1 }, .diskInterrupt)
    else runSlice sp (s.currentTime + quantum) fuel s
  else some (s, .noProcess)

/-- `schedulingRR`. -/
def schedulingRR (s : Sim) : Sim :=
  let s := { s with
    runningProcess := gllPush s.runningProcess (gllFirst s.readyProcess)
    readyProcess := gllPop s.readyProcess }
  match gllFirst s.runningProcess with
  | none => s
  | some temp =>
    { s with
      currentTime := s.currentTime + contextSwitchTime
      osTime := s.osTime + contextSwitchTime
      numberContextSwitch := s.numberContextSwitch + 1
      executionOrder := s.executionOrder ++ [temp] }

/-- `cleanUpProcess`, for the head of the running list whatever its argument. -/
def cleanUpProcess (s : Sim) : Option Sim :=
  match gllFirst s.runningProcess with
  | none => none
  | some temp =>
    let t := s.pcb temp
    let st : Stats :=
      { processName := temp
        hitCount := UInt64.ofInt t.hitCount
        missCount := UInt64.ofInt t.missCount
        ptHitCount := t.ptHitCount
        ptMissCount := t.ptMissCount
        userTime := t.userTime
        osTime := t.osTime
        numberOfDiskInt := t.numberOfDiskInt
        numberOfPgFaults := s.numberPageFaults
        numberOfContextSwitch := s.numberContextSwitch
        numberOfTLBmiss := UInt64.ofInt t.missCount
        duration := s.currentTime - t.startTime }
    some { s with perProcessStats := s.perProcessStats ++ [st] }

/-! ## From disk to memory -/

/-- The value of a hexadecimal digit. -/
def hexDigit (b : UInt8) : Option Nat :=
  if 48 ≤ b ∧ b ≤ 57 then some (b.toNat - 48)
  else if 97 ≤ b ∧ b ≤ 102 then some (b.toNat - 87)
  else if 65 ≤ b ∧ b ≤ 70 then some (b.toNat - 55)
  else none

/-- The number that the leading hexadecimal digits spell. -/
def hexPrefix (acc : Nat) : List UInt8 → Nat
  | [] => acc
  | b :: bs =>
    match hexDigit b with
    | some d => hexPrefix (16 * acc + d) bs
    | none => acc

/-- `strtol(s, NULL, 16)`: white space, a sign, `0x`, digits; out of range it
returns the nearest `long`. -/
def strtol16 (s : List UInt8) : Int :=
  let s := s.dropWhile fun b => b = 32 ∨ (9 ≤ b ∧ b ≤ 13)
  let neg := s.head? = some 45
  let s := if s.head? = some 45 ∨ s.head? = some 43 then s.tail else s
  let s :=
    match s with
    | 48 :: x :: d :: rest => if (x = 120 ∨ x = 88) ∧ (hexDigit d).isSome then d :: rest else s
    | _ => s
  let v : Int := hexPrefix 0 s
  if neg then max (-v) (-9223372036854775808) else min v 9223372036854775807

/-- The smallest access time below `leastRecent`, or `leastRecent`. -/
def leastRecentTime (leastRecent : Int) (times : List Int) : Int :=
  times.foldl (fun least t => if t < least then t else least) leastRecent

/-- The TLB handler of `diskToMemory`. No entry is ever marked as filled. -/
def tlbHandler (addr : NextMem) (s : Sim) : List TlbEntry :=
  let now := toInt s.currentTime.toNat
  let put (e : TlbEntry) : TlbEntry := { e with memAddress := UInt8.ofNat addr.self, accessTime := now }
  let tlb := s.tlb.map fun e => if e.empty then put e else e
  if ((s.tlb.filter fun e => !e.empty).length : Int) = sp.tlbSizeInEntries then
    -- `(unsigned)!((int)0)` is 1
    let tlbleastRecent := leastRecentTime 1 (tlb.map TlbEntry.accessTime)
    tlb.map fun e => if e.accessTime = tlbleastRecent then put e else e
  else tlb

/-- The page table handler of `diskToMemory`. -/
def ptHandler (addr : NextMem) (s : Sim) : List PtEntry :=
  let now := toInt s.currentTime.toNat
  let vaddr := toInt (strtol16 addr.address)
  let put (e : PtEntry) : PtEntry := { e with memAddress := UInt64.ofInt vaddr, accessTime := now }
  let pt := s.pt.map fun e => if e.empty then put e else e
  if (s.pt.filter fun e => !e.empty).length = pageTableEntries then
    let leastRecent := leastRecentTime 100000 (pt.map PtEntry.accessTime)
    pt.map fun e => if e.accessTime = leastRecent then put e else e
  else pt

/-- `diskToMemory`. -/
def diskToMemory (s : Sim) : Option Sim :=
  match gllFirst s.blockedProcess with
  | none => none
  | some diskP =>
    match (s.pcb diskP).memReq with
    | [] => none
    | addr :: _ =>
      match addr.type with
      -- the request is dropped, and the process stays blocked
      | .nonmem => some (s.modify diskP Pcb.popReq)
      | .mem =>
        let s := { s with currentTime := s.currentTime + sp.swapLatency }
        let s := { s with tlb := tlbHandler sp addr s }
        let s := { s with pt := ptHandler addr s }
        let s := { s with
          nextDiskReadTime := s.nextDiskReadTime + 1000
          numberPageFaults := s.numberPageFaults + 1 }
        let s := s.modify diskP fun q => { q with osTime := q.osTime + sp.swapInterruptHandlingTime }
        let s := s.modify diskP Pcb.popReq
        some { s with
          readyProcess := gllPushBack s.readyProcess (some diskP)
          blockedProcess := gllPop s.blockedProcess }

/-! ## The main loop -/

/-- Opens the trace of `temp`, reads it into `memReq`, and moves `temp` from the
front of the process list to the end of the ready list. -/
def makeReady (s : Sim) (temp : Nat) : Sim :=
  let s := s.modify temp fun q => { q with memReq := q.memReq ++ q.memoryFile }
  { s with
    readyProcess := gllPushBack s.readyProcess (some temp)
    processList := gllPop s.processList }

/-- The transfer of the processes that have arrived, with what is left of the
process list. -/
def transferLoop : Gll → Sim → Sim
  | some temp :: rest, s =>
    if (s.pcb temp).startTime ≤ s.currentTime then transferLoop rest (makeReady s temp) else s
  | _, s => s

def transfer (s : Sim) : Sim := transferLoop s.processList s

/-- `while(nextQuanta < start_time) { current_time = nextQuanta; nextQuanta = current_time + quantum; }`. -/
def quantaToStart (startTime : UInt64) : Nat → Sim → Option Sim
  | 0, _ => none
  | fuel + 1, s =>
    if s.nextQuanta < startTime then
      quantaToStart startTime fuel { s with currentTime := s.nextQuanta, nextQuanta := s.nextQuanta + quantum }
    else some s

/-- `while(nextQuanta < current_time) nextQuanta = nextQuanta + quantum;`. -/
def quantaToNow : Nat → Sim → Option Sim
  | 0, _ => none
  | fuel + 1, s =>
    if s.nextQuanta < s.currentTime then quantaToNow fuel { s with nextQuanta := s.nextQuanta + quantum } else some s

/-- The branches that wait for a blocked process. -/
def waitForDisk (fuel : Nat) (s : Sim) : Option Sim :=
  let timeOfNextPendingDiskInterrupt : UInt64 := 0
  let s := { s with
    osTime := s.osTime + (timeOfNextPendingDiskInterrupt - s.currentTime)
    currentTime := timeOfNextPendingDiskInterrupt }
  (quantaToNow fuel s).bind (diskToMemory sp)

/-- Nothing is running or ready, and something is pending. -/
def idle (fuel : Nat) (s : Sim) : Option Sim :=
  match gllFirst s.blockedProcess, gllFirst s.processList with
  | none, none => none
  | none, some tempProcess => do
    let s := makeReady s tempProcess
    let start := (s.pcb tempProcess).startTime
    let s ← quantaToStart start fuel s
    -- the statement stands twice in this branch
    let s := { s with osTime := s.osTime + (start - s.currentTime) }
    let s := { s with osTime := s.osTime + (start - s.currentTime) }
    return { s with currentTime := start }
  | some _, none => waitForDisk sp fuel s
  | some _, some tempProcess =>
    let timeOfNextPendingDiskInterrupt : UInt64 := 0
    if (s.pcb tempProcess).startTime ≥ timeOfNextPendingDiskInterrupt then waitForDisk sp fuel s
    else do
      let s := makeReady s tempProcess
      let start := (s.pcb tempProcess).startTime
      let s ← quantaToStart start fuel s
      let s := { s with osTime := s.osTime + (start - s.currentTime) }
      return { s with currentTime := start }

/-- How a round of `simulate`'s loop ends. -/
inductive Outcome where
  | next (s : Sim)
  | done (s : Sim)

/-- What `simulate` does about the pause, up to `schedulingRR`. -/
def handlePause (simPause : Pause) (s : Sim) : Option Sim :=
  match simPause with
  | .diskInterrupt => do
    let s ← diskToMemory sp s
    if gllFirst s.runningProcess ≠ none then
      return { s with
        readyProcess := gllPushBack s.readyProcess (gllFirst s.runningProcess)
        runningProcess := gllPop s.runningProcess }
    else return s
  | .pageFault => some { s with nextDiskReadTime := s.currentTime + sp.swapLatency }
  | .traceEnds => do
    let gone := gllFirst s.runningProcess
    let s ← cleanUpProcess s
    return { s with runningProcess := gllPop s.runningProcess, finished := s.finished ++ gone.toList }
  | .quantaFinishes =>
    let s :=
      if gllFirst s.runningProcess ≠ none then
        { s with
          readyProcess := gllPushBack s.readyProcess (gllFirst s.runningProcess)
          runningProcess := gllPop s.runningProcess }
      else s
    some { s with nextQuanta := s.currentTime + quantum }
  | .noProcess => some s

/-- The test of `simulate` that follows `processSimulator`. -/
def newQuanta (s : Sim) : Sim :=
  if s.currentTime = s.nextQuanta then { s with nextQuanta := s.currentTime + quantum } else s

/-- One round of `simulate`'s `while(1)`. -/
def round (fuel : Nat) (s : Sim) : Option Outcome := do
  let (s, simPause) ← processSimulator sp fuel s
  let s := transfer (newQuanta s)
  let s ← handlePause sp simPause s
  let s := schedulingRR s
  if gllFirst s.runningProcess = none ∧ gllFirst s.readyProcess = none then
    if gllFirst s.blockedProcess = none ∧ gllFirst s.processList = none then return .done s
    else
      let s ← idle sp fuel s
      return .next s
  else return .next s

/-! ## The start -/

/-- A line of the trace file, the trace it names, and what `malloc` left in the
fields that `readNextTrace` does not set. -/
structure Process where
  startTime : UInt64
  trace : List NextMem
  ptHitCount : UInt64
  ptMissCount : UInt64
  numberOfDiskInt : UInt64
  numberPageFaults : UInt64

/-- `readNextTrace`. -/
def readNextTrace (w : Process) : Pcb :=
  { startTime := w.startTime
    memoryFile := w.trace
    memReq := []
    hitCount := 0
    missCount := 0
    fracLeft := 0
    osTime := 0
    userTime := 0
    ptHitCount := w.ptHitCount
    ptMissCount := w.ptMissCount
    numberOfDiskInt := w.numberOfDiskInt
    numberPageFaults := w.numberPageFaults }

/-- The blocks of a workload, by number. -/
def pcbs (ws : List Process) (i : Nat) : Pcb :=
  readNextTrace (ws.getD i
    { startTime := 0, trace := [], ptHitCount := 0, ptMissCount := 0, numberOfDiskInt := 0, numberPageFaults := 0 })

/-- `init` and `statsinit`, up to the transfer. The tables are apart and have the
entries that the loops over them visit, which is an assumption: what `init`
allocates is too small for them unless both sizes are 30 (`TablesFit`). -/
def initState (ws : List Process) : Sim :=
  { pcb := pcbs ws
    processList := (List.range ws.length).map some
    readyProcess := []
    runningProcess := []
    blockedProcess := []
    tlb := List.replicate sp.tlbSizeInEntries.toNat { empty := true, accessTime := 0, memAddress := 0 }
    pt := List.replicate pageTableEntries { empty := true, accessTime := 0, memAddress := 0 }
    currentTime := 0
    nextDiskReadTime := 10000
    nextQuanta := quantum
    osTime := 0
    userTime := 0
    numberOfDiskInt := 0
    totalPgFaults := 0
    totalTLBmiss := 0
    numberContextSwitch := 0
    numberPageFaults := 0
    perProcessStats := []
    executionOrder := []
    finished := [] }

/-- `simulate` up to its loop. It exits without any process, and follows a
`NULL` pointer if none is ready. -/
def simulateStart (ws : List Process) : Option Sim :=
  if ws = [] then none
  else
    let s := transfer (initState sp ws)
    let temp := gllFirst s.readyProcess
    let s := { s with
      runningProcess := gllPushBack s.runningProcess temp
      readyProcess := gllPop s.readyProcess }
    match gllFirst s.runningProcess with
    | none => none
    | some temp2 => some { s with executionOrder := s.executionOrder ++ [temp2] }

/-- The fields of `struct TotalStats` that `statsUpdate` sets. -/
structure TotalStats where
  osModetime : UInt64
  userModeTime : UInt64
  numberOfContextSwitch : Int
  endTime : UInt64
  duration : UInt64
  numberOfDiskInt : Int
  totalPgFaults : Int
  totalTLBmiss : Int

/-- `statsUpdate`. -/
def statsUpdate (s : Sim) : TotalStats :=
  { osModetime := s.osTime
    userModeTime := s.userTime
    numberOfContextSwitch := toInt s.numberContextSwitch.toNat
    endTime := s.currentTime
    duration := s.osTime + s.userTime
    numberOfDiskInt := toInt s.numberOfDiskInt.toNat
    totalPgFaults := toInt s.totalPgFaults.toNat
    totalTLBmiss := toInt s.totalTLBmiss.toNat }

end Cmpsc473.Paging
