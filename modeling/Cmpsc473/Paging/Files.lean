import Cmpsc473.Lib.CText
import Cmpsc473.Lib.Touch
import Cmpsc473.Paging.Simulator
/-!
# Reading the files (`fileIO.c`)

A `FILE *` is the list of the lines that are left. `Touch` records the blocks
that strings are copied into, and ends where a file is missing, where the source
calls `exit`, and where it follows what `strtok` returned as `NULL`.
-/

namespace Cmpsc473.Paging.FileIO

open Touch

/-! ## The files -/

/-- `FILE *`: the lines that `getline` has not delivered. -/
abbrev File := List (List UInt8)

/-- The lines of a file, each with its newline. -/
def lines : List UInt8 → File
  | [] => []
  | b :: bs =>
    if b = 10 then [b] :: lines bs
    else
      match lines bs with
      | [] => [[b]]
      | l :: ls => (b :: l) :: ls

/-- The bytes of a literal. -/
def text (s : String) : List UInt8 := s.toList.map fun c => UInt8.ofNat c.toNat

/-- The string at the front of `m`. -/
def cstrAt (m : List UInt8) : CStr where
  bytes := cstr m
  noNul := cstr_noNul m

/-- What `strcat` leaves. -/
def strcat (s t : CStr) : CStr where
  bytes := s.bytes ++ t.bytes
  noNul h := (List.mem_append.1 h).elim s.noNul t.noNul

/-- What `malloc` returns for a line of a trace: the addresses of the `NextMem`
and of its string, and what lies in memory behind the line in its own buffer. -/
structure LineBlocks where
  self : Nat
  addressPtr : UInt64
  behind : List UInt8

/-- What the simulator is run on: `argv[1]`, the files by their names, `atof`, and
what `malloc` returns for the processes and for the lines of their traces. -/
structure Workload where
  traceFileName : CStr
  files : List UInt8 → Option (List UInt8)
  atof : List UInt8 → ℚ
  pcb : Nat → Process
  blocks : Nat → Nat → LineBlocks

/-! ## Opening a trace -/

def foldername : CStr := ⟨text "traces/", by decide⟩

def extension : CStr := ⟨text ".txt", by decide⟩

/-- The string `s` is copied behind the first `start` bytes of a block. -/
def copyString (bytes start : Nat) (s : CStr) : Touch Unit :=
  Touch.touch [{ bytes := bytes, stop := start + s.strlen + 1 }]

theorem copyString_safe {bytes start : Nat} {s : CStr} :
    (copyString bytes start s).Safe ↔ start + s.strlen + 1 ≤ bytes := by
  simp [copyString, Access.InBounds]

/-- `openTrace`. The block has the sizes of two pointers, not of what they point to. -/
def openTrace (w : Workload) (traceName : CStr) : Touch File := do
  let filename := 8 + 8 + 1
  copyString filename 0 foldername
  copyString filename foldername.strlen traceName
  let content ← Touch.ofOption (w.files (strcat foldername traceName).bytes)
  return lines content

theorem openTrace_safe (w : Workload) (traceName : CStr) : (openTrace w traceName).Safe ↔ traceName.strlen ≤ 9 := by
  have hfolder : foldername.strlen = 7 := rfl
  simp only [openTrace, safe_bind, copyString_safe, hfolder, safe_ofOption, safe_pure]
  constructor
  · rintro ⟨-, h⟩
    have := (h () rfl).1
    omega
  · intro h
    refine ⟨by omega, fun _ _ => ⟨by omega, fun _ _ => ⟨trivial, fun _ _ => trivial⟩⟩⟩

theorem openTrace_result (w : Workload) (traceName : CStr) :
    (openTrace w traceName).result = (w.files (strcat foldername traceName).bytes).map lines := by
  simp [openTrace, copyString, Option.map_eq_bind]

/-! ## The list of processes -/

/-- What `readNextTrace` sets from the line. -/
structure Trace where
  name : CStr
  memoryFilename : CStr
  startTime : UInt64

/-- The tokens that `readNextTrace` takes for no data. -/
def noData : List (List UInt8) := [text "", text "\n", text " "]

/-- `readNextTrace`, for the line that `getline` delivers. -/
def readNextTrace (line : List UInt8) : Touch (Option Trace) := do
  let call := strtok 32 line
  let token ← Touch.ofOption call.token
  if token.bytes ∈ noData then return none
  else
    let filename := 8 + 8 + 1
    copyString filename 0 token
    copyString filename token.strlen extension
    let start ← Touch.ofOption (strtok 32 call.rest).token
    return some
      { name := token
        memoryFilename := strcat token extension
        startTime := UInt64.ofInt (atoi start.bytes) }

theorem readNextTrace_safe (line : List UInt8) :
    (readNextTrace line).Safe ↔
      ∀ token, (strtok 32 line).token = some token → token.bytes ∉ noData → token.strlen ≤ 12 := by
  have hextension : extension.strlen = 4 := rfl
  simp only [readNextTrace, safe_bind, safe_ite, copyString_safe, hextension, safe_ofOption, safe_pure, result_ofOption]
  constructor
  · rintro ⟨-, h⟩ token htoken hdata
    have := (((h token htoken).2 hdata).2 () rfl).1
    omega
  · intro h
    refine ⟨trivial, fun token htoken => ⟨fun _ => trivial, fun hdata => ?_⟩⟩
    have := h token htoken hdata
    refine ⟨by omega, fun _ _ => ⟨by omega, fun _ _ => ⟨trivial, fun _ _ => trivial⟩⟩⟩

/-! ## A trace -/

/-- The second token of a line. -/
def secondToken (line : List UInt8) : Option CStr := (strtok 32 (strtok 32 line).rest).token

/-- `readNumIns`: the number, and the file behind its line. -/
def readNumIns : File → Option (Int × File)
  | [] => none
  | line :: fptr => (secondToken line).map fun token => (atoi token.bytes, fptr)

/-- The buffer of the line after `line[strcspn(line, "\n")] = '\0'`. -/
def LineBlocks.buffer (b : LineBlocks) (line : List UInt8) : List UInt8 :=
  let m := line ++ [0] ++ b.behind
  m.set (m.takeWhile fun c => c ≠ 10 && c ≠ 0).length 0

/-- `readNextMem`, for the line that `getline` delivers. The block for the
address has the size of a `size_t`. -/
def readNextMem (b : LineBlocks) (line : List UInt8) : Touch NextMem := do
  let line := b.buffer line
  if cstr line = text "NONMEM" then return { self := b.self, type := .nonmem, address := [], addressPtr := 0 }
  else
    let address := 8
    copyString address 0 (cstrAt (line.drop 4))
    return { self := b.self, type := .mem, address := cstr (line.drop 4), addressPtr := b.addressPtr }

/-- The string of an instruction fits: a `MEM` line has at most seven characters
from the fifth on. -/
def MemFits (b : LineBlocks) (line : List UInt8) : Prop :=
  cstr (b.buffer line) ≠ text "NONMEM" → (cstr ((b.buffer line).drop 4)).length ≤ 7

theorem readNextMem_safe (b : LineBlocks) (line : List UInt8) : (readNextMem b line).Safe ↔ MemFits b line := by
  simp only [readNextMem, safe_ite, safe_bind, copyString_safe, safe_pure, MemFits, CStr.strlen, cstrAt]
  constructor
  · rintro ⟨-, h⟩ hne
    have := (h hne).1
    omega
  · intro h
    refine ⟨fun _ => trivial, fun hne => ⟨?_, fun _ _ => trivial⟩⟩
    have := h hne
    omega

/-- A line that ends with a newline, and has four characters or more, is cut off
before anything that lies behind it is read. -/
theorem memFits_line {b : LineBlocks} {l : List UInt8} (hl : ∀ c ∈ l, c ≠ 10 ∧ c ≠ 0) (h4 : 4 ≤ l.length)
    (hne : l ≠ text "NONMEM") : MemFits b (l ++ [10]) ↔ l.length ≤ 11 := by
  have hstop : ∀ c ∈ (10 :: 0 :: b.behind).head?, (decide (c ≠ 10) && decide (c ≠ 0)) = false := by simp
  have htake : (l ++ 10 :: 0 :: b.behind).takeWhile (fun c => decide (c ≠ 10) && decide (c ≠ 0)) = l := by
    rw [takeWhile_append_stop _ hstop, List.takeWhile_eq_self_iff]
    intro c hc
    simpa using hl c hc
  have hbuffer : b.buffer (l ++ [10]) = l ++ 0 :: 0 :: b.behind := by
    simp only [LineBlocks.buffer, List.append_assoc, List.cons_append, List.nil_append, htake]
    rw [List.set_append_right _ _ le_rfl, Nat.sub_self, List.set_cons_zero]
  have hcstr : ∀ k, cstr (l.drop k ++ 0 :: 0 :: b.behind) = l.drop k := by
    intro k
    rw [cstr, takeWhile_append_stop _ (by simp), List.takeWhile_eq_self_iff]
    intro c hc
    simpa using (hl c (List.mem_of_mem_drop hc)).2
  have haddress : (b.buffer (l ++ [10])).drop 4 = l.drop 4 ++ 0 :: 0 :: b.behind := by
    rw [hbuffer, List.drop_append_of_le_length h4]
  have hwhole : cstr (b.buffer (l ++ [10])) = l := by
    rw [hbuffer]
    exact hcstr 0
  rw [MemFits, hwhole, haddress, hcstr 4, List.length_drop]
  constructor
  · intro h
    have := h hne
    omega
  · intro h _
    omega

/-- The loop that calls `readNextMem` until it returns `NULL`, from line `i` on. -/
def readMems (blocks : Nat → LineBlocks) : Nat → File → Touch (List NextMem)
  | _, [] => return []
  | i, line :: fptr => do
    let tempAddr ← readNextMem (blocks i) line
    let rest ← readMems blocks (i + 1) fptr
    return tempAddr :: rest

/-- The value of `readNextMem` is there in any case. -/
theorem readNextMem_result (b : LineBlocks) (line : List UInt8) : ∃ addr, (readNextMem b line).result = some addr := by
  unfold readNextMem
  dsimp only
  split <;> exact ⟨_, rfl⟩

theorem readMems_safe (blocks : Nat → LineBlocks) (i : Nat) (fptr : File) :
    (readMems blocks i fptr).Safe ↔ ∀ j line, fptr[j]? = some line → MemFits (blocks (i + j)) line := by
  induction fptr generalizing i with
  | nil => simp [readMems]
  | cons line fptr ih =>
    obtain ⟨addr, haddr⟩ := readNextMem_result (blocks i) line
    have hsafe : (readMems blocks i (line :: fptr)).Safe ↔
        MemFits (blocks i) line ∧ (readMems blocks (i + 1) fptr).Safe := by
      simp [readMems, safe_bind, readNextMem_safe, haddr]
    rw [hsafe, ih]
    constructor
    · rintro ⟨h0, h⟩ j l hl
      cases j with
      | zero => exact Option.some.inj hl ▸ h0
      | succ j => exact Nat.add_right_comm i j 1 ▸ h j l hl
    · intro h
      refine ⟨h 0 line rfl, fun j l hl => ?_⟩
      have := h (j + 1) l hl
      rwa [← Nat.add_assoc, Nat.add_right_comm] at this

/-- What `init` and `simulate` do for process `p` when it becomes ready. -/
def loadTrace (w : Workload) (p : Nat) (t : Trace) : Touch (List NextMem) := do
  let memoryFile ← openTrace w t.memoryFilename
  let numOfIns ← Touch.ofOption (readNumIns memoryFile)
  readMems (w.blocks p) 0 numOfIns.2

/-- The file name of a trace fits, and so do the strings of its instructions, if
the file is there and starts with the number of them. -/
structure TraceFits (w : Workload) (p : Nat) (t : Trace) : Prop where
  memoryFilename : t.memoryFilename.strlen ≤ 9
  memReq : ∀ content, w.files (strcat foldername t.memoryFilename).bytes = some content →
    ∀ numOfIns fptr, readNumIns (lines content) = some (numOfIns, fptr) →
      ∀ i line, fptr[i]? = some line → MemFits (w.blocks p i) line

theorem loadTrace_safe (w : Workload) (p : Nat) (t : Trace) : (loadTrace w p t).Safe ↔ TraceFits w p t := by
  simp only [loadTrace, safe_bind, openTrace_safe, openTrace_result, safe_ofOption, result_ofOption, true_and,
    readMems_safe, Option.map_eq_some_iff, Nat.zero_add]
  constructor
  · rintro ⟨hname, h⟩
    exact ⟨hname, fun content hfile numOfIns fptr hnum => h _ ⟨content, hfile, rfl⟩ (numOfIns, fptr) hnum⟩
  · rintro ⟨hname, h⟩
    refine ⟨hname, ?_⟩
    rintro _ ⟨content, hfile, rfl⟩ ⟨numOfIns, fptr⟩ hnum
    exact h content hfile numOfIns fptr hnum

/-! ## The parameters -/

/-- The fields of `struct SystemParameters` that the simulator reads, with the
one that only `init` reads. -/
structure Params extends SysParam where
  dramSizeInMB : Int

/-- A line of `readSysParam`: the token with the value. -/
def readParam : File → Option (List UInt8 × File)
  | [] => none
  | line :: fptr => (secondToken line).map fun token => (token.bytes, fptr)

/-- `readSysParam`. -/
def readSysParam (atof : List UInt8 → ℚ) (fptr : File) : Option (Params × File) := do
  -- two comment lines; whether they are there is not checked
  let fptr := fptr.drop 2
  let (nonMemInstLength, fptr) ← readParam fptr
  let (_virtualAddrSizeInBits, fptr) ← readParam fptr
  let (dramSizeInMB, fptr) ← readParam fptr
  let (tlbSizeInEntries, fptr) ← readParam fptr
  let (_tlbLatency, fptr) ← readParam fptr
  let (_dramLatency, fptr) ← readParam fptr
  let (swapLatency, fptr) ← readParam fptr
  let (_pageFaultTrapHandlingTime, fptr) ← readParam fptr
  let (swapInterruptHandlingTime, fptr) ← readParam fptr
  let (_tlbType, fptr) ← readParam fptr
  let (_tlbReplacementPolicy, fptr) ← readParam fptr
  let fptr := fptr.tail
  let (_pInBits, fptr) ← readParam fptr
  let (fracMemInst, fptr) ← readParam fptr
  let (_numPagetableLevels, fptr) ← readParam fptr
  let (_n1InBits, fptr) ← readParam fptr
  let (_n2InBits, fptr) ← readParam fptr
  let (_n3InBits, fptr) ← readParam fptr
  let (_pageReplacementPolicy, fptr) ← readParam fptr
  let (_numProcs, fptr) ← readParam fptr
  return (
    { nonMemInstLength := UInt64.ofInt (atoi nonMemInstLength)
      swapLatency := UInt64.ofInt (atoi swapLatency)
      swapInterruptHandlingTime := UInt64.ofInt (atoi swapInterruptHandlingTime)
      tlbSizeInEntries := atoi tlbSizeInEntries
      fracMemInst := atof fracMemInst
      dramSizeInMB := atoi dramSizeInMB }, fptr.tail)

end Cmpsc473.Paging.FileIO
