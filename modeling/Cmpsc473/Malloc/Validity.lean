import Cmpsc473.Malloc.Ranges
/-!
# The validity check of the driver (`mdriver.c`)

`eval_mm_valid` runs the requests of a trace through the allocator. It records
the extents of the payloads and, unless checking is off, fills every block with
random bytes and looks whether they are still there.

A check returns, reports an error, or faults: by an access outside the mapped
region, an index outside the trace's arrays, or a loop over pointers that has not
ended after as many rounds as it may take.
-/

namespace Cmpsc473.Malloc

open LinkedList Function

/-- The `type` of a `traceop_t`. -/
inductive OpType where
  | alloc
  | free
  | realloc
  deriving DecidableEq

/-- `traceop_t`. -/
structure TraceOp where
  type : OpType
  index : Int
  size : UInt64
  deriving DecidableEq

/-- What never changes: `debug_mode`, `random_data`, and the length of the
trace's arrays. -/
structure Setup where
  mode : DebugMode
  randomData : Nat → UInt8
  numIds : Nat

/-- The simulated heap, the ranges, and the arrays of the trace. -/
structure Driver where
  heap : Heap
  ranges : RangeSet
  blocks : Nat → Nat
  blockSizes : Nat → Nat
  blockRandBase : Nat → Nat

/-- What is decided elsewhere in one request: what `random` returns, what `malloc`
returns for a range and for a node, and how many rounds a loop over pointers may
take. -/
structure Choice where
  random : Nat
  range : Nat
  node : Nat
  fuel : Nat

/-- What is reported: the calls of `malloc_error`. -/
inductive DriverError where
  | mmInitFailed
  | mmCheckheapFalse
  | mmMallocFailed
  | mmReallocFailed
  | mmReallocNotNull
  | range (e : RangeError)
  | garbled (index : Int) (count first : Nat)
  deriving DecidableEq

/-- A check, `none` for a fault. -/
abbrev Check := ExceptT DriverError Option

/-- The check returns `a`. -/
def Passes {α : Type} (x : Check α) (a : α) : Prop := x.run = some (.ok a)

/-- `if (!b) { malloc_error(..); return false; }`. -/
def ensure (b : Bool) (e : DriverError) : Check Unit := if b then pure () else throw e

/-- An index of the trace's arrays. -/
def slot (numIds : Nat) (index : Int) : Option Nat := if 0 ≤ index ∧ index < numIds then some index.toNat else none

/-! ## Random data -/

/-- `RANDOM_DATA_LEN`. -/
def randomDataLen : Nat := 1 <<< 16

/-- `MAXFILL`, the value of `maxfill`. -/
def maxfill : Nat := 1024

/-- The bytes of a block that are filled: `fsize` at its start and `fsize_end`
from `block_end` on, which is `offset` bytes into the block. -/
structure Span where
  fsize : Nat
  fsizeEnd : Nat
  offset : Nat

/-- What `randomize_block` and `check_index` compute of the block's size. -/
def span (size : Nat) : Span :=
  if size > maxfill then
    if size > 2 * maxfill then { fsize := maxfill, fsizeEnd := maxfill, offset := size - maxfill }
    else { fsize := maxfill, fsizeEnd := size - maxfill, offset := maxfill }
  else { fsize := size, fsizeEnd := 0, offset := 0 }

variable (s : Setup)

/-- The byte that belongs at place `i` of a block. -/
def Setup.byte (base i : Nat) : UInt8 := s.randomData ((base + i) % randomDataLen)

/-- The first `n` rounds of a loop of `randomize_block`. -/
def fillBytes (h : Heap) (a base : Nat) : Nat → Option Heap
  | 0 => some h
  | n + 1 => do
    let h ← fillBytes h a base n
    memWrite h (a + n) (s.byte base n).toNat 1

/-- `randomize_block`, where `random` returned `random`. -/
def randomizeBlock (d : Driver) (i random : Nat) : Option Driver :=
  if s.mode = .dbgNone then some d
  else
    let d := { d with blockRandBase := update d.blockRandBase i random }
    let size := d.blockSizes i
    if size = 0 then some d
    else do
      let sp := span size
      let base := d.blockRandBase i
      let h ← fillBytes s d.heap (d.blocks i) base sp.fsize
      let h ← fillBytes s h (d.blocks i + sp.offset) base sp.fsizeEnd
      some { d with heap := h }

/-- `ngarbled`, and `firstgarbled` if it is not -1. -/
structure Garbled where
  count : Nat
  first : Option Nat
  deriving DecidableEq

/-- The first `n` rounds of a loop of `check_index`. -/
def checkBytes (h : Heap) (a base : Nat) (g : Garbled) : Nat → Option Garbled
  | 0 => some g
  | n + 1 => do
    let g ← checkBytes h a base g n
    let data ← memRead h (a + n) 1
    if data ≠ (s.byte base n).toNat then some { count := g.count + 1, first := g.first <|> some n } else some g

/-- `check_index`. -/
def checkIndex (d : Driver) (index : Int) (realloc : Bool) : Check Unit :=
  if index < 0 then pure ()
  else if s.mode = .dbgNone then pure ()
  else do
    let i ← slot s.numIds index
    let size := d.blockSizes i
    if size = 0 then pure ()
    else do
      let sp := span size
      let base := d.blockRandBase i
      let g ← checkBytes s d.heap (d.blocks i) base { count := 0, first := none } sp.fsize
      let g ← checkBytes s d.heap (d.blocks i + sp.offset) base g (if realloc then 0 else sp.fsizeEnd)
      ensure (g.count = 0) (.garbled index g.count (g.first.getD 0))

/-! ## The requests -/

/-- The loop over the ranges, with checking set to expensive. -/
def checkRanges (d : Driver) : Nat → Option Nat → Check Unit
  | 0, _ => (none : Option Unit)
  | _ + 1, none => pure ()
  | fuel + 1, some r => do
    let n ← d.ranges.range r
    checkIndex s d n.val.index false
    checkRanges d fuel n.next

/-- What is checked before every request. -/
def checkHeap (c : Choice) (d : Driver) : Check Unit :=
  if s.mode = .dbgExpensive then do
    ensure mmCheckheap .mmCheckheapFalse
    checkRanges s d c.fuel d.ranges.list
  else pure ()

/-- The call of `add_range` for a block that was allocated. -/
def addBlock (c : Choice) (d : Driver) (lo size : Nat) (index : Int) : Check RangeSet :=
  ExceptT.mk ((addRange c.fuel s.mode d.heap d.ranges lo size index c.range c.node).map (·.mapError .range))

/-- `ALLOC`. -/
def evalAlloc (c : Choice) (d : Driver) (index : Int) (size : UInt64) : Check Driver := do
  let (p, h) := malloc d.heap size
  ensure (p ≠ null) .mmMallocFailed
  let d := { d with heap := h }
  let ranges ← addBlock s c d p size.toNat index
  let i ← slot s.numIds index
  randomizeBlock s { d with
    ranges := ranges, blocks := update d.blocks i p, blockSizes := update d.blockSizes i size.toNat } i c.random

/-- `REALLOC`. -/
def evalRealloc (c : Choice) (d : Driver) (index : Int) (size : UInt64) : Check Driver := do
  checkIndex s d index false
  let i ← slot s.numIds index
  let oldp := d.blocks i
  let (newp, h) ← realloc d.heap oldp size
  ensure (newp ≠ null ∨ size = 0) .mmReallocFailed
  ensure (newp = null ∨ size ≠ 0) .mmReallocNotNull
  let d := { d with heap := h }
  let ranges ← removeRange c.fuel d.ranges oldp
  let d := { d with ranges := ranges }
  let ranges ← if size > 0 then addBlock s c d newp size.toNat index else pure d.ranges
  let old := d.blockSizes i
  let d := { d with
    ranges := ranges, blocks := update d.blocks i newp, blockSizes := update d.blockSizes i (min size.toNat old) }
  checkIndex s d index true
  randomizeBlock s { d with blockSizes := update d.blockSizes i size.toNat } i c.random

/-- `FREE`. The index -1 stands for `NULL`. -/
def evalFree (c : Choice) (d : Driver) (index : Int) : Check Driver := do
  checkIndex s d index false
  if index = -1 then pure { d with heap := free d.heap null }
  else do
    let i ← slot s.numIds index
    let p := d.blocks i
    let ranges ← removeRange c.fuel d.ranges p
    pure { d with heap := free d.heap p, ranges := ranges }

/-- The `switch` of `eval_mm_valid`. -/
def evalRequest (c : Choice) (op : TraceOp) (d : Driver) : Check Driver :=
  match op.type with
  | .alloc => evalAlloc s c d op.index op.size
  | .realloc => evalRealloc s c d op.index op.size
  | .free => evalFree s c d op.index

/-- The body of the loop of `eval_mm_valid`. -/
def evalOp (c : Choice) (op : TraceOp) (d : Driver) : Check Driver := do
  checkHeap s c d
  evalRequest s c op d

/-- The loop, from the request with the number `k` on. -/
def evalOps (choice : Nat → Choice) : Nat → List TraceOp → Driver → Check Driver
  | _, [], d => pure d
  | k, op :: ops, d => do
    let d ← evalOp s (choice k) op d
    evalOps choice (k + 1) ops d

/-- `mem_reset_brk` and `reinit_trace`. -/
def restart (d : Driver) : Driver :=
  { d with heap := memResetBrk d.heap, blocks := fun _ => null, blockSizes := fun _ => 0 }

/-- `eval_mm_valid`. -/
def evalMmValid (choice : Nat → Choice) (ops : List TraceOp) (d : Driver) : Check Driver := do
  let d := restart d
  ensure mmInit .mmInitFailed
  evalOps s choice 0 ops d

end Cmpsc473.Malloc
