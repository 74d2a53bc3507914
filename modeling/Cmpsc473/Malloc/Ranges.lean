import Cmpsc473.Lib.LinkedList
import Cmpsc473.Malloc.RangeTree
import Cmpsc473.Malloc.Mm
/-!
# The ranges of the driver (`mdriver.c`)

The driver records the extent of every allocated payload twice: in a list linked
by address, and in a tree with the low addresses as keys. `add_range` finds the
neighbours of a payload through the tree and takes the new range into both.

Following a pointer to no range is a fault, and so is a failed `assert`: the
functions return `none` there.
-/

namespace Cmpsc473.Malloc

open LinkedList Function Stree

/-- `debug_mode_t`. -/
inductive DebugMode where
  | dbgNone
  | dbgCheap
  | dbgExpensive
  deriving DecidableEq

/-- The payload and the index of a `range_t`. -/
structure Extent where
  lo : Nat
  hi : Nat
  index : Int
  deriving DecidableEq

/-- `range_set_t`, with the `range_t`s that were allocated. -/
structure RangeSet where
  list : Option Nat
  loTree : Stree.Tree Nat
  range : Mem Extent

/-- `new_range_set`. -/
def newRangeSet : RangeSet := { list := none, loTree := treeNew, range := fun _ => none }

/-- What `add_range` reports: a payload address that is not aligned, a payload
that lies outside the heap, and one that overlaps another payload. -/
inductive RangeError where
  | notAligned (lo : Nat)
  | outsideHeap (lo hi heapLo heapHi : Nat)
  | overlaps (lo hi lo' hi' : Nat)
  deriving DecidableEq

/-- `IS_ALIGNED`. -/
def isAligned (p : Nat) : Bool := p % 16 = 0

/-- A pointer converted to a `tkey_t`, which is a `long`. -/
def toKey (p : Nat) : Int := ((p : Int) + 9223372036854775808) % 18446744073709551616 - 9223372036854775808

/-- `p ? p->next : NULL`. -/
def nextOf (range : Mem Extent) (p : Option Nat) : Option (Option Nat) :=
  match p with
  | none => some none
  | some a => (range a).map Node.next

/-- The range at `p`, if there is one and it meets `test`. -/
def clash (range : Mem Extent) (p : Option Nat) (test : Extent → Bool) : Option (Option Extent) :=
  match p with
  | none => some none
  | some a => (range a).map fun n => if test n.val then some n.val else none

/-- The part of `add_range` that runs with checking on, where `malloc` returned
`p` for the range and `z` for the node of the tree. -/
def checkRange (fuel : Nat) (rs : RangeSet) (lo hi : Nat) (index : Int) (p z : Nat) :
    Option (Except RangeError RangeSet) := do
  let prev ← treeFindNearest fuel rs.loTree (toKey lo)
  let next ← nextOf rs.range prev
  match ← clash rs.range prev fun e => lo ≤ e.hi with
  | some e => some (.error (.overlaps lo hi e.lo e.hi))
  | none =>
    match ← clash rs.range next fun e => hi ≥ e.lo with
    | some e => some (.error (.overlaps lo hi e.lo e.hi))
    | none => do
      let range := update rs.range p
        (some { next := next, prev := prev, val := { lo := lo, hi := hi, index := index } })
      let (range, list) ← splice range rs.list prev (some p) next (some p)
      let (tree, _) ← treeInsert fuel rs.loTree (toKey lo) p z
      some (.ok { list := list, loTree := tree, range := range })

/-- `add_range`. -/
def addRange (fuel : Nat) (mode : DebugMode) (h : Heap) (rs : RangeSet) (lo size : Nat) (index : Int) (p z : Nat) :
    Option (Except RangeError RangeSet) :=
  if size = 0 then none
  else
    let hi := (lo + size - 1) % 18446744073709551616
    if !isAligned lo then some (.error (.notAligned lo))
    else if lo < memHeapLo h ∨ lo > memHeapHi h ∨ hi < memHeapLo h ∨ hi > memHeapHi h then
      some (.error (.outsideHeap lo hi (memHeapLo h) (memHeapHi h)))
    else if mode = .dbgNone then some (.ok rs)
    else checkRange fuel rs lo hi index p z

/-- `remove_range`. -/
def removeRange (fuel : Nat) (rs : RangeSet) (lo : Nat) : Option RangeSet := do
  let (tree, p) ← treeRemove fuel rs.loTree (toKey lo)
  match p with
  | none => some { rs with loTree := tree }
  | some p => do
    let n ← rs.range p
    let (range, list) ← splice rs.range rs.list n.prev n.next n.next n.prev
    some { list := list, loTree := tree, range := update range p none }

/-! ## What is recorded -/

/-- The tree holds a range with the extent. -/
def Recorded (rs : RangeSet) (e : Extent) : Prop :=
  ∃ m k p n, Represents rs.loTree m ∧ m k = some p ∧ rs.range p = some n ∧ n.val = e

/-- The address is in the payload. -/
def Extent.Covers (e : Extent) (a : Nat) : Prop := e.lo ≤ a ∧ a ≤ e.hi

/-- No address is in both payloads. -/
def Extent.Apart (e e' : Extent) : Prop := ∀ a, ¬(e.Covers a ∧ e'.Covers a)

/-- The list holds exactly the ranges of the tree, in strictly ascending order,
linked both ways, and they are disjoint. -/
structure Agrees (rs : RangeSet) (m : Bindings Nat) (cs : List (Cell Extent)) : Prop where
  tree : Represents rs.loTree m
  list : IsList rs.range rs.list cs
  same : ∀ k p, m k = some p ↔ ∃ c ∈ cs, c.ptr = p ∧ toKey c.val.lo = k
  ascending : cs.Pairwise fun c d => c.val.lo < d.val.lo
  apart : cs.Pairwise fun c d => c.val.Apart d.val
  payload : ∀ c ∈ cs, c.val.lo ≤ c.val.hi ∧ c.val.hi < 140737488355328

end Cmpsc473.Malloc
