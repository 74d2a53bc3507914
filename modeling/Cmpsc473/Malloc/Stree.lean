import Cmpsc473.Lib.LinkedTree
/-!
# The splay tree (`stree.c`)

The tree is its nodes in memory. Following `NULL` or a pointer to no node is a
fault: the functions return `none` there, and also where a loop has not ended
after `fuel` rounds. `comparison_count` is left out: nothing but `tree_show`
reads it.
-/

namespace Cmpsc473.Stree

open LinkedTree Function

variable {ρ : Type}

/-- The key of a node and its record. `record` points to user data, so `NULL`
stands for no record. -/
structure Entry (ρ : Type) where
  key : Int
  record : ρ
  deriving DecidableEq

/-- `tree_t`, with the nodes that were allocated. -/
structure Tree (ρ : Type) where
  root : Option Nat
  nodeCount : Nat
  node : Mem (Entry ρ)

/-- `tree_new`. -/
def treeNew : Tree ρ := { root := none, nodeCount := 0, node := fun _ => none }

/-- An assignment to a field of the node at `a`. -/
def Tree.modify (t : Tree ρ) (a : Nat) (f : Node (Entry ρ) → Node (Entry ρ)) : Option (Tree ρ) :=
  (t.node a).map fun n => { t with node := update t.node a (some (f n)) }

/-! ## Helper functions -/

/-- What the rotations and `replace` share: the parent of `u`, or the root, gets
the child `v` instead. -/
def relink (t : Tree ρ) (u : Nat) (v : Option Nat) : Option (Tree ρ) := do
  match (← t.node u).parent with
  | none => some { t with root := v }
  | some p =>
    if (← t.node p).left = some u then t.modify p (·.setChild .left v)
    else t.modify p (·.setChild .right v)

/-- `if (v) v->parent = p`. -/
def reparent (t : Tree ρ) (v p : Option Nat) : Option (Tree ρ) :=
  match v with
  | none => some t
  | some v => t.modify v (·.setParent p)

/-- A rotation of `x` to the side `d`. -/
def rotate (d : Side) (t : Tree ρ) (x : Nat) : Option (Tree ρ) := do
  match (← t.node x).child d.other with
  | none => do
    let t ← relink t x none
    t.modify x (·.setParent none)
  | some y => do
    let c := (← t.node y).child d
    let t ← t.modify x (·.setChild d.other c)
    let c := (← t.node y).child d
    let t ← reparent t c (some x)
    let p := (← t.node x).parent
    let t ← t.modify y (·.setParent p)
    let t ← relink t x (some y)
    let t ← t.modify y (·.setChild d (some x))
    t.modify x (·.setParent (some y))

/-- `left_rotate`. -/
def leftRotate (t : Tree ρ) (x : Nat) : Option (Tree ρ) := rotate .left t x

/-- `right_rotate`. -/
def rightRotate (t : Tree ρ) (x : Nat) : Option (Tree ρ) := rotate .right t x

/-- A round of `splay`'s loop, where the parent of `x` is `p`. -/
def splayRound (t : Tree ρ) (x p : Nat) : Option (Tree ρ) := do
  let np ← t.node p
  match np.parent with
  | none => if np.left = some x then rightRotate t p else leftRotate t p
  | some g => do
    let ng ← t.node g
    if np.left = some x ∧ ng.left = some p then
      let t ← rightRotate t g
      rightRotate t (← (← t.node x).parent)
    else if np.right = some x ∧ ng.right = some p then
      let t ← leftRotate t g
      leftRotate t (← (← t.node x).parent)
    else if np.left = some x ∧ ng.right = some p then
      let t ← rightRotate t p
      leftRotate t (← (← t.node x).parent)
    else
      let t ← leftRotate t p
      rightRotate t (← (← t.node x).parent)

/-- `splay`. -/
def splay : Nat → Tree ρ → Nat → Option (Tree ρ)
  | 0, _, _ => none
  | fuel + 1, t, x => do
    match (← t.node x).parent with
    | none => some t
    | some p => do
      let t ← splayRound t x p
      splay fuel t x

/-- `replace`. -/
def replace (t : Tree ρ) (u : Nat) (v : Option Nat) : Option (Tree ρ) := do
  let t ← relink t u v
  let p := (← t.node u).parent
  reparent t v p

/-- `subtree_minimum`. -/
def subtreeMinimum (t : Tree ρ) : Nat → Nat → Option Nat
  | 0, _ => none
  | fuel + 1, u => do
    match (← t.node u).left with
    | none => some u
    | some l => subtreeMinimum t fuel l

/-! ## The operations -/

/-- How the loop of `tree_insert` ends: the key is in the tree, or the place for
it is below `p`. -/
inductive Place where
  | taken
  | below (p : Option Nat)

/-- The loop of `tree_insert`. -/
def insertLoop (t : Tree ρ) (key : Int) : Nat → (z p : Option Nat) → Option Place
  | 0, _, _ => none
  | _ + 1, none, p => some (.below p)
  | fuel + 1, some z, _ => do
    let n ← t.node z
    if key = n.val.key then some .taken
    else if key > n.val.key then insertLoop t key fuel n.right (some z)
    else insertLoop t key fuel n.left (some z)

/-- The pointer to `z` that `tree_insert` stores. -/
def attach (t : Tree ρ) (z : Nat) : Option Nat → Option (Tree ρ)
  | none => some { t with root := some z }
  | some p => do
    if (← t.node p).val.key < (← t.node z).val.key then t.modify p (·.setChild .right (some z))
    else t.modify p (·.setChild .left (some z))

/-- `tree_insert`, where `malloc` returned `z`. -/
def treeInsert (fuel : Nat) (t : Tree ρ) (key : Int) (record : ρ) (z : Nat) : Option (Tree ρ × Bool) := do
  match ← insertLoop t key fuel t.root none with
  | .taken => some (t, false)
  | .below p => do
    let t := { t with
      node := update t.node z
        (some { left := none, right := none, parent := p, val := { key := key, record := record } }) }
    let t ← attach t z p
    let t ← splay fuel t z
    some ({ t with nodeCount := t.nodeCount + 1 }, true)

/-- The loop of `tree_find`. -/
def findLoop (t : Tree ρ) (key : Int) : Nat → Option Nat → Option (Option ρ)
  | 0, _ => none
  | _ + 1, none => some none
  | fuel + 1, some z => do
    let n ← t.node z
    if key = n.val.key then some (some n.val.record)
    else if key > n.val.key then findLoop t key fuel n.right
    else findLoop t key fuel n.left

/-- `tree_find`. -/
def treeFind (fuel : Nat) (t : Tree ρ) (key : Int) : Option (Option ρ) := findLoop t key fuel t.root

/-- The loop of `tree_find_nearest`. -/
def nearestLoop (t : Tree ρ) (key : Int) : Nat → (z n : Option Nat) → Option (Option ρ)
  | 0, _, _ => none
  | _ + 1, none, none => some none
  | _ + 1, none, some n => do some (some (← t.node n).val.record)
  | fuel + 1, some z, n => do
    let nz ← t.node z
    if key = nz.val.key then some (some nz.val.record)
    else if key > nz.val.key then
      let n ← match n with
        | none => some z
        | some n => do if (← t.node n).val.key < nz.val.key then some z else some n
      nearestLoop t key fuel nz.right (some n)
    else nearestLoop t key fuel nz.left n

/-- `tree_find_nearest`. -/
def treeFindNearest (fuel : Nat) (t : Tree ρ) (key : Int) : Option (Option ρ) := nearestLoop t key fuel t.root none

/-- The loop of `tree_remove`. -/
def removeLoop (t : Tree ρ) (key : Int) : Nat → Option Nat → Option (Option Nat)
  | 0, _ => none
  | _ + 1, none => some none
  | fuel + 1, some z => do
    let n ← t.node z
    if n.val.key ≠ key then
      if key > n.val.key then removeLoop t key fuel n.right
      else removeLoop t key fuel n.left
    else some (some z)

/-- The minimum of the subtree of `r`, the right child of `z`. If it is not `r`
it is taken out, and gets what is left as its right child. -/
def takeMinimum (fuel : Nat) (t : Tree ρ) (z r : Nat) : Option (Nat × Tree ρ) := do
  let y ← subtreeMinimum t fuel r
  if (← t.node y).parent ≠ some z then
    let yr := (← t.node y).right
    let t ← replace t y yr
    let zr := (← t.node z).right
    let t ← t.modify y (·.setChild .right zr)
    let t ← t.modify (← (← t.node y).right) (·.setParent (some y))
    some (y, t)
  else some (y, t)

/-- `y` takes the place of `z`, and its left child. -/
def hoist (t : Tree ρ) (z y : Nat) : Option (Tree ρ) := do
  let t ← replace t z (some y)
  let zl := (← t.node z).left
  let t ← t.modify y (·.setChild .left zl)
  t.modify (← (← t.node y).left) (·.setParent (some y))

/-- What `tree_remove` does once `z` is the root: its children are joined. -/
def unlink (fuel : Nat) (t : Tree ρ) (z : Nat) : Option (Tree ρ) := do
  let nz ← t.node z
  match nz.left, nz.right with
  | none, r => replace t z r
  | l, none => replace t z l
  | some _, some r => do
    let (y, t) ← takeMinimum fuel t z r
    hoist t z y

/-- `tree_remove`. -/
def treeRemove (fuel : Nat) (t : Tree ρ) (key : Int) : Option (Tree ρ × Option ρ) := do
  match ← removeLoop t key fuel t.root with
  | none => some (t, none)
  | some z => do
    let t ← splay fuel t z
    let t ← unlink fuel t z
    let r := (← t.node z).val.record
    some ({ t with nodeCount := t.nodeCount - 1, node := update t.node z none }, some r)

end Cmpsc473.Stree
