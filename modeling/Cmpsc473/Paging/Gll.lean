import Mathlib.Algebra.BigOperators.Group.Multiset.Basic
import Mathlib.Tactic
/-!
# The generic linked list (`gll.c`)

The simulator keeps pointers to process control blocks in these lists, and
`NULL` among them: `gll_first` of an empty list is `NULL`, and the simulator
pushes what it gets. A list is modelled by its data pointers in order; a pointer
is the number of the block it points to. `held` counts the blocks of a list and
ignores the `NULL` entries.
-/

namespace Cmpsc473.Paging

/-- `gll_t`: the data of its nodes, `none` for `NULL`. -/
abbrev Gll := List (Option Nat)

/-- `gll_first`: `NULL` for an empty list too. -/
def gllFirst (l : Gll) : Option Nat := l.headD none

/-- `gll_push`. -/
def gllPush (l : Gll) (data : Option Nat) : Gll := data :: l

/-- `gll_pushBack`. -/
def gllPushBack (l : Gll) (data : Option Nat) : Gll := l ++ [data]

/-- `gll_pop`: the list that is left. -/
def gllPop (l : Gll) : Gll := l.tail

/-- The blocks a list points to. -/
def held (l : Gll) : Multiset Nat := (l.filterMap id : List Nat)

@[simp] theorem held_nil : held [] = 0 := rfl

@[simp] theorem held_none (l : Gll) : held (none :: l) = held l := rfl

@[simp] theorem held_some (p : Nat) (l : Gll) : held (some p :: l) = {p} + held l := by
  simp [held]

@[simp] theorem held_pushBack (l : Gll) (p : Nat) : held (gllPushBack l (some p)) = held l + {p} := by
  simp only [held, gllPushBack, List.filterMap_append, ← Multiset.coe_add]
  rfl

theorem first_some {l : Gll} {p : Nat} (h : gllFirst l = some p) : l = some p :: gllPop l := by
  cases l with
  | nil => cases h
  | cons x l => exact congrArg (· :: l) h

theorem held_first {l : Gll} {p : Nat} (h : gllFirst l = some p) : held l = {p} + held (gllPop l) := by
  rw [first_some h]
  exact held_some p _

/-- A list without `NULL` entries that starts with `NULL` is empty. -/
theorem eq_nil_of_first {l : Gll} (hl : none ∉ l) (h : gllFirst l = none) : l = [] := by
  cases l with
  | nil => rfl
  | cons x l => exact absurd (h ▸ List.mem_cons_self) hl

theorem held_eq_zero {l : Gll} (h : ∀ x ∈ l, x = none) : held l = 0 := by
  induction l with
  | nil => rfl
  | cons x l ih =>
    rw [h x List.mem_cons_self]
    exact ih fun y hy => h y (List.mem_cons_of_mem _ hy)

theorem none_notMem_pushBack {l : Gll} (hl : none ∉ l) (p : Nat) : none ∉ gllPushBack l (some p) := by
  simpa [gllPushBack] using hl

theorem none_notMem_pop {l : Gll} (hl : none ∉ l) : none ∉ gllPop l := fun h => hl (List.mem_of_mem_tail h)

end Cmpsc473.Paging
