import Mathlib.Tactic
/-!
# Arcs of a circular array

`arc cell size start n` reads `n` cells of a circle of `size` cells from
`start` on. A queue in a ring grows the arc at its far end (`arc_snoc`) and
shrinks it at its near end (`arc_cons`); a write past the arc leaves it alone
(`arc_write`).
-/

namespace Cmpsc473.Circular

variable {α : Type}

/-- The `n` cells from `start` on, going round a circle of `size` cells. -/
def arc (cell : Nat → α) (size start n : Nat) : List α :=
  (List.range n).map fun i => cell ((start + i) % size)

@[simp] theorem arc_zero (cell : Nat → α) (size start : Nat) : arc cell size start 0 = [] := rfl

@[simp] theorem length_arc (cell : Nat → α) (size start n : Nat) : (arc cell size start n).length = n := by
  simp [arc]

theorem arc_snoc (cell : Nat → α) (size start n : Nat) :
    arc cell size start (n + 1) = arc cell size start n ++ [cell ((start + n) % size)] := by
  simp [arc, List.range_succ]

theorem arc_cons (cell : Nat → α) (size start n : Nat) :
    arc cell size start (n + 1) = cell (start % size) :: arc cell size ((start + 1) % size) n := by
  simp only [arc, List.range_succ_eq_map, List.map_cons, List.map_map, Nat.add_zero]
  congr 1
  apply List.map_congr_left
  intro i _
  simp only [Function.comp_apply, Nat.succ_eq_add_one]
  rw [Nat.mod_add_mod, show start + (i + 1) = start + 1 + i by omega]

/-- Cells at different offsets below `size` are different cells. -/
theorem offset_inj {size start i j : Nat} (hi : i < size) (hj : j < size)
    (h : (start + i) % size = (start + j) % size) : i = j := by
  have := Nat.ModEq.add_left_cancel' start h
  rwa [Nat.ModEq, Nat.mod_eq_of_lt hi, Nat.mod_eq_of_lt hj] at this

/-- Two circles that agree on the cells of an arc have the same arc. -/
theorem arc_congr {cell cell' : Nat → α} {size start n : Nat}
    (h : ∀ i < n, cell ((start + i) % size) = cell' ((start + i) % size)) :
    arc cell size start n = arc cell' size start n := by
  apply List.map_congr_left
  intro i hi
  exact h i (List.mem_range.1 hi)

/-- A write to the cell just past the arc does not change it. -/
theorem arc_write {cell cell' : Nat → α} {size start n : Nat} (hn : n < size)
    (h : ∀ k, k ≠ (start + n) % size → cell' k = cell k) :
    arc cell' size start n = arc cell size start n :=
  arc_congr fun i hi => h _ fun he => by
    have := offset_inj (by omega) hn he
    omega

end Cmpsc473.Circular
