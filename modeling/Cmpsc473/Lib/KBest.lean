import Mathlib.Data.List.Sort
import Mathlib.Order.Bounds.Basic
/-!
# The `k` least of a list

Keeping the `k` least values seen so far by inserting each new value into them and
dropping what comes after the first `k`.
-/

namespace Cmpsc473.KBest

variable {α : Type} [LinearOrder α] {l s p : List α} {x y : α} {k : Nat}

/-- The `k` least values of `l`, in ascending order. -/
def kBest (k : Nat) (l : List α) : List α := (l.insertionSort (· ≤ ·)).take k

theorem take_orderedInsert :
    ((s.take k).orderedInsert (· ≤ ·) x).take k = (s.orderedInsert (· ≤ ·) x).take k := by
  induction s generalizing k with
  | nil => simp
  | cons y s ih =>
    cases k with
    | zero => rfl
    | succ k =>
      by_cases hxy : x ≤ y
      · cases k <;> simp [hxy, List.take_take]
      · simp [hxy, ih]

/-- A value that is not below the last one goes to the end. -/
theorem orderedInsert_last (hs : (p ++ [y]).Pairwise (· ≤ ·)) (hyx : y ≤ x) :
    (p ++ [y]).orderedInsert (· ≤ ·) x = p ++ [y] ++ [x] := by
  have hp : ((p ++ [y]).orderedInsert (· ≤ ·) x).Perm (p ++ [y] ++ [x]) :=
    (List.perm_orderedInsert _ x _).trans (List.perm_append_singleton x _).symm
  apply hp.eq_of_pairwise' (hs.orderedInsert x _)
  obtain ⟨-, -, hle⟩ := List.pairwise_append.1 hs
  rw [List.pairwise_append]
  refine ⟨hs, List.pairwise_singleton _ x, fun z hz w hw => ?_⟩
  rw [List.mem_singleton.1 hw]
  rcases List.mem_append.1 hz with hz | hz
  · exact (hle z hz y (List.mem_singleton_self y)).trans hyx
  · rw [List.mem_singleton.1 hz]
    exact hyx

/-- A value below the last one goes before it. -/
theorem orderedInsert_concat (hxy : x ≤ y) : (p ++ [y]).orderedInsert (· ≤ ·) x = p.orderedInsert (· ≤ ·) x ++ [y] := by
  induction p with
  | nil => simp [hxy]
  | cons z p ih =>
    by_cases hxz : x ≤ z
    · simp [hxz]
    · simp [hxz, ih]

@[simp] theorem kBest_nil : kBest k ([] : List α) = [] := by simp [kBest]

/-- One more value. -/
theorem kBest_cons : kBest k (x :: l) = ((kBest k l).orderedInsert (· ≤ ·) x).take k := by
  rw [kBest, List.insertionSort_cons, kBest, take_orderedInsert]

@[simp] theorem length_kBest : (kBest k l).length = min k l.length := by simp [kBest]

theorem pairwise_kBest : (kBest k l).Pairwise (· ≤ ·) := (List.pairwise_insertionSort _ l).take

/-- The first of them is the least value of the list. -/
theorem isLeast_kBest (hx : (kBest k l)[0]? = some x) : IsLeast {y | y ∈ l} x := by
  obtain ⟨h0, hx⟩ := List.getElem?_eq_some_iff.1 hx
  have hsorted : (l.insertionSort (· ≤ ·)).Pairwise (· ≤ ·) := List.pairwise_insertionSort _ l
  simp only [kBest, List.getElem_take] at hx
  subst hx
  refine ⟨(List.mem_insertionSort _).1 (List.getElem_mem _), fun y hy => ?_⟩
  obtain ⟨i, hi, rfl⟩ := List.mem_iff_getElem.1 ((List.mem_insertionSort (· ≤ ·)).2 hy)
  rcases i.eq_zero_or_pos with rfl | hpos
  · exact le_rfl
  · exact List.pairwise_iff_getElem.1 hsorted 0 i _ hi hpos

end Cmpsc473.KBest
