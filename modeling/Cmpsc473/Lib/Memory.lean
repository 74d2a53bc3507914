import Cmpsc473.Lib.CData
/-!
# Byte-addressed memory

A memory is a function from addresses to bytes. `fetch` reads a run of bytes
and `store` writes one; the lemmas say how they meet. A `Block` is an address
with a size; blocks that lie below a bound stay disjoint when one is added above
it.
-/

namespace Cmpsc473.Memory

/-- The `n` bytes from address `a` on. -/
def fetch (m : Nat → UInt8) (a n : Nat) : List UInt8 := (List.range n).map fun i => m (a + i)

/-- The memory after `bs` was written from address `a` on. -/
def store (m : Nat → UInt8) (a : Nat) (bs : List UInt8) : Nat → UInt8 :=
  fun i => if a ≤ i ∧ i < a + bs.length then bs.getD (i - a) 0 else m i

variable {m : Nat → UInt8} {a b n k : Nat} {bs cs : List UInt8}

@[simp] theorem length_fetch (m : Nat → UInt8) (a n : Nat) : (fetch m a n).length = n := by simp [fetch]

/-- A write leaves the addresses outside it alone. -/
theorem store_outside (h : b < a ∨ a + bs.length ≤ b) : store m a bs b = m b := if_neg (by omega)

theorem store_inside {i : Nat} (h : i < bs.length) : store m a bs (a + i) = bs.getD i 0 := by
  rw [store, if_pos ⟨Nat.le_add_right _ _, by omega⟩, Nat.add_sub_cancel_left]

@[simp] theorem store_nil (m : Nat → UInt8) (a : Nat) : store m a [] = m := by
  funext i
  exact store_outside (by simp; omega)

/-- Two writes in a row are one. -/
theorem store_store (m : Nat → UInt8) (a : Nat) (bs cs : List UInt8) :
    store (store m a bs) (a + bs.length) cs = store m a (bs ++ cs) := by
  funext i
  by_cases h1 : i < a
  · rw [store_outside (.inl (by omega)), store_outside (.inl h1), store_outside (.inl h1)]
  by_cases h2 : a + bs.length + cs.length ≤ i
  · rw [store_outside (.inr h2), store_outside (.inr (by omega)),
      store_outside (.inr (by rw [List.length_append]; omega))]
  obtain ⟨j, rfl⟩ := Nat.exists_eq_add_of_le (Nat.le_of_not_lt h1)
  rw [store_inside (by rw [List.length_append]; omega)]
  by_cases h3 : j < bs.length
  · rw [store_outside (.inl (by omega)), store_inside h3]
    simp [List.getD, List.getElem?_append_left h3]
  · obtain ⟨k, rfl⟩ := Nat.exists_eq_add_of_le (Nat.le_of_not_lt h3)
    rw [← Nat.add_assoc, store_inside (by omega)]
    simp [List.getD, List.getElem?_append_right]

/-- Reading at two places in a row reads one run. -/
theorem fetch_append (m : Nat → UInt8) (a n k : Nat) : fetch m a n ++ fetch m (a + n) k = fetch m a (n + k) := by
  apply List.ext_getElem
  · simp
  · intro i h1 h2
    rw [length_fetch] at h2
    by_cases hi : i < n
    · simp [fetch, hi]
    · rw [List.getElem_append_right (by rw [length_fetch]; omega)]
      simp only [fetch, List.getElem_map, List.getElem_range, List.length_map, List.length_range]
      rw [show a + n + (i - n) = a + i by omega]

theorem take_fetch (h : k ≤ n) : (fetch m a n).take k = fetch m a k := by
  rw [fetch, fetch, ← List.map_take, List.take_range, Nat.min_eq_left h]

theorem getD_fetch {i : Nat} (h : i < n) : (fetch m a n).getD i 0 = m (a + i) := by
  simp [fetch, h]

/-- A run read beside what was written is as it was. -/
theorem fetch_store_apart (h : b + n ≤ a ∨ a + bs.length ≤ b) : fetch (store m a bs) b n = fetch m b n := by
  apply List.map_congr_left
  intro i hi
  rw [List.mem_range] at hi
  exact store_outside (by omega)

/-! ## Blocks -/

/-- The blocks do not overlap. -/
def Apart (b c : Nat × Nat) : Prop := b.1 + b.2 ≤ c.1 ∨ c.1 + c.2 ≤ b.1

/-- Aligned blocks between `lo` and `hi`, none of which is empty or overlaps another. -/
structure Ledger (align lo hi : Nat) (live : List (Nat × Nat)) : Prop where
  within : ∀ b ∈ live, align ∣ b.1 ∧ lo ≤ b.1 ∧ b.1 + b.2 ≤ hi
  nonempty : ∀ b ∈ live, 0 < b.2
  apart : live.Pairwise Apart

variable {al lo hi : Nat} {live : List (Nat × Nat)}

theorem Ledger.mono (h : Ledger al lo hi live) {hi' : Nat} (hh : hi ≤ hi') : Ledger al lo hi' live :=
  ⟨fun b hb => ⟨(h.within b hb).1, (h.within b hb).2.1, (h.within b hb).2.2.trans hh⟩, h.nonempty, h.apart⟩

theorem Ledger.filter (h : Ledger al lo hi live) (p : Nat × Nat → Bool) : Ledger al lo hi (live.filter p) :=
  ⟨fun b hb => h.within b (List.mem_of_mem_filter hb), fun b hb => h.nonempty b (List.mem_of_mem_filter hb),
    h.apart.filter p⟩

/-- A block above all others overlaps none of them. -/
theorem Ledger.above (h : Ledger al lo hi live) {p n : Nat} (hp : hi ≤ p) {b : Nat × Nat} (hb : b ∈ live) :
    Apart (p, n) b :=
  .inr ((h.within b hb).2.2.trans hp)

theorem Ledger.cons (h : Ledger al lo hi live) {p n hi' : Nat} (ha : al ∣ p) (hl : lo ≤ p) (hp : hi ≤ p)
    (h0 : 0 < n) (hn : p + n ≤ hi') : Ledger al lo hi' ((p, n) :: live) := by
  constructor
  · intro b hb
    rcases List.mem_cons.1 hb with rfl | hb
    · exact ⟨ha, hl, hn⟩
    · exact (h.mono (by omega)).within b hb
  · intro b hb
    rcases List.mem_cons.1 hb with rfl | hb
    · exact h0
    · exact h.nonempty b hb
  · exact List.pairwise_cons.2 ⟨fun b hb => h.above hp hb, h.apart⟩

end Cmpsc473.Memory
