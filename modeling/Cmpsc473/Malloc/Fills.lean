import Cmpsc473.Malloc.Contents
import Cmpsc473.Malloc.Validity
/-!
# What the data checks find

`randomize_block` fills the span of a block, and `check_index` finds the span as
it was filled (`Intact`) unless it faults: it reads whole words, and the last
ones may lie outside the mapped region (`Readable`).
-/

namespace Cmpsc473.Malloc

open Memory Function

variable {α β : Type}

/-! ## Checks that return -/

@[simp] theorem passes_pure {a b : α} : Passes (pure a) b ↔ a = b := by simp [Passes]

@[simp] theorem passes_bind {x : Check α} {f : α → Check β} {b : β} :
    Passes (x >>= f) b ↔ ∃ a, Passes x a ∧ Passes (f a) b := by
  unfold Passes
  rw [ExceptT.run_bind]
  rcases x.run with _ | _ | a <;> simp

@[simp] theorem passes_lift {x : Option α} {a : α} : Passes (liftM x) a ↔ x = some a := by
  cases x <;> simp [Passes]

@[simp] theorem passes_ensure {b : Bool} {e : DriverError} {u : Unit} : Passes (ensure b e) u ↔ b = true := by
  cases b <;> simp [ensure, Passes]

theorem exists_unit {p : Unit → Prop} : (∃ u, p u) ↔ p () := ⟨fun ⟨_, h⟩ => h, fun h => ⟨(), h⟩⟩

variable {s : Setup} {h h' : Heap} {a base n size i : Nat} {index : Int} {d d' : Driver}

/-! ## Spans -/

theorem fsize_span (size : Nat) : (span size).fsize = min size maxfill := by
  unfold span
  split
  · split <;> simp only <;> omega
  · simp only
    omega

/-- The span at the end lies in the block, behind the one at the start. -/
theorem span_inside (size : Nat) : (span size).offset + (span size).fsizeEnd ≤ size ∧
    ((span size).fsizeEnd = 0 ∨ (span size).fsize ≤ (span size).offset) := by
  unfold span
  split
  · split <;> simp only <;> omega
  · simp

/-- The span holds what belongs there. -/
structure Intact (s : Setup) (mem : Nat → UInt8) (a base size : Nat) : Prop where
  start : ∀ j < (span size).fsize, mem (a + j) = s.byte base j
  last : ∀ j < (span size).fsizeEnd, mem (a + (span size).offset + j) = s.byte base j

/-- Only the bytes of the block matter. -/
theorem Intact.congr {mem mem' : Nat → UInt8} (hi : Intact s mem a base size)
    (hmem : ∀ x, a ≤ x → x < a + size → mem' x = mem x) : Intact s mem' a base size := by
  have hle := fsize_span size
  have hin := span_inside size
  constructor
  · intro j hj
    rw [hmem _ (by omega) (by omega)]
    exact hi.start j hj
  · intro j hj
    rw [hmem _ (by omega) (by omega)]
    exact hi.last j hj

/-! ## Filling -/

/-- A loop of `randomize_block` writes what belongs there, and nothing else. -/
theorem fillBytes_at (hm : h.mapped a n = true) : ∃ h', fillBytes s h a base n = some h' ∧ Writes h h' a n ∧
    ∀ j < n, h'.mem (a + j) = s.byte base j := by
  rw [mapped_iff] at hm
  induction n with
  | zero => exact ⟨h, rfl, .refl h a, fun j hj => absurd hj (Nat.not_lt_zero j)⟩
  | succ n ih =>
    obtain ⟨h1, hrun, hwrites, hbytes⟩ := ih (by omega)
    have hmap : h1.mapped (a + n) 1 = true := by
      rw [hwrites.mapped, mapped_iff]
      omega
    have hwrite := memWrite_mapped (s.byte base n).toNat hmap
    have hwrites1 := memWrite_writes hwrite
    refine ⟨_, ?_, hwrites.trans hwrites1, fun j hj => ?_⟩
    · simp only [fillBytes, hrun, Option.bind_eq_bind, Option.bind_some]
      exact hwrite
    · rcases Nat.lt_succ_iff_lt_or_eq.1 hj with hj | rfl
      · rw [hwrites1.outside _ (.inl (by omega))]
        exact hbytes j hj
      · have hb : leBytes 1 (s.byte base j).toNat = [s.byte base j] := by simp [leBytes]
        have hpos : 0 < [s.byte base j].length := Nat.one_pos
        rw [hb]
        exact store_inside hpos

theorem Writes.within {dst k : Nat} (hw : Writes h h' dst k) (hlo : a ≤ dst) (hhi : dst + k ≤ a + n) : Writes h h' a n :=
  ⟨hw.heap, hw.brk, hw.max, fun x hx => hw.outside x (by omega)⟩

theorem Writes.again {h'' : Heap} (hw : Writes h h' a n) (hw' : Writes h' h'' a n) : Writes h h'' a n :=
  ⟨hw'.heap.trans hw.heap, hw'.brk.trans hw.brk, hw'.max.trans hw.max,
    fun x hx => (hw'.outside x hx).trans (hw.outside x hx)⟩

/-- `randomize_block` of a block with room for it. -/
theorem randomizeBlock_at (random : Nat) (hroom : 0 < d.blockSizes i → d.heap.mapped (d.blocks i) (d.blockSizes i) = true) :
    ∃ h' b', randomizeBlock s d i random = some { d with heap := h', blockRandBase := b' } ∧
      Writes d.heap h' (d.blocks i) (d.blockSizes i) ∧ (∀ k, k ≠ i → b' k = d.blockRandBase k) ∧
      (s.mode ≠ .dbgNone → 0 < d.blockSizes i → Intact s h'.mem (d.blocks i) (b' i) (d.blockSizes i)) := by
  have hrefl : Writes d.heap d.heap (d.blocks i) (d.blockSizes i) := ⟨rfl, rfl, rfl, fun _ _ => rfl⟩
  by_cases hmode : s.mode = .dbgNone
  · exact ⟨d.heap, d.blockRandBase, if_pos hmode, hrefl, fun _ _ => rfl, fun hne => absurd hmode hne⟩
  by_cases hsize : d.blockSizes i = 0
  · refine ⟨d.heap, update d.blockRandBase i random, ?_, hrefl, fun k hk => update_of_ne hk _ _, fun _ hpos => by omega⟩
    simp only [randomizeBlock, hmode, hsize, if_false, if_true]
  · have hm := hroom (Nat.pos_of_ne_zero hsize)
    have hle := fsize_span (d.blockSizes i)
    obtain ⟨hend, hbehind⟩ := span_inside (d.blockSizes i)
    rw [mapped_iff] at hm
    obtain ⟨h1, hrun1, hw1, hb1⟩ : ∃ h1, fillBytes s d.heap (d.blocks i) random (span (d.blockSizes i)).fsize = some h1 ∧
        _ := fillBytes_at (mapped_iff.2 (by omega))
    obtain ⟨h2, hrun2, hw2, hb2⟩ : ∃ h2, fillBytes s h1 (d.blocks i + (span (d.blockSizes i)).offset) random
        (span (d.blockSizes i)).fsizeEnd = some h2 ∧ _ := fillBytes_at (by rw [hw1.mapped, mapped_iff]; omega)
    refine ⟨h2, update d.blockRandBase i random, ?_, (hw1.within le_rfl (by omega)).again (hw2.within (by omega) (by omega)),
      fun k hk => update_of_ne hk _ _, fun _ _ => ?_⟩
    · simp only [randomizeBlock, hmode, hsize, if_false, update_self, hrun1, hrun2, Option.bind_eq_bind, Option.bind_some]
    · rw [update_self]
      refine ⟨fun j hj => ?_, hb2⟩
      rw [hw2.outside _ (by omega)]
      exact hb1 j hj

/-! ## Checking -/

theorem memRead_byte (hm : h.mapped a 8 = true) : memRead h a 1 = some (h.mem a).toNat := by
  have hb := (h.mem a).toNat_lt
  have hfetch : fetch h.mem a 8 = h.mem a :: (List.range 7).map fun i => h.mem (a + (i + 1)) := by
    rw [fetch, List.range_succ_eq_map, List.map_cons, List.map_map]
    rfl
  have hmod : ofLe (fetch h.mem a 8) % 256 = (h.mem a).toNat := by
    rw [hfetch, ofLe]
    omega
  rw [memRead, if_pos hm, ← hmod]
  simp only [show 1 < 8 by decide, if_true, Nat.one_shiftLeft, Nat.and_two_pow_sub_one_eq_mod]

variable {g g' : Garbled}

theorem checkBytes_mapped (hc : checkBytes s h a base g n = some g') : ∀ j < n, h.mapped (a + j) 8 = true := by
  induction n generalizing g' with
  | zero => exact fun j hj => absurd hj (Nat.not_lt_zero j)
  | succ n ih =>
    simp only [checkBytes, Option.bind_eq_bind, Option.bind_eq_some_iff] at hc
    obtain ⟨g1, hc1, data, hread, -⟩ := hc
    intro j hj
    rcases Nat.lt_succ_iff_lt_or_eq.1 hj with hj | rfl
    · exact ih hc1 j hj
    · exact (Option.ite_none_right_eq_some.1 hread).1

theorem checkBytes_intact (hm : ∀ j < n, h.mapped (a + j) 8 = true) (hb : ∀ j < n, h.mem (a + j) = s.byte base j) :
    checkBytes s h a base g n = some g := by
  induction n with
  | zero => rfl
  | succ n ih =>
    have hrec := ih (fun j hj => hm j (by omega)) fun j hj => hb j (by omega)
    have hread := memRead_byte (hm n (Nat.lt_succ_self n))
    rw [hb n (Nat.lt_succ_self n)] at hread
    simp only [checkBytes, hrec, hread, Option.bind_eq_bind, Option.bind_some, ne_eq, not_true_eq_false, if_false]

/-- The words that `check_index` reads are mapped. -/
def Readable (s : Setup) (d : Driver) (index : Int) (realloc : Bool) : Prop :=
  index < 0 ∨ s.mode = .dbgNone ∨ ∃ i, slot s.numIds index = some i ∧
    (∀ j < (span (d.blockSizes i)).fsize, d.heap.mapped (d.blocks i + j) 8 = true) ∧
    (realloc = false → ∀ j < (span (d.blockSizes i)).fsizeEnd,
      d.heap.mapped (d.blocks i + (span (d.blockSizes i)).offset + j) 8 = true)

theorem readable_of_passes {realloc : Bool} {u : Unit} (hp : Passes (checkIndex s d index realloc) u) :
    Readable s d index realloc := by
  unfold checkIndex at hp
  split at hp
  · exact .inl ‹_›
  · split at hp
    · exact .inr (.inl ‹_›)
    · obtain ⟨i, hi, hp⟩ := passes_bind.1 hp
      refine .inr (.inr ⟨i, passes_lift.1 hi, ?_⟩)
      simp only at hp
      split at hp
      · rename_i h0
        rw [h0]
        exact ⟨fun j hj => absurd hj (Nat.not_lt_zero j), fun _ j hj => absurd hj (Nat.not_lt_zero j)⟩
      · obtain ⟨g, hg, hp⟩ := passes_bind.1 hp
        obtain ⟨g', hg', -⟩ := passes_bind.1 hp
        refine ⟨checkBytes_mapped (passes_lift.1 hg), fun hr => ?_⟩
        have := checkBytes_mapped (passes_lift.1 hg')
        rwa [hr] at this

/-- `check_index` finds what it looks for. -/
theorem Readable.passes {realloc : Bool} (hr : Readable s d index realloc)
    (hi : s.mode ≠ .dbgNone → ∀ i, slot s.numIds index = some i →
      (∀ j < (span (d.blockSizes i)).fsize, d.heap.mem (d.blocks i + j) = s.byte (d.blockRandBase i) j) ∧
      (realloc = false → ∀ j < (span (d.blockSizes i)).fsizeEnd,
        d.heap.mem (d.blocks i + (span (d.blockSizes i)).offset + j) = s.byte (d.blockRandBase i) j)) :
    Passes (checkIndex s d index realloc) () := by
  unfold checkIndex
  split
  · exact passes_pure.2 rfl
  · split
    · exact passes_pure.2 rfl
    · rename_i hneg hmode
      obtain ⟨i, hslot, hm, hm'⟩ := (hr.resolve_left hneg).resolve_left hmode
      obtain ⟨hb, hb'⟩ := hi hmode i hslot
      refine passes_bind.2 ⟨i, passes_lift.2 hslot, ?_⟩
      simp only
      split
      · exact passes_pure.2 rfl
      · refine passes_bind.2 ⟨_, passes_lift.2 (checkBytes_intact hm hb), passes_bind.2 ⟨{ count := 0, first := none },
          passes_lift.2 ?_, passes_ensure.2 rfl⟩⟩
        cases realloc with
        | true => rfl
        | false => exact checkBytes_intact (hm' rfl) (hb' rfl)

end Cmpsc473.Malloc
