import Cmpsc473.Malloc.Steps
/-!
# Two runs side by side

What the allocator returns depends on the addresses and sizes in the heap, not on
what is in memory. Two drivers that are alike in these stay alike as long as both
pass (`evalOp_alike`), and what is feasible for the one is feasible for the other.
-/

namespace Cmpsc473.Malloc

open LinkedList Memory Function

variable {s : Setup} {h h' g g' : Heap} {d d' d1 d1' : Driver} {es : List Extent} {c c' : Choice} {i p q q' a base size : Nat}
  {index : Int} {n : UInt64} {op : TraceOp} {ranges ranges' : RangeSet}

/-! ## Heaps -/

theorem Heap.Alike.symm (ha : h.Alike h') : h'.Alike h := ⟨ha.heap.symm, ha.brk.symm, ha.max.symm⟩

theorem Heap.Alike.trans {h'' : Heap} (ha : h.Alike h') (hb : h'.Alike h'') : h.Alike h'' :=
  ⟨hb.heap.trans ha.heap, hb.brk.trans ha.brk, hb.max.trans ha.max⟩

theorem Heap.Alike.mapped (ha : h.Alike h') (a n : Nat) : h'.mapped a n = h.mapped a n := by
  rw [Heap.mapped, Heap.mapped, ha.heap, ha.max]

theorem Heap.Alike.rest (ha : h.Alike h') : h'.rest = h.rest := by rw [Heap.rest, Heap.rest, ha.brk, ha.max]

theorem Writes.alike (hw : Writes h h' a size) : h.Alike h' := ⟨hw.heap, hw.brk, hw.max⟩

theorem malloc_alike (ha : h.Alike h') (n : UInt64) :
    (malloc h' n).1 = (malloc h n).1 ∧ (malloc h n).2.Alike (malloc h' n).2 := by
  have hsbrk : ∀ incr, (memSbrk h' incr).1 = (memSbrk h incr).1 ∧ (memSbrk h incr).2.Alike (memSbrk h' incr).2 := by
    intro incr
    unfold memSbrk
    rw [ha.brk, ha.max]
    split
    · exact ⟨rfl, ha⟩
    · split
      · exact ⟨rfl, ha⟩
      · exact ⟨rfl, ha.heap, rfl, rfl⟩
  unfold malloc
  split
  · exact ⟨rfl, ha⟩
  · obtain ⟨h1, h2⟩ := hsbrk (toIntptr (align n))
    simp only [h1]
    split
    · exact ⟨rfl, h2⟩
    · exact ⟨rfl, h2⟩

theorem realloc_alike (ha : h.Alike h') (hr : realloc h p n = some (q, g)) (hr' : realloc h' p n = some (q', g')) :
    q' = q ∧ g.Alike g' := by
  obtain ⟨hptr, hheap⟩ := malloc_alike ha n
  unfold realloc at hr hr'
  simp only [hptr] at hr hr'
  split at hr
  · rename_i hn
    rw [if_pos hn] at hr'
    cases hr
    cases hr'
    exact ⟨rfl, hheap⟩
  · rename_i hn
    rw [if_neg hn] at hr'
    split at hr
    · rename_i hnull
      rw [if_pos hnull] at hr'
      obtain ⟨hptr', hheap'⟩ := malloc_alike hheap n
      rw [Option.some.inj hr, Option.some.inj hr'] at *
      exact ⟨hptr', hheap'⟩
    · rename_i hnull
      rw [if_neg hnull] at hr'
      split at hr
      · rename_i hne
        rw [if_pos hne] at hr'
        obtain ⟨⟨_, g1⟩, hcpy, heq⟩ := Option.bind_eq_some_iff.1 hr
        obtain ⟨⟨_, g1'⟩, hcpy', heq'⟩ := Option.bind_eq_some_iff.1 hr'
        cases heq
        cases heq'
        exact ⟨rfl, (memMemcpy_writes hcpy).2.alike.symm.trans (hheap.trans (memMemcpy_writes hcpy').2.alike)⟩
      · rename_i hne
        rw [if_neg hne] at hr'
        cases hr
        cases hr'
        exact ⟨rfl, hheap⟩

/-! ## Drivers -/

/-- The heaps have the same addresses, and the blocks are at the same places. -/
structure Driver.Alike (d d' : Driver) : Prop where
  heap : d.heap.Alike d'.heap
  blocks : d'.blocks = d.blocks
  sizes : d'.blockSizes = d.blockSizes

theorem Driver.Alike.symm (ha : d.Alike d') : d'.Alike d := ⟨ha.heap.symm, ha.blocks.symm, ha.sizes.symm⟩

theorem Driver.Alike.trans {d'' : Driver} (ha : d.Alike d') (hb : d'.Alike d'') : d.Alike d'' :=
  ⟨ha.heap.trans hb.heap, hb.blocks.trans ha.blocks, hb.sizes.trans ha.sizes⟩

/-- The same block is moved. -/
theorem Driver.Alike.moved (ha : d.Alike d') (hg : g.Alike g') : (moved d g ranges i q size).Alike (moved d' g' ranges' i q size) :=
  ⟨hg, congrArg (update · i q) ha.blocks, congrArg (update · i size) ha.sizes⟩

theorem Readable.alike {realloc : Bool} (ha : d.Alike d') (hr : Readable s d index realloc) : Readable s d' index realloc := by
  unfold Readable at hr ⊢
  simp only [ha.blocks, ha.sizes, ha.heap.mapped]
  exact hr

theorem fillBytes_writes (hf : fillBytes s h a base size = some h') : Writes h h' a size := by
  induction size generalizing h' with
  | zero =>
    cases hf
    exact .refl h a
  | succ size ih =>
    simp only [fillBytes, Option.bind_eq_bind, Option.bind_eq_some_iff] at hf
    obtain ⟨h1, hf, hw⟩ := hf
    exact (ih hf).trans (memWrite_writes hw)

theorem randomizeBlock_keeps {random : Nat} (hr : randomizeBlock s d i random = some d1) :
    d.Alike d1 ∧ d1.ranges = d.ranges := by
  have hrefl : d.heap.Alike d.heap := ⟨rfl, rfl, rfl⟩
  unfold randomizeBlock at hr
  split at hr
  · cases hr
    exact ⟨⟨hrefl, rfl, rfl⟩, rfl⟩
  · simp only at hr
    split at hr
    · cases hr
      exact ⟨⟨hrefl, rfl, rfl⟩, rfl⟩
    · simp only [Option.bind_eq_bind, Option.bind_eq_some_iff] at hr
      obtain ⟨h1, hf1, h2, hf2, hr⟩ := hr
      cases hr
      exact ⟨⟨(fillBytes_writes hf1).alike.trans (fillBytes_writes hf2).alike, rfl, rfl⟩, rfl⟩

/-- The same block is moved and filled. -/
theorem randomized_alike {k k' : Nat} (ha : d.Alike d') (hg : g.Alike g')
    (hr : randomizeBlock s (moved d g ranges i q size) i k = some d1)
    (hr' : randomizeBlock s (moved d' g' ranges' i q size) i k' = some d1') : d1.Alike d1' :=
  (randomizeBlock_keeps hr).1.symm.trans ((ha.moved hg).trans (randomizeBlock_keeps hr').1)

theorem evalAlloc_alike (ha : d.Alike d') (hp : Passes (evalAlloc s c d index n) d1)
    (hp' : Passes (evalAlloc s c' d' index n) d1') : d1.Alike d1' := by
  obtain ⟨-, ranges, -, i, hi, hrun⟩ := evalAlloc_iff.1 hp
  obtain ⟨-, ranges', -, i', hi', hrun'⟩ := evalAlloc_iff.1 hp'
  cases hi.symm.trans hi'
  obtain ⟨hptr, hheap⟩ := malloc_alike ha.heap n
  rw [hptr] at hrun'
  exact randomized_alike ha hheap hrun hrun'

theorem evalRealloc_alike (ha : d.Alike d') (hp : Passes (evalRealloc s c d index n) d1)
    (hp' : Passes (evalRealloc s c' d' index n) d1') : d1.Alike d1' := by
  rcases Nat.eq_zero_or_pos n.toNat with h0 | h0
  · obtain ⟨-, i, hi, q, g, hr, -, ranges, -, -, hrun⟩ := (evalRealloc_zero h0).1 hp
    obtain ⟨-, i', hi', q', g', hr', -, ranges', -, -, hrun'⟩ := (evalRealloc_zero h0).1 hp'
    cases hi.symm.trans hi'
    rw [ha.blocks] at hr'
    obtain ⟨rfl, hheap⟩ := realloc_alike ha.heap hr hr'
    exact randomized_alike ha hheap hrun hrun'
  · obtain ⟨-, i, hi, q, g, hr, -, -, -, ranges, -, -, hrun⟩ := (evalRealloc_iff h0).1 hp
    obtain ⟨-, i', hi', q', g', hr', -, -, -, ranges', -, -, hrun'⟩ := (evalRealloc_iff h0).1 hp'
    cases hi.symm.trans hi'
    rw [ha.blocks] at hr'
    obtain ⟨rfl, hheap⟩ := realloc_alike ha.heap hr hr'
    exact randomized_alike ha hheap hrun hrun'

theorem evalFree_alike (ha : d.Alike d') (hp : Passes (evalFree s c d index) d1)
    (hp' : Passes (evalFree s c' d' index) d1') : d1.Alike d1' := by
  obtain ⟨-, ⟨hneg, rfl⟩ | ⟨-, i, -, rs, -, rfl⟩⟩ := evalFree_iff.1 hp
  · obtain ⟨-, ⟨-, rfl⟩ | ⟨hne, -⟩⟩ := evalFree_iff.1 hp'
    · exact ha
    · exact absurd hneg hne
  · obtain ⟨-, ⟨-, rfl⟩ | ⟨-, i', -, rs', -, rfl⟩⟩ := evalFree_iff.1 hp'
    · exact ⟨ha.heap, ha.blocks, ha.sizes⟩
    · exact ⟨ha.heap, ha.blocks, ha.sizes⟩

/-- Where both pass they stay alike. -/
theorem evalOp_alike (ha : d.Alike d') (hp : Passes (evalOp s c op d) d1) (hp' : Passes (evalOp s c' op d') d1') :
    d1.Alike d1' := by
  obtain ⟨-, hp⟩ := evalOp_iff.1 hp
  obtain ⟨-, hp'⟩ := evalOp_iff.1 hp'
  unfold evalRequest at hp hp'
  cases htype : op.type with
  | alloc =>
    rw [htype] at hp hp'
    exact evalAlloc_alike ha hp hp'
  | realloc =>
    rw [htype] at hp hp'
    exact evalRealloc_alike ha hp hp'
  | free =>
    rw [htype] at hp hp'
    exact evalFree_alike ha hp hp'

/-- What is feasible for one of two sane drivers is feasible for the other. -/
theorem Feasible.alike (ha : d.Alike d') (hs : Sane s d es) (hf : Feasible s op d) : Feasible s op d' := by
  obtain ⟨type, index, size⟩ := op
  cases type with
  | alloc =>
    obtain ⟨hi, h0, hfit⟩ := hf
    exact ⟨hi, h0, ha.heap.rest ▸ hfit⟩
  | realloc =>
    obtain ⟨hread, i, hi, hf⟩ := hf
    refine ⟨hread.alike ha, i, hi, fun h0 => ?_⟩
    obtain ⟨hfit, hread'⟩ := hf h0
    rw [ha.blocks, ha.heap.rest, ha.sizes]
    refine ⟨hfit, fun q' g' hr' => ?_⟩
    rcases realloc_outcome hs.ok (hs.fed i) with ⟨hz, -⟩ | ⟨-, -, q, g, hr, -⟩ | ⟨-, hfull, -⟩
    · exact absurd hz (Nat.pos_iff_ne_zero.1 h0)
    · obtain ⟨rfl, hheap⟩ := realloc_alike ha.heap hr hr'
      exact (hread' q' g hr).alike (ha.moved hheap)
    · exact absurd hfit (Nat.not_le.2 hfull)
  | free =>
    obtain ⟨hread, hi⟩ := hf
    exact ⟨hread.alike ha, hi⟩

end Cmpsc473.Malloc
