import Cmpsc473.Lib.Fallible
import Cmpsc473.Malloc.Reruns
/-!
# The measurements of the driver (`mdriver.c`)

After the validity check `run_tests` runs a trace again, to measure how full the
heap gets (`eval_mm_util`) and how long it takes (`eval_mm_speed`). Where the
check passes, the measurements do what it did (`measures_exact`): the same blocks
at the same places, and no call of `app_error`. What `eval_mm_util` adds up is
the payload of the trace, which `TraceOp.act` says without the heap.
-/

namespace Cmpsc473.Malloc

open LinkedList Memory Function

/-! ## The functions -/

/-- `mem_heapsize`. -/
def memHeapsize (h : Heap) : UInt64 := UInt64.ofNat (h.memBrk - h.heap)

/-- The calls of `app_error`, after which nothing is returned. -/
inductive AppError where
  | mmInitFailed
  | mmMallocFailed
  | mmReallocFailed
  deriving DecidableEq

/-- A measurement. -/
abbrev Measure := Fallible AppError

/-- The sums of `eval_mm_util`. -/
structure Totals where
  totalSize : UInt64
  maxTotalSize : UInt64
  maxHeapSize : UInt64

/-- The `switch` of `eval_mm_util`. -/
def utilRequest (numIds : Nat) (op : TraceOp) (d : Driver) (t : Totals) : Measure (Driver × Totals) :=
  match op.type with
  | .alloc => do
    let size := op.size
    let (p, h) := malloc d.heap size
    if p = null then throw .mmMallocFailed
    let i ← slot numIds op.index
    pure ({ d with heap := h, blocks := update d.blocks i p, blockSizes := update d.blockSizes i size.toNat },
      { t with totalSize := t.totalSize + size })
  | .realloc => do
    let newsize := op.size
    let i ← slot numIds op.index
    let oldsize := UInt64.ofNat (d.blockSizes i)
    let oldp := d.blocks i
    let (newp, h) ← realloc d.heap oldp newsize
    if newp = null ∧ newsize ≠ 0 then throw .mmReallocFailed
    pure ({ d with heap := h, blocks := update d.blocks i newp, blockSizes := update d.blockSizes i newsize.toNat },
      { t with totalSize := t.totalSize + (newsize - oldsize) })
  | .free =>
    if op.index < 0 then pure ({ d with heap := free d.heap null }, { t with totalSize := t.totalSize - 0 })
    else do
      let i ← slot numIds op.index
      let size := UInt64.ofNat (d.blockSizes i)
      let p := d.blocks i
      pure ({ d with heap := free d.heap p }, { t with totalSize := t.totalSize - size })

/-- The end of the loop body of `eval_mm_util`: the high-water marks. -/
def Totals.raise (t : Totals) (heapSize : UInt64) : Totals :=
  { t with
    maxTotalSize := if t.totalSize > t.maxTotalSize then t.totalSize else t.maxTotalSize
    maxHeapSize := if heapSize > t.maxHeapSize then heapSize else t.maxHeapSize }

/-- The loop of `eval_mm_util`. -/
def utilOps (numIds : Nat) : List TraceOp → Driver → Totals → Measure (Driver × Totals)
  | [], d, t => pure (d, t)
  | op :: ops, d, t => do
    let (d, t) ← utilRequest numIds op d t
    utilOps numIds ops d (t.raise (memHeapsize d.heap))

/-- `eval_mm_util`. It returns the quotient of `maxTotalSize` and `maxHeapSize`. -/
def evalMmUtil (numIds : Nat) (ops : List TraceOp) (d : Driver) : Measure (Driver × Totals) := do
  let d := restart d
  if !mmInit then throw .mmInitFailed
  utilOps numIds ops d { totalSize := 0, maxTotalSize := 0, maxHeapSize := 0 }

/-- The `switch` of `eval_mm_speed`. -/
def speedRequest (numIds : Nat) (op : TraceOp) (d : Driver) : Measure Driver :=
  match op.type with
  | .alloc => do
    let size := op.size
    let (p, h) := malloc d.heap size
    if p = null then throw .mmMallocFailed
    let i ← slot numIds op.index
    pure { d with heap := h, blocks := update d.blocks i p }
  | .realloc => do
    let newsize := op.size
    let i ← slot numIds op.index
    let oldp := d.blocks i
    let (newp, h) ← realloc d.heap oldp newsize
    if newp = null ∧ newsize ≠ 0 then throw .mmReallocFailed
    pure { d with heap := h, blocks := update d.blocks i newp }
  | .free =>
    if op.index < 0 then pure { d with heap := free d.heap null }
    else do
      let i ← slot numIds op.index
      let block := d.blocks i
      pure { d with heap := free d.heap block }

/-- The loop of `eval_mm_speed`. -/
def speedOps (numIds : Nat) : List TraceOp → Driver → Measure Driver
  | [], d => pure d
  | op :: ops, d => do
    let d ← speedRequest numIds op d
    speedOps numIds ops d

/-- `eval_mm_speed`. -/
def evalMmSpeed (numIds : Nat) (ops : List TraceOp) (d : Driver) : Measure Driver := do
  let d := restart d
  if !mmInit then throw .mmInitFailed
  speedOps numIds ops d

/-! ## Payloads -/

/-- What a request makes of the payloads of the trace. `m i` is the size of the
block `i`, 0 where it has none yet, and `none` once it was freed. A freed block
is not used again, and no block is lost to another. -/
def TraceOp.act (op : TraceOp) (m : Nat → Option Nat) : Option (Nat → Option Nat) :=
  match op.type with
  | .alloc => if (m op.index.toNat).getD 0 = 0 then some (update m op.index.toNat (some op.size.toNat)) else none
  | .realloc => (m op.index.toNat).map fun _ => update m op.index.toNat (some op.size.toNat)
  | .free => if op.index < 0 then some m else (m op.index.toNat).map fun _ => update m op.index.toNat none

/-- The bytes in the blocks. -/
def payload (numIds : Nat) (m : Nat → Option Nat) : Nat := ∑ i ∈ Finset.range numIds, (m i).getD 0

/-- The most bytes that are in the blocks after a request of the trace. -/
def peak (numIds : Nat) : List TraceOp → (Nat → Option Nat) → Option Nat
  | [], _ => some 0
  | op :: ops, m => do
    let m ← op.act m
    let rest ← peak numIds ops m
    some (max (payload numIds m) rest)

/-- The peak of a trace, from no blocks. -/
def peakPayload (numIds : Nat) (ops : List TraceOp) : Option Nat := peak numIds ops fun _ => some 0

variable {s : Setup} {choice : Nat → Choice} {c : Choice} {k numIds i n p q : Nat} {index : Int} {size : UInt64}
  {op : TraceOp} {ops : List TraceOp} {h h' g : Heap} {d d' d1 dend : Driver} {t t1 : Totals}
  {m m1 : Nat → Option Nat} {v : Option Nat} {es left : List Extent}

theorem payload_update (hi : i < numIds) :
    payload numIds (update m i v) + (m i).getD 0 = payload numIds m + v.getD 0 := by
  have hmem : i ∈ Finset.range numIds := Finset.mem_range.2 hi
  have hrest : ∑ j ∈ (Finset.range numIds).erase i, (update m i v j).getD 0 =
      ∑ j ∈ (Finset.range numIds).erase i, (m j).getD 0 :=
    Finset.sum_congr rfl fun j hj => by rw [update_of_ne (Finset.ne_of_mem_erase hj)]
  rw [payload, payload, ← Finset.add_sum_erase _ _ hmem, ← Finset.add_sum_erase _ (fun j => (m j).getD 0) hmem, hrest,
    update_self]
  omega

theorem le_payload (hi : i < numIds) : (m i).getD 0 ≤ payload numIds m := by
  have hupdate := payload_update (m := m) (v := none) hi
  simp only [Option.getD_none] at hupdate
  omega

/-! ## Requests that passed the check -/

/-- The request put a block of `size` bytes at `p`. -/
structure Puts (numIds : Nat) (index : Int) (size : UInt64) (d d1 : Driver) (i p : Nat) : Prop where
  slot : slot numIds index = some i
  blocks : d1.blocks = update d.blocks i p
  sizes : d1.blockSizes = update d.blockSizes i size.toNat
  room : d.heap.memBrk + size.toNat ≤ d1.heap.memBrk

theorem slot_toNat (hi : slot numIds index = some i) : index.toNat = i ∧ 0 ≤ index ∧ i < numIds := by
  obtain ⟨hrange, hi⟩ := Option.ite_none_right_eq_some.1 hi
  have := Option.some.inj hi
  omega

theorem Heap.Ok.alike (hok : h.Ok) (ha : h.Alike h') : h'.Ok := by
  obtain ⟨heap, memBrk, memMaxAddr, mem⟩ := h'
  obtain ⟨rfl, rfl, rfl⟩ := ha
  exact ⟨hok.page, hok.pos, hok.max, hok.user, hok.brk_ge, hok.brk_le, hok.brk_aligned⟩

theorem alloc_repeats (hs : Sane s d es) (hp : Passes (evalAlloc s c d index size) d1) (ha : d.heap.Alike h') :
    ∃ i p h1, Puts s.numIds index size d d1 i p ∧ malloc h' size = (p, h1) ∧ p ≠ null ∧ d1.heap.Alike h1 := by
  obtain ⟨-, h0, hfit⟩ := evalAlloc_fits hs hp
  obtain ⟨hnull, ranges, -, i, hi, hrun⟩ := evalAlloc_iff.1 hp
  obtain ⟨hkeeps, -⟩ := randomizeBlock_keeps hrun
  obtain ⟨hptr, hheap⟩ := malloc_alike ha size
  have hbrk : (malloc d.heap size).2.memBrk = d.heap.memBrk + alignUp size.toNat := by
    rcases malloc_cases hs.ok size with ⟨hz, -⟩ | ⟨-, -, hm⟩ | ⟨-, hfull, -⟩
    · omega
    · rw [hm]
      rfl
    · omega
  refine ⟨i, (malloc d.heap size).1, (malloc h' size).2, ⟨hi, hkeeps.blocks, hkeeps.sizes, ?_⟩, Prod.ext hptr rfl,
    hnull, hkeeps.heap.symm.trans hheap⟩
  rw [hkeeps.heap.brk]
  show _ ≤ (malloc d.heap size).2.memBrk
  rw [hbrk]
  exact Nat.add_le_add_left (le_alignUp _) _

/-- Where `realloc` finds what it asks for, it does so again. -/
theorem realloc_again (hok : h.Ok) (ha : h.Alike h') (hfed : Fed h p)
    (hfit : (Request.realloc p size).sbrks.sum ≤ h.rest) (hr : realloc h p size = some (q, g)) :
    (∃ g', realloc h' p size = some (q, g') ∧ g.Alike g') ∧ (q = null → size = 0) ∧
      h.memBrk + size.toNat ≤ g.memBrk := by
  have hfed' : Fed h' p := by
    rw [Fed, ha.heap, ha.brk]
    exact hfed
  have hagain : ∃ q' g', realloc h' p size = some (q', g') := by
    rcases realloc_outcome (hok.alike ha) hfed' with ⟨-, hr'⟩ | ⟨-, -, q', g', hr', -⟩ | ⟨-, hfull, -⟩
    · exact ⟨null, h', hr'⟩
    · exact ⟨q', g', hr'⟩
    · rw [ha.rest] at hfull
      omega
  obtain ⟨q', g', hr'⟩ := hagain
  obtain ⟨rfl, hg⟩ := realloc_alike ha hr hr'
  refine ⟨⟨g', hr', hg⟩, ?_⟩
  rcases realloc_outcome hok hfed with ⟨hz, hr1⟩ | ⟨-, -, q1, g1, hr1, hnull, hgrant, -⟩ | ⟨-, hfull, -⟩
  · cases hr1.symm.trans hr
    have hz : size.toNat = 0 := hz
    exact ⟨fun _ => UInt64.toNat_inj.1 hz, by omega⟩
  · cases hr1.symm.trans hr
    refine ⟨fun hq => absurd hq hnull, ?_⟩
    have hfresh := hgrant.fresh
    have hroom : q' + size.toNat ≤ g.memBrk := hgrant.room
    omega
  · omega

theorem realloc_repeats (hs : Sane s d es) (hp : Passes (evalRealloc s c d index size) d1) (ha : d.heap.Alike h') :
    ∃ i q h1, Puts s.numIds index size d d1 i q ∧ realloc h' (d.blocks i) size = some (q, h1) ∧ (q = null → size = 0) ∧
      d1.heap.Alike h1 := by
  obtain ⟨-, i, hi, hfits⟩ := evalRealloc_fits hs hp
  -- what was filled is put where `realloc` says
  obtain ⟨q, g, ranges, hr, hrun⟩ : ∃ q g ranges, realloc d.heap (d.blocks i) size = some (q, g) ∧
      randomizeBlock s (moved d g ranges i q size.toNat) i c.random = some d1 := by
    rcases Nat.eq_zero_or_pos size.toNat with h0 | h0
    · obtain ⟨-, j, hj, q, g, hr, -, ranges, -, -, hrun⟩ := (evalRealloc_zero h0).1 hp
      cases hi.symm.trans hj
      rw [← h0] at hrun
      exact ⟨q, g, ranges, hr, hrun⟩
    · obtain ⟨-, j, hj, q, g, hr, -, -, -, ranges, -, -, hrun⟩ := (evalRealloc_iff h0).1 hp
      cases hi.symm.trans hj
      exact ⟨q, g, ranges, hr, hrun⟩
  have hfit : (Request.realloc (d.blocks i) size).sbrks.sum ≤ d.heap.rest := by
    rcases Nat.eq_zero_or_pos size.toNat with h0 | h0
    · have hbytes : (Request.realloc (d.blocks i) size).bytes = 0 := h0
      rw [Request.sbrks, if_pos hbytes]
      exact Nat.zero_le _
    · exact (hfits h0).1
  obtain ⟨⟨g', hr', hg⟩, hnull, hroom⟩ := realloc_again hs.ok ha (hs.fed i) hfit hr
  obtain ⟨hkeeps, -⟩ := randomizeBlock_keeps hrun
  refine ⟨i, q, g', ⟨hi, hkeeps.blocks, hkeeps.sizes, ?_⟩, hr', hnull, hkeeps.heap.symm.trans hg⟩
  rw [hkeeps.heap.brk]
  exact hroom

theorem free_repeats (hp : Passes (evalFree s c d index) d1) : d1.heap = d.heap ∧ d1.blocks = d.blocks ∧
    d1.blockSizes = d.blockSizes ∧ (index < 0 ∨ 0 ≤ index ∧ ∃ i, slot s.numIds index = some i) := by
  obtain ⟨-, ⟨hneg, rfl⟩ | ⟨-, i, hi, ranges, -, rfl⟩⟩ := evalFree_iff.1 hp
  · exact ⟨rfl, rfl, rfl, .inl (by omega)⟩
  · exact ⟨rfl, rfl, rfl, .inr ⟨(slot_toNat hi).2.1, i, hi⟩⟩

/-! ## The space used -/

/-- The total is the payload of the blocks, and the heap has room for it. -/
structure Metered (numIds : Nat) (m : Nat → Option Nat) (d : Driver) (t : Totals) : Prop where
  sizes : ∀ i n, m i = some n → d.blockSizes i = n
  total : t.totalSize.toNat = payload numIds m
  room : payload numIds m ≤ d.heap.memBrk - d.heap.heap

theorem Metered.puts (hm : Metered numIds m d t) (hput : Puts numIds index size d d1 i p) (hok : d.heap.Ok)
    (hheap : d1.heap.heap = d.heap.heap) (ht : t1.totalSize.toNat + (m i).getD 0 = t.totalSize.toNat + size.toNat) :
    Metered numIds (update m i (some size.toNat)) d1 t1 := by
  obtain ⟨hi, hblocks, hsizes, hroom⟩ := hput
  have hsum := payload_update (m := m) (v := some size.toNat) (slot_toNat hi).2.2
  have htotal := hm.total
  have hfits := hm.room
  have hge := hok.brk_ge
  simp only [Option.getD_some] at hsum
  refine ⟨fun j n hj => ?_, by omega, ?_⟩
  · rw [hsizes]
    by_cases hji : j = i
    · rw [hji, update_self] at hj ⊢
      exact Option.some.inj hj
    · rw [update_of_ne hji] at hj ⊢
      exact hm.sizes j n hj
  · rw [hheap]
    omega

theorem Metered.frees {old : Nat} (hm : Metered numIds m d t) (hi : i < numIds) (hold : m i = some old)
    (hok : d.heap.Ok) (hheap : d1.heap = d.heap) (hsizes : d1.blockSizes = d.blockSizes) :
    Metered numIds (update m i none) d1 { t with totalSize := t.totalSize - UInt64.ofNat old } := by
  have hsum := payload_update (m := m) (v := none) hi
  have htotal := hm.total
  have hfits := hm.room
  have hmax : d.heap.memMaxAddr = d.heap.heap + 1099511627776 := hok.max
  have hle := hok.brk_le
  rw [hold, Option.getD_some, Option.getD_none, Nat.add_zero] at hsum
  refine ⟨fun j n hj => ?_, ?_, ?_⟩
  · have hji : j ≠ i := by
      rintro rfl
      rw [update_self] at hj
      cases hj
    rw [update_of_ne hji] at hj
    rw [hsizes]
    exact hm.sizes j n hj
  · simp only [UInt64.toNat_sub, UInt64.toNat_ofNat']
    omega
  · rw [hheap]
    omega

/-- The total and the next block fit a `size_t` by far. -/
theorem Metered.small (hm : Metered numIds m d t) (hput : Puts numIds index size d d1 i p) (hok : d.heap.Ok)
    (hok1 : d1.heap.Ok) (hheap : d1.heap.heap = d.heap.heap) : t.totalSize.toNat + size.toNat ≤ 1099511627776 := by
  have htotal := hm.total
  have hfits := hm.room
  have hge := hok.brk_ge
  have hle := hok1.brk_le
  have hmax : d1.heap.memMaxAddr = d1.heap.heap + 1099511627776 := hok1.max
  have hroom := hput.room
  omega

/-- A request that passed the check, in `eval_mm_util`. -/
theorem util_step (hs : Sane s d es) (hok : d1.heap.Ok) (hp : Passes (evalOp s c op d) d1) (hmoves : Moves op d d1)
    (ha : d.Alike d') :
    ∃ d1' t1, Returns (utilRequest s.numIds op d' t) (d1', t1) ∧ d1.Alike d1' ∧
      t1.maxTotalSize = t.maxTotalSize ∧ t1.maxHeapSize = t.maxHeapSize ∧
      ∀ m m1, op.act m = some m1 → Metered s.numIds m d t → Metered s.numIds m1 d1 t1 := by
  obtain ⟨-, hp⟩ := evalOp_iff.1 hp
  have hheap := hmoves.heap
  obtain ⟨type, index, size⟩ := op
  cases type with
  | alloc =>
    obtain ⟨i, p, h1, hput, hmalloc, hnull, hheap1⟩ := alloc_repeats hs hp ha.heap
    refine ⟨{ d' with heap := h1, blocks := update d'.blocks i p, blockSizes := update d'.blockSizes i size.toNat },
      { t with totalSize := t.totalSize + size }, ?_, ⟨hheap1, ?_, ?_⟩, rfl, rfl, fun m m1 hact hm => ?_⟩
    · simp only [utilRequest, hmalloc, hnull, if_false, returns_bind, returns_lift, hput.slot, returns_pure]
      exact ⟨i, rfl, rfl⟩
    · rw [hput.blocks, ha.blocks]
    · rw [hput.sizes, ha.sizes]
    · have hindex := (slot_toNat hput.slot).1
      simp only [TraceOp.act, hindex, Option.ite_none_right_eq_some, Option.some.injEq] at hact
      obtain ⟨hnew, rfl⟩ := hact
      refine hm.puts hput hs.ok hheap ?_
      have hsmall : t.totalSize.toNat + size.toNat ≤ 1099511627776 := hm.small hput hs.ok hok hheap
      rw [hnew, UInt64.toNat_add, Nat.mod_eq_of_lt (by omega), Nat.add_zero]
  | realloc =>
    obtain ⟨i, q, h1, hput, hrealloc, hnull, hheap1⟩ := realloc_repeats hs hp ha.heap
    refine ⟨{ d' with heap := h1, blocks := update d'.blocks i q, blockSizes := update d'.blockSizes i size.toNat },
      { t with totalSize := t.totalSize + (size - UInt64.ofNat (d'.blockSizes i)) }, ?_, ⟨hheap1, ?_, ?_⟩, rfl, rfl,
      fun m m1 hact hm => ?_⟩
    · have hreturned : ¬(q = null ∧ size ≠ 0) := fun hq => hq.2 (hnull hq.1)
      rw [← ha.blocks] at hrealloc
      simp only [utilRequest, returns_bind, returns_lift, hput.slot, Option.some.injEq, exists_eq_left', hrealloc,
        hreturned, if_false, returns_pure]
    · rw [hput.blocks, ha.blocks]
    · rw [hput.sizes, ha.sizes]
    · obtain ⟨hindex, -, hlt⟩ := slot_toNat hput.slot
      simp only [TraceOp.act, hindex, Option.map_eq_some_iff] at hact
      obtain ⟨old, hold, rfl⟩ := hact
      refine hm.puts hput hs.ok hheap ?_
      have hsmall : t.totalSize.toNat + size.toNat ≤ 1099511627776 := hm.small hput hs.ok hok hheap
      have hle := le_payload (m := m) hlt
      have htotal := hm.total
      rw [ha.sizes, hm.sizes i old hold, hold, Option.getD_some]
      rw [hold, Option.getD_some] at hle
      simp only [UInt64.toNat_add, UInt64.toNat_sub, UInt64.toNat_ofNat']
      omega
  | free =>
    obtain ⟨hsame, hblocks, hsizes, hindex⟩ := free_repeats hp
    have halike : d1.Alike d' := ⟨hsame ▸ ha.heap, ha.blocks.trans hblocks.symm, ha.sizes.trans hsizes.symm⟩
    rcases hindex with hneg | ⟨hge, i, hi⟩
    · refine ⟨d', { t with totalSize := t.totalSize - 0 }, ?_, halike, rfl, rfl, fun m m1 hact hm => ?_⟩
      · simp only [utilRequest, hneg, if_true, returns_pure, free]
      · simp only [TraceOp.act, hneg, if_true, Option.some.injEq] at hact
        rw [← hact]
        refine ⟨hsizes ▸ hm.sizes, ?_, hsame ▸ hm.room⟩
        rw [← hm.total, UInt64.sub_zero]
    · obtain ⟨hindex, -, hlt⟩ := slot_toNat hi
      have hneg : ¬index < 0 := Int.not_lt.2 hge
      refine ⟨d', { t with totalSize := t.totalSize - UInt64.ofNat (d'.blockSizes i) }, ?_, halike, rfl, rfl,
        fun m m1 hact hm => ?_⟩
      · simp only [utilRequest, hneg, if_false, returns_bind, returns_lift, hi, Option.some.injEq, exists_eq_left',
          returns_pure, free]
      · simp only [TraceOp.act, hneg, if_false, hindex, Option.map_eq_some_iff] at hact
        obtain ⟨old, hold, rfl⟩ := hact
        rw [ha.sizes, hm.sizes i old hold]
        exact hm.frees hlt hold hs.ok hsame hsizes

/-- A request that passed the check, in `eval_mm_speed`. -/
theorem speed_step (hs : Sane s d es) (hp : Passes (evalOp s c op d) d1) (ha : d.heap.Alike d'.heap)
    (hb : d'.blocks = d.blocks) :
    ∃ d1', Returns (speedRequest s.numIds op d') d1' ∧ d1.heap.Alike d1'.heap ∧ d1'.blocks = d1.blocks := by
  obtain ⟨-, hp⟩ := evalOp_iff.1 hp
  obtain ⟨type, index, size⟩ := op
  cases type with
  | alloc =>
    obtain ⟨i, p, h1, hput, hmalloc, hnull, hheap1⟩ := alloc_repeats hs hp ha
    refine ⟨{ d' with heap := h1, blocks := update d'.blocks i p }, ?_, hheap1, ?_⟩
    · simp only [speedRequest, hmalloc, hnull, if_false, returns_bind, returns_lift, hput.slot, returns_pure]
      exact ⟨i, rfl, rfl⟩
    · rw [hput.blocks, hb]
  | realloc =>
    obtain ⟨i, q, h1, hput, hrealloc, hnull, hheap1⟩ := realloc_repeats hs hp ha
    refine ⟨{ d' with heap := h1, blocks := update d'.blocks i q }, ?_, hheap1, ?_⟩
    · have hreturned : ¬(q = null ∧ size ≠ 0) := fun hq => hq.2 (hnull hq.1)
      rw [← hb] at hrealloc
      simp only [speedRequest, returns_bind, returns_lift, hput.slot, Option.some.injEq, exists_eq_left', hrealloc,
        hreturned, if_false, returns_pure]
    · rw [hput.blocks, hb]
  | free =>
    obtain ⟨hsame, hblocks, -, hindex⟩ := free_repeats hp
    refine ⟨d', ?_, hsame ▸ ha, hb.trans hblocks.symm⟩
    rcases hindex with hneg | ⟨hge, i, hi⟩
    · simp only [speedRequest, hneg, if_true, returns_pure, free]
    · have hneg : ¬index < 0 := Int.not_lt.2 hge
      simp only [speedRequest, hneg, if_false, returns_bind, returns_lift, hi, Option.some.injEq, exists_eq_left',
        returns_pure, free]

/-! ## Whole traces -/

theorem Run.sane (hr : Run s choice dend left k ops d es) : Sane s d es := by
  cases hr with
  | done hs => exact hs
  | step hs => exact hs

theorem toNat_memHeapsize (hok : h.Ok) : (memHeapsize h).toNat = h.memBrk - h.heap := by
  have hle := hok.brk_le
  have hmax : h.memMaxAddr = h.heap + 1099511627776 := hok.max
  rw [memHeapsize, UInt64.toNat_ofNat', Nat.mod_eq_of_lt (by omega)]

theorem raise_maxTotalSize (t : Totals) (n : UInt64) :
    (t.raise n).maxTotalSize.toNat = max t.maxTotalSize.toNat t.totalSize.toNat := by
  unfold Totals.raise
  simp only [gt_iff_lt, UInt64.lt_iff_toNat_lt]
  split <;> omega

theorem raise_maxHeapSize (t : Totals) (n : UInt64) :
    (t.raise n).maxHeapSize.toNat = max t.maxHeapSize.toNat n.toNat := by
  unfold Totals.raise
  simp only [gt_iff_lt, UInt64.lt_iff_toNat_lt]
  split <;> omega

/-- A trace that passed the check, in `eval_mm_util`. -/
theorem util_run (hr : Run s choice dend left k ops d es) (ha : d.Alike d')
    (hmax : t.maxHeapSize.toNat = d.heap.memBrk - d.heap.heap) :
    ∃ d2 t2, Returns (utilOps s.numIds ops d' t) (d2, t2) ∧ dend.Alike d2 ∧
      t2.maxHeapSize.toNat = dend.heap.memBrk - dend.heap.heap ∧
      ∀ m n, peak s.numIds ops m = some n → Metered s.numIds m d t → t.maxTotalSize ≤ t.maxHeapSize →
        t2.maxTotalSize.toNat = max t.maxTotalSize.toNat n ∧ t2.maxTotalSize ≤ t2.maxHeapSize := by
  induction hr generalizing d' t with
  | done =>
    refine ⟨d', t, returns_pure.2 rfl, ha, hmax, fun m n hpeak _ hle => ⟨?_, hle⟩⟩
    cases hpeak
    exact (Nat.max_zero _).symm
  | @step k op ops d d1 es hs _ _ _ hp hmoves hrun ih =>
    have hok1 := hrun.sane.ok
    obtain ⟨d1', t1, hreturns, ha1, ht1, ht1', hmeter⟩ := util_step (t := t) hs hok1 hp hmoves ha
    have hsize : (memHeapsize d1'.heap).toNat = d1.heap.memBrk - d1.heap.heap := by
      rw [toNat_memHeapsize (hok1.alike ha1.heap), ha1.heap.heap, ha1.heap.brk]
    have hgrows : d.heap.memBrk - d.heap.heap ≤ d1.heap.memBrk - d1.heap.heap := by
      rw [hmoves.heap]
      exact Nat.sub_le_sub_right hmoves.brk _
    have hraise : (t1.raise (memHeapsize d1'.heap)).maxHeapSize.toNat = d1.heap.memBrk - d1.heap.heap := by
      rw [raise_maxHeapSize, ht1', hmax, hsize]
      omega
    obtain ⟨d2, t2, hrest, ha2, hend, hmarks⟩ := ih ha1 hraise
    refine ⟨d2, t2, returns_bind.2 ⟨(d1', t1), hreturns, hrest⟩, ha2, hend, fun m n hpeak hm hle => ?_⟩
    obtain ⟨m1, hact, hpeak1⟩ := Option.bind_eq_some_iff.1 hpeak
    obtain ⟨rest, hpeak2, hn⟩ := Option.bind_eq_some_iff.1 hpeak1
    obtain rfl := Option.some.inj hn
    have hm1 := hmeter m m1 hact hm
    have htotal := raise_maxTotalSize t1 (memHeapsize d1'.heap)
    rw [ht1, hm1.total] at htotal
    have hle1 : (t1.raise (memHeapsize d1'.heap)).maxTotalSize ≤ (t1.raise (memHeapsize d1'.heap)).maxHeapSize := by
      rw [UInt64.le_iff_toNat_le] at hle ⊢
      rw [htotal, hraise]
      have := hm1.room
      omega
    obtain ⟨hmark, hfits⟩ := hmarks m1 rest hpeak2 ⟨hm1.sizes, hm1.total, hm1.room⟩ hle1
    refine ⟨?_, hfits⟩
    rw [hmark, htotal]
    exact Nat.max_assoc _ _ _

/-- A trace that passed the check, in `eval_mm_speed`. -/
theorem speed_run (hr : Run s choice dend left k ops d es) (ha : d.heap.Alike d'.heap) (hb : d'.blocks = d.blocks) :
    ∃ d2, Returns (speedOps s.numIds ops d') d2 ∧ dend.heap.Alike d2.heap ∧ d2.blocks = dend.blocks := by
  induction hr generalizing d' with
  | done => exact ⟨d', returns_pure.2 rfl, ha, hb⟩
  | step hs _ _ _ hp _ _ ih =>
    obtain ⟨d1', hreturns, ha1, hb1⟩ := speed_step hs hp ha hb
    obtain ⟨d2, hrest, hend⟩ := ih ha1 hb1
    exact ⟨d2, returns_bind.2 ⟨d1', hreturns, hrest⟩, hend⟩

theorem evalMmUtil_eq : evalMmUtil numIds ops d =
    utilOps numIds ops (restart d) { totalSize := 0, maxTotalSize := 0, maxHeapSize := 0 } := rfl

theorem evalMmSpeed_eq : evalMmSpeed numIds ops d = speedOps numIds ops (restart d) := rfl

/-- Where the check passes, the measurements put the same blocks at the same
places. If no freed block is used again, the marks of `eval_mm_util` are the peak
of the trace and the size of the heap, and the one is at most the other. -/
theorem measures_exact {addr : Nat} {mem : Nat → UInt8} (ha : Region addr) (hheap : d.heap = memInit addr mem)
    (hranges : d.ranges = newRangeSet) (hproper : Proper s choice 0 ops (restart d))
    (hvalid : Passes (evalMmValid s choice ops d) d1) (hok : d'.heap.Ok) (hat : d'.heap.heap = addr) :
    (∃ d2 t, Returns (evalMmUtil s.numIds ops d') (d2, t) ∧ d1.Alike d2 ∧
      t.maxHeapSize.toNat = d1.heap.memBrk - addr ∧ ∀ n, peakPayload s.numIds ops = some n →
        t.maxTotalSize.toNat = n ∧ t.maxTotalSize ≤ t.maxHeapSize) ∧
    ∃ d2, Returns (evalMmSpeed s.numIds ops d') d2 ∧ d1.heap.Alike d2.heap ∧ d2.blocks = d1.blocks := by
  have hokd : d.heap.Ok := by
    rw [hheap]
    exact memInit_ok mem ha.page ha.pos ha.user
  have haddr : d.heap.heap = addr := by
    rw [hheap]
    rfl
  have hnew : RangesHold d.ranges [] := by
    rw [hranges]
    exact holds_new
  obtain ⟨left, hrun⟩ := run_of_passes (sane_restart hokd hnew) hproper (evalMmValid_iff.1 hvalid)
  have halike : (restart d).Alike (restart d') := restart_alike hokd hok (hat.trans haddr.symm)
  have hempty : (restart d).heap.memBrk - (restart d).heap.heap = 0 := Nat.sub_self _
  have hend : d1.heap.heap = addr := hrun.heap.trans haddr
  constructor
  · rw [evalMmUtil_eq]
    obtain ⟨d2, t, hreturns, ha2, hsize, hmarks⟩ :=
      util_run (t := { totalSize := 0, maxTotalSize := 0, maxHeapSize := 0 }) hrun halike hempty.symm
    refine ⟨d2, t, hreturns, ha2, hend ▸ hsize, fun n hpeak => ?_⟩
    have hnone : payload s.numIds (fun _ => some 0) = 0 := Finset.sum_const_zero
    have hstart :
        Metered s.numIds (fun _ => some 0) (restart d) { totalSize := 0, maxTotalSize := 0, maxHeapSize := 0 } :=
      ⟨fun _ _ hn => Option.some.inj hn, hnone.symm, hnone.le.trans (Nat.zero_le _)⟩
    obtain ⟨hmark, hle⟩ := hmarks _ n hpeak hstart UInt64.le_rfl
    exact ⟨hmark.trans (Nat.zero_max n), hle⟩
  · rw [evalMmSpeed_eq]
    exact speed_run hrun halike.heap halike.blocks

/-- `measures_exact` for the trace that frees its block. -/
theorem measures_exact_freed : ∃ d1, Passes (evalMmValid oneBlock (inOrder 1) freedTrace newDriver) d1 ∧
    ∃ d2 t, Returns (evalMmUtil oneBlock.numIds freedTrace newDriver) (d2, t) ∧ d1.Alike d2 ∧
      t.maxTotalSize.toNat = 20 := by
  obtain ⟨d1, hvalid⟩ : ∃ d1, Passes (evalMmValid oneBlock (inOrder 1) freedTrace newDriver) d1 := by decide +kernel
  have hok : newDriver.heap.Ok := memInit_ok _ region_new.page region_new.pos region_new.user
  obtain ⟨⟨d2, t, hreturns, halike, -, hmarks⟩, -⟩ :=
    measures_exact region_new rfl rfl (by decide +kernel) hvalid hok rfl
  exact ⟨d1, hvalid, d2, t, hreturns, halike, (hmarks 20 (by decide +kernel)).1⟩

end Cmpsc473.Malloc
