import Cmpsc473.Malloc.Records
/-!
# One request of a trace

`Sane` is the invariant of a run whose records are all its own: the recorded
payloads and the blocks lie below the break, and every block holds what it was
filled with, since all that a request writes lies above the old break. A request
then passes if and only if it is `Feasible`, which depends on addresses and sizes
but not on what is in memory.
-/

namespace Cmpsc473.Malloc

open LinkedList Memory Function

variable {s : Setup} {d d' d1 : Driver} {es es' : List Extent} {c : Choice} {i : Nat} {index : Int} {n : UInt64} {op : TraceOp}

/-! ## The invariant -/

/-- The records are the ranges `es`, and nothing in use lies above the break. -/
structure Sane (s : Setup) (d : Driver) (es : List Extent) : Prop where
  ok : d.heap.Ok
  ranges : RangesHold d.ranges es
  within : ∀ e ∈ es, d.heap.heap ≤ e.lo ∧ e.hi < d.heap.memBrk
  indexed : ∀ e ∈ es, 0 ≤ e.index
  owner : ∀ e ∈ es, ∀ i, d.blocks i = e.lo → (i : Int) = e.index
  fed : ∀ i, Fed d.heap (d.blocks i)
  room : ∀ i, 0 < d.blockSizes i → d.blocks i ≠ null ∧ d.blocks i + d.blockSizes i ≤ d.heap.memBrk
  intact : s.mode ≠ .dbgNone → ∀ i, 0 < d.blockSizes i →
    Intact s d.heap.mem (d.blocks i) (d.blockRandBase i) (d.blockSizes i)

theorem slot_eq (hi : slot s.numIds index = some i) : index = i := by
  obtain ⟨hrange, hi⟩ := Option.ite_none_right_eq_some.1 hi
  have := Option.some.inj hi
  omega

/-- In a sane state the checks find what they look for. -/
theorem Sane.checks (hs : Sane s d es) : Passes (checkIndex s d index false) () ↔ Readable s d index false := by
  refine ⟨readable_of_passes, fun hr => hr.passes fun hmode i _ => ?_⟩
  rcases Nat.eq_zero_or_pos (d.blockSizes i) with h0 | hpos
  · rw [h0]
    exact ⟨fun j hj => absurd hj (Nat.not_lt_zero j), fun _ j hj => absurd hj (Nat.not_lt_zero j)⟩
  · have hin := hs.intact hmode i hpos
    exact ⟨hin.start, fun _ => hin.last⟩

theorem checkRanges_iff {cs : List (Cell Extent)} {p : Option Nat} {fuel : Nat} (hl : Links d.ranges.range p cs none)
    (hf : cs.length < fuel) :
    Passes (checkRanges s d fuel (first cs none)) () ↔ ∀ c ∈ cs, Passes (checkIndex s d c.val.index false) () := by
  induction cs generalizing p fuel with
  | nil =>
    obtain ⟨fuel, rfl⟩ := Nat.exists_eq_succ_of_ne_zero (Nat.pos_iff_ne_zero.1 hf)
    simp [checkRanges, first]
  | cons c cs ih =>
    obtain ⟨fuel, rfl⟩ := Nat.exists_eq_succ_of_ne_zero (Nat.pos_iff_ne_zero.1 (Nat.zero_lt_of_lt hf))
    obtain ⟨hc, hl⟩ := hl
    have hrec := ih hl (Nat.lt_of_succ_lt_succ hf)
    have hfirst : first (c :: cs) none = some c.ptr := rfl
    simp only [hfirst, checkRanges, hc, passes_bind, passes_lift, Option.some.injEq, exists_eq_left', hrec,
      List.forall_mem_cons]
    constructor
    · rintro ⟨_, hc, hcs⟩
      exact ⟨hc, hcs⟩
    · rintro ⟨hc, hcs⟩
      exact ⟨(), hc, hcs⟩

theorem Sane.checkHeap_iff (hs : Sane s d es) (hf : d.ranges.loTree.nodeCount < c.fuel) :
    Passes (checkHeap s c d) () ↔ (s.mode = .dbgExpensive → ∀ e ∈ es, Readable s d e.index false) := by
  rw [hs.ranges.length_eq] at hf
  obtain ⟨m, cs, ha, rfl⟩ := hs.ranges
  unfold checkHeap
  split
  · rename_i hmode
    rw [List.length_map] at hf
    have hensure : Passes (ensure mmCheckheap .mmCheckheapFalse) () := passes_ensure.2 rfl
    rw [ha.list.list, passes_bind]
    simp only [checkRanges_iff ha.list.links hf, hs.checks, List.forall_mem_map, hmode, true_imp_iff]
    exact ⟨fun ⟨_, _, hall⟩ => hall, fun hall => ⟨(), hensure, hall⟩⟩
  · exact iff_of_true (passes_pure.2 rfl) fun hmode => absurd hmode ‹_›

/-! ## A block is placed -/

/-- The heaps have the same addresses. -/
structure Heap.Alike (h h' : Heap) : Prop where
  heap : h'.heap = h.heap
  brk : h'.memBrk = h.memBrk
  max : h'.memMaxAddr = h.memMaxAddr

theorem null_lt_heap {h : Heap} (hok : h.Ok) : null < h.heap := hok.pos

/-- The block `i` is moved to `p`, and at most its own record is new. -/
theorem Sane.move {size p : Nat} {h : Heap} {ranges : RangeSet} {b : Nat → Nat} (hs : Sane s d es) (hok : h.Ok)
    (hheap : h.heap = d.heap.heap) (hbrk : d.heap.memBrk ≤ h.memBrk) (hmem : ∀ x < d.heap.memBrk, h.mem x = d.heap.mem x)
    (hr : RangesHold ranges es') (hes : ∀ e ∈ es', e ∈ es ∧ e.lo ≠ p ∨
      e = { lo := p, hi := p + size - 1, index := i } ∧ 0 < size ∧ d.heap.memBrk ≤ p)
    (hfed : Fed h p) (hroom : 0 < size → p ≠ null ∧ p + size ≤ h.memBrk) (hb : ∀ k, k ≠ i → b k = d.blockRandBase k)
    (hintact : s.mode ≠ .dbgNone → 0 < size → Intact s h.mem p (b i) size) :
    Sane s { heap := h, ranges := ranges, blocks := update d.blocks i p, blockSizes := update d.blockSizes i size,
             blockRandBase := b } es' := by
  have hge := hs.ok.brk_ge
  refine ⟨hok, hr, fun e he => ?_, fun e he => ?_, fun e he k hk => ?_, fun k => ?_, fun k hk => ?_, fun hmode k hk => ?_⟩
  · rcases hes e he with ⟨he, -⟩ | ⟨rfl, h0, hfresh⟩
    · have := hs.within e he
      simp only
      omega
    · have := (hroom h0).2
      simp only
      omega
  · rcases hes e he with ⟨he, -⟩ | ⟨rfl, -⟩
    · exact hs.indexed e he
    · exact Int.natCast_nonneg i
  · simp only at hk
    rcases hes e he with ⟨he, hne⟩ | ⟨rfl, -, hfresh⟩
    · by_cases hki : k = i
      · rw [hki, update_self] at hk
        exact absurd hk.symm hne
      · rw [update_of_ne hki] at hk
        exact hs.owner e he k hk
    · by_cases hki : k = i
      · rw [hki]
      · have hk : d.blocks k = p := (update_of_ne hki _ _).symm.trans hk
        have hpos := hs.ok.pos
        rcases hs.fed k with hnull | ⟨-, -, hlt⟩
        · rw [hnull, null] at hk
          omega
        · omega
  · show Fed h (update d.blocks i p k)
    by_cases hki : k = i
    · rw [hki, update_self]
      exact hfed
    · rw [update_of_ne hki]
      rcases hs.fed k with hnull | ⟨hal, hlo, hhi⟩
      · exact .inl hnull
      · exact .inr ⟨hal, by omega, by omega⟩
  · show update d.blocks i p k ≠ null ∧ update d.blocks i p k + update d.blockSizes i size k ≤ h.memBrk
    by_cases hki : k = i
    · rw [hki] at hk ⊢
      simp only [update_self] at hk ⊢
      exact hroom hk
    · simp only [update_of_ne hki] at hk ⊢
      have := hs.room k hk
      exact ⟨this.1, by omega⟩
  · by_cases hki : k = i
    · rw [hki] at hk ⊢
      simp only [update_self] at hk ⊢
      exact hintact hmode hk
    · simp only [update_of_ne hki] at hk ⊢
      rw [hb k hki]
      have hlt := (hs.room k hk).2
      exact (hs.intact hmode k hk).congr fun x _ hx => hmem x (by omega)

/-- A block above the old break is recorded and filled. -/
theorem Sane.place {size p random : Nat} {g : Heap} {ranges : RangeSet} (hs : Sane s d es) (hg : Grant d.heap size p g)
    (h0 : 0 < size) (hsub : ∀ e ∈ es', e ∈ es)
    (hr : RangesHold ranges (record s.mode es' { lo := p, hi := p + size - 1, index := index }))
    (hi : slot s.numIds index = some i) :
    ∃ d1, randomizeBlock s { d with
        heap := g, ranges := ranges, blocks := update d.blocks i p, blockSizes := update d.blockSizes i size } i random =
          some d1 ∧ g.Alike d1.heap ∧ d1.blocks = update d.blocks i p ∧ d1.blockSizes = update d.blockSizes i size ∧
      Sane s d1 (record s.mode es' { lo := p, hi := p + size - 1, index := index }) := by
  have hbrk := hg.fresh
  have hroom := hg.room
  have hmax := hg.ok.brk_le
  have hge := hs.ok.brk_ge
  obtain ⟨h, b, hrun, hw, hb, hintact⟩ := randomizeBlock_at random (s := s) (i := i) (d := { d with
    heap := g, ranges := ranges, blocks := update d.blocks i p, blockSizes := update d.blockSizes i size }) fun _ => by
      simp only [update_self]
      rw [mapped_iff, hg.heap]
      omega
  simp only [update_self] at hw hintact
  have hheap : h.heap = d.heap.heap := hw.heap.trans hg.heap
  have hhbrk : h.memBrk = g.memBrk := hw.brk
  have hmem : ∀ x < d.heap.memBrk, h.mem x = d.heap.mem x := fun x hx =>
    (hw.outside x (by omega)).trans (hg.outside x (by omega))
  have hnull : null < d.heap.memBrk := (null_lt_heap hs.ok).trans_le hge
  refine ⟨_, hrun, ⟨hw.heap, hw.brk, hw.max⟩, rfl, rfl,
    hs.move (hg.ok.writes hw) hheap (by omega) hmem hr (fun e he => ?_) (.inr ⟨hg.aligned, by omega, by omega⟩)
      (fun _ => ⟨by omega, by omega⟩) hb hintact⟩
  rcases mem_record.1 he with he | ⟨-, rfl⟩
  · have hlt := (hs.within e (hsub e he)).2
    have hle := (hs.ranges.payload (hsub e he)).1
    exact .inl ⟨hsub e he, by omega⟩
  · exact .inr ⟨by rw [slot_eq hi], h0, hbrk⟩

/-- Records may be dropped. -/
theorem Sane.drop {ranges : RangeSet} (hs : Sane s d es) (hr : RangesHold ranges es') (hsub : ∀ e ∈ es', e ∈ es) :
    Sane s { d with ranges := ranges } es' :=
  ⟨hs.ok, hr, fun e he => hs.within e (hsub e he), fun e he => hs.indexed e (hsub e he),
    fun e he => hs.owner e (hsub e he), hs.fed, hs.room, hs.intact⟩

/-! ## What a request needs -/

/-- The driver when `check_index` looks at a block that was reallocated. -/
abbrev moved (d : Driver) (g : Heap) (ranges : RangeSet) (i q size : Nat) : Driver :=
  { d with heap := g, ranges := ranges, blocks := update d.blocks i q, blockSizes := update d.blockSizes i size }

/-- The request passes in a sane state: its index is one of the trace, what is
looked at is mapped, and what is asked for is left. -/
def Feasible (s : Setup) (op : TraceOp) (d : Driver) : Prop :=
  match op.type with
  | .alloc => (∃ i, slot s.numIds op.index = some i) ∧ 0 < op.size.toNat ∧ alignUp op.size.toNat ≤ d.heap.rest
  | .realloc => Readable s d op.index false ∧ ∃ i, slot s.numIds op.index = some i ∧ (0 < op.size.toNat →
      (Request.realloc (d.blocks i) op.size).sbrks.sum ≤ d.heap.rest ∧
      ∀ q g, realloc d.heap (d.blocks i) op.size = some (q, g) →
        Readable s (moved d g d.ranges i q (min op.size.toNat (d.blockSizes i))) op.index true)
  | .free => Readable s d op.index false ∧ (op.index = -1 ∨ ∃ i, slot s.numIds op.index = some i)

/-- The payload of a request that allocated the block at `p`. -/
def TraceOp.extent (op : TraceOp) (p : Nat) : Extent := { lo := p, hi := p + op.size.toNat - 1, index := op.index }

/-- The request releases the block of its index. -/
def TraceOp.releases (op : TraceOp) : Bool :=
  match op.type with
  | .alloc => false
  | .realloc => true
  | .free => decide (op.index ≠ -1)

/-- The request allocates a block. -/
def TraceOp.allocates (op : TraceOp) : Bool :=
  match op.type with
  | .alloc => true
  | .realloc => decide (op.size ≠ 0)
  | .free => false

/-- The records after a request: the block at `old` is released, the one at `new`
is allocated. -/
def recordsAfter (mode : DebugMode) (op : TraceOp) (old new : Nat) (es : List Extent) : List Extent :=
  let es := if op.releases then es.filter (·.lo ≠ old) else es
  if op.allocates then record mode es (op.extent new) else es

/-- Where the blocks are after a request. -/
structure Moves (op : TraceOp) (d d1 : Driver) : Prop where
  heap : d1.heap.heap = d.heap.heap
  brk : d.heap.memBrk ≤ d1.heap.memBrk
  others : ∀ j : Nat, (j : Int) ≠ op.index → d1.blocks j = d.blocks j
  fresh : op.allocates = true → d.heap.memBrk ≤ d1.blocks op.index.toNat
  released : op.type = .realloc → op.allocates = false → d1.blocks op.index.toNat = null
  kept : op.type = .free → d1.blocks = d.blocks

@[simp] theorem passes_addBlock {lo size : Nat} {rs : RangeSet} : Passes (addBlock s c d lo size index) rs ↔
    addRange c.fuel s.mode d.heap d.ranges lo size index c.range c.node = some (.ok rs) := by
  unfold addBlock Passes
  rw [ExceptT.run_mk]
  rcases addRange c.fuel s.mode d.heap d.ranges lo size index c.range c.node with _ | _ | rs' <;> simp [Except.mapError]

theorem evalAlloc_iff : Passes (evalAlloc s c d index n) d1 ↔ (malloc d.heap n).1 ≠ null ∧
    ∃ ranges, addRange c.fuel s.mode (malloc d.heap n).2 d.ranges (malloc d.heap n).1 n.toNat index c.range c.node =
        some (.ok ranges) ∧
      ∃ i, slot s.numIds index = some i ∧ randomizeBlock s { d with
        heap := (malloc d.heap n).2, ranges := ranges, blocks := update d.blocks i (malloc d.heap n).1,
        blockSizes := update d.blockSizes i n.toNat } i c.random = some d1 := by
  simp only [evalAlloc, passes_bind, passes_ensure, passes_addBlock, passes_lift, decide_eq_true_eq]
  constructor
  · rintro ⟨_, h1, h2⟩
    exact ⟨h1, h2⟩
  · rintro ⟨h1, h2⟩
    exact ⟨(), h1, h2⟩

theorem evalRealloc_iff (h0 : 0 < n.toNat) : Passes (evalRealloc s c d index n) d1 ↔
    Passes (checkIndex s d index false) () ∧ ∃ i, slot s.numIds index = some i ∧
      ∃ q g, realloc d.heap (d.blocks i) n = some (q, g) ∧ q ≠ null ∧
        ∃ ranges, removeRange c.fuel d.ranges (d.blocks i) = some ranges ∧
          ∃ ranges', addRange c.fuel s.mode g ranges q n.toNat index c.range c.node = some (.ok ranges') ∧
            Passes (checkIndex s (moved d g ranges' i q (min n.toNat (d.blockSizes i))) index true) () ∧
            randomizeBlock s (moved d g ranges' i q n.toNat) i c.random = some d1 := by
  have hne : n ≠ 0 := by
    rintro rfl
    exact absurd h0 (by decide)
  have hpos : n > 0 := UInt64.pos_iff_ne_zero.2 hne
  simp only [evalRealloc, passes_bind, passes_ensure, passes_lift, passes_addBlock, hpos, if_true, hne, exists_unit,
    Prod.exists, decide_eq_true_eq, or_false, ne_eq, not_false_eq_true, or_true, true_and, update_idem]

theorem evalRealloc_zero (h0 : n.toNat = 0) : Passes (evalRealloc s c d index n) d1 ↔
    Passes (checkIndex s d index false) () ∧ ∃ i, slot s.numIds index = some i ∧
      ∃ q g, realloc d.heap (d.blocks i) n = some (q, g) ∧ q = null ∧
        ∃ ranges, removeRange c.fuel d.ranges (d.blocks i) = some ranges ∧
          Passes (checkIndex s (moved d g ranges i q 0) index true) () ∧
          randomizeBlock s (moved d g ranges i q 0) i c.random = some d1 := by
  have hz : n = 0 := UInt64.toNat_inj.1 h0
  subst hz
  have hpos : ¬(0 : UInt64) > 0 := by decide
  simp only [evalRealloc, passes_bind, passes_ensure, passes_lift, passes_pure, hpos, if_false, exists_unit,
    Prod.exists, decide_eq_true_eq, or_true, true_and, not_true_eq_false, ne_eq, or_false, exists_eq_left',
    update_idem, UInt64.toNat_zero, Nat.zero_min]

theorem evalFree_iff : Passes (evalFree s c d index) d1 ↔ Passes (checkIndex s d index false) () ∧
    (index = -1 ∧ d1 = d ∨ index ≠ -1 ∧ ∃ i, slot s.numIds index = some i ∧
      ∃ ranges, removeRange c.fuel d.ranges (d.blocks i) = some ranges ∧ d1 = { d with ranges := ranges }) := by
  simp only [evalFree, passes_bind, exists_unit]
  refine and_congr_right fun _ => ?_
  by_cases hi : index = -1
  · simp only [hi, if_true, passes_pure, free, true_and, ne_eq, not_true_eq_false, false_and, or_false]
    exact eq_comm
  · simp only [hi, if_false, passes_bind, passes_lift, passes_pure, free, false_and, false_or, ne_eq, not_false_eq_true,
      true_and]
    simp only [eq_comm]

/-! ## `ALLOC` -/

/-- `malloc` returns what is free in the set that `add_range` is called with, and
the loops may take more rounds than there are ranges. -/
def Choice.Free (c : Choice) (rs : RangeSet) : Prop :=
  rs.loTree.nodeCount < c.fuel ∧ rs.range c.range = none ∧ rs.loTree.node c.node = none

theorem evalAlloc_fits (hs : Sane s d es) (hp : Passes (evalAlloc s c d index n) d1) :
    (∃ i, slot s.numIds index = some i) ∧ 0 < n.toNat ∧ alignUp n.toNat ≤ d.heap.rest := by
  obtain ⟨hnull, ranges, hadd, i, hi, -⟩ := evalAlloc_iff.1 hp
  refine ⟨⟨i, hi⟩, ?_⟩
  rcases malloc_cases hs.ok n with ⟨-, hm⟩ | ⟨h0, hfit, -⟩ | ⟨-, -, p, hm, -⟩
  · rw [hm] at hnull
    exact absurd rfl hnull
  · exact ⟨h0, hfit⟩
  · have hge := (malloc_ge hs.ok n).resolve_left hnull
    rw [hm] at hadd hge
    exact absurd hadd (addRange_above (hs.ok.pos.trans_le hs.ok.brk_ge) hge)

theorem evalAlloc_at (hs : Sane s d es) (hc : c.Free d.ranges) (hi : slot s.numIds index = some i) (h0 : 0 < n.toNat)
    (hfit : alignUp n.toNat ≤ d.heap.rest) :
    ∃ d1, Passes (evalAlloc s c d index n) d1 ∧ d1.heap.heap = d.heap.heap ∧ d.heap.memBrk ≤ d1.heap.memBrk ∧
      d1.blocks = update d.blocks i d.heap.memBrk ∧
      Sane s d1 (record s.mode es { lo := d.heap.memBrk, hi := d.heap.memBrk + n.toNat - 1, index := index }) := by
  have hm : malloc d.heap n = (d.heap.memBrk, d.heap.grow (alignUp n.toNat)) := by
    rcases malloc_cases hs.ok n with ⟨hz, -⟩ | ⟨-, -, hm⟩ | ⟨-, hfull, -⟩
    · omega
    · exact hm
    · omega
  have hgrant := malloc_grant hs.ok hfit
  obtain ⟨hfuel, hrange, hnode⟩ := hc
  obtain ⟨ranges, hadd, hholds⟩ := addRange_bump s.mode hs.ranges h0 (hgrant.ok.brk_le.trans hgrant.ok.user)
    (hgrant.placed hs.ok h0) (fun e he => (hs.within e he).2) hfuel hrange hnode
  obtain ⟨d1, hrun, halike, hblocks, -, hsane⟩ := hs.place hgrant h0 (fun _ he => he) hholds hi
  refine ⟨d1, ?_, halike.heap, ?_, hblocks, hsane⟩
  · rw [evalAlloc_iff, hm]
    exact ⟨hs.ok.brk_ne, ranges, hadd, i, hi, hrun⟩
  · rw [halike.brk]
    exact Nat.le_add_right _ _

/-! ## `REALLOC` -/

theorem fed_lt {h : Heap} {p : Nat} (hok : h.Ok) (hp : Fed h p) : p < 9223372036854775808 := by
  have h1 := hok.brk_le
  have h2 := hok.user
  rcases hp with rfl | ⟨-, -, hlt⟩
  · decide
  · omega

/-- What `realloc` returned, where the request passes. -/
theorem evalRealloc_grant {g : Heap} {q fuel p z : Nat} {rs rs' : RangeSet} (hs : Sane s d es) (h0 : 0 < n.toNat)
    (hr : realloc d.heap (d.blocks i) n = some (q, g))
    (hadd : addRange fuel s.mode g rs q n.toNat index p z = some (.ok rs')) :
    Grant d.heap n.toNat q g ∧ (Request.realloc (d.blocks i) n).sbrks.sum ≤ d.heap.rest := by
  apply realloc_grant hs.ok (hs.fed i) h0 hr
  by_contra hge
  have hok := realloc_ok hs.ok (hs.fed i) h0 hr
  exact addRange_above (hok.pos.trans_le hok.brk_ge) (Nat.le_of_not_lt hge) hadd

theorem evalRealloc_fits (hs : Sane s d es) (hp : Passes (evalRealloc s c d index n) d1) :
    Readable s d index false ∧ ∃ i, slot s.numIds index = some i ∧ (0 < n.toNat →
      (Request.realloc (d.blocks i) n).sbrks.sum ≤ d.heap.rest ∧
      ∀ q g, realloc d.heap (d.blocks i) n = some (q, g) →
        Readable s (moved d g d.ranges i q (min n.toNat (d.blockSizes i))) index true) := by
  rcases Nat.eq_zero_or_pos n.toNat with h0 | h0
  · obtain ⟨hcheck, i, hi, -⟩ := (evalRealloc_zero h0).1 hp
    exact ⟨readable_of_passes hcheck, i, hi, fun hpos => by omega⟩
  · obtain ⟨hcheck, i, hi, q, g, hr, -, ranges, -, ranges', hadd, hcheck', -⟩ := (evalRealloc_iff h0).1 hp
    refine ⟨readable_of_passes hcheck, i, hi, fun _ => ⟨(evalRealloc_grant hs h0 hr hadd).2, fun q' g' hr' => ?_⟩⟩
    cases hr.symm.trans hr'
    exact readable_of_passes hcheck'

/-- The bytes of the old block are found in the new one. -/
theorem moved_passes {g : Heap} {ranges : RangeSet} {q : Nat} (hs : Sane s d es) (h0 : 0 < n.toNat)
    (hr : realloc d.heap (d.blocks i) n = some (q, g))
    (hfit : (Request.realloc (d.blocks i) n).sbrks.sum ≤ d.heap.rest) (hi : slot s.numIds index = some i)
    (hread : Readable s (moved d g ranges i q (min n.toNat (d.blockSizes i))) index true) :
    Passes (checkIndex s (moved d g ranges i q (min n.toNat (d.blockSizes i))) index true) () := by
  refine hread.passes fun hmode k hk => ⟨fun j hj => ?_, fun hfalse => by cases hfalse⟩
  cases hi.symm.trans hk
  simp only [update_self] at hj ⊢
  rw [fsize_span] at hj
  have hpos : 0 < d.blockSizes i := by omega
  obtain ⟨hnull, hroom⟩ := hs.room i hpos
  rw [sum_sbrks_block h0 hnull] at hfit
  rw [(realloc_copies hs.ok hnull h0 hfit hr).2 j (by omega) (by omega)]
  refine (hs.intact hmode i hpos).start j ?_
  rw [fsize_span]
  omega

/-- What a `REALLOC` that passes leaves. -/
theorem evalRealloc_at (hs : Sane s d es) (hfuel : d.ranges.loTree.nodeCount < c.fuel)
    (hc : ∀ rs, removeRange c.fuel d.ranges (d.blocks i) = some rs → c.Free rs) (hread : Readable s d index false)
    (hi : slot s.numIds index = some i) (h0 : 0 < n.toNat)
    (hfit : (Request.realloc (d.blocks i) n).sbrks.sum ≤ d.heap.rest)
    (hread' : ∀ q g, realloc d.heap (d.blocks i) n = some (q, g) →
      Readable s (moved d g d.ranges i q (min n.toNat (d.blockSizes i))) index true) :
    ∃ d1 q, Passes (evalRealloc s c d index n) d1 ∧ d1.heap.heap = d.heap.heap ∧
      d.heap.memBrk ≤ d1.heap.memBrk ∧ d.heap.memBrk ≤ q ∧
      d1.blocks = update d.blocks i q ∧
      Sane s d1 (record s.mode (es.filter (·.lo ≠ d.blocks i)) { lo := q, hi := q + n.toNat - 1, index := index }) := by
  obtain ⟨rs, hremove, hholds⟩ := removeRange_holds hs.ranges hfuel (fed_lt hs.ok (hs.fed i))
  obtain ⟨hfuel', hrange, hnode⟩ := hc rs hremove
  rcases realloc_outcome hs.ok (hs.fed i) with ⟨hz, -⟩ | ⟨-, -, q, g, hr, hnull, hgrant, -⟩ | ⟨-, hfull, -⟩
  · have : n.toNat = 0 := hz
    omega
  · have hsub : ∀ e ∈ es.filter (·.lo ≠ d.blocks i), e ∈ es := fun e he => List.mem_of_mem_filter he
    obtain ⟨ranges, hadd, hholds'⟩ := addRange_bump s.mode hholds h0 (hgrant.ok.brk_le.trans hgrant.ok.user)
      (hgrant.placed hs.ok h0) (fun e he => (hs.within e (hsub e he)).2.trans_le hgrant.fresh) hfuel' hrange hnode
    obtain ⟨d1, hrun, halike, hblocks, -, hsane⟩ := hs.place hgrant h0 hsub hholds' hi
    refine ⟨d1, q, ?_, halike.heap.trans hgrant.heap, ?_, hgrant.fresh, hblocks, hsane⟩
    · exact (evalRealloc_iff h0).2 ⟨hs.checks.2 hread, i, hi, q, g, hr, hnull, rs, hremove, ranges, hadd,
        moved_passes hs h0 hr hfit hi (hread' q g hr), hrun⟩
    · rw [halike.brk]
      have h1 := hgrant.fresh
      have h2 := hgrant.room
      omega
  · omega

/-- What a `REALLOC` to size 0 leaves. -/
theorem evalRealloc_zero_at (hs : Sane s d es) (hfuel : d.ranges.loTree.nodeCount < c.fuel)
    (hread : Readable s d index false) (hi : slot s.numIds index = some i) (h0 : n.toNat = 0) :
    ∃ d1, Passes (evalRealloc s c d index n) d1 ∧ d1.heap.heap = d.heap.heap ∧ d1.heap.memBrk = d.heap.memBrk ∧
      d1.blocks = update d.blocks i null ∧ Sane s d1 (es.filter (·.lo ≠ d.blocks i)) := by
  obtain ⟨rs, hremove, hholds⟩ := removeRange_holds hs.ranges hfuel (fed_lt hs.ok (hs.fed i))
  have hr : realloc d.heap (d.blocks i) n = some (null, d.heap) := by
    rcases realloc_outcome hs.ok (hs.fed i) with ⟨-, hr⟩ | ⟨hloud, -⟩ | ⟨hloud, -⟩
    · exact hr
    · exact absurd h0 hloud
    · exact absurd h0 hloud
  have hsub : ∀ e ∈ es.filter (·.lo ≠ d.blocks i), e ∈ es := fun e he => List.mem_of_mem_filter he
  obtain ⟨h, b, hrun, hw, hb, -⟩ := randomizeBlock_at c.random (s := s) (i := i)
    (d := moved d d.heap rs i null 0) fun hpos => by simp at hpos
  simp only [update_self] at hw
  have hmem : ∀ x, h.mem x = d.heap.mem x := fun x => hw.outside x (by omega)
  have hcheck : Readable s (moved d d.heap rs i null 0) index true := by
    refine .inr (.inr ⟨i, hi, fun j hj => ?_, fun hfalse => by cases hfalse⟩)
    simp only [update_self] at hj
    exact absurd hj (Nat.not_lt_zero j)
  have hcheck' : Passes (checkIndex s (moved d d.heap rs i null 0) index true) () := by
    refine hcheck.passes fun _ k hk => ⟨fun j hj => ?_, fun hfalse => by cases hfalse⟩
    cases hi.symm.trans hk
    simp only [update_self] at hj
    exact absurd hj (Nat.not_lt_zero j)
  refine ⟨_, (evalRealloc_zero h0).2 ⟨hs.checks.2 hread, i, hi, null, d.heap, hr, rfl, rs, hremove, hcheck', hrun⟩,
    hw.heap, hw.brk, rfl, hs.move (hs.ok.writes hw) hw.heap hw.brk.ge (fun x _ => hmem x) hholds (fun e he => .inl ?_)
      (.inl rfl) (fun hpos => absurd hpos (Nat.lt_irrefl 0)) hb fun _ hpos => absurd hpos (Nat.lt_irrefl 0)⟩
  have hlo := (hs.within e (hsub e he)).1
  have hpos := null_lt_heap hs.ok
  exact ⟨hsub e he, by omega⟩

/-! ## Every request -/

/-- The set that `add_range` is called with, if it is. -/
def rangesAt (s : Setup) (c : Choice) (op : TraceOp) (d : Driver) : Option RangeSet :=
  match op.type with
  | .alloc => some d.ranges
  | .realloc => do
    let i ← slot s.numIds op.index
    removeRange c.fuel d.ranges (d.blocks i)
  | .free => none

/-- What is decided elsewhere is possible. -/
def Choice.Fresh (s : Setup) (c : Choice) (op : TraceOp) (d : Driver) : Prop :=
  d.ranges.loTree.nodeCount < c.fuel ∧ ∀ rs ∈ rangesAt s c op d, c.Free rs

theorem evalOp_iff : Passes (evalOp s c op d) d1 ↔ Passes (checkHeap s c d) () ∧ Passes (evalRequest s c op d) d1 := by
  rw [evalOp, passes_bind, exists_unit]

/-- A request that passes in a sane state is feasible. -/
theorem feasible_of_passes (hs : Sane s d es) (hp : Passes (evalOp s c op d) d1) : Feasible s op d := by
  obtain ⟨-, hp⟩ := evalOp_iff.1 hp
  unfold evalRequest at hp
  unfold Feasible
  cases htype : op.type with
  | alloc =>
    rw [htype] at hp
    exact evalAlloc_fits hs hp
  | realloc =>
    rw [htype] at hp
    exact evalRealloc_fits hs hp
  | free =>
    rw [htype] at hp
    obtain ⟨hcheck, h | ⟨-, i, hi, -⟩⟩ := evalFree_iff.1 hp
    · exact ⟨readable_of_passes hcheck, .inl h.1⟩
    · exact ⟨readable_of_passes hcheck, .inr ⟨i, hi⟩⟩

/-- A feasible request passes, and keeps the state sane. -/
theorem Sane.step (hs : Sane s d es) (hfresh : c.Fresh s op d) (hheap : Passes (checkHeap s c d) ())
    (hf : Feasible s op d) : ∃ d1, Passes (evalOp s c op d) d1 ∧ Moves op d d1 ∧
      Sane s d1 (recordsAfter s.mode op (d.blocks op.index.toNat) (d1.blocks op.index.toNat) es) := by
  obtain ⟨hfuel, hfree⟩ := hfresh
  obtain ⟨type, index, size⟩ := op
  simp only [evalOp_iff, evalRequest]
  cases type with
  | alloc =>
    obtain ⟨⟨i, hi⟩, h0, hfit⟩ := hf
    obtain ⟨d1, hp, hheap1, hbrk, hblocks, hsane⟩ := evalAlloc_at hs (hfree _ rfl) hi h0 hfit
    obtain rfl : index = i := slot_eq hi
    refine ⟨d1, ⟨hheap, hp⟩, ⟨hheap1, hbrk, fun j hj => ?_, fun _ => ?_, fun hr => ?_, fun hr => ?_⟩, ?_⟩
    · rw [hblocks, update_of_ne fun h => hj (congrArg Nat.cast h)]
    · rw [hblocks, Int.toNat_natCast, update_self]
    · cases hr
    · cases hr
    · rw [hblocks, Int.toNat_natCast, update_self]
      exact hsane
  | realloc =>
    obtain ⟨hread, i, hi, hf⟩ := hf
    obtain rfl : index = i := slot_eq hi
    rcases Nat.eq_zero_or_pos size.toNat with h0 | h0
    · obtain ⟨d1, hp, hheap1, hbrk, hblocks, hsane⟩ := evalRealloc_zero_at hs hfuel hread hi h0
      have hzero : size = 0 := UInt64.toNat_inj.1 h0
      refine ⟨d1, ⟨hheap, hp⟩, ⟨hheap1, hbrk.ge, fun j hj => ?_, fun ha => ?_, fun _ _ => ?_, fun hr => ?_⟩, ?_⟩
      · rw [hblocks, update_of_ne fun h => hj (congrArg Nat.cast h)]
      · exact absurd hzero (of_decide_eq_true ha)
      · rw [hblocks, Int.toNat_natCast, update_self]
      · cases hr
      · rw [hzero, Int.toNat_natCast]
        exact hsane
    · have hne : size ≠ 0 := by
        rintro rfl
        exact absurd h0 (by decide)
      have hfree' : ∀ rs, removeRange c.fuel d.ranges (d.blocks i) = some rs → c.Free rs := by
        intro rs hrs
        refine hfree rs ?_
        simp only [rangesAt, hi, Option.bind_eq_bind, Option.bind_some]
        exact hrs
      obtain ⟨hfit, hread'⟩ := hf h0
      obtain ⟨d1, q, hp, hheap1, hbrk, hq, hblocks, hsane⟩ := evalRealloc_at hs hfuel hfree' hread hi h0 hfit hread'
      refine ⟨d1, ⟨hheap, hp⟩, ⟨hheap1, hbrk, fun j hj => ?_, fun _ => ?_, fun _ ha => ?_, fun hr => ?_⟩, ?_⟩
      · rw [hblocks, update_of_ne fun h => hj (congrArg Nat.cast h)]
      · rw [hblocks, Int.toNat_natCast, update_self]
        exact hq
      · exact absurd hne (of_decide_eq_false ha)
      · cases hr
      · rw [hblocks, Int.toNat_natCast, update_self]
        simpa only [recordsAfter, TraceOp.releases, TraceOp.allocates, hne, ne_eq, not_false_eq_true, decide_true, if_true,
          TraceOp.extent] using hsane
  | free =>
    obtain ⟨hread, hidx⟩ := hf
    have hcheck := hs.checks.2 hread
    by_cases hneg : index = -1
    · refine ⟨d, ⟨hheap, evalFree_iff.2 ⟨hcheck, .inl ⟨hneg, rfl⟩⟩⟩, ⟨rfl, le_rfl, fun _ _ => rfl, fun ha => ?_,
        fun hr => ?_, fun _ => rfl⟩, ?_⟩
      · cases ha
      · cases hr
      · rw [hneg]
        exact hs
    · obtain ⟨i, hi⟩ := hidx.resolve_left hneg
      obtain rfl : index = i := slot_eq hi
      obtain ⟨rs, hremove, hholds⟩ := removeRange_holds hs.ranges hfuel (fed_lt hs.ok (hs.fed i))
      refine ⟨{ d with ranges := rs }, ⟨hheap, evalFree_iff.2 ⟨hcheck, .inr ⟨hneg, i, hi, rs, hremove, rfl⟩⟩⟩,
        ⟨rfl, le_rfl, fun _ _ => rfl, fun ha => ?_, fun hr => ?_, fun _ => rfl⟩, ?_⟩
      · cases ha
      · cases hr
      · have hsane := hs.drop hholds fun e he => List.mem_of_mem_filter he
        simpa only [recordsAfter, TraceOp.releases, TraceOp.allocates, hneg, ne_eq, not_false_eq_true, decide_true, if_true,
          Bool.false_eq_true, if_false, Int.toNat_natCast] using hsane

end Cmpsc473.Malloc
