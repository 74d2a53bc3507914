import Cmpsc473.Malloc.Leftovers
/-!
# The validity check run twice

`run_tests` checks every trace twice with one set of ranges. The break, the
blocks and their sizes are reset in between, but no range is dropped. The break
restarts at the same address, so the second run allocates what the first one did
(`Run.again`), and it passes if and only if the first one left no range behind.
-/

namespace Cmpsc473.Malloc

open LinkedList Memory Function

variable {s : Setup} {choice choice' : Nat → Choice} {c : Choice} {k k' : Nat} {op : TraceOp} {ops : List TraceOp}
  {d d' d1 d2 dend : Driver} {es left : List Extent} {e : Extent} {mode : DebugMode}

/-! ## Traces -/

/-- The next request with the index releases the block. -/
def releasesNext (index : Int) (ops : List TraceOp) : Bool := (ops.find? (·.index = index)).any (·.type ≠ .alloc)

/-- Some request allocates a block that the next request with the same index does
not release. -/
def leavesBlocks : List TraceOp → Bool
  | [] => false
  | op :: ops => (op.allocates && !releasesNext op.index ops) || leavesBlocks ops

theorem leavesBlocks_cons : leavesBlocks (op :: ops) = false ↔
    (op.allocates = true → releasesNext op.index ops = true) ∧ leavesBlocks ops = false := by
  rw [leavesBlocks]
  cases op.allocates <;> cases releasesNext op.index ops <;> simp

theorem releasesNext_same (hop : op.index = e.index) :
    releasesNext e.index (op :: ops) = true ↔ op.type ≠ .alloc := by
  simp [releasesNext, hop]

theorem releasesNext_other (hop : op.index ≠ e.index) : releasesNext e.index (op :: ops) = releasesNext e.index ops := by
  simp [releasesNext, hop]

/-! ## Runs -/

/-- What is decided elsewhere is possible, in every request of a run. -/
def Proper (s : Setup) (choice : Nat → Choice) : Nat → List TraceOp → Driver → Prop
  | _, [], _ => True
  | k, op :: ops, d =>
    (choice k).Fresh s op d ∧ ∀ d1, Passes (evalOp s (choice k) op d) d1 → Proper s choice (k + 1) ops d1

/-- A run that passes, to the state `dend` with the ranges `left`. -/
inductive Run (s : Setup) (choice : Nat → Choice) (dend : Driver) (left : List Extent) :
    Nat → List TraceOp → Driver → List Extent → Prop where
  | done {k : Nat} : Sane s dend left → Run s choice dend left k [] dend left
  | step {k : Nat} {op : TraceOp} {ops : List TraceOp} {d d1 : Driver} {es : List Extent} : Sane s d es → (choice k).Fresh s op d → Passes (checkHeap s (choice k) d) () →
    Feasible s op d → Passes (evalOp s (choice k) op d) d1 → Moves op d d1 →
    Run s choice dend left (k + 1) ops d1
      (recordsAfter s.mode op (d.blocks op.index.toNat) (d1.blocks op.index.toNat) es) →
    Run s choice dend left k (op :: ops) d es

theorem passes_unique {α : Type} {x : Check α} {a b : α} (ha : Passes x a) (hb : Passes x b) : a = b := by
  cases ha.symm.trans hb
  rfl

theorem run_of_passes (hs : Sane s d es) (hproper : Proper s choice k ops d) (hp : Passes (evalOps s choice k ops d) dend) :
    ∃ left, Run s choice dend left k ops d es := by
  induction ops generalizing k d es with
  | nil =>
    rw [evalOps, passes_pure] at hp
    rw [hp] at hs ⊢
    exact ⟨es, .done hs⟩
  | cons op ops ih =>
    rw [evalOps, passes_bind] at hp
    obtain ⟨d1, hp1, hp⟩ := hp
    obtain ⟨hfresh, hproper⟩ := hproper
    have hheap := (evalOp_iff.1 hp1).1
    have hf := feasible_of_passes hs hp1
    obtain ⟨d1', hp1', hm, hs1⟩ := hs.step hfresh hheap hf
    cases passes_unique hp1 hp1'
    obtain ⟨left, hrun⟩ := ih hs1 (hproper d1 hp1) hp
    exact ⟨left, .step hs hfresh hheap hf hp1 hm hrun⟩

theorem Run.sane_end (hr : Run s choice dend left k ops d es) : Sane s dend left := by
  induction hr with
  | done hs => exact hs
  | step _ _ _ _ _ _ _ ih => exact ih

theorem Run.heap (hr : Run s choice dend left k ops d es) : dend.heap.heap = d.heap.heap := by
  induction hr with
  | done => rfl
  | step _ _ _ _ _ hm _ ih => exact ih.trans hm.heap

/-! ## What a run leaves -/

theorem mem_recordsAfter {old new : Nat} : e ∈ recordsAfter mode op old new es ↔
    e ∈ es ∧ (op.releases = true → e.lo ≠ old) ∨ op.allocates = true ∧ mode ≠ .dbgNone ∧ e = op.extent new := by
  have hkept : (e ∈ if op.releases then es.filter (·.lo ≠ old) else es) ↔
      e ∈ es ∧ (op.releases = true → e.lo ≠ old) := by
    cases op.releases <;> simp
  unfold recordsAfter
  cases op.allocates with
  | false => simpa using hkept
  | true =>
    simp only [if_true, mem_record, true_and]
    exact or_congr_left hkept

/-- The ranges that a run leaves are older than the run, or above its first break. -/
theorem Run.left_cases (hr : Run s choice dend left k ops d es) (he : e ∈ left) : e ∈ es ∨ d.heap.memBrk ≤ e.lo := by
  induction hr with
  | done => exact .inl he
  | step _ _ _ _ _ hm _ ih =>
    rcases ih with he | hle
    · rcases mem_recordsAfter.1 he with ⟨he, -⟩ | ⟨ha, -, rfl⟩
      · exact .inl he
      · exact .inr (hm.fresh ha)
    · exact .inr (hm.brk.trans hle)

/-- The block of the range is at hand, and the trace releases it. -/
def Released (d : Driver) (ops : List TraceOp) (e : Extent) : Prop :=
  d.blocks e.index.toNat = e.lo ∧ releasesNext e.index ops = true

theorem Feasible.indexed (hf : Feasible s op d) (hr : op.releases = true) : 0 ≤ op.index := by
  obtain ⟨type, index, size⟩ := op
  cases type with
  | alloc => cases hr
  | realloc =>
    obtain ⟨-, i, hi, -⟩ := hf
    obtain rfl : index = i := slot_eq hi
    exact Int.natCast_nonneg i
  | free =>
    obtain ⟨-, hneg | ⟨i, hi⟩⟩ := hf
    · exact absurd hneg (of_decide_eq_true hr)
    · obtain rfl : index = i := slot_eq hi
      exact Int.natCast_nonneg i

/-- No request but `ALLOC` puts a block where an older one is. -/
theorem Moves.lost {lo : Nat} (hm : Moves op d d1) (htype : op.type ≠ .alloc) (hindex : 0 ≤ op.index)
    (hlo : lo < d.heap.memBrk) (hnull : null < lo) :
    op.releases = true ∧ (d1.blocks op.index.toNat = lo → d.blocks op.index.toNat = lo) := by
  cases hop : op.type with
  | alloc => exact absurd hop htype
  | realloc =>
    refine ⟨by simp [TraceOp.releases, hop], fun heq => ?_⟩
    cases ha : op.allocates with
    | true =>
      have := hm.fresh ha
      omega
    | false =>
      have := hm.released hop ha
      omega
  | free =>
    refine ⟨?_, fun heq => ?_⟩
    · simp only [TraceOp.releases, hop, decide_eq_true_eq]
      omega
    · rw [← hm.kept hop]
      exact heq

/-- A request releases the range, or leaves it as it is. -/
theorem released_step (hs : Sane s d es) (hf : Feasible s op d) (hm : Moves op d d1) (he : e ∈ es) :
    Released d (op :: ops) e ↔ ((op.releases = true → e.lo ≠ d.blocks op.index.toNat) → Released d1 ops e) := by
  have hlo : e.lo < d.heap.memBrk := (hs.ranges.payload he).1.trans_lt (hs.within e he).2
  have hnull : null < e.lo := (null_lt_heap hs.ok).trans_le (hs.within e he).1
  have hindex := hs.indexed e he
  unfold Released
  by_cases hop : op.index = e.index
  · rw [releasesNext_same hop, ← hop]
    by_cases htype : op.type = .alloc
    · have hr : ¬op.releases = true := by simp [TraceOp.releases, htype]
      have hfresh := hm.fresh (by simp [TraceOp.allocates, htype])
      have hne : d1.blocks op.index.toNat ≠ e.lo := by omega
      simp [hr, hne, htype]
    · obtain ⟨hr, hmoved⟩ := hm.lost htype (hop ▸ hindex) hlo hnull
      constructor
      · rintro ⟨hold, -⟩ hkept
        exact absurd hold.symm (hkept hr)
      · intro himp
        by_contra hnot
        have hne : e.lo ≠ d.blocks op.index.toNat := fun hold => hnot ⟨hold.symm, htype⟩
        exact hne (hmoved (himp fun _ => hne).1).symm
  · rw [releasesNext_other hop, hm.others _ (by rw [Int.toNat_of_nonneg hindex]; exact Ne.symm hop)]
    have hkept : op.releases = true → e.lo ≠ d.blocks op.index.toNat := by
      intro hr hold
      have := hs.owner e he _ hold.symm
      rw [Int.toNat_of_nonneg (hf.indexed hr)] at this
      exact hop this
    exact ⟨fun h _ => h, fun h => h hkept⟩

/-- A run leaves nothing if and only if the older ranges are released, and the
trace leaves no block. -/
theorem Run.empty_iff (hmode : s.mode ≠ .dbgNone) (hr : Run s choice dend left k ops d es) :
    left = [] ↔ (∀ e ∈ es, Released d ops e) ∧ leavesBlocks ops = false := by
  induction hr with
  | done =>
    constructor
    · rintro rfl
      exact ⟨by simp, rfl⟩
    · rintro ⟨hall, -⟩
      rw [List.eq_nil_iff_forall_not_mem]
      intro e he
      cases (hall e he).2
  | @step k op ops d d1 es hs _ _ hf _ hm _ ih =>
    rw [ih, leavesBlocks_cons]
    have hnew : Released d1 ops (op.extent (d1.blocks op.index.toNat)) ↔ releasesNext op.index ops = true :=
      and_iff_right rfl
    constructor
    · rintro ⟨hall, hleaves⟩
      refine ⟨fun e he => (released_step hs hf hm he).2 fun hk => hall e (mem_recordsAfter.2 (.inl ⟨he, hk⟩)),
        fun ha => hnew.1 (hall _ (mem_recordsAfter.2 (.inr ⟨ha, hmode, rfl⟩))), hleaves⟩
    · rintro ⟨hall, hnext, hleaves⟩
      refine ⟨fun e he => ?_, hleaves⟩
      rcases mem_recordsAfter.1 he with ⟨he, hk⟩ | ⟨ha, -, rfl⟩
      · exact (released_step hs hf hm he).1 (hall e he) hk
      · exact hnew.2 (hnext ha)

/-- With checking off nothing is recorded. -/
theorem Run.empty_none (hmode : s.mode = .dbgNone) (hr : Run s choice dend left k ops d es) (hes : es = []) : left = [] := by
  induction hr with
  | done => exact hes
  | step _ _ _ _ _ _ _ ih =>
    refine ih (List.eq_nil_iff_forall_not_mem.2 fun e he => ?_)
    rcases mem_recordsAfter.1 he with ⟨he, -⟩ | ⟨-, hne, -⟩
    · rw [hes] at he
      cases he
    · exact hne hmode

/-! ## The second run -/

/-- From a driver that is alike, with the same ranges, the trace passes again. -/
theorem Run.again (hr : Run s choice dend left k ops d es) (hs' : Sane s d' es) (ha : d.Alike d')
    (hproper : Proper s choice' k' ops d') : ∃ dend', Passes (evalOps s choice' k' ops d') dend' := by
  induction hr generalizing k' d' with
  | done => exact ⟨d', passes_pure.2 rfl⟩
  | @step k op ops d d1 es hs hfresh hheap hf hp hm hrun ih =>
    obtain ⟨hfresh', hproper⟩ := hproper
    have hheap' : Passes (checkHeap s (choice' k') d') () := (hs'.checkHeap_iff hfresh'.1).2 fun hmode e he =>
      ((hs.checkHeap_iff hfresh.1).1 hheap hmode e he).alike ha
    obtain ⟨d1', hp', hm', hs1'⟩ := hs'.step hfresh' hheap' (hf.alike ha hs)
    have ha1 := evalOp_alike ha hp hp'
    rw [ha.blocks, ha1.blocks] at hs1'
    obtain ⟨dend', hend⟩ := ih hs1' ha1 (hproper d1' hp')
    refine ⟨dend', ?_⟩
    rw [evalOps, passes_bind]
    exact ⟨d1', hp', hend⟩

/-- A range that the run left, held in the second run, is in the way of the same
payload. -/
theorem Run.rejected (hr : Run s choice dend left k ops d es) (hmode : s.mode ≠ .dbgNone) (he : e ∈ left)
    (hnew : d.heap.memBrk ≤ e.lo) (hh : Held d'.ranges e) (ha : d.Alike d') (hproper : Proper s choice' k' ops d') :
    ¬Passes (evalOps s choice' k' ops d') d2 := by
  have hpay := hr.sane_end.ranges.payload he
  induction hr generalizing k' d' with
  | done hs =>
    have := (hs.within e he).2
    omega
  | @step k op ops d d1 es hs hfresh hheap hf hp hm hrun ih =>
    intro hp2
    rw [evalOps, passes_bind] at hp2
    obtain ⟨d1', hp', hp2⟩ := hp2
    obtain ⟨hfresh', hproper⟩ := hproper
    have hne : toKey e.lo ≠ toKey (d'.blocks op.index.toNat) := by
      have hfed := fed_lt hs.ok (hs.fed op.index.toNat)
      have hpos := hs.ok.pos.trans_le hs.ok.brk_ge
      rw [ha.blocks, toKey_eq (by omega), toKey_eq hfed]
      rcases hs.fed op.index.toNat with hz | ⟨-, -, hlt⟩
      · rw [hz, null]
        omega
      · omega
    have ha1 := evalOp_alike ha hp hp'
    obtain ⟨hh1, hother⟩ := hh.step hpay.1 hmode hfresh' hne hp'
    rcases hrun.left_cases he with hmem | hnew1
    · rcases mem_recordsAfter.1 hmem with ⟨hold, -⟩ | ⟨halloc, -, heq⟩
      · have := (hs.within e hold).2
        omega
      · refine hother halloc ?_
        rw [ha1.blocks, heq]
        rfl
    · exact ih hnew1 hh1 ha1 (hproper d1' hp') hp2

/-! ## Restarts -/

theorem Heap.Ok.reset {h : Heap} (hok : h.Ok) : (memResetBrk h).Ok :=
  ⟨hok.page, hok.pos, hok.max, hok.user, le_rfl, hok.brk_ge.trans hok.brk_le, Dvd.dvd.trans (by decide) hok.page⟩

theorem sane_restart (hok : d.heap.Ok) (hr : RangesHold d.ranges []) : Sane s (restart d) [] :=
  ⟨hok.reset, hr, by simp, by simp, by simp, fun _ => .inl rfl, fun _ hi => absurd hi (Nat.lt_irrefl 0),
    fun _ _ hi => absurd hi (Nat.lt_irrefl 0)⟩

theorem restart_alike (hok : d.heap.Ok) (hok1 : d1.heap.Ok) (hheap : d1.heap.heap = d.heap.heap) :
    (restart d).Alike (restart d1) := by
  refine ⟨⟨hheap, hheap, ?_⟩, rfl, rfl⟩
  show d1.heap.memMaxAddr = d.heap.memMaxAddr
  rw [hok.max, hok1.max, hheap]

theorem evalMmValid_iff : Passes (evalMmValid s choice ops d) d1 ↔ Passes (evalOps s choice 0 ops (restart d)) d1 := by
  rw [evalMmValid, passes_bind, exists_unit, passes_ensure]
  exact and_iff_right rfl

/-- Where the first check passes, the second one does if and only if checking is
off or the trace leaves no block. -/
theorem rerun_exact {addr : Nat} {mem : Nat → UInt8} (ha : Region addr) (hheap : d.heap = memInit addr mem)
    (hranges : d.ranges = newRangeSet) (hproper : Proper s choice 0 ops (restart d))
    (hvalid : Passes (evalMmValid s choice ops d) d1) (hproper1 : Proper s choice' 0 ops (restart d1)) :
    (∃ d2, Passes (evalMmValid s choice' ops d1) d2) ↔ s.mode = .dbgNone ∨ leavesBlocks ops = false := by
  have hok : d.heap.Ok := by
    rw [hheap]
    exact memInit_ok mem ha.page ha.pos ha.user
  have hnew : RangesHold d.ranges [] := by
    rw [hranges]
    exact holds_new
  obtain ⟨left, hrun⟩ := run_of_passes (sane_restart hok hnew) hproper (evalMmValid_iff.1 hvalid)
  have hend := hrun.sane_end
  have halike := restart_alike hok hend.ok hrun.heap
  simp only [evalMmValid_iff]
  have hempty : left = [] ↔ s.mode = .dbgNone ∨ leavesBlocks ops = false := by
    by_cases hmode : s.mode = .dbgNone
    · exact iff_of_true (hrun.empty_none hmode rfl) (.inl hmode)
    · rw [hrun.empty_iff hmode, or_iff_right hmode, and_iff_right (by simp)]
  rw [← hempty]
  constructor
  · rintro ⟨d2, hp⟩
    by_contra hne
    obtain ⟨e, he⟩ := List.exists_mem_of_ne_nil left hne
    have hmode : s.mode ≠ .dbgNone := fun hmode => hne (hrun.empty_none hmode rfl)
    have hlo := (hrun.left_cases he).resolve_left (by simp)
    have hheld : Held (restart d1).ranges e := hend.ranges.held he
    exact hrun.rejected hmode he hlo hheld halike hproper1 hp
  · rintro rfl
    exact hrun.again (sane_restart hend.ok hend.ranges) halike hproper1

/-! ## Two traces -/

/-- The check reports an error. -/
def Rejects {α : Type} (x : Check α) (e : DriverError) : Prop := x.run = some (.error e)

theorem passes_iff {α : Type} {x : Check α} {a : α} : Passes x a ↔ a ∈ x.run.bind Except.toOption := by
  unfold Passes
  rcases x.run with _ | _ | b <;> simp [Except.toOption]

instance {α : Type} (x : Check α) (p : α → Prop) [DecidablePred p] : Decidable (∀ a, Passes x a → p a) :=
  decidable_of_iff (∀ a ∈ x.run.bind Except.toOption, p a) (by simp only [passes_iff])

instance {α : Type} (x : Check α) : Decidable (∃ a, Passes x a) :=
  decidable_of_iff ((x.run.bind Except.toOption).isSome = true) (by simp only [passes_iff, Option.isSome_iff_exists, Option.mem_def])

instance {α : Type} (x : Check α) (e : DriverError) : Decidable (Rejects x e) :=
  match h : x.run with
  | some (.error e') => decidable_of_iff (e' = e) (by simp [Rejects, h])
  | some (.ok _) | none => .isFalse (by simp [Rejects, h])

instance (rs : RangeSet) : Decidable (c.Free rs) := inferInstanceAs (Decidable (_ ∧ _))

instance : Decidable (c.Fresh s op d) := inferInstanceAs (Decidable (_ ∧ _))

instance decidableProper : (k : Nat) → (ops : List TraceOp) → DecidablePred (Proper s choice k ops)
  | _, [] => fun _ => inferInstanceAs (Decidable True)
  | k, _ :: ops => fun _ =>
    have := decidableProper (k + 1) ops
    inferInstanceAs (Decidable (_ ∧ _))

/-- An empty heap, with nothing recorded. -/
def newDriver : Driver :=
  { heap := memInit 65536 fun _ => 0, ranges := newRangeSet, blocks := fun _ => 7, blockSizes := fun _ => 7,
    blockRandBase := fun _ => 7 }

/-- Checking is cheap, and there is one index. -/
def oneBlock : Setup := { mode := .dbgCheap, randomData := fun i => i.toUInt8, numIds := 1 }

/-- The nodes and the ranges get new addresses in every request. -/
def inOrder (first : Nat) : Nat → Choice := fun k => { random := 5, range := first + k, node := first + k, fuel := 9 }

/-- The block is freed. -/
def freedTrace : List TraceOp := [⟨.alloc, 0, 20⟩, ⟨.free, 0, 0⟩]

/-- The block is left. -/
def leftTrace : List TraceOp := [⟨.alloc, 0, 20⟩]

theorem region_new : Region 65536 := ⟨by decide, by decide, by decide⟩

/-- `rerun_exact` for the trace that frees its block. -/
theorem rerun_exact_freed : ∃ d1, Passes (evalMmValid oneBlock (inOrder 1) freedTrace newDriver) d1 ∧
    ∃ d2, Passes (evalMmValid oneBlock (inOrder 1) freedTrace d1) d2 := by
  obtain ⟨d1, hvalid⟩ : ∃ d1, Passes (evalMmValid oneBlock (inOrder 1) freedTrace newDriver) d1 := by decide +kernel
  have hproper : ∀ d1, Passes (evalMmValid oneBlock (inOrder 1) freedTrace newDriver) d1 →
      Proper oneBlock (inOrder 1) 0 freedTrace (restart d1) := by decide +kernel
  exact ⟨d1, hvalid, (rerun_exact region_new rfl rfl (by decide +kernel) hvalid (hproper d1 hvalid)).2 (.inr rfl)⟩

/-- The other trace passes once, and is rejected then. -/
theorem rerun_fails : Proper oneBlock (inOrder 1) 0 leftTrace (restart newDriver) ∧
    (∃ d1, Passes (evalMmValid oneBlock (inOrder 1) leftTrace newDriver) d1) ∧
    ∀ d1, Passes (evalMmValid oneBlock (inOrder 1) leftTrace newDriver) d1 →
      Proper oneBlock (inOrder 9) 0 leftTrace (restart d1) ∧
      Rejects (evalMmValid oneBlock (inOrder 9) leftTrace d1) (.range (.overlaps 65536 65555 65536 65555)) := by
  decide +kernel

end Cmpsc473.Malloc
