import Cmpsc473.Malloc.Fills
import Cmpsc473.Malloc.Overlaps
/-!
# What the driver records of the allocator

The break of `mm.c` only moves up, so every new payload lies above the recorded
ones: `add_range` accepts it and appends its range (`addRange_bump`). A payload
that the allocator did not really allocate lies at or above the break and is
rejected.
-/

namespace Cmpsc473.Malloc

open LinkedList Memory Function Stree

variable {rs rs' : RangeSet} {es : List Extent} {e : Extent} {mode : DebugMode} {h g : Heap} {fuel lo size p z q old : Nat}
  {index : Int} {n : UInt64}

/-! ## Ranges above all others -/

/-- The ranges of the set, in ascending order. -/
def RangesHold (rs : RangeSet) (es : List Extent) : Prop := ∃ m cs, Agrees rs m cs ∧ cs.map Cell.val = es

/-- The ranges after `add_range` accepted a payload above the others. -/
def record (mode : DebugMode) (es : List Extent) (e : Extent) : List Extent := if mode = .dbgNone then es else es ++ [e]

theorem mem_record {mode : DebugMode} {e x : Extent} : x ∈ record mode es e ↔ x ∈ es ∨ mode ≠ .dbgNone ∧ x = e := by
  unfold record
  split
  · rename_i hmode
    simp [hmode]
  · rename_i hmode
    simp [hmode]

theorem holds_new : RangesHold newRangeSet [] := ⟨_, _, agrees_new, rfl⟩

theorem RangesHold.payload (hr : RangesHold rs es) (he : e ∈ es) : e.lo ≤ e.hi ∧ e.hi < 140737488355328 := by
  obtain ⟨m, cs, ha, rfl⟩ := hr
  obtain ⟨c, hc, rfl⟩ := List.mem_map.1 he
  exact ha.payload c hc

/-- The tree has as many nodes as there are ranges. -/
theorem RangesHold.length_eq (hr : RangesHold rs es) : rs.loTree.nodeCount = es.length := by
  obtain ⟨m, cs, ha, rfl⟩ := hr
  obtain ⟨s, hs, hm⟩ := ha.tree
  have hkeys : ((SearchTree.inorder s).map fun c => c.val.key).Perm (cs.map fun c => (c.val.lo : Int)) := by
    refine (List.perm_ext_iff_of_nodup ?_ ?_).2 fun k => ?_
    · exact (List.pairwise_map.2 hs.ascending).imp fun hlt => ne_of_lt hlt
    · refine List.pairwise_map.2 (ha.ascending.imp fun hlt heq => ?_)
      omega
    · simp only [List.mem_map]
      constructor
      · rintro ⟨c, hc, rfl⟩
        obtain ⟨d, hd, -, hk⟩ := ha.exists_of_bound (hm.some hc)
        exact ⟨d, hd, hk⟩
      · rintro ⟨c, hc, rfl⟩
        obtain ⟨d, hd, hk, -⟩ := (hm _ _).1 (ha.bound hc)
        exact ⟨d, hd, hk⟩
  rw [hs.count, ← List.length_map, hkeys.length_eq, List.length_map, List.length_map]

variable (mode) in
theorem addRange_bump (hr : RangesHold rs es) (h0 : 0 < size) (huser : h.memBrk ≤ 140737488355328)
    (hplaced : Placed h { lo := lo, hi := lo + size - 1, index := index }) (habove : ∀ e ∈ es, e.hi < lo)
    (hfuel : rs.loTree.nodeCount < fuel) (hp : rs.range p = none) (hz : rs.loTree.node z = none) :
    ∃ rs', addRange fuel mode h rs lo size index p z = some (.ok rs') ∧
      RangesHold rs' (record mode es { lo := lo, hi := lo + size - 1, index := index }) := by
  obtain ⟨m, cs, ha, rfl⟩ := hr
  have hhi : lo + size - 1 < 140737488355328 := by
    have := hplaced.2.2
    have := hplaced.2.1
    simp only [memHeapHi, memHeapLo] at *
    omega
  rw [addRange_placed h0 (by omega) rfl hplaced]
  by_cases hmode : mode = .dbgNone
  · exact ⟨rs, if_pos hmode, m, cs, ha, (if_pos hmode).symm⟩
  · rw [if_neg hmode]
    have hlt : ∀ c ∈ cs ++ [], c.val.hi < lo := by
      intro c hc
      rw [List.append_nil] at hc
      exact habove _ (List.mem_map_of_mem hc)
    have haround : Around rs m lo cs [] := by
      refine ⟨(List.append_nil cs).symm ▸ ha, fun c hc => ?_, by simp⟩
      have := (ha.payload c hc).1
      have := habove _ (List.mem_map_of_mem hc)
      omega
    obtain ⟨rs', hok, ha'⟩ := checkRange_free haround (fun _ => rfl) (by omega) hhi hfuel hp hz fun c hc =>
      (apart_iff (haround.agrees.payload c hc).1 (by simp only; omega)).2 (.inl (hlt c hc))
    refine ⟨rs', hok, _, _, ha', ?_⟩
    rw [record, if_neg hmode, List.map_append]
    rfl

/-- A payload at or above the break is rejected. -/
theorem addRange_above (h0 : 0 < h.memBrk) (hlo : h.memBrk ≤ lo) : addRange fuel mode h rs lo size index p z ≠ some (.ok rs') := by
  have hout : lo > memHeapHi h := by
    simp only [memHeapHi]
    omega
  intro hok
  unfold addRange at hok
  split at hok
  · cases hok
  · simp only [hout, true_or, or_true, if_true] at hok
    split at hok <;> cases hok

theorem removeRange_holds (hr : RangesHold rs es) (hfuel : rs.loTree.nodeCount < fuel) (hlo : lo < 9223372036854775808) :
    ∃ rs', removeRange fuel rs lo = some rs' ∧ RangesHold rs' (es.filter (·.lo ≠ lo)) := by
  obtain ⟨m, cs, ha, rfl⟩ := hr
  have hkey := toKey_eq hlo
  cases hm : m (toKey lo) with
  | none =>
    obtain ⟨rs', hrun, ha'⟩ := removeRange_missing ha hfuel hm
    refine ⟨rs', hrun, m, cs, ha', (List.filter_eq_self.2 fun e he => ?_).symm⟩
    obtain ⟨c, hc, rfl⟩ := List.mem_map.1 he
    simp only [decide_eq_true_eq]
    rintro rfl
    rw [hkey, ha.bound hc] at hm
    cases hm
  | some p =>
    rw [hkey] at hm
    obtain ⟨c, hc, -, hk⟩ := ha.exists_of_bound hm
    have heq : lo = c.val.lo := by omega
    obtain ⟨as, bs, rfl⟩ := List.append_of_mem hc
    rw [heq]
    obtain ⟨rs', hrun, ha'⟩ := removeRange_found ha hfuel
    refine ⟨rs', hrun, _, _, ha', ?_⟩
    have hothers : ((as ++ bs).map Cell.val).filter (·.lo ≠ c.val.lo) = (as ++ bs).map Cell.val := by
      refine List.filter_eq_self.2 fun e he => ?_
      obtain ⟨d, hd, rfl⟩ := List.mem_map.1 he
      have hlt := pairwise_others ha.ascending hd
      simp only [decide_eq_true_eq]
      omega
    rw [List.map_append, List.filter_append] at hothers
    rw [List.map_append, List.map_append, List.map_cons, List.filter_append, List.filter_cons_of_neg (by simp), hothers]

/-! ## Blocks of the heap -/

/-- `malloc` returns no pointer below the break. -/
theorem malloc_ge (hok : h.Ok) (n : UInt64) : (malloc h n).1 = null ∨ h.memBrk ≤ (malloc h n).1 := by
  have hle := hok.brk_le
  have huser := hok.user
  have hsbrk : ∀ incr, h.memBrk ≤ (memSbrk h incr).1 := by
    intro incr
    have hmax : h.memBrk ≤ minusOne := by
      unfold minusOne
      omega
    unfold memSbrk
    split
    · exact hmax
    · split
      · exact hmax
      · exact le_rfl
  unfold malloc
  split
  · exact .inl rfl
  · simp only
    split
    · exact .inl rfl
    · exact .inr (hsbrk _)

/-- `malloc` returns a block below the new break, or a pointer at or above it. -/
theorem malloc_room (hok : h.Ok) (h0 : 0 < n.toNat) (hm : malloc h n = (q, g)) :
    g.Ok ∧ q ≠ null ∧ (q + n.toNat ≤ g.memBrk ∨ g.memBrk ≤ q) := by
  rcases malloc_cases hok n with ⟨hz, -⟩ | ⟨-, hfit, hm'⟩ | ⟨-, hfull, p, hm', hp, -⟩
  · omega
  · cases hm.symm.trans hm'
    exact ⟨hok.grow hfit, hok.brk_ne, .inl (malloc_grant hok hfit).room⟩
  · cases hm.symm.trans hm'
    have hge := malloc_ge hok n
    rw [hm'] at hge
    exact ⟨hok, hp, .inr (hge.resolve_left hp)⟩

/-- The same for `realloc`. -/
theorem realloc_room (hok : h.Ok) (h0 : 0 < n.toNat) (hr : realloc h old n = some (q, g)) :
    q + n.toNat ≤ g.memBrk ∨ g.memBrk ≤ q := by
  have hpos : ¬n ≤ 0 := by rw [UInt64.le_iff_toNat_le]; exact Nat.not_le.2 h0
  cases hm : malloc h n with
  | mk p h1 =>
    obtain ⟨hok1, hp, hroom⟩ := malloc_room hok h0 hm
    by_cases hnull : old = null
    · have hres : realloc h old n = some (malloc h1 n) := by simp only [realloc, hm, hpos, hnull, if_false, if_true]
      exact (malloc_room hok1 h0 (Option.some.inj (hres.symm.trans hr))).2.2
    · have hres := realloc_block h0 hnull hm hp
      obtain ⟨⟨p', g'⟩, hcpy, heq⟩ := Option.map_eq_some_iff.1 (hres.symm.trans hr)
      cases heq
      rw [(memMemcpy_writes hcpy).2.brk]
      exact hroom

/-- The pointer of a request is `NULL` or was returned before. -/
def Fed (h : Heap) (p : Nat) : Prop := p = null ∨ (16 ∣ p ∧ h.heap ≤ p ∧ p < h.memBrk)

theorem realloc_ok (hok : h.Ok) (hfed : Fed h old) (h0 : 0 < n.toNat) (hr : realloc h old n = some (q, g)) : g.Ok := by
  rcases realloc_outcome hok hfed with ⟨hz, -⟩ | ⟨-, -, p, h', hres, -, hgrant, -⟩ | ⟨-, -, hb⟩
  · exact absurd hz (Nat.pos_iff_ne_zero.1 h0)
  · cases hr.symm.trans hres
    exact hgrant.ok
  · exact (hb q g hr).2.2.1

/-- What `realloc` returned is a block if it lies below the break. -/
theorem realloc_grant (hok : h.Ok) (hfed : Fed h old) (h0 : 0 < n.toNat) (hr : realloc h old n = some (q, g))
    (hq : q < g.memBrk) : Grant h n.toNat q g ∧ (Request.realloc old n).sbrks.sum ≤ h.rest := by
  rcases realloc_outcome hok hfed with ⟨hz, -⟩ | ⟨-, hfit, p, h', hres, -, hgrant, -⟩ | ⟨-, -, hb⟩
  · have : n.toNat = 0 := hz
    omega
  · cases hr.symm.trans hres
    exact ⟨hgrant, hfit⟩
  · obtain ⟨-, hn, hok', -⟩ := hb q g hr
    have hroom := realloc_room hok h0 hr
    have hle := hok'.brk_le
    simp only [Request.bytes] at hn
    omega

/-- A block of the heap may be recorded. -/
theorem Grant.placed (hg : Grant h size q g) (hok : h.Ok) (h0 : 0 < size) :
    Placed g { lo := q, hi := q + size - 1, index := index } := by
  have h1 := hok.brk_ge
  have h2 := hg.fresh
  have h3 := hg.room
  refine ⟨?_, ?_, ?_⟩
  · simpa [isAligned] using Nat.mod_eq_zero_of_dvd hg.aligned
  · rw [memHeapLo, hg.heap]
    exact h1.trans h2
  · simp only [memHeapHi]
    omega

end Cmpsc473.Malloc
