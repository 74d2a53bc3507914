import Cmpsc473.Malloc.Alike
/-!
# Ranges that a run left behind

Nothing but a `remove_range` with its own address drops a range, also where the
list and the tree do not agree. As long as a range is held, `add_range` accepts
no payload that starts with the same address.
-/

namespace Cmpsc473.Malloc

open LinkedList Function Stree

variable {s : Setup} {rs rs' : RangeSet} {es : List Extent} {e : Extent} {mode : DebugMode} {h : Heap} {m : Bindings Nat}
  {fuel lo hi size p z : Nat} {index : Int} {d d1 : Driver} {c : Choice} {op : TraceOp}

/-! ## Sets of ranges -/

/-- The bindings of the tree are ranges, with their own addresses as keys. -/
structure Keyed (rs : RangeSet) (m : Bindings Nat) : Prop where
  tree : Represents rs.loTree m
  range : ∀ k q, m k = some q → ∃ n, rs.range q = some n ∧ toKey n.val.lo = k

/-- The range `e` is found by its address. -/
def Held (rs : RangeSet) (e : Extent) : Prop :=
  ∃ m p n, Keyed rs m ∧ m (toKey e.lo) = some p ∧ rs.range p = some n ∧ n.val = e

theorem RangesHold.held (hr : RangesHold rs es) (he : e ∈ es) : Held rs e := by
  obtain ⟨m, cs, ha, rfl⟩ := hr
  obtain ⟨c, hc, rfl⟩ := List.mem_map.1 he
  obtain ⟨n, hn, hval⟩ := ha.list.links.val hc
  refine ⟨m, c.ptr, n, ⟨ha.tree, fun k q hq => ?_⟩, (ha.same _ _).2 ⟨c, hc, rfl, rfl⟩, hn, hval⟩
  obtain ⟨b, hb, rfl, hk⟩ := (ha.same k q).1 hq
  obtain ⟨n', hn', hval'⟩ := ha.list.links.val hb
  exact ⟨n', hn', by rw [hval', hk]⟩

/-- What `add_range` does where it accepts. -/
theorem checkRange_ok (hok : checkRange fuel rs lo hi index p z = some (.ok rs')) :
    ∃ prev, treeFindNearest fuel rs.loTree (toKey lo) = some prev ∧
      clash rs.range prev (fun e => lo ≤ e.hi) = some none ∧ (∃ b, treeInsert fuel rs.loTree (toKey lo) p z = some (rs'.loTree, b)) ∧
      ∀ q, (rs'.range q).map Node.val =
        if q = p then some { lo := lo, hi := hi, index := index } else (rs.range q).map Node.val := by
  simp only [checkRange, Option.bind_eq_bind, Option.bind_eq_some_iff] at hok
  obtain ⟨prev, hprev, next, -, clashed, hclash, hok⟩ := hok
  cases clashed with
  | some e => cases hok
  | none =>
    obtain ⟨clashed', -, hok⟩ := Option.bind_eq_some_iff.1 hok
    cases clashed' with
    | some e => cases hok
    | none =>
      obtain ⟨⟨range, list⟩, hsplice, hok⟩ := Option.bind_eq_some_iff.1 hok
      obtain ⟨⟨tree, b⟩, hinsert, hok⟩ := Option.bind_eq_some_iff.1 hok
      cases hok
      refine ⟨prev, hprev, hclash, ⟨b, hinsert⟩, fun q => ?_⟩
      rw [splice_val hsplice]
      by_cases hq : q = p
      · rw [if_pos hq, hq, update_self]
        rfl
      · rw [if_neg hq, update_of_ne hq]

theorem addRange_ok (hok : addRange fuel mode h rs lo size index p z = some (.ok rs')) :
    mode = .dbgNone ∧ rs' = rs ∨ mode ≠ .dbgNone ∧ ∃ hi, checkRange fuel rs lo hi index p z = some (.ok rs') := by
  unfold addRange at hok
  split at hok
  · cases hok
  · simp only at hok
    split at hok
    · cases hok
    · split at hok
      · cases hok
      · split at hok
        · cases hok
          exact .inl ⟨‹_›, rfl⟩
        · exact .inr ⟨‹_›, _, hok⟩

/-- A payload with the address of a range that is held is not accepted. -/
theorem Held.rejects (hh : Held rs e) (hle : e.lo ≤ e.hi) (hmode : mode ≠ .dbgNone) (hfuel : rs.loTree.nodeCount < fuel) :
    addRange fuel mode h rs e.lo size index p z ≠ some (.ok rs') := by
  intro hok
  obtain ⟨hnone, -⟩ | ⟨-, hi, hok⟩ := addRange_ok hok
  · exact hmode hnone
  obtain ⟨m, q, n, hkeyed, hm, hn, rfl⟩ := hh
  obtain ⟨prev, hprev, hclash, -⟩ := checkRange_ok hok
  obtain ⟨t, ht, hholds⟩ := hkeyed.tree
  obtain ⟨r, hrun, hnear⟩ := call_findNearest (k := toKey n.val.lo) ht hholds hfuel
  cases hprev.symm.trans hrun
  have hq : prev = some q := by
    rcases hnear with ⟨-, hnone⟩ | ⟨j, hj, -, hmj, hnone⟩
    · rw [hnone _ le_rfl] at hm
      cases hm
    · rcases hj.lt_or_eq with hlt | heq
      · rw [hnone _ hlt le_rfl] at hm
        cases hm
      · rw [heq] at hmj
        exact hmj.symm.trans hm
  rw [hq, clash, hn, Option.map_some, if_pos (decide_eq_true hle)] at hclash
  cases hclash

theorem Held.add (hh : Held rs e) (hc : c.Free rs)
    (hok : addRange c.fuel mode h rs lo size index c.range c.node = some (.ok rs')) : Held rs' e := by
  obtain ⟨-, rfl⟩ | ⟨-, hi, hok⟩ := addRange_ok hok
  · exact hh
  obtain ⟨hfuel, hrange, hnode⟩ := hc
  obtain ⟨m, q, n, hkeyed, hm, hn, rfl⟩ := hh
  obtain ⟨-, -, -, ⟨b, hinsert⟩, hvals⟩ := checkRange_ok hok
  obtain ⟨t, ht, hholds⟩ := hkeyed.tree
  obtain ⟨tree, hrun, hrep⟩ := call_insert (k := toKey lo) c.range ht hholds hfuel hnode
  cases hinsert.symm.trans hrun
  have hkeep : ∀ {q n}, rs.range q = some n → ∃ n', rs'.range q = some n' ∧ n'.val = n.val := by
    intro q n hn
    have hval := hvals q
    rw [if_neg (by rintro rfl; cases hrange.symm.trans hn), hn] at hval
    exact Option.map_eq_some_iff.1 hval
  have hkeep' : ∀ k q, m k = some q → ∃ n, rs'.range q = some n ∧ toKey n.val.lo = k := by
    intro k q hq
    obtain ⟨n, hn, hk⟩ := hkeyed.range k q hq
    obtain ⟨n', hn', hval⟩ := hkeep hn
    exact ⟨n', hn', by rw [hval, hk]⟩
  obtain ⟨n', hn', hval⟩ := hkeep hn
  rw [Call.apply] at hrep
  split at hrep
  · exact ⟨m, q, n', ⟨hrep, hkeep'⟩, hm, hn', hval⟩
  · rename_i hfree
    refine ⟨_, q, n', ⟨hrep, fun k q' hq' => ?_⟩, ?_, hn', hval⟩
    · by_cases hk : k = toKey lo
      · rw [hk, update_self] at hq'
        cases hq'
        have hval := hvals c.range
        rw [if_pos rfl] at hval
        obtain ⟨n'', hn'', hval⟩ := Option.map_eq_some_iff.1 hval
        exact ⟨n'', hn'', by rw [hval, hk]⟩
      · rw [update_of_ne hk] at hq'
        exact hkeep' k q' hq'
    · rw [update_of_ne, hm]
      intro hk
      rw [← hk, hm] at hfree
      exact hfree rfl

theorem Held.remove (hh : Held rs e) (hfuel : rs.loTree.nodeCount < fuel) (hne : toKey e.lo ≠ toKey lo)
    (hok : removeRange fuel rs lo = some rs') : Held rs' e := by
  obtain ⟨m, q, n, hkeyed, hm, hn, rfl⟩ := hh
  obtain ⟨t, ht, hholds⟩ := hkeyed.tree
  obtain ⟨tree, hrun, hrep⟩ := call_remove (k := toKey lo) ht hholds hfuel
  rw [Call.apply] at hrep
  simp only [removeRange, hrun, Option.bind_eq_bind, Option.bind_some] at hok
  have hother : ∀ {k q}, update m (toKey lo) none k = some q → k ≠ toKey lo ∧ m k = some q := by
    intro k q hk
    have hne : k ≠ toKey lo := by
      intro heq
      rw [heq, update_self] at hk
      cases hk
    exact ⟨hne, (update_of_ne hne _ _).symm.trans hk⟩
  have hm' : update m (toKey lo) none (toKey n.val.lo) = some q := (update_of_ne hne _ _).trans hm
  cases hlo : m (toKey lo) with
  | none =>
    rw [hlo] at hok
    cases hok
    exact ⟨_, q, n, ⟨hrep, fun k q hk => hkeyed.range k q (hother hk).2⟩, hm', hn, rfl⟩
  | some r =>
    rw [hlo] at hok
    obtain ⟨nr, hnr, hok⟩ := Option.bind_eq_some_iff.1 hok
    obtain ⟨⟨range, list⟩, hsplice, hok⟩ := Option.bind_eq_some_iff.1 hok
    cases hok
    -- the range that is removed has another key
    have hkeep : ∀ {k q}, update m (toKey lo) none k = some q → ∀ {n}, rs.range q = some n →
        ∃ n', update range r none q = some n' ∧ n'.val = n.val := by
      intro k q hk n hn
      have hqr : q ≠ r := by
        rintro rfl
        obtain ⟨n1, hn1, hk1⟩ := hkeyed.range k q (hother hk).2
        obtain ⟨n2, hn2, hk2⟩ := hkeyed.range (toKey lo) q hlo
        cases hn1.symm.trans hn2
        exact (hother hk).1 (hk1.symm.trans hk2)
      rw [update_of_ne hqr]
      have hval := splice_val hsplice q
      rw [hn] at hval
      exact Option.map_eq_some_iff.1 hval
    obtain ⟨n', hn', hval⟩ := hkeep hm' hn
    refine ⟨_, q, n', ⟨hrep, fun k q hk => ?_⟩, hm', hn', hval⟩
    obtain ⟨n, hn, hkn⟩ := hkeyed.range k q (hother hk).2
    obtain ⟨n', hn', hval⟩ := hkeep hk hn
    exact ⟨n', hn', by rw [hval, hkn]⟩

/-! ## Requests -/

/-- What a request that passes does to the ranges. -/
theorem evalOp_ranges (hp : Passes (evalOp s c op d) d1) :
    ∃ rs, (if op.releases then removeRange c.fuel d.ranges (d.blocks op.index.toNat) = some rs else rs = d.ranges) ∧
      (if op.allocates then rs ∈ rangesAt s c op d ∧ ∃ h, addRange c.fuel s.mode h rs (d1.blocks op.index.toNat)
        op.size.toNat op.index c.range c.node = some (.ok d1.ranges) else d1.ranges = rs) := by
  obtain ⟨-, hp⟩ := evalOp_iff.1 hp
  obtain ⟨type, index, size⟩ := op
  cases type with
  | alloc =>
    obtain ⟨-, ranges, hadd, i, hi, hrun⟩ := evalAlloc_iff.1 hp
    obtain ⟨halike, hranges⟩ := randomizeBlock_keeps hrun
    obtain rfl : index = i := slot_eq hi
    refine ⟨d.ranges, rfl, rfl, (malloc d.heap size).2, ?_⟩
    rw [halike.blocks, hranges]
    simpa using hadd
  | realloc =>
    rcases Nat.eq_zero_or_pos size.toNat with h0 | h0
    · obtain ⟨-, i, hi, q, g, -, -, ranges, hremove, -, hrun⟩ := (evalRealloc_zero h0).1 hp
      obtain ⟨-, hranges⟩ := randomizeBlock_keeps hrun
      obtain rfl : index = i := slot_eq hi
      have hzero : size = 0 := UInt64.toNat_inj.1 h0
      subst hzero
      exact ⟨ranges, hremove, hranges⟩
    · obtain ⟨-, i, hi, q, g, -, -, ranges, hremove, ranges', hadd, -, hrun⟩ := (evalRealloc_iff h0).1 hp
      obtain ⟨halike, hranges⟩ := randomizeBlock_keeps hrun
      obtain rfl : index = i := slot_eq hi
      have hne : size ≠ 0 := by
        rintro rfl
        exact absurd h0 (Nat.lt_irrefl 0)
      have hallocates : (TraceOp.mk .realloc i size).allocates = true := decide_eq_true hne
      refine ⟨ranges, hremove, ?_⟩
      rw [if_pos hallocates, halike.blocks, hranges]
      refine ⟨?_, g, ?_⟩
      · simp only [rangesAt, hi, Option.bind_eq_bind, Option.bind_some]
        exact hremove
      · simpa using hadd
  | free =>
    obtain ⟨-, ⟨hneg, rfl⟩ | ⟨hneg, i, hi, ranges, hremove, rfl⟩⟩ := evalFree_iff.1 hp
    · have hreleases : ¬(TraceOp.mk .free index size).releases = true := fun hr => of_decide_eq_true hr hneg
      exact ⟨d1.ranges, (if_neg hreleases).mpr rfl, rfl⟩
    · obtain rfl : index = i := slot_eq hi
      have hreleases : (TraceOp.mk .free i size).releases = true := decide_eq_true hneg
      refine ⟨ranges, ?_, rfl⟩
      rw [if_pos hreleases]
      exact hremove

/-- A range stays held unless the request releases its address, and a request that
allocates the same address does not pass. -/
theorem Held.step (hh : Held d.ranges e) (hle : e.lo ≤ e.hi) (hmode : s.mode ≠ .dbgNone) (hfresh : c.Fresh s op d)
    (hne : toKey e.lo ≠ toKey (d.blocks op.index.toNat)) (hp : Passes (evalOp s c op d) d1) :
    Held d1.ranges e ∧ (op.allocates = true → d1.blocks op.index.toNat ≠ e.lo) := by
  obtain ⟨hfuel, hfree⟩ := hfresh
  obtain ⟨rs, hreleases, hallocates⟩ := evalOp_ranges hp
  have hrs : Held rs e := by
    split at hreleases
    · exact hh.remove hfuel hne hreleases
    · rw [hreleases]
      exact hh
  split at hallocates
  · obtain ⟨hat, h, hadd⟩ := hallocates
    refine ⟨hrs.add (hfree rs hat) hadd, fun _ heq => ?_⟩
    rw [heq] at hadd
    exact hrs.rejects hle hmode (hfree rs hat).1 hadd
  · rename_i halloc
    rw [hallocates]
    exact ⟨hrs, fun htrue => absurd htrue halloc⟩

end Cmpsc473.Malloc
