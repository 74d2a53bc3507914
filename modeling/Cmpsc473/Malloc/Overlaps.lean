import Cmpsc473.Malloc.Ranges
/-!
# The overlap checker

`add_range` looks up the last range that starts at or before the payload, and
takes the range after that for the next one. If no range starts there it takes
none for the next one, and `ranges->list` is lost: the list and the tree agree
exactly as long as this does not happen (`overlap_checker`).
-/

namespace Cmpsc473.Malloc

open LinkedList Function Stree Runs

variable {rs rs' : RangeSet} {m : Bindings Nat} {as bs cs : List (Cell Extent)} {c : Cell Extent} {e e' : Extent}
  {h : Heap} {fuel lo hi size p z : Nat} {index : Int} {mode : DebugMode}

/-! ## Extents -/

theorem toKey_eq (hn : lo < 9223372036854775808) : toKey lo = lo := by
  simp only [toKey]
  omega

theorem apart_iff (h1 : e.lo ≤ e.hi) (h2 : e'.lo ≤ e'.hi) : e.Apart e' ↔ e.hi < e'.lo ∨ e'.hi < e.lo := by
  simp only [Extent.Apart, Extent.Covers]
  constructor
  · intro hap
    have hlo := hap e.lo
    have hlo' := hap e'.lo
    omega
  · intro hor a
    omega

/-- Every range ends before the next one starts. -/
theorem Agrees.separate (ha : Agrees rs m cs) : cs.Pairwise fun c d => c.val.hi < d.val.lo := by
  refine (ha.ascending.and ha.apart).imp_of_mem ?_
  rintro c d hc hd ⟨hlt, hap⟩
  have h1 := (ha.payload c hc).1
  have h2 := (ha.payload d hd).1
  rcases (apart_iff h1 h2).1 hap with hlt' | hlt'
  · exact hlt'
  · omega

theorem Agrees.toKey (ha : Agrees rs m cs) (hc : c ∈ cs) : toKey c.val.lo = c.val.lo := by
  have h1 := ha.payload c hc
  apply toKey_eq
  omega

theorem Agrees.bound (ha : Agrees rs m cs) (hc : c ∈ cs) : m c.val.lo = some c.ptr := by
  rw [← ha.toKey hc]
  exact (ha.same _ _).2 ⟨c, hc, rfl, rfl⟩

theorem Agrees.exists_of_bound {k : Int} (ha : Agrees rs m cs) (hm : m k = some p) :
    ∃ c ∈ cs, c.ptr = p ∧ (c.val.lo : Int) = k := by
  obtain ⟨c, hc, hp, hk⟩ := (ha.same k p).1 hm
  exact ⟨c, hc, hp, (ha.toKey hc).symm.trans hk⟩

theorem Agrees.recorded_iff (ha : Agrees rs m cs) : Recorded rs e ↔ ∃ c ∈ cs, c.val = e := by
  constructor
  · rintro ⟨m', k, p, n, hrep, hm, hn, rfl⟩
    rw [hrep.unique ha.tree] at hm
    obtain ⟨c, hc, rfl, -⟩ := ha.exists_of_bound hm
    obtain ⟨n', hn', hval⟩ := ha.list.links.val hc
    cases hn.symm.trans hn'
    exact ⟨c, hc, hval.symm⟩
  · rintro ⟨c, hc, rfl⟩
    obtain ⟨n, hn, hval⟩ := ha.list.links.val hc
    exact ⟨m, _, _, n, ha.tree, ha.bound hc, hn, hval⟩

/-! ## The neighbours -/

/-- `as` are the ranges that start at or before `lo`, `bs` are the others. -/
structure Around (rs : RangeSet) (m : Bindings Nat) (lo : Nat) (as bs : List (Cell Extent)) : Prop where
  agrees : Agrees rs m (as ++ bs)
  before : ∀ c ∈ as, c.val.lo ≤ lo
  after : ∀ c ∈ bs, lo < c.val.lo

theorem Agrees.around (ha : Agrees rs m cs) (lo : Nat) : ∃ as bs, cs = as ++ bs ∧ Around rs m lo as bs := by
  obtain ⟨as, bs, rfl, hb, hc⟩ := split_ascending ha.ascending lo
  exact ⟨as, bs, rfl, ha, hb, hc⟩

/-- `prev` is the last range that starts at or before `lo`. -/
theorem Around.prev_eq (ha : Around rs m lo as bs) (hlo : lo < 9223372036854775808) (hfuel : rs.loTree.nodeCount < fuel) :
    treeFindNearest fuel rs.loTree (toKey lo) = some (last none as) := by
  obtain ⟨s, hs, hm⟩ := ha.agrees.tree
  obtain ⟨r, hrun, hnear⟩ := call_findNearest (k := toKey lo) hs hm hfuel
  rw [hrun, toKey_eq hlo] at *
  have hbound : ∀ {c}, c ∈ as → m c.val.lo = some c.ptr := fun hc => ha.agrees.bound (List.mem_append_left _ hc)
  have hbefore : ∀ {k : Int} {p : Nat}, k ≤ lo → m k = some p → ∃ c ∈ as, c.ptr = p ∧ (c.val.lo : Int) = k := by
    intro k p hk hp
    obtain ⟨c, hc, hptr, hkey⟩ := ha.agrees.exists_of_bound hp
    rcases List.mem_append.1 hc with hc | hc
    · exact ⟨c, hc, hptr, hkey⟩
    · have := ha.after c hc
      omega
  congr 1
  rcases List.eq_nil_or_concat as with rfl | ⟨as, c, rfl⟩
  · rcases hnear with ⟨rfl, -⟩ | ⟨j, hj, hne, hmj, -⟩
    · rfl
    · obtain ⟨p, rfl⟩ := Option.ne_none_iff_exists'.1 hne
      obtain ⟨c, hc, -⟩ := hbefore hj hmj
      cases hc
  · rw [List.concat_eq_append] at *
    have hc : c ∈ as ++ [c] := List.mem_append_right _ (List.mem_singleton.2 rfl)
    have hle : (c.val.lo : Int) ≤ lo := Int.ofNat_le.2 (ha.before c hc)
    have hlast := hbound hc
    rw [last_append]
    rcases hnear with ⟨-, hnone⟩ | ⟨j, hj, hne, hmj, hnone⟩
    · rw [hnone _ hle] at hlast
      cases hlast
    · obtain ⟨p, rfl⟩ := Option.ne_none_iff_exists'.1 hne
      obtain ⟨d, hd, rfl, hkey⟩ := hbefore hj hmj
      rcases List.mem_append.1 hd with hd | hd
      -- a range before the last one is not the nearest
      · have hasc := (List.pairwise_append.1 (List.pairwise_append.1 ha.agrees.ascending).1).2.2
        have hlt := hasc d hd c (List.mem_singleton.2 rfl)
        rw [hnone c.val.lo (by omega) hle] at hlast
        cases hlast
      · rw [List.mem_singleton.1 hd]
        rfl

theorem clash_last {test : Extent → Bool} (hl : IsList rs.range rs.list (as ++ bs)) :
    clash rs.range (last none as) test = some ((as.getLast?.map Cell.val).filter test) := by
  rcases List.eq_nil_or_concat as with rfl | ⟨as, c, rfl⟩
  · rfl
  · rw [List.concat_eq_append, List.append_assoc] at *
    have hc := hl.links.node
    simp only [last_append, last, clash, hc, List.getLast?_append, List.getLast?_singleton, Option.map_some]
    rfl

theorem clash_first {test : Extent → Bool} (hl : IsList rs.range rs.list (as ++ bs)) :
    clash rs.range (first bs none) test = some ((bs.head?.map Cell.val).filter test) := by
  cases bs with
  | nil => rfl
  | cons c bs =>
    have hc := hl.links.node
    simp only [first, clash, hc, List.head?_cons, Option.map_some]
    rfl

/-- The next range is found if there is a previous one. -/
theorem nextOf_last (hl : IsList rs.range rs.list (as ++ bs)) (hb : as = [] → bs = []) :
    nextOf rs.range (last none as) = some (first bs none) := by
  rcases List.eq_nil_or_concat as with rfl | ⟨as, c, rfl⟩
  · rw [hb rfl]
    rfl
  · rw [List.concat_eq_append, List.append_assoc] at *
    have hc := hl.links.node
    simp only [last_append, last, nextOf, hc, Option.map_some]
    rfl

/-! ## `add_range` -/

/-- Only the neighbours can overlap the payload. -/
theorem Around.apart_iff (ha : Around rs m lo as bs) (hle : lo ≤ hi) :
    (∀ c ∈ as ++ bs, c.val.Apart { lo := lo, hi := hi, index := index }) ↔
      ((as.getLast?.map Cell.val).filter fun e => lo ≤ e.hi) = none ∧
      ((bs.head?.map Cell.val).filter fun e => hi ≥ e.lo) = none := by
  have hiff : ∀ c ∈ as ++ bs, c.val.Apart { lo := lo, hi := hi, index := index } ↔ c.val.hi < lo ∨ hi < c.val.lo :=
    fun c hc => Malloc.apart_iff (ha.agrees.payload c hc).1 hle
  have hsep := ha.agrees.separate
  rw [Option.filter_eq_none_iff, Option.filter_eq_none_iff]
  constructor
  · intro hall
    constructor
    · intro e he
      obtain ⟨c, hc, rfl⟩ := Option.map_eq_some_iff.1 he
      have hc := List.mem_of_getLast? hc
      have hor := (hiff c (List.mem_append_left _ hc)).1 (hall c (List.mem_append_left _ hc))
      have hlo := ha.before c hc
      simp only [decide_eq_true_eq]
      omega
    · intro e he
      obtain ⟨c, hc, rfl⟩ := Option.map_eq_some_iff.1 he
      have hc := List.mem_of_head? hc
      have hor := (hiff c (List.mem_append_right _ hc)).1 (hall c (List.mem_append_right _ hc))
      have hlo := ha.after c hc
      have hpay := (ha.agrees.payload c (List.mem_append_right _ hc)).1
      simp only [decide_eq_true_eq]
      omega
  · rintro ⟨hlast, hfirst⟩ c hc
    rw [hiff c hc]
    rcases List.mem_append.1 hc with hca | hcb
    · rcases List.eq_nil_or_concat as with rfl | ⟨as, d, rfl⟩
      · cases hca
      · rw [List.concat_eq_append] at *
        have hd : d.val.hi < lo := by
          have := hlast d.val (by simp)
          simpa using this
        rcases List.mem_append.1 hca with hca | hca
        · have hcd := (List.pairwise_append.1 (List.pairwise_append.1 hsep).1).2.2 c hca d (List.mem_singleton.2 rfl)
          have hdlo := ha.before d (List.mem_append_right _ (List.mem_singleton.2 rfl))
          omega
        · rw [List.mem_singleton.1 hca]
          exact .inl hd
    · cases bs with
      | nil => cases hcb
      | cons d bs =>
        have hd : hi < d.val.lo := by
          have := hfirst d.val (by simp)
          simpa using this
        rcases List.mem_cons.1 hcb with rfl | hcb
        · exact .inr hd
        · have hdc := (List.pairwise_cons.1 (List.pairwise_append.1 hsep).2.1).1 c hcb
          have hdlo := (ha.agrees.payload d (List.mem_append_right _ List.mem_cons_self)).1
          omega

/-- A range is recorded where the list has a place for it. -/
theorem Around.insert {tree : Stree.Tree Nat} {range : Mem Extent} {list : Option Nat} (ha : Around rs m lo as bs)
    (hle : lo ≤ hi) (hhi : hi < 140737488355328) (htree : Represents tree (update m lo (some p)))
    (hlist : IsList range list (as ++ ⟨p, { lo := lo, hi := hi, index := index }⟩ :: bs))
    (hfree : ∀ c ∈ as ++ bs, c.val.Apart { lo := lo, hi := hi, index := index }) :
    Agrees { list := list, loTree := tree, range := range } (update m lo (some p))
      (as ++ ⟨p, { lo := lo, hi := hi, index := index }⟩ :: bs) := by
  have hmem : ∀ {d : Cell Extent}, d ∈ as ++ ⟨p, { lo := lo, hi := hi, index := index }⟩ :: bs ↔
      d = ⟨p, { lo := lo, hi := hi, index := index }⟩ ∨ d ∈ as ++ bs := by
    intro d
    simp only [List.mem_append, List.mem_cons]
    tauto
  have hlt : ∀ c ∈ as, c.val.lo < lo := by
    intro c hc
    have hap := hfree c (List.mem_append_left _ hc) lo
    have hpay := (ha.agrees.payload c (List.mem_append_left _ hc)).1
    have hlo := ha.before c hc
    simp only [Extent.Covers] at hap
    omega
  have hkey : toKey lo = lo := toKey_eq (by omega)
  refine ⟨htree, hlist, fun k q => ?_, pairwise_insert ha.agrees.ascending hlt ha.after,
    pairwise_insert ha.agrees.apart (fun c hc => hfree c (List.mem_append_left _ hc)) fun c hc a hboth => ?_,
    fun c hc => ?_⟩
  · by_cases hk : k = lo
    · subst hk
      rw [update_self, Option.some.injEq]
      constructor
      · rintro rfl
        exact ⟨_, hmem.2 (.inl rfl), rfl, hkey⟩
      · rintro ⟨d, hd, rfl, hdk⟩
        rcases hmem.1 hd with rfl | hd
        · rfl
        · rw [ha.agrees.toKey hd] at hdk
          rcases List.mem_append.1 hd with hd | hd
          · have := hlt d hd
            omega
          · have := ha.after d hd
            omega
    · rw [update_of_ne hk, ha.agrees.same]
      constructor
      · rintro ⟨d, hd, hdk⟩
        exact ⟨d, hmem.2 (.inr hd), hdk⟩
      · rintro ⟨d, hd, hdp, hdk⟩
        rcases hmem.1 hd with rfl | hd
        · exact absurd (hdk.symm.trans hkey) hk
        · exact ⟨d, hd, hdp, hdk⟩
  · exact hfree c (List.mem_append_right _ hc) a hboth.symm
  · rcases hmem.1 hc with rfl | hc
    · exact ⟨hle, hhi⟩
    · exact ha.agrees.payload c hc

theorem Around.not_bound (ha : Around rs m lo as bs) (hlt : ∀ c ∈ as, c.val.lo < lo) : m lo = none := by
  rw [Option.eq_none_iff_forall_ne_some]
  intro q hq
  obtain ⟨c, hc, -, hk⟩ := ha.agrees.exists_of_bound hq
  rcases List.mem_append.1 hc with hc | hc
  · have := hlt c hc
    omega
  · have := ha.after c hc
    omega

theorem Agrees.fresh (ha : Agrees rs m cs) (hp : rs.range p = none) : p ∉ ptrs cs := by
  intro hmem
  obtain ⟨c, hc, rfl⟩ := List.mem_map.1 hmem
  obtain ⟨n, hn, -⟩ := ha.list.links.val hc
  cases hp.symm.trans hn

/-- The payload overlaps a recorded one, and is rejected. -/
theorem checkRange_taken (ha : Around rs m lo as bs) (hb : as = [] → bs = []) (hle : lo ≤ hi)
    (hhi : hi < 140737488355328) (hfuel : rs.loTree.nodeCount < fuel)
    (htaken : ¬∀ c ∈ as ++ bs, c.val.Apart { lo := lo, hi := hi, index := index }) :
    ∃ lo' hi', checkRange fuel rs lo hi index p z = some (.error (.overlaps lo hi lo' hi')) := by
  have hlo : lo < 9223372036854775808 := by omega
  rw [ha.apart_iff hle] at htaken
  simp only [checkRange, ha.prev_eq hlo hfuel, nextOf_last ha.agrees.list hb, clash_last ha.agrees.list,
    clash_first ha.agrees.list, Option.bind_eq_bind, Option.bind_some]
  cases hlast : (as.getLast?.map Cell.val).filter fun e => decide (lo ≤ e.hi) with
  | some e => exact ⟨_, _, rfl⟩
  | none =>
    cases hfirst : (bs.head?.map Cell.val).filter fun e => decide (hi ≥ e.lo) with
    | some e => exact ⟨_, _, rfl⟩
    | none => exact absurd ⟨hlast, hfirst⟩ htaken

/-- The payload overlaps no recorded one, and is recorded. -/
theorem checkRange_free (ha : Around rs m lo as bs) (hb : as = [] → bs = []) (hle : lo ≤ hi)
    (hhi : hi < 140737488355328) (hfuel : rs.loTree.nodeCount < fuel) (hp : rs.range p = none)
    (hz : rs.loTree.node z = none) (hfree : ∀ c ∈ as ++ bs, c.val.Apart { lo := lo, hi := hi, index := index }) :
    ∃ rs', checkRange fuel rs lo hi index p z = some (.ok rs') ∧
      Agrees rs' (update m lo (some p)) (as ++ ⟨p, { lo := lo, hi := hi, index := index }⟩ :: bs) := by
  have hlo : lo < 9223372036854775808 := by omega
  obtain ⟨hlast, hfirst⟩ := (ha.apart_iff hle).1 hfree
  obtain ⟨mem', hsplice, hlist⟩ := ha.agrees.list.insert
    (c := ⟨p, { lo := lo, hi := hi, index := index }⟩) (ha.agrees.fresh hp)
  have hnone : m lo = none := by
    refine ha.not_bound fun c hc => ?_
    have hap := hfree c (List.mem_append_left _ hc) lo
    have hpay := (ha.agrees.payload c (List.mem_append_left _ hc)).1
    have hclo := ha.before c hc
    simp only [Extent.Covers] at hap
    omega
  obtain ⟨s, hs, hm⟩ := ha.agrees.tree
  obtain ⟨tree, hinsert, hrep⟩ := call_insert (k := toKey lo) p hs hm hfuel hz
  rw [Call.apply, toKey_eq hlo, hnone] at hrep
  refine ⟨{ list := first (as ++ ⟨p, { lo := lo, hi := hi, index := index }⟩ :: bs) none, loTree := tree, range := mem' },
    ?_, ha.insert hle hhi hrep hlist hfree⟩
  simp only [checkRange, ha.prev_eq hlo hfuel, nextOf_last ha.agrees.list hb, clash_last ha.agrees.list,
    clash_first ha.agrees.list, hlast, hfirst, hsplice, hinsert, Option.bind_eq_bind, Option.bind_some]

variable (p index) in
/-- A payload below every recorded one is recorded as if there were no others. -/
theorem checkRange_below (ha : Around rs m lo [] bs) (hhi : hi < 140737488355328) (hlo : lo ≤ hi)
    (hfuel : rs.loTree.nodeCount < fuel) (hz : rs.loTree.node z = none) :
    ∃ rs', checkRange fuel rs lo hi index p z = some (.ok rs') ∧ Represents rs'.loTree (update m lo (some p)) ∧
      rs'.list = some p ∧
      rs'.range p = some { next := none, prev := none, val := { lo := lo, hi := hi, index := index } } := by
  have hlo' : lo < 9223372036854775808 := by omega
  have hnone : m lo = none := ha.not_bound (by simp)
  obtain ⟨s, hs, hm⟩ := ha.agrees.tree
  obtain ⟨tree, hinsert, hrep⟩ := call_insert (k := toKey lo) p hs hm hfuel hz
  rw [Call.apply, toKey_eq hlo', hnone] at hrep
  refine ⟨{ list := some p, loTree := tree, range := update rs.range p (some ⟨none, none, lo, hi, index⟩) }, ?_, hrep, rfl,
    update_self _ _ _⟩
  simp only [checkRange, ha.prev_eq hlo' hfuel, last, nextOf, clash, splice, linkNext, linkPrev, hinsert,
    Option.bind_eq_bind, Option.bind_some]

/-! ## `remove_range` -/

theorem removeRange_missing (ha : Agrees rs m cs) (hfuel : rs.loTree.nodeCount < fuel) (hm : m (toKey lo) = none) :
    ∃ rs', removeRange fuel rs lo = some rs' ∧ Agrees rs' m cs := by
  obtain ⟨s, hs, hmap⟩ := ha.tree
  obtain ⟨tree, hremove, hrep⟩ := call_remove (k := toKey lo) hs hmap hfuel
  rw [Call.apply, ← hm, update_eq_self] at hrep
  refine ⟨{ rs with loTree := tree }, ?_, hrep, ha.list, ha.same, ha.ascending, ha.apart, ha.payload⟩
  simp only [removeRange, hremove, hm, Option.bind_eq_bind, Option.bind_some]

theorem removeRange_found (ha : Agrees rs m (as ++ c :: bs)) (hfuel : rs.loTree.nodeCount < fuel) :
    ∃ rs', removeRange fuel rs c.val.lo = some rs' ∧ Agrees rs' (update m c.val.lo none) (as ++ bs) := by
  have hc : c ∈ as ++ c :: bs := List.mem_append_right _ List.mem_cons_self
  have hsub : (as ++ bs).Sublist (as ++ c :: bs) := (List.Sublist.refl _).append (List.sublist_cons_self _ _)
  have hkey := ha.toKey hc
  obtain ⟨s, hs, hmap⟩ := ha.tree
  obtain ⟨tree, hremove, hrep⟩ := call_remove (k := toKey c.val.lo) hs hmap hfuel
  rw [Call.apply, hkey] at hrep
  rw [hkey, ha.bound hc] at hremove
  obtain ⟨mem', hsplice, hlist⟩ := ha.list.remove
  have hn := ha.list.links.node
  refine ⟨{ list := first (as ++ bs) none, loTree := tree, range := update mem' c.ptr none }, ?_, hrep, hlist,
    fun k q => ?_, ha.ascending.sublist hsub, ha.apart.sublist hsub, fun d hd => ha.payload d (hsub.subset hd)⟩
  · simp only [removeRange, hkey, hremove, hn, hsplice, Option.bind_eq_bind, Option.bind_some]
  -- the other ranges have other keys
  have hne : ∀ d ∈ as ++ bs, toKey d.val.lo ≠ c.val.lo := by
    intro d hd
    rw [ha.toKey (hsub.subset hd)]
    have hlt := pairwise_others ha.ascending hd
    omega
  by_cases hk : k = c.val.lo
  · subst hk
    rw [update_self]
    constructor
    · intro hnone
      cases hnone
    · rintro ⟨d, hd, -, hdk⟩
      exact absurd hdk (hne d hd)
  · rw [update_of_ne hk, ha.same, exists_mem_insert]
    exact or_iff_right fun hc => hk (hc.2.symm.trans hkey)

/-! ## Sequences of calls -/

/-- A call, with the heap that `add_range` asks for its bounds and what `malloc`
returns if a range and a node are needed. -/
inductive RangeCall where
  | add (h : Heap) (lo size : Nat) (index : Int) (p z : Nat)
  | remove (lo : Nat)

/-- A call, with the rounds that the loops of the tree may take. -/
def rangeCall (mode : DebugMode) (fuel : Nat) (rs : RangeSet) : RangeCall → Option (Except RangeError RangeSet)
  | .add h lo size index p z => addRange fuel mode h rs lo size index p z
  | .remove lo => (removeRange fuel rs lo).map .ok

/-- The set after a call. A payload that is rejected changes nothing. -/
def settle (rs : RangeSet) (r : Except RangeError RangeSet) : RangeSet := r.toOption.getD rs

/-- A call as a step. -/
def rangeStep (mode : DebugMode) (rs : RangeSet) (l : Nat × RangeCall) : Option RangeSet :=
  (rangeCall mode l.1 rs l.2).map (settle rs)

/-- The heap is in user space. -/
def Heap.User (h : Heap) : Prop := 0 < h.heap ∧ h.heap ≤ h.memBrk ∧ h.memBrk ≤ 140737488355328

/-- The arguments are addresses, a payload has a byte and does not run past the
end of the address space, and `malloc` returns what is free. -/
def RangeCall.Allowed (rs : RangeSet) : RangeCall → Prop
  | .add h lo size _ p z =>
    h.User ∧ 0 < size ∧ lo + size ≤ 18446744073709551616 ∧ rs.range p = none ∧ rs.loTree.node z = none
  | .remove lo => lo < 18446744073709551616

/-- The loops of the tree may take more rounds than there are ranges. -/
def RangeReady (rs : RangeSet) (l : Nat × RangeCall) : Prop := rs.loTree.nodeCount < l.1 ∧ l.2.Allowed rs

instance (h : Heap) : Decidable h.User := inferInstanceAs (Decidable (_ ∧ _))

instance (rs : RangeSet) : (c : RangeCall) → Decidable (c.Allowed rs)
  | .add h lo size _ p z => inferInstanceAs (Decidable
      (h.User ∧ 0 < size ∧ lo + size ≤ 18446744073709551616 ∧ rs.range p = none ∧ rs.loTree.node z = none))
  | .remove lo => inferInstanceAs (Decidable (lo < 18446744073709551616))

instance (rs : RangeSet) (l : Nat × RangeCall) : Decidable (RangeReady rs l) := inferInstanceAs (Decidable (_ ∧ _))

/-- The payload starts at a multiple of `ALIGNMENT` and lies in the heap. -/
def Placed (h : Heap) (e : Extent) : Prop := isAligned e.lo = true ∧ memHeapLo h ≤ e.lo ∧ e.hi ≤ memHeapHi h

/-- What a call must do: accept a payload if and only if it is apart from the
recorded ones, record it then, and delete the record of the payload that is
removed. -/
def RangeCall.Checked (mode : DebugMode) (fuel : Nat) (rs rs' : RangeSet) : RangeCall → Prop
  | .add h lo size index p z =>
    (Placed h { lo := lo, hi := lo + size - 1, index := index } →
      ((∃ rs', addRange fuel mode h rs lo size index p z = some (.ok rs')) ↔
        ∀ e, Recorded rs e → e.Apart { lo := lo, hi := lo + size - 1, index := index })) ∧
    ∀ e, Recorded rs' e ↔ Recorded rs e ∨ e = { lo := lo, hi := lo + size - 1, index := index } ∧
      ∃ rs', addRange fuel mode h rs lo size index p z = some (.ok rs')
  | .remove lo => ∀ e, Recorded rs' e ↔ Recorded rs e ∧ e.lo ≠ lo

/-- Nothing is recorded, or some range starts at or before a payload that is
aligned and in the heap. -/
def RangeCall.Above (rs : RangeSet) : RangeCall → Prop
  | .add h lo size index _ _ => Placed h { lo := lo, hi := lo + size - 1, index := index } →
    (∀ e, ¬Recorded rs e) ∨ ∃ e, Recorded rs e ∧ e.lo ≤ lo
  | .remove _ => True

/-- After the call the list and the tree agree, the call did what it must, and
every call that can be made next returns. -/
structure Exact (mode : DebugMode) (rs : RangeSet) (l : Nat × RangeCall) (rs' : RangeSet) : Prop where
  agrees : ∃ m cs, Agrees rs' m cs
  checked : l.2.Checked mode l.1 rs rs'
  returns : ∀ l', RangeReady rs' l' → ∃ rs'', rangeStep mode rs' l' = some rs''

theorem addRange_placed {e : Extent} (h0 : 0 < size) (hmax : lo + size ≤ 18446744073709551616)
    (he : e = { lo := lo, hi := lo + size - 1, index := index }) (hp : Placed h e) :
    addRange fuel mode h rs lo size index p z =
      if mode = .dbgNone then some (.ok rs) else checkRange fuel rs lo (lo + size - 1) index p z := by
  subst he
  obtain ⟨hal, hlo, hhi⟩ := hp
  simp only at hal hlo hhi
  have hwrap : (lo + size - 1) % 18446744073709551616 = lo + size - 1 := Nat.mod_eq_of_lt (by omega)
  have hin : ¬(lo < memHeapLo h ∨ lo > memHeapHi h ∨ lo + size - 1 < memHeapLo h ∨ lo + size - 1 > memHeapHi h) := by
    omega
  simp only [addRange, hwrap, Nat.pos_iff_ne_zero.1 h0, hal, hin, Bool.not_true, Bool.false_eq_true, if_false]

theorem addRange_misplaced {e : Extent} (h0 : 0 < size) (hmax : lo + size ≤ 18446744073709551616)
    (he : e = { lo := lo, hi := lo + size - 1, index := index }) (hp : ¬Placed h e) :
    ∃ err, addRange fuel mode h rs lo size index p z = some (.error err) := by
  subst he
  have hwrap : (lo + size - 1) % 18446744073709551616 = lo + size - 1 := Nat.mod_eq_of_lt (by omega)
  simp only [addRange, hwrap, Nat.pos_iff_ne_zero.1 h0, if_false]
  by_cases hal : isAligned lo = true
  · have hout : lo < memHeapLo h ∨ lo > memHeapHi h ∨ lo + size - 1 < memHeapLo h ∨ lo + size - 1 > memHeapHi h := by
      by_contra hin
      exact hp ⟨hal, by simp only; omega, by simp only; omega⟩
    refine ⟨.outsideHeap lo (lo + size - 1) (memHeapLo h) (memHeapHi h), ?_⟩
    simp only [hal, Bool.not_true, Bool.false_eq_true, if_false, hout, if_true]
  · exact ⟨_, if_pos (by simpa using hal)⟩

/-- `ranges->list` is lost. -/
theorem not_agrees_below {m' : Bindings Nat} {e : Extent} (ha : Around rs m lo [] bs) (hb : bs ≠ [])
    (htree : Represents rs'.loTree (update m lo (some p))) (hlist : rs'.list = some p)
    (hp : rs'.range p = some { next := none, prev := none, val := e }) (he : e.lo = lo) : ¬Agrees rs' m' cs := by
  intro ha'
  have hfirst := ha'.list.list
  cases cs with
  | nil => cases hlist.symm.trans hfirst
  | cons c cs =>
    have hptr : p = c.ptr := Option.some.inj (hlist.symm.trans hfirst)
    obtain ⟨hc, -⟩ := ha'.list.links
    rw [← hptr, hp] at hc
    obtain ⟨hnext, -, hval⟩ := Node.mk.inj (Option.some.inj hc)
    -- the range is the only one of the list, but not of the tree
    cases cs with
    | cons d cs => cases hnext
    | nil =>
      obtain ⟨b, bs, rfl⟩ := List.exists_cons_of_ne_nil hb
      have hlt := ha.after b List.mem_cons_self
      have hbound : m' b.val.lo = some b.ptr := by
        rw [← htree.unique ha'.tree, update_of_ne (by omega)]
        exact ha.agrees.bound List.mem_cons_self
      obtain ⟨d, hd, -, hk⟩ := ha'.exists_of_bound hbound
      rw [List.mem_singleton.1 hd, ← hval, he] at hk
      omega

/-! ## Each call -/

theorem checked_error {err : RangeError} (hrun : addRange fuel mode h rs lo size index p z = some (.error err))
    (htaken : Placed h { lo := lo, hi := lo + size - 1, index := index } →
      ¬∀ e, Recorded rs e → e.Apart { lo := lo, hi := lo + size - 1, index := index }) :
    (RangeCall.add h lo size index p z).Checked mode fuel rs rs := by
  have hnot : ¬∃ rs', addRange fuel mode h rs lo size index p z = some (.ok rs') := by
    rintro ⟨rs', hok⟩
    cases hrun.symm.trans hok
  refine ⟨fun hp => iff_of_false hnot (htaken hp), fun e => ?_⟩
  constructor
  · exact .inl
  · rintro (he | ⟨-, hok⟩)
    · exact he
    · exact absurd hok hnot

theorem checked_ok (hrun : addRange fuel mode h rs lo size index p z = some (.ok rs'))
    (hfree : ∀ e, Recorded rs e → e.Apart { lo := lo, hi := lo + size - 1, index := index })
    (hrec : ∀ e, Recorded rs' e ↔ Recorded rs e ∨ e = { lo := lo, hi := lo + size - 1, index := index }) :
    (RangeCall.add h lo size index p z).Checked mode fuel rs rs' := by
  refine ⟨fun _ => iff_of_true ⟨rs', hrun⟩ hfree, fun e => (hrec e).trans ?_⟩
  rw [and_iff_left ⟨rs', hrun⟩]

/-- `add_range` is exact if and only if the payload is above a recorded one, or
nothing is recorded. -/
theorem add_at (ha : Agrees rs m cs) (hmode : mode ≠ .dbgNone) (hfuel : rs.loTree.nodeCount < fuel)
    (hc : (RangeCall.add h lo size index p z).Allowed rs) :
    ∃ r, addRange fuel mode h rs lo size index p z = some r ∧
      ((∃ m cs, Agrees (settle rs r) m cs) ∧ (RangeCall.add h lo size index p z).Checked mode fuel rs (settle rs r) ↔
        (RangeCall.add h lo size index p z).Above rs) := by
  obtain ⟨huser, h0, hmax, hp, hz⟩ := hc
  by_cases hplaced : Placed h { lo := lo, hi := lo + size - 1, index := index }
  swap
  · obtain ⟨err, hrun⟩ : ∃ err, addRange fuel mode h rs lo size index p z = some (.error err) :=
      addRange_misplaced h0 hmax rfl hplaced
    have hchecked := checked_error hrun fun hpl => absurd hpl hplaced
    exact ⟨_, hrun, iff_of_true ⟨⟨m, cs, ha⟩, hchecked⟩ fun hpl => absurd hpl hplaced⟩
  have hrun : addRange fuel mode h rs lo size index p z = checkRange fuel rs lo (lo + size - 1) index p z :=
    (addRange_placed h0 hmax rfl hplaced).trans (if_neg hmode)
  have hle : lo ≤ lo + size - 1 := by omega
  have hhi : lo + size - 1 < 140737488355328 := by
    have := hplaced.2.2
    obtain ⟨h1, h2, h3⟩ := huser
    simp only [memHeapHi] at this
    omega
  obtain ⟨as, bs, rfl, har⟩ := ha.around lo
  have hrec : ∀ {e}, Recorded rs e ↔ ∃ c ∈ as ++ bs, c.val = e := ha.recorded_iff
  by_cases hb : as = [] → bs = []
  · have habove : (RangeCall.add h lo size index p z).Above rs := by
      intro _
      rcases List.eq_nil_or_concat as with hnil | ⟨as, c, rfl⟩
      · refine .inl fun e he => ?_
        obtain ⟨c, hc, -⟩ := hrec.1 he
        rw [hnil, hb hnil] at hc
        cases hc
      · have hc : c ∈ as.concat c := by simp
        exact .inr ⟨c.val, hrec.2 ⟨c, List.mem_append_left _ hc, rfl⟩, har.before c hc⟩
    by_cases hfree : ∀ c ∈ as ++ bs, c.val.Apart { lo := lo, hi := lo + size - 1, index := index }
    · obtain ⟨rs', hok, ha'⟩ := checkRange_free har hb hle hhi hfuel hp hz hfree
      refine ⟨_, hrun.trans hok, iff_of_true ⟨⟨_, _, ha'⟩, checked_ok (hrun.trans hok) ?_ fun e => ?_⟩ habove⟩
      · intro e he
        obtain ⟨c, hc, rfl⟩ := hrec.1 he
        exact hfree c hc
      · show Recorded rs' e ↔ _
        rw [ha'.recorded_iff, hrec, exists_mem_insert, or_comm]
        exact or_congr_right eq_comm
    · obtain ⟨lo', hi', herr⟩ := checkRange_taken (p := p) (z := z) har hb hle hhi hfuel hfree
      refine ⟨_, hrun.trans herr, iff_of_true ⟨⟨m, _, ha⟩, checked_error (hrun.trans herr) fun _ hall => ?_⟩ habove⟩
      exact hfree fun c hc => hall _ (hrec.2 ⟨c, hc, rfl⟩)
  -- the payload is below all others
  · rw [Classical.not_imp] at hb
    obtain ⟨rfl, hb⟩ := hb
    obtain ⟨rs', hok, htree, hlist, hnode⟩ := checkRange_below p index har hhi hle hfuel hz
    refine ⟨_, hrun.trans hok, iff_of_false ?_ ?_⟩
    · rintro ⟨⟨m', cs', ha'⟩, -⟩
      exact not_agrees_below har hb htree hlist hnode rfl ha'
    · intro habove
      rcases habove hplaced with hnone | ⟨e, he, hle'⟩
      · obtain ⟨b, bs, rfl⟩ := List.exists_cons_of_ne_nil hb
        exact hnone b.val (hrec.2 ⟨b, List.mem_cons_self, rfl⟩)
      · obtain ⟨c, hc, rfl⟩ := hrec.1 he
        have := har.after c hc
        omega

variable (mode) in
theorem remove_at (ha : Agrees rs m cs) (hfuel : rs.loTree.nodeCount < fuel) (hc : (RangeCall.remove lo).Allowed rs) :
    ∃ rs', removeRange fuel rs lo = some rs' ∧ (∃ m cs, Agrees rs' m cs) ∧
      (RangeCall.remove lo).Checked mode fuel rs rs' := by
  have hlo : lo < 18446744073709551616 := hc
  cases hm : m (toKey lo) with
  | none =>
    obtain ⟨rs', hrun, ha'⟩ := removeRange_missing ha hfuel hm
    refine ⟨rs', hrun, ⟨m, cs, ha'⟩, fun e => ?_⟩
    rw [ha'.recorded_iff, ha.recorded_iff]
    refine ⟨fun he => ⟨he, ?_⟩, And.left⟩
    obtain ⟨c, hmem, rfl⟩ := he
    rintro rfl
    rw [ha.toKey hmem, ha.bound hmem] at hm
    cases hm
  | some q =>
    obtain ⟨c, hc, -, hk⟩ := ha.exists_of_bound hm
    have heq : lo = c.val.lo := by
      have := ha.payload c hc
      simp only [toKey] at hk
      omega
    obtain ⟨as, bs, rfl⟩ := List.append_of_mem hc
    rw [heq]
    obtain ⟨rs', hrun, ha'⟩ := removeRange_found ha hfuel
    refine ⟨rs', hrun, ⟨_, _, ha'⟩, fun e => ?_⟩
    rw [ha'.recorded_iff, ha.recorded_iff, exists_mem_insert]
    constructor
    · rintro ⟨d, hd, rfl⟩
      have hlt := pairwise_others ha.ascending hd
      refine ⟨.inr ⟨d, hd, rfl⟩, ?_⟩
      show d.val.lo ≠ c.val.lo
      omega
    · rintro ⟨rfl | hd, hne⟩
      · exact absurd rfl hne
      · exact hd

/-- Every call that can be made returns. -/
theorem call_at {l : Nat × RangeCall} (ha : Agrees rs m cs) (hmode : mode ≠ .dbgNone) (hr : RangeReady rs l) :
    ∃ r, rangeCall mode l.1 rs l.2 = some r ∧
      ((∃ m cs, Agrees (settle rs r) m cs) ∧ l.2.Checked mode l.1 rs (settle rs r) ↔ l.2.Above rs) := by
  obtain ⟨fuel, c⟩ := l
  obtain ⟨hfuel, hc⟩ := hr
  cases c with
  | add h lo size index p z => exact add_at ha hmode hfuel hc
  | remove lo =>
    obtain ⟨rs', hrun, hag, hchecked⟩ := remove_at mode ha hfuel hc
    refine ⟨.ok rs', ?_, iff_of_true ⟨hag, hchecked⟩ trivial⟩
    rw [rangeCall, hrun]
    rfl

/-! ## Every sequence of calls -/

theorem agrees_new : Agrees newRangeSet (fun _ => none) [] := by
  refine ⟨represents_new, ⟨rfl, trivial, List.nodup_nil⟩, fun k p => ?_, List.Pairwise.nil, List.Pairwise.nil, by simp⟩
  constructor
  · intro h
    cases h
  · rintro ⟨c, hc, -⟩
    cases hc

theorem exact_iff {l : Nat × RangeCall} (hmode : mode ≠ .dbgNone) (hag : ∃ m cs, Agrees rs m cs)
    (hs : guarded (rangeStep mode) RangeReady rs l = some rs') : Exact mode rs l rs' ↔ l.2.Above rs := by
  obtain ⟨m, cs, ha⟩ := hag
  obtain ⟨hr, hstep⟩ := Option.ite_none_right_eq_some.1 hs
  obtain ⟨r, hrun, hiff⟩ := call_at ha hmode hr
  rw [rangeStep, hrun] at hstep
  cases hstep
  rw [← hiff]
  refine ⟨fun hex => ⟨hex.agrees, hex.checked⟩, fun ⟨hag, hchecked⟩ => ⟨hag, hchecked, fun l' hr' => ?_⟩⟩
  obtain ⟨m', cs', ha'⟩ := hag
  obtain ⟨r', hrun', -⟩ := call_at ha' hmode hr'
  exact ⟨_, by rw [rangeStep, hrun']; rfl⟩

/-- In every sequence of calls the checker is exact if and only if no payload is
added below all recorded ones. -/
theorem overlap_checker (hmode : mode ≠ .dbgNone) (labels : List (Nat × RangeCall)) :
    (∀ rs l rs', Takes (guarded (rangeStep mode) RangeReady) newRangeSet labels rs l rs' → Exact mode rs l rs') ↔
      ∀ rs l rs', Takes (guarded (rangeStep mode) RangeReady) newRangeSet labels rs l rs' → l.2.Above rs := by
  apply takes_iff_while fun rs => ∃ m cs, Agrees rs m cs
  · intro rs l rs' hag hs
    exact exact_iff hmode hag hs
  · intro rs l rs' _ _ hex
    exact hex.agrees
  · exact ⟨_, _, agrees_new⟩

theorem not_recorded_new : ¬Recorded newRangeSet e := by
  intro he
  obtain ⟨c, hc, -⟩ := agrees_new.recorded_iff.1 he
  cases hc

/-- The first payload is recorded. -/
theorem recorded_first (hmode : mode ≠ .dbgNone)
    (hs : guarded (rangeStep mode) RangeReady newRangeSet (fuel, .add h lo size index p z) = some rs)
    (hp : Placed h { lo := lo, hi := lo + size - 1, index := index }) :
    (∃ m cs, Agrees rs m cs) ∧ ∀ e, Recorded rs e ↔ e = { lo := lo, hi := lo + size - 1, index := index } := by
  have hex := (exact_iff hmode ⟨_, _, agrees_new⟩ hs).2 fun _ => .inl fun _ => not_recorded_new
  obtain ⟨hverdict, hrec⟩ := hex.checked
  refine ⟨hex.agrees, fun e => (hrec e).trans ?_⟩
  have hok := (hverdict hp).2 fun e he => absurd he not_recorded_new
  rw [or_iff_right not_recorded_new, and_iff_left hok]

/-- A heap of 64 bytes. -/
def someHeap : Heap := { heap := 65536, memBrk := 65600, memMaxAddr := 65536 + maxHeapSize, mem := fun _ => 0 }

/-- Two payloads in ascending order, and the removal of the first. -/
def ascendingCalls : List (Nat × RangeCall) :=
  [(9, .add someHeap 65536 16 0 1 1), (9, .add someHeap 65552 16 1 2 2), (9, .remove 65536)]

/-- `overlap_checker` for these calls. -/
theorem overlap_checker_ascending :
    (exec (guarded (rangeStep .dbgCheap) RangeReady) newRangeSet ascendingCalls).isSome ∧
      ∀ rs l rs', Takes (guarded (rangeStep .dbgCheap) RangeReady) newRangeSet ascendingCalls rs l rs' →
        Exact .dbgCheap rs l rs' := by
  refine ⟨by decide +kernel, (overlap_checker (by decide) ascendingCalls).2 fun rs l rs' ht => ?_⟩
  rcases takes_cons.1 ht with ⟨rfl, rfl, -⟩ | ⟨rs1, hs, ht⟩
  · exact fun _ => .inl fun _ => not_recorded_new
  · obtain ⟨-, hrec⟩ := recorded_first (by decide) hs ⟨by decide, by decide, by decide⟩
    rcases takes_cons.1 ht with ⟨rfl, rfl, -⟩ | ⟨rs2, -, ht⟩
    · exact fun _ => .inr ⟨_, (hrec _).2 rfl, by decide⟩
    · rcases takes_cons.1 ht with ⟨rfl, rfl, -⟩ | ⟨rs3, -, before, after, hnil, -⟩
      · trivial
      · simp at hnil

/-- Two payloads in descending order, the second of which overlaps the first. -/
def descendingCalls : List (Nat × RangeCall) :=
  [(9, .add someHeap 65552 16 0 1 1), (9, .add someHeap 65536 32 1 2 2)]

/-- The checker is not exact for these. -/
theorem overlap_checker_fails :
    ¬∀ rs l rs', Takes (guarded (rangeStep .dbgCheap) RangeReady) newRangeSet descendingCalls rs l rs' →
      Exact .dbgCheap rs l rs' := by
  intro hall
  have hrun : (exec (guarded (rangeStep .dbgCheap) RangeReady) newRangeSet descendingCalls).isSome = true := by
    decide +kernel
  obtain ⟨rs2, hrun⟩ := Option.isSome_iff_exists.1 hrun
  obtain ⟨rs1, hs1, hrun⟩ := Option.bind_eq_some_iff.1 hrun
  obtain ⟨rs2', hs2, -⟩ := Option.bind_eq_some_iff.1 hrun
  obtain ⟨hag, hrec⟩ := recorded_first (by decide) hs1 ⟨by decide, by decide, by decide⟩
  have hex := hall rs1 _ rs2' (takes_cons.2 (.inr ⟨rs1, hs1, takes_cons.2 (.inl ⟨rfl, rfl, hs2⟩)⟩))
  have habove := (exact_iff (by decide) hag hs2).1 hex
  rcases habove ⟨by decide, by decide, by decide⟩ with hnone | ⟨e, he, hle⟩
  · exact hnone _ ((hrec _).2 rfl)
  · rw [(hrec e).1 he] at hle
    exact absurd hle (by decide)

end Cmpsc473.Malloc
