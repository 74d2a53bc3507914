import Cmpsc473.Lib.Release
import Cmpsc473.Malloc.Measures
/-!
# Freeing the ranges (`stree.c`, `mdriver.c`)

`free_range_set` goes through the tree and frees its nodes and the ranges they
record. These are all that is allocated (`Accounted`), also where the list has lost
ranges: every node is in the tree, and every range is the record of one node. So
nothing is freed twice, and nothing is left.
-/

namespace Cmpsc473.Stree

open LinkedTree SearchTree Function

variable {ρ σ : Type}

/-! ## The functions -/

/-- `free_subtree`, where `free_fun` is not `NULL`. -/
def freeSubtree (freeFun : σ → ρ → Option σ) (fuel : Nat) (node : Mem (Entry ρ)) (s : σ) (x : Option Nat) :
    Option (Mem (Entry ρ) × σ) :=
  Release.freeTree (fun s e => freeFun s e.record) fuel node s x

/-- `tree_free`: the nodes that are left, and what `free_fun` left. -/
def treeFree (freeFun : σ → ρ → Option σ) (fuel : Nat) (t : Tree ρ) (s : σ) : Option (Mem (Entry ρ) × σ) :=
  match t.root with
  | none => some (t.node, s)
  | some x => freeSubtree freeFun fuel t.node s (some x)

/-! ## What is allocated -/

/-- Where the function returns, as many nodes are allocated as before. -/
def Keeps (t : Tree ρ) (x : Option (Tree ρ)) : Prop := ∀ t' ∈ x, ∀ b, (t'.node b).isSome = (t.node b).isSome

variable {t : Tree ρ} {a : Nat} {v p : Option Nat} {fuel z : Nat}

theorem keeps_some : Keeps t (some t) := by
  rintro t' ⟨⟩ b
  rfl

theorem keeps_root (v : Option Nat) : Keeps t (some { t with root := v }) := by
  rintro t' ⟨⟩ b
  rfl

theorem Keeps.bind {x : Option (Tree ρ)} {f : Tree ρ → Option (Tree ρ)} (hx : Keeps t x) (hf : ∀ t, Keeps t (f t)) :
    Keeps t (x >>= f) := by
  intro t' ht' b
  obtain ⟨t1, h1, h2⟩ := Option.bind_eq_some_iff.1 ht'
  exact (hf t1 t' h2 b).trans (hx t1 h1 b)

theorem keeps_read {β : Type} {o : Option β} {f : β → Option (Tree ρ)} (hf : ∀ c, Keeps t (f c)) :
    Keeps t (o >>= f) := by
  intro t' ht'
  obtain ⟨c, -, h⟩ := Option.bind_eq_some_iff.1 ht'
  exact hf c t' h

theorem keeps_modify (a : Nat) (f : Node (Entry ρ) → Node (Entry ρ)) : Keeps t (t.modify a f) := by
  intro t' ht' b
  obtain ⟨n, hn, rfl⟩ := Option.map_eq_some_iff.1 ht'
  show (update t.node a _ b).isSome = _
  by_cases hb : b = a
  · rw [hb, update_self, hn]
    rfl
  · rw [update_of_ne hb]

theorem keeps_relink (u : Nat) (v : Option Nat) : Keeps t (relink t u v) := by
  refine keeps_read fun n => ?_
  cases n.parent with
  | none => exact keeps_root v
  | some p =>
    refine keeps_read fun n => ?_
    split
    · exact keeps_modify _ _
    · exact keeps_modify _ _

theorem keeps_reparent (v p : Option Nat) : Keeps t (reparent t v p) := by
  cases v with
  | none => exact keeps_some
  | some v => exact keeps_modify _ _

theorem keeps_rotate (d : Side) (x : Nat) : Keeps t (rotate d t x) := by
  refine keeps_read fun n => ?_
  cases n.child d.other with
  | none => exact (keeps_relink _ _).bind fun t => keeps_modify _ _
  | some y =>
    refine keeps_read fun n => (keeps_modify _ _).bind fun t => ?_
    refine keeps_read fun n => (keeps_reparent _ _).bind fun t => ?_
    exact keeps_read fun n => (keeps_modify _ _).bind fun t => (keeps_relink _ _).bind fun t =>
      (keeps_modify _ _).bind fun t => keeps_modify _ _

theorem keeps_splayRound (x p : Nat) : Keeps t (splayRound t x p) := by
  have htwice : ∀ d d' g, Keeps t (rotate d t g >>= fun t => t.node x >>= fun n => n.parent >>= rotate d' t) :=
    fun d d' g => (keeps_rotate d g).bind fun t => keeps_read fun n => keeps_read fun p => keeps_rotate d' p
  refine keeps_read fun np => ?_
  cases np.parent with
  | none =>
    dsimp only
    split
    · exact keeps_rotate _ _
    · exact keeps_rotate _ _
  | some g =>
    refine keeps_read fun ng => ?_
    split
    · exact htwice .right .right g
    · split
      · exact htwice .left .left g
      · split
        · exact htwice .right .left p
        · exact htwice .left .right p

theorem keeps_splay (fuel x : Nat) : Keeps t (splay fuel t x) := by
  induction fuel generalizing t with
  | zero => rintro t' ⟨⟩
  | succ fuel ih =>
    refine keeps_read fun n => ?_
    cases n.parent with
    | none => exact keeps_some
    | some p => exact (keeps_splayRound x p).bind fun t => ih

theorem keeps_replace (u : Nat) (v : Option Nat) : Keeps t (replace t u v) :=
  (keeps_relink _ _).bind fun _ => keeps_read fun _ => keeps_reparent _ _

theorem keeps_takeMinimum {y r : Nat} {t' : Tree ρ} (h : takeMinimum fuel t z r = some (y, t')) (b : Nat) :
    (t'.node b).isSome = (t.node b).isSome := by
  obtain ⟨y', -, h⟩ := Option.bind_eq_some_iff.1 h
  obtain ⟨n, -, h⟩ := Option.bind_eq_some_iff.1 h
  split at h
  · obtain ⟨n, -, h⟩ := Option.bind_eq_some_iff.1 h
    obtain ⟨t1, h1, h⟩ := Option.bind_eq_some_iff.1 h
    obtain ⟨n, -, h⟩ := Option.bind_eq_some_iff.1 h
    obtain ⟨t2, h2, h⟩ := Option.bind_eq_some_iff.1 h
    obtain ⟨n, -, h⟩ := Option.bind_eq_some_iff.1 h
    obtain ⟨c, -, h⟩ := Option.bind_eq_some_iff.1 h
    obtain ⟨t3, h3, h⟩ := Option.bind_eq_some_iff.1 h
    cases h
    exact (keeps_modify _ _ t' h3 b).trans ((keeps_modify _ _ t2 h2 b).trans (keeps_replace _ _ t1 h1 b))
  · cases h
    rfl

theorem keeps_hoist (z y : Nat) : Keeps t (hoist t z y) :=
  (keeps_replace _ _).bind fun _ => keeps_read fun _ => (keeps_modify _ _).bind fun _ => keeps_read fun _ =>
    keeps_read fun _ => keeps_modify _ _

theorem keeps_unlink (fuel z : Nat) : Keeps t (unlink fuel t z) := by
  refine keeps_read fun nz => ?_
  cases nz.left with
  | none => exact keeps_replace _ _
  | some l =>
    cases nz.right with
    | none => exact keeps_replace _ _
    | some r =>
      intro t' ht' b
      obtain ⟨⟨y, t1⟩, h1, h2⟩ := Option.bind_eq_some_iff.1 ht'
      exact (keeps_hoist z y t' h2 b).trans (keeps_takeMinimum h1 b)

theorem keeps_attach (z : Nat) (p : Option Nat) : Keeps t (attach t z p) := by
  cases p with
  | none => exact keeps_root _
  | some p =>
    refine keeps_read fun np => keeps_read fun nz => ?_
    split
    · exact keeps_modify _ _
    · exact keeps_modify _ _

variable {k : Int} {record : ρ} {t' : Tree ρ} {r : Option ρ}

/-- `tree_insert` allocates the new node. -/
theorem isSome_treeInsert (h : treeInsert fuel t k record z = some (t', true)) (b : Nat) :
    (t'.node b).isSome = true ↔ b = z ∨ (t.node b).isSome = true := by
  obtain ⟨place, -, h⟩ := Option.bind_eq_some_iff.1 h
  cases place with
  | taken => cases h
  | below p =>
    obtain ⟨t1, h1, h⟩ := Option.bind_eq_some_iff.1 h
    obtain ⟨t2, h2, h⟩ := Option.bind_eq_some_iff.1 h
    cases h
    show (t2.node b).isSome = true ↔ _
    rw [keeps_splay fuel z t2 h2 b, keeps_attach z p t1 h1 b]
    show (update t.node z _ b).isSome = true ↔ _
    by_cases hb : b = z
    · rw [hb, update_self]
      simp
    · rw [update_of_ne hb, or_iff_right hb]

/-- `tree_remove` frees the node that it finds. -/
theorem isSome_treeRemove (hloop : removeLoop t k fuel t.root = some (some z))
    (h : treeRemove fuel t k = some (t', r)) (b : Nat) :
    (t'.node b).isSome = true ↔ b ≠ z ∧ (t.node b).isSome = true := by
  obtain ⟨found, hfound, h⟩ := Option.bind_eq_some_iff.1 h
  obtain rfl := Option.some.inj (hloop.symm.trans hfound)
  obtain ⟨t1, h1, h⟩ := Option.bind_eq_some_iff.1 h
  obtain ⟨t2, h2, h⟩ := Option.bind_eq_some_iff.1 h
  obtain ⟨n, -, h⟩ := Option.bind_eq_some_iff.1 h
  cases h
  show (update t2.node z none b).isSome = true ↔ _
  by_cases hb : b = z
  · rw [hb, update_self]
    simp
  · rw [update_of_ne hb, keeps_unlink fuel z t2 h2 b, keeps_splay fuel z t1 h1 b, and_iff_right hb]

end Cmpsc473.Stree

namespace Cmpsc473.Malloc

open LinkedList Function Stree SearchTree

/-- `free_range_set`: the nodes and the ranges that are left. -/
def freeRangeSet (fuel : Nat) (rs : RangeSet) : Option (LinkedTree.Mem (Entry Nat) × Mem Extent) :=
  treeFree Release.free fuel rs.loTree rs.range

variable {rs rs' : RangeSet} {s s' : BinaryTree (LinkedTree.Cell (Entry Nat))} {fuel lo hi size p z : Nat} {index : Int}
  {mode : DebugMode} {h : Heap}

/-- What the nodes record. -/
def recordsOf (s : BinaryTree (LinkedTree.Cell (Entry Nat))) : List Nat := (inorder s).map (·.val.record)

/-- The nodes of the tree are all that are allocated, and so are the ranges that
they record, each under its own address. -/
structure Accounted (rs : RangeSet) (s : BinaryTree (LinkedTree.Cell (Entry Nat))) : Prop where
  tree : IsTree rs.loTree s
  nodes : ∀ b, (rs.loTree.node b).isSome = true ↔ b ∈ LinkedTree.ptrs s
  ranges : ∀ p, (rs.range p).isSome = true → p ∈ recordsOf s
  keys : ∀ c ∈ inorder s, ∃ n, rs.range c.val.record = some n ∧ toKey n.val.lo = c.val.key ∧ n.val.lo ≤ n.val.hi ∧
    n.val.hi < 140737488355328

theorem accounted_new : Accounted newRangeSet .nil := by
  refine ⟨⟨⟨trivial, rfl, List.nodup_nil⟩, List.Pairwise.nil, rfl⟩, fun b => ?_, fun p hp => ?_, fun c hc => ?_⟩
  · exact iff_of_false (by simp [newRangeSet, treeNew]) List.not_mem_nil
  · cases hp
  · cases hc

/-- No two nodes record the same range. -/
theorem Accounted.nodup (ho : Accounted rs s) : (recordsOf s).Nodup := by
  refine List.pairwise_map.2 (List.Pairwise.imp_of_mem ?_ ho.tree.ascending)
  intro c d hc hd hlt heq
  obtain ⟨n, hn, hk, -⟩ := ho.keys c hc
  obtain ⟨n', hn', hk', -⟩ := ho.keys d hd
  rw [heq, hn'] at hn
  cases hn
  exact hlt.ne (hk.symm.trans hk')

/-- `free_range_set` frees every node and every range once. -/
theorem Accounted.frees (ho : Accounted rs s) (hfuel : rs.loTree.nodeCount < fuel) :
    freeRangeSet fuel rs = some (fun _ => none, fun _ => none) := by
  have hn : (LinkedTree.ptrs s).Nodup := by
    have := ho.tree.place.nodup
    rwa [LinkedTree.whole_nil] at this
  have hnodes : Release.without rs.loTree.node (LinkedTree.ptrs s) = fun _ => none :=
    Release.without_all fun b hb => (ho.nodes b).1 hb
  have hperm : ((Release.postorder s).map Entry.record).Perm (recordsOf s) := by
    have := (Release.postorder_perm s).map Entry.record
    rwa [List.map_map] at this
  have hranges : Release.without rs.range ((Release.postorder s).map Entry.record) = fun _ => none :=
    Release.without_all fun p hp => hperm.mem_iff.2 (ho.ranges p hp)
  have hfold : (Release.postorder s).foldlM (fun range e => Release.free range e.record) rs.range =
      some fun _ => none := by
    rw [← hranges, ← Release.foldlM_free (hperm.nodup_iff.2 ho.nodup), List.foldlM_map]
    intro p hp
    obtain ⟨c, hc, rfl⟩ := List.mem_map.1 (hperm.mem_iff.1 hp)
    obtain ⟨n, hn, -⟩ := ho.keys c hc
    rw [hn]
    rfl
  have hfree : Release.freeTree (fun range e => Release.free range e.record) fuel rs.loTree.node rs.range
      (LinkedTree.top s) = _ := Release.freeTree_at ho.tree.place.links hn (ho.tree.count ▸ hfuel) rs.range
  rw [hfold, hnodes, Option.map_some] at hfree
  rw [freeRangeSet, treeFree, ho.tree.root]
  cases s with
  | nil =>
    have hnone : rs.loTree.node = fun _ => none := Release.without_nil.symm.trans hnodes
    have hnone' : rs.range = fun _ => none := Release.without_nil.symm.trans hranges
    rw [LinkedTree.top_nil, hnone, hnone']
  | node c l r => exact hfree

/-! ## Calls -/

/-- A range that is accepted has a key that is not in the tree. -/
theorem Accounted.gap (ho : Accounted rs s) (hfuel : rs.loTree.nodeCount < fuel) (hlo : lo < 140737488355328)
    (hok : checkRange fuel rs lo hi index p z = some (.ok rs')) : ∃ fs, Gap rs.loTree s (toKey lo) fs := by
  refine (ho.tree.search (toKey lo)).resolve_right ?_
  rintro ⟨fs, c, l, r, hfound⟩
  obtain ⟨prev, hprev, hclash, -⟩ := checkRange_ok hok
  have hc : c ∈ inorder s := by
    rw [hfound.order]
    exact List.mem_append_left _ (List.mem_append_right _ (by simp))
  obtain ⟨n, hn, hk, hle, hhi⟩ := ho.keys c hc
  rw [ho.tree.treeFindNearest_eq hfuel, hfound.search] at hprev
  cases hprev
  have hsame : n.val.lo = lo := by
    have h1 := hk.trans hfound.key
    rw [toKey_eq (by omega), toKey_eq (by omega)] at h1
    exact Int.natCast_inj.1 h1
  simp only [nearestAt, clash, hn, Option.map_some, ← hsame, decide_eq_true hle, if_true] at hclash
  cases hclash

theorem Accounted.check (ho : Accounted rs s) (hfuel : rs.loTree.nodeCount < fuel) (hp : rs.range p = none)
    (hz : rs.loTree.node z = none) (hle : lo ≤ hi) (hhi : hi < 140737488355328)
    (hok : checkRange fuel rs lo hi index p z = some (.ok rs')) : ∃ s', Accounted rs' s' := by
  obtain ⟨fs, hgap⟩ := ho.gap hfuel (by omega) hok
  obtain ⟨prev, -, -, ⟨b, hinsert⟩, hvals⟩ := checkRange_ok hok
  obtain ⟨t', s', hrun, htree, horder⟩ := treeInsert_gap p hgap ho.tree hfuel hz
  obtain ⟨rfl, rfl⟩ : t' = rs'.loTree ∧ true = b := by
    cases hrun.symm.trans hinsert
    exact ⟨rfl, rfl⟩
  have hmem : ∀ c, c ∈ inorder s' ↔ c = ⟨z, ⟨toKey lo, p⟩⟩ ∨ c ∈ inorder s := by
    intro c
    rw [horder, hgap.order]
    simp only [List.mem_append, List.mem_cons]
    tauto
  refine ⟨s', htree, fun a => ?_, fun q hq => ?_, fun c hc => ?_⟩
  · rw [isSome_treeInsert hinsert, ho.nodes]
    simp only [LinkedTree.ptrs, List.mem_map, hmem]
    constructor
    · rintro (rfl | ⟨c, hc, rfl⟩)
      · exact ⟨_, .inl rfl, rfl⟩
      · exact ⟨c, .inr hc, rfl⟩
    · rintro ⟨c, rfl | hc, rfl⟩
      · exact .inl rfl
      · exact .inr ⟨c, hc, rfl⟩
  · have hval := hvals q
    simp only [recordsOf, List.mem_map, hmem]
    by_cases hqp : q = p
    · exact ⟨_, .inl rfl, hqp.symm⟩
    · rw [if_neg hqp] at hval
      have hsome : (rs.range q).isSome = true := by
        have := congrArg Option.isSome hval
        rwa [Option.isSome_map, Option.isSome_map, hq, eq_comm] at this
      obtain ⟨c, hc, rfl⟩ := List.mem_map.1 (ho.ranges q hsome)
      exact ⟨c, .inr hc, rfl⟩
  · rcases (hmem c).1 hc with rfl | hc
    · have hval := hvals p
      rw [if_pos rfl] at hval
      obtain ⟨n, hn, hval⟩ := Option.map_eq_some_iff.1 hval
      exact ⟨n, hn, by rw [hval], by rw [hval]; exact hle, by rw [hval]; exact hhi⟩
    · obtain ⟨n, hn, hkey⟩ := ho.keys c hc
      have hval := hvals c.val.record
      rw [if_neg (by rintro hcp; rw [hcp, hp] at hn; cases hn), hn] at hval
      obtain ⟨n', hn', hval⟩ := Option.map_eq_some_iff.1 hval
      exact ⟨n', hn', by rw [hval]; exact hkey⟩

/-- What `add_range` checks before it looks for the neighbours. -/
theorem addRange_accepts (h0 : 0 < size) (hmax : lo + size ≤ 18446744073709551616)
    (hok : addRange fuel mode h rs lo size index p z = some (.ok rs')) :
    rs' = rs ∨ lo + size - 1 ≤ memHeapHi h ∧ checkRange fuel rs lo (lo + size - 1) index p z = some (.ok rs') := by
  have hhi : (lo + size - 1) % 18446744073709551616 = lo + size - 1 := Nat.mod_eq_of_lt (by omega)
  unfold addRange at hok
  rw [if_neg (by omega)] at hok
  simp only [hhi] at hok
  split at hok
  · cases hok
  · split at hok
    · cases hok
    · split at hok
      · cases hok
        exact .inl rfl
      · exact .inr ⟨by omega, hok⟩

theorem Accounted.add (ho : Accounted rs s) (hfuel : rs.loTree.nodeCount < fuel) (hp : rs.range p = none)
    (hz : rs.loTree.node z = none) (h0 : 0 < size) (hfits : lo + size ≤ 140737488355328)
    (hok : addRange fuel mode h rs lo size index p z = some (.ok rs')) : ∃ s', Accounted rs' s' := by
  rcases addRange_accepts h0 (by omega) hok with rfl | ⟨-, hok⟩
  · exact ⟨s, ho⟩
  · exact ho.check hfuel hp hz (by omega) (by omega) hok

/-- A value that is met once is not met elsewhere. -/
theorem ne_of_nodup_map {α β : Type} {f : α → β} {bs cs : List α} {x c : α} (hn : ((bs ++ x :: cs).map f).Nodup)
    (hc : c ∈ bs ++ cs) : f c ≠ f x := by
  rw [List.map_append, List.map_cons, List.nodup_middle, ← List.map_append] at hn
  exact ne_of_mem_of_not_mem (List.mem_map_of_mem hc) (List.nodup_cons.1 hn).1

theorem Accounted.remove (ho : Accounted rs s) (hfuel : rs.loTree.nodeCount < fuel)
    (hok : removeRange fuel rs lo = some rs') : ∃ s', Accounted rs' s' := by
  rcases ho.tree.search (toKey lo) with ⟨fs, hgap⟩ | ⟨fs, x, l, r, hfound⟩
  · have hrun : treeRemove fuel rs.loTree (toKey lo) = some (rs.loTree, none) := by
      rw [treeRemove, ho.tree.removeLoop_eq hfuel, hgap.search]
      rfl
    simp only [removeRange, hrun, Option.bind_eq_bind, Option.bind_some, Option.some.injEq] at hok
    exact ⟨s, hok ▸ ho⟩
  · obtain ⟨t', s', bs, cs, hrun, htree, horder, horder'⟩ := treeRemove_found hfound ho.tree hfuel
    have hloop : removeLoop rs.loTree (toKey lo) fuel rs.loTree.root = some (some x.ptr) := by
      rw [ho.tree.removeLoop_eq hfuel, hfound.search, LinkedTree.top_node]
    simp only [removeRange, hrun, Option.bind_eq_bind, Option.bind_some, Option.bind_eq_some_iff] at hok
    obtain ⟨n, hn, ⟨range, list⟩, hsplice, heq⟩ := hok
    cases heq
    have hvals : ∀ q, q ≠ x.val.record →
        (update range x.val.record none q).map Node.val = (rs.range q).map Node.val := by
      intro q hq
      rw [update_of_ne hq]
      exact splice_val hsplice q
    have hnodes := isSome_treeRemove hloop hrun
    have hmem : ∀ c, c ∈ inorder s ↔ c = x ∨ c ∈ inorder s' := by
      intro c
      rw [horder, horder']
      simp only [List.mem_append, List.mem_cons]
      tauto
    have hptrs := ho.tree.place.nodup
    have hrecords := ho.nodup
    rw [LinkedTree.whole_nil, horder] at hptrs
    rw [recordsOf, horder] at hrecords
    refine ⟨s', htree, fun a => ?_, fun q hq => ?_, fun c hc => ?_⟩
    · rw [hnodes, ho.nodes]
      simp only [LinkedTree.ptrs, List.mem_map, hmem]
      constructor
      · rintro ⟨hne, c, rfl | hc, rfl⟩
        · exact absurd rfl hne
        · exact ⟨c, hc, rfl⟩
      · rintro ⟨c, hc, rfl⟩
        rw [horder'] at hc
        exact ⟨ne_of_nodup_map hptrs hc, c, .inr (horder' ▸ hc), rfl⟩
    · have hq : (update range x.val.record none q).isSome = true := hq
      have hne : q ≠ x.val.record := by
        rintro rfl
        rw [update_self] at hq
        cases hq
      have hval := congrArg Option.isSome (hvals q hne)
      rw [Option.isSome_map, Option.isSome_map, hq, eq_comm] at hval
      obtain ⟨c, hc, rfl⟩ := List.mem_map.1 (ho.ranges q hval)
      rcases (hmem c).1 hc with rfl | hc
      · exact absurd rfl hne
      · exact List.mem_map_of_mem hc
    · have hne : c.val.record ≠ x.val.record := by
        rw [horder'] at hc
        exact ne_of_nodup_map (f := fun c : LinkedTree.Cell (Entry Nat) => c.val.record) hrecords hc
      obtain ⟨n, hn, hkey⟩ := ho.keys c ((hmem c).2 (.inr hc))
      have hval := hvals c.val.record hne
      rw [hn] at hval
      obtain ⟨n', hn', hval⟩ := Option.map_eq_some_iff.1 hval
      exact ⟨n', hn', by rw [hval]; exact hkey⟩

/-- What the nodes record stays all that is allocated. -/
theorem accounted_step {l : Nat × RangeCall} (ho : ∃ s, Accounted rs s) (hr : RangeReady rs l)
    (hstep : rangeStep mode rs l = some rs') : ∃ s, Accounted rs' s := by
  obtain ⟨s, ho⟩ := ho
  obtain ⟨fuel, call⟩ := l
  obtain ⟨hfuel, hallowed⟩ := hr
  obtain ⟨res, hcall, rfl⟩ := Option.map_eq_some_iff.1 hstep
  cases call with
  | add h lo size index p z =>
    obtain ⟨huser, h0, hmax, hp, hz⟩ := hallowed
    cases res with
    | error e => exact ⟨s, ho⟩
    | ok rs' =>
      have hhi : memHeapHi h < 140737488355328 := by
        have := huser.2.2
        have := huser.1.trans_le huser.2.1
        rw [memHeapHi]
        omega
      rcases addRange_accepts h0 hmax hcall with rfl | ⟨hle, -⟩
      · exact ⟨s, ho⟩
      · exact ho.add hfuel hp hz h0 (by omega) hcall
  | remove lo =>
    obtain ⟨rs', hok, rfl⟩ := Option.map_eq_some_iff.1 hcall
    exact ho.remove hfuel hok

/-- The size of a block that a request allocated. -/
theorem size_of_allocates {st : Setup} {d d1 : Driver} {es : List Extent} {c : Choice} {op : TraceOp} (hs : Sane st d es)
    (hp : Passes (evalOp st c op d) d1) (ha : op.allocates = true) :
    0 < op.size.toNat ∧ d1.blockSizes op.index.toNat = op.size.toNat := by
  have hput : ∀ {i q}, Puts st.numIds op.index op.size d d1 i q → d1.blockSizes op.index.toNat = op.size.toNat := by
    intro i q hput
    rw [hput.sizes, (slot_toNat hput.slot).1, update_self]
  have hsame : d.heap.Alike d.heap := ⟨rfl, rfl, rfl⟩
  obtain ⟨-, hp⟩ := evalOp_iff.1 hp
  obtain ⟨type, index, size⟩ := op
  cases type with
  | alloc =>
    obtain ⟨i, q, h1, hq, -⟩ := alloc_repeats hs hp hsame
    exact ⟨(evalAlloc_fits hs hp).2.1, hput hq⟩
  | realloc =>
    obtain ⟨i, q, h1, hq, -⟩ := realloc_repeats hs hp hsame
    exact ⟨UInt64.pos_iff_ne_zero.2 (of_decide_eq_true ha), hput hq⟩
  | free => cases ha

/-- What the nodes record stays all that is allocated while a trace is checked. -/
theorem Run.accounted {st : Setup} {choice : Nat → Choice} {dend d : Driver} {left es : List Extent} {k : Nat}
    {ops : List TraceOp} (hr : Run st choice dend left k ops d es) (ho : ∃ s, Accounted d.ranges s) :
    ∃ s, Accounted dend.ranges s := by
  induction hr with
  | done => exact ho
  | @step k op ops d d1 es hs hfresh hheap hf hp hm hrun ih =>
    apply ih
    obtain ⟨s, ho⟩ := ho
    obtain ⟨hfuel, hfree⟩ := hfresh
    obtain ⟨rs, hreleases, hallocates⟩ := evalOp_ranges hp
    have hrs : ∃ s, Accounted rs s := by
      split at hreleases
      · exact ho.remove hfuel hreleases
      · rw [hreleases]
        exact ⟨s, ho⟩
    obtain ⟨s, ho⟩ := hrs
    split at hallocates
    · obtain ⟨hat, h, hadd⟩ := hallocates
      obtain ⟨hfuel', hrange, hnode⟩ := hfree rs hat
      obtain ⟨h0, hsize⟩ := size_of_allocates hs hp ‹_›
      have hroom := (hrun.sane.room op.index.toNat (by rwa [hsize])).2
      have hle := hrun.sane.ok.brk_le.trans hrun.sane.ok.user
      exact ho.add hfuel' hrange hnode h0 (by omega) hadd
    · rw [hallocates]
      exact ⟨s, ho⟩

/-- After a check that passes `free_range_set` leaves nothing. -/
theorem evalMmValid_frees {st : Setup} {choice : Nat → Choice} {d d1 : Driver} {ops : List TraceOp} {addr : Nat}
    {mem : Nat → UInt8} (ha : Region addr) (hheap : d.heap = memInit addr mem) (hranges : d.ranges = newRangeSet)
    (hproper : Proper st choice 0 ops (restart d)) (hvalid : Passes (evalMmValid st choice ops d) d1)
    (hfuel : d1.ranges.loTree.nodeCount < fuel) :
    freeRangeSet fuel d1.ranges = some (fun _ => none, fun _ => none) := by
  have hok : d.heap.Ok := by
    rw [hheap]
    exact memInit_ok mem ha.page ha.pos ha.user
  have hnew : RangesHold d.ranges [] := by
    rw [hranges]
    exact holds_new
  obtain ⟨left, hrun⟩ := run_of_passes (sane_restart hok hnew) hproper (evalMmValid_iff.1 hvalid)
  obtain ⟨s, ho⟩ := hrun.accounted ⟨.nil, show Accounted d.ranges .nil from hranges ▸ accounted_new⟩
  exact ho.frees hfuel

/-- After every sequence of calls `free_range_set` frees every node and every range
once, and nothing is left. -/
theorem ranges_freed (hrun : Runs.Reach (rangeStep mode) RangeReady newRangeSet rs)
    (hfuel : rs.loTree.nodeCount < fuel) : freeRangeSet fuel rs = some (fun _ => none, fun _ => none) := by
  obtain ⟨s, ho⟩ := hrun.inv (fun rs => ∃ s, Accounted rs s) (fun _ _ _ ho hr hs => accounted_step ho hr hs)
    ⟨.nil, accounted_new⟩
  exact ho.frees hfuel

/-- `ranges_freed` after calls that lose a range of the list. -/
theorem ranges_freed_descending : ∃ rs,
    Runs.exec (Runs.guarded (rangeStep .dbgCheap) RangeReady) newRangeSet descendingCalls = some rs ∧
      rs.loTree.nodeCount = 2 ∧ freeRangeSet 3 rs = some (fun _ => none, fun _ => none) := by
  have hrun : (Runs.exec (Runs.guarded (rangeStep .dbgCheap) RangeReady) newRangeSet descendingCalls).any
      (·.loTree.nodeCount = 2) = true := by decide +kernel
  obtain ⟨rs, hrun, hcount⟩ := (Option.any_eq_true _ _).1 hrun
  have hcount : rs.loTree.nodeCount = 2 := of_decide_eq_true hcount
  exact ⟨rs, hrun, hcount, ranges_freed (Runs.exec_guarded hrun).2 (by omega)⟩

end Cmpsc473.Malloc
