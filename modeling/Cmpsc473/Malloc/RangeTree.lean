import Cmpsc473.Lib.Runs
import Cmpsc473.Lib.LinkedList
import Cmpsc473.Malloc.Splay
/-!
# The tree is an ordered map

The four operations of `stree.h`, against a map from keys to records. A call
searches for its key, and the search ends at a node with the key or at a place
that divides the other keys at it (`seek`); what the call then does is a change
of the tree at that place.
-/

namespace Cmpsc473.Stree

open LinkedTree SearchTree Function Runs

variable {ρ : Type} {t t' : Tree ρ} {fs : List (Frame (Entry ρ))} {x : Cell (Entry ρ)} {l r s : BinaryTree (Cell (Entry ρ))}
  {p : Option Nat} {fuel z : Nat} {k : Int} {record : ρ}

/-! ## The searches -/

/-- The place for `k` that the search from the root ends at. -/
abbrev placeOf (k : Int) (fs : List (Frame (Entry ρ))) (s : BinaryTree (Cell (Entry ρ))) :=
  seek Entry.key k fs s

/-- How `tree_insert`'s loop ends there. -/
def Place.of : List (Frame (Entry ρ)) × BinaryTree (Cell (Entry ρ)) → Place
  | (fs, .nil) => .below (up fs)
  | (_, .node _ _ _) => .taken

/-- The record there. -/
def recordAt : BinaryTree (Cell (Entry ρ)) → Option ρ
  | .nil => none
  | .node c _ _ => some c.val.record

/-- The record there, or that of the last node before the place. -/
def nearestAt : List (Frame (Entry ρ)) × BinaryTree (Cell (Entry ρ)) → Option ρ
  | (fs, .nil) => (before fs).getLast?.map (·.val.record)
  | (_, .node c _ _) => some c.val.record

variable (fs) in
/-- A loop that goes down as the search does ends at the place for `k`. -/
theorem searchLoop_at {β : Type} (loop : Nat → Option Nat → Option Nat → Option β)
    (ending : List (Frame (Entry ρ)) × BinaryTree (Cell (Entry ρ)) → β)
    (hnil : ∀ n fs, loop (n + 1) none (up fs) = some (ending (fs, .nil)))
    (hnode : ∀ n fs u c l r v, t.node c.ptr = some { left := top l, right := top r, parent := v, val := c.val } →
      loop (n + 1) (some c.ptr) u =
        if k = c.val.key then some (ending (fs, .node c l r))
        else if k > c.val.key then loop n (top r) (some c.ptr)
        else loop n (top l) (some c.ptr))
    (h : Links t.node p s) (hfuel : (inorder s).length < fuel) :
    loop fuel (top s) (up fs) = some (ending (placeOf k fs s)) := by
  induction s generalizing p fs fuel with
  | nil =>
    obtain ⟨n, rfl⟩ := Nat.exists_eq_succ_of_ne_zero (Nat.pos_iff_ne_zero.1 hfuel)
    exact hnil n fs
  | node c l r ihl ihr =>
    obtain ⟨n, rfl⟩ := Nat.exists_eq_succ_of_ne_zero (Nat.pos_iff_ne_zero.1 (Nat.zero_lt_of_lt hfuel))
    obtain ⟨hc, hl, hr⟩ := h
    rw [inorder_node, List.length_append, List.length_cons] at hfuel
    rw [top_node, hnode n fs (up fs) c l r p hc, placeOf, seek]
    split
    · rfl
    · split
      · exact ihr (⟨.right, c, l⟩ :: fs) hr (by omega)
      · exact ihl (⟨.left, c, r⟩ :: fs) hl (by omega)

variable (fs) in
theorem insertLoop_at (h : Links t.node p s) (hfuel : (inorder s).length < fuel) :
    insertLoop t k fuel (top s) (up fs) = some (.of (placeOf k fs s)) := by
  apply searchLoop_at fs (insertLoop t k) Place.of (fun _ _ => rfl) (fun n fs u c l r v hc => ?_) h hfuel
  simp only [insertLoop, hc, Option.bind_eq_bind, Option.bind_some, Place.of]

variable (fs) in
theorem findLoop_at (h : Links t.node p s) (hfuel : (inorder s).length < fuel) :
    findLoop t k fuel (top s) = some (recordAt (placeOf k fs s).2) := by
  apply searchLoop_at fs (fun n z _ => findLoop t k n z) (fun place => recordAt place.2) (fun _ _ => rfl)
    (fun n fs u c l r v hc => ?_) h hfuel
  simp only [findLoop, hc, Option.bind_eq_bind, Option.bind_some, recordAt]

variable (fs) in
theorem removeLoop_at (h : Links t.node p s) (hfuel : (inorder s).length < fuel) :
    removeLoop t k fuel (top s) = some (top (placeOf k fs s).2) := by
  apply searchLoop_at fs (fun n z _ => removeLoop t k n z) (fun place => top place.2) (fun _ _ => rfl)
    (fun n fs u c l r v hc => ?_) h hfuel
  simp only [removeLoop, hc, Option.bind_eq_bind, Option.bind_some, top_node, ne_eq, ite_not, eq_comm]

/-- The last node before the place is in memory, and its key is less than those
of the nodes below. -/
theorem last_before {c : Cell (Entry ρ)} (h : t.At fs (.node x l r)) (hs : Ascending Entry.key (whole fs (.node x l r)))
    (hc : (before fs).getLast? = some c) : ∃ n, t.node c.ptr = some n ∧ n.val = c.val ∧ c.val.key < x.val.key := by
  have hmem : c ∈ before fs := List.mem_of_getLast? hc
  obtain ⟨n, hn, hval⟩ := h.around.holds (List.mem_append_left _ hmem)
  refine ⟨n, hn, hval, ?_⟩
  have hlt := (List.pairwise_append.1 (List.pairwise_append.1 hs).1).2.2 c hmem x
  exact hlt (List.mem_append_right _ List.mem_cons_self)

/-- The pointer `n` of `tree_find_nearest` is that of the last node before the
place. -/
theorem nearestLoop_at (fs : List (Frame (Entry ρ))) (h : t.At fs s) (hs : Ascending Entry.key (whole fs s))
    (hfuel : (inorder s).length < fuel) :
    nearestLoop t k fuel (top s) ((before fs).getLast?.map Cell.ptr) = some (nearestAt (placeOf k fs s)) := by
  induction s generalizing fs fuel with
  | nil =>
    obtain ⟨n, rfl⟩ := Nat.exists_eq_succ_of_ne_zero (Nat.pos_iff_ne_zero.1 hfuel)
    cases hlast : (before fs).getLast? with
    | none => simp [nearestLoop, placeOf, seek, nearestAt, hlast]
    | some c =>
      obtain ⟨m, hm, hval⟩ := h.around.holds (List.mem_append_left _ (List.mem_of_getLast? hlast))
      simp [nearestLoop, placeOf, seek, nearestAt, hlast, hm, hval]
  | node c l r ihl ihr =>
    obtain ⟨n, rfl⟩ := Nat.exists_eq_succ_of_ne_zero (Nat.pos_iff_ne_zero.1 (Nat.zero_lt_of_lt hfuel))
    rw [inorder_node, List.length_append, List.length_cons] at hfuel
    have hright (hn : (inorder r).length < n) := ihr (⟨.right, c, l⟩ :: fs) (at_plug.1 h) (whole_plug ▸ hs) hn
    have hleft (hn : (inorder l).length < n) := ihl (⟨.left, c, r⟩ :: fs) (at_plug.1 h) (whole_plug ▸ hs) hn
    have hlast' : (before (⟨.right, c, l⟩ :: fs)).getLast?.map Cell.ptr = some c.ptr := by
      simp [before, List.getLast?_append]
    replace hright := hright (by omega)
    rw [hlast'] at hright
    simp only [nearestLoop, top_node, h.links.1, Option.bind_eq_bind, Option.bind_some, placeOf, seek]
    split
    · rfl
    · split
      · cases hlast : (before fs).getLast? with
        | none => simpa [hlast] using hright
        | some c' =>
          obtain ⟨m, hm, hval, hlt⟩ := last_before h hs hlast
          simpa [hlast, hm, hval, hlt] using hright
      · exact hleft (by omega)

/-! ## Maps -/

/-- What the keys are bound to. -/
abbrev Bindings (ρ : Type) := Int → Option ρ

/-- The nodes hold the bindings. -/
def Holds (m : Bindings ρ) (cs : List (Cell (Entry ρ))) : Prop :=
  ∀ k record, m k = some record ↔ ∃ c ∈ cs, c.val.key = k ∧ c.val.record = record

/-- The nodes of the tree `s` are in memory: the pointers to the parents mirror
those to the children, the root has none, the keys ascend from left to right, and
`node_count` counts the nodes. -/
structure IsTree (t : Tree ρ) (s : BinaryTree (Cell (Entry ρ))) : Prop where
  place : t.At [] s
  ascending : Ascending Entry.key (inorder s)
  count : t.nodeCount = (inorder s).length

/-- The tree is a search tree with the bindings. -/
def Represents (t : Tree ρ) (m : Bindings ρ) : Prop := ∃ s, IsTree t s ∧ Holds m (inorder s)

variable {m : Bindings ρ} {bs cs : List (Cell (Entry ρ))} {c : Cell (Entry ρ)}

theorem Holds.none (h : Holds m cs) (hk : ∀ c ∈ cs, c.val.key ≠ k) : m k = none := by
  rw [Option.eq_none_iff_forall_ne_some]
  intro record hm
  obtain ⟨c, hc, hkey, -⟩ := (h k record).1 hm
  exact hk c hc hkey

theorem Holds.some (h : Holds m cs) (hc : c ∈ cs) : m c.val.key = some c.val.record := (h _ _).2 ⟨c, hc, rfl, rfl⟩

/-- A key between two places in the order is bound. -/
theorem Holds.insert (h : Holds m (bs ++ cs)) (hk : ∀ c' ∈ bs ++ cs, c'.val.key ≠ c.val.key) :
    Holds (update m c.val.key (.some c.val.record)) (bs ++ c :: cs) := by
  intro k record
  rw [LinkedList.exists_mem_insert]
  by_cases hkey : k = c.val.key
  · subst hkey
    rw [update_self, Option.some.injEq]
    constructor
    · exact fun hrec => .inl ⟨rfl, hrec⟩
    · rintro (⟨-, hrec⟩ | ⟨c', hc', hkey, -⟩)
      · exact hrec
      · exact absurd hkey (hk c' hc')
  · rw [update_of_ne hkey, h k record]
    exact (or_iff_right fun hc => hkey hc.1.symm).symm

/-- A binding is deleted. -/
theorem Holds.remove (h : Holds m (bs ++ c :: cs)) (hs : Ascending Entry.key (bs ++ c :: cs)) :
    Holds (update m c.val.key .none) (bs ++ cs) := by
  have hne : ∀ c' ∈ bs ++ cs, c'.val.key ≠ c.val.key := by
    intro c' hc'
    rcases LinkedList.pairwise_others hs hc' with hlt | hlt
    · exact hlt.ne
    · exact hlt.ne'
  intro k record
  by_cases hkey : k = c.val.key
  · subst hkey
    rw [update_self]
    constructor
    · intro hnone
      cases hnone
    · rintro ⟨c', hc', hkey, -⟩
      exact absurd hkey (hne c' hc')
  · rw [update_of_ne hkey, h k record, LinkedList.exists_mem_insert]
    exact or_iff_right fun hc => hkey hc.1.symm

/-! ## The calls -/

/-- A call, with what `malloc` returns if a node is needed. Where `malloc`
returns `NULL` the program exits. -/
inductive Call (ρ : Type) where
  | insert (key : Int) (record : ρ) (z : Nat)
  | remove (key : Int)
  | find (key : Int)
  | findNearest (key : Int)

/-- What a call returns. -/
inductive Answer (ρ : Type) where
  | inserted (b : Bool)
  | record (r : Option ρ)

/-- A call, with the rounds that its loops may take. -/
def call (fuel : Nat) (t : Tree ρ) : Call ρ → Option (Tree ρ × Answer ρ)
  | .insert key record z => (treeInsert fuel t key record z).map fun r => (r.1, .inserted r.2)
  | .remove key => (treeRemove fuel t key).map fun r => (r.1, .record r.2)
  | .find key => (treeFind fuel t key).map fun r => (t, .record r)
  | .findNearest key => (treeFindNearest fuel t key).map fun r => (t, .record r)

/-- The bindings after a call. -/
def Call.apply (m : Bindings ρ) : Call ρ → Bindings ρ
  | .insert key record _ => if (m key).isSome then m else update m key (some record)
  | .remove key => update m key none
  | .find _ | .findNearest _ => m

/-- `r` is the record of the greatest key up to `k`, or there is no such key. -/
def Nearest (m : Bindings ρ) (k : Int) (r : Option ρ) : Prop :=
  (r = none ∧ ∀ j ≤ k, m j = none) ∨
    ∃ j ≤ k, r ≠ none ∧ m j = r ∧ ∀ i, j < i → i ≤ k → m i = none

/-- What the call must return. -/
def Call.Returns (m : Bindings ρ) : Call ρ → Answer ρ → Prop
  | .insert key _ _, a => a = .inserted (m key).isNone
  | .remove key, a => a = .record (m key)
  | .find key, a => a = .record (m key)
  | .findNearest key, a => ∃ r, a = .record r ∧ Nearest m key r

/-- `malloc` returns a block that is not in use. -/
def Call.Fresh (t : Tree ρ) : Call ρ → Prop
  | .insert _ _ z => t.node z = none
  | _ => True

/-- The loops may take more rounds than there are nodes, and `malloc` returns
what is free. -/
def Ready (t : Tree ρ) (l : Nat × Call ρ) : Prop := t.nodeCount < l.1 ∧ l.2.Fresh t

/-! ## What a search finds -/

/-- A place with no node for the key. -/
structure Gap (t : Tree ρ) (s : BinaryTree (Cell (Entry ρ))) (k : Int) (fs : List (Frame (Entry ρ))) : Prop where
  search : placeOf k [] s = (fs, .nil)
  place : t.At fs .nil
  order : inorder s = before fs ++ after fs
  divides : Divides Entry.key k fs
  depth : fs.length ≤ (inorder s).length

/-- A node with the key. -/
structure Found (t : Tree ρ) (s : BinaryTree (Cell (Entry ρ))) (k : Int) (fs : List (Frame (Entry ρ)))
    (c : Cell (Entry ρ)) (l r : BinaryTree (Cell (Entry ρ))) : Prop where
  search : placeOf k [] s = (fs, .node c l r)
  place : t.At fs (.node c l r)
  order : inorder s = whole fs (.node c l r)
  key : c.val.key = k
  depth : fs.length ≤ (inorder s).length

theorem IsTree.root (hs : IsTree t s) : t.root = top s := hs.place.around

theorem IsTree.insertLoop_eq (hs : IsTree t s) (hfuel : t.nodeCount < fuel) :
    insertLoop t k fuel t.root none = some (.of (placeOf k [] s)) := by
  rw [hs.root]
  exact insertLoop_at [] hs.place.links (hs.count ▸ hfuel)

theorem IsTree.removeLoop_eq (hs : IsTree t s) (hfuel : t.nodeCount < fuel) :
    removeLoop t k fuel t.root = some (top (placeOf k [] s).2) := by
  rw [hs.root]
  exact removeLoop_at [] hs.place.links (hs.count ▸ hfuel)

theorem IsTree.treeFind_eq (hs : IsTree t s) (hfuel : t.nodeCount < fuel) :
    treeFind fuel t k = some (recordAt (placeOf k [] s).2) := by
  rw [treeFind, hs.root]
  exact findLoop_at [] hs.place.links (hs.count ▸ hfuel)

theorem IsTree.treeFindNearest_eq (hs : IsTree t s) (hfuel : t.nodeCount < fuel) :
    treeFindNearest fuel t k = some (nearestAt (placeOf k [] s)) := by
  have hasc : Ascending Entry.key (whole [] s) := by rw [whole_nil]; exact hs.ascending
  rw [treeFindNearest, hs.root]
  exact nearestLoop_at [] hs.place hasc (hs.count ▸ hfuel)

theorem IsTree.search (h : IsTree t s) (k : Int) : (∃ fs, Gap t s k fs) ∨ ∃ fs c l r, Found t s k fs c l r := by
  have hs : Ascending Entry.key (whole [] s) := by rw [whole_nil]; exact h.ascending
  have hat : t.At (placeOf k [] s).1 (placeOf k [] s).2 := at_seek h.place
  have hwhole := @whole_seek _ s [] _ _ Entry.key k
  have hdiv := divides_seek (k := k) hs divides_nil
  have hlen := @length_seek _ s [] _ _ Entry.key k
  rw [whole_nil] at hwhole
  rw [List.length_nil, Nat.zero_add] at hlen
  cases hseek : placeOf k [] s with
  | mk fs s' =>
    simp only [placeOf] at hat hseek
    rw [hseek] at hat hwhole hdiv hlen
    cases s' with
    | nil =>
      refine .inl ⟨fs, hseek, hat, ?_, hdiv, hlen⟩
      rw [← hwhole, whole, inorder_nil, List.append_nil]
    | node c l r => exact .inr ⟨fs, c, l, r, hseek, hat, hwhole.symm, key_seek hseek, hlen⟩

theorem Gap.not_bound (h : Gap t s k fs) (hm : Holds m (inorder s)) : m k = none := by
  apply hm.none
  intro c hc
  rw [h.order] at hc
  rcases List.mem_append.1 hc with hc | hc
  · exact (h.divides.1 c hc).ne
  · exact (h.divides.2 c hc).ne'

theorem Found.bound (h : Found t s k fs c l r) (hm : Holds m (inorder s)) : m k = some c.val.record := by
  rw [← h.key]
  apply hm.some
  rw [h.order]
  exact List.mem_append_left _ (List.mem_append_right _ (List.mem_append_right _ List.mem_cons_self))

/-! ## Each call -/

/-- The new node is hung in the place. -/
theorem attach_eq {n : Node (Entry ρ)} (h : Around t.node t.root none fs) (hd : Divides Entry.key k fs) (hz : t.node z = some n)
    (hk : n.val.key = k) :
    attach t z (up fs) = some { t with root := hangRoot t.root (some z) fs, node := hang t.node (some z) fs } := by
  cases fs with
  | nil => rfl
  | cons f fs =>
    obtain ⟨d, c, sib⟩ := f
    obtain ⟨hc, -, -⟩ := h
    simp only [attach, up_cons, hc, hz, Option.bind_eq_bind, Option.bind_some, val_make, hk, modify_eq hc]
    cases d with
    | left =>
      have hlt : ¬c.val.key < k := not_lt.2 (hd.2 c List.mem_cons_self).le
      rw [if_neg hlt]
      rfl
    | right =>
      have hlt : c.val.key < k := hd.1 c (by simp [before])
      rw [if_pos hlt]
      rfl

/-- A node that is not in use is not around the place. -/
theorem Gap.fresh (h : Gap t s k fs) (hz : t.node z = none) : z ∉ outer fs := by
  intro hmem
  obtain ⟨c, hc, rfl⟩ := List.mem_map.1 hmem
  obtain ⟨n, hn, -⟩ := h.place.around.holds hc
  rw [hz] at hn
  cases hn

variable (record) in
theorem treeInsert_gap (h : Gap t s k fs) (hs : IsTree t s) (hfuel : t.nodeCount < fuel) (hz : t.node z = none) :
    ∃ t' s', treeInsert fuel t k record z = some (t', true) ∧ IsTree t' s' ∧
      inorder s' = before fs ++ ⟨z, ⟨k, record⟩⟩ :: after fs := by
  have hout := h.fresh hz
  have hloop : insertLoop t k fuel t.root none = some (.below (up fs)) := by
    rw [hs.insertLoop_eq hfuel, h.search]
    rfl
  -- the node, and the pointer to it
  obtain ⟨t1, ht1⟩ : ∃ t1 : Tree ρ, t1 = { t with
      node := update t.node z (some { left := none, right := none, parent := up fs, val := ⟨k, record⟩ }) } := ⟨_, rfl⟩
  obtain ⟨t2, ht2⟩ : ∃ t2 : Tree ρ, t2 = { t1 with
      root := hangRoot t1.root (some z) fs, node := hang t1.node (some z) fs } := ⟨_, rfl⟩
  have hz1 : t1.node z = some { left := none, right := none, parent := up fs, val := ⟨k, record⟩ } := by
    rw [ht1]
    exact update_self _ _ _
  have haround : Around t1.node t1.root none fs := by
    rw [ht1]
    exact h.place.around.congr fun b hb => update_of_ne (ne_of_mem_of_not_mem hb hout) _ _
  have hattach : attach t1 z (up fs) = some t2 := by
    rw [ht2]
    exact attach_eq haround h.divides hz1 rfl
  have hn : (outer fs).Nodup := h.place.places
  have hat : t2.At fs (.node ⟨z, ⟨k, record⟩⟩ .nil .nil) := by
    refine ⟨⟨?_, trivial, trivial⟩, ?_, ptrs_whole.nodup_iff.2 (List.nodup_cons.2 ⟨hout, hn⟩)⟩
    · rw [ht2]
      exact (hang_of_ne fun hup => hout (mem_outer_of_up hup)).trans hz1
    · rw [ht2]
      exact haround.hang hn
  obtain ⟨t3, l, r, hsplay, hat3, horder, hcount⟩ := splay_at hat (h.depth.trans_lt (hs.count ▸ hfuel))
  have hwhole : inorder (.node ⟨z, ⟨k, record⟩⟩ l r) = before fs ++ ⟨z, ⟨k, record⟩⟩ :: after fs := by
    rw [horder, whole, List.append_assoc]
    rfl
  have hcount' : t3.nodeCount = t.nodeCount := by rw [hcount, ht2, ht1]
  refine ⟨{ t3 with nodeCount := t3.nodeCount + 1 }, _, ?_, ⟨hat3, ?_, ?_⟩, hwhole⟩
  · simp only [treeInsert, hloop, Option.bind_eq_bind, Option.bind_some, ← ht1, hattach, hsplay]
  · rw [hwhole]
    have hasc := hs.ascending
    rw [h.order] at hasc
    exact LinkedList.pairwise_insert hasc h.divides.1 h.divides.2
  · show t3.nodeCount + 1 = _
    rw [hwhole, hcount', hs.count, h.order]
    simp only [List.length_append, List.length_cons]
    omega

theorem treeRemove_found (h : Found t s k fs x l r) (hs : IsTree t s) (hfuel : t.nodeCount < fuel) :
    ∃ t' s' bs cs, treeRemove fuel t k = some (t', some x.val.record) ∧ IsTree t' s' ∧ inorder s = bs ++ x :: cs ∧
      inorder s' = bs ++ cs := by
  have hloop : removeLoop t k fuel t.root = some (some x.ptr) := by
    rw [hs.removeLoop_eq hfuel, h.search, top_node]
  obtain ⟨t1, l1, r1, hsplay, hat1, horder1, hcount1⟩ := splay_at h.place (h.depth.trans_lt (hs.count ▸ hfuel))
  rw [← h.order] at horder1
  have hlen : (inorder s).length = (inorder l1).length + (inorder r1).length + 1 := by
    rw [← horder1, inorder_node, List.length_append, List.length_cons]
    omega
  have hlt : (inorder r1).length < fuel := by
    rw [hs.count] at hfuel
    omega
  obtain ⟨t2, s', n, hunlink, hat2, horder2, hn, hval, hcount2⟩ := unlink_at hat1 hlt
  have hnodup : (x.ptr :: (ptrs l1 ++ ptrs r1)).Nodup :=
    (@ptrs_join _ .left x l1 r1).nodup_iff.1 (List.nodup_append.1 hat1.places).1
  have hx : x.ptr ∉ ptrs s' := by
    rw [ptrs, horder2, List.map_append]
    exact (List.nodup_cons.1 hnodup).1
  have hasc := hs.ascending
  rw [← horder1, inorder_node] at hasc
  refine ⟨{ t2 with nodeCount := t2.nodeCount - 1, node := update t2.node x.ptr none }, s', inorder l1, inorder r1, ?_,
    ⟨⟨?_, hat2.around, hat2.nodup⟩, ?_, ?_⟩, horder1.symm, horder2⟩
  · simp only [treeRemove, hloop, hsplay, hunlink, hn, hval, Option.bind_eq_bind, Option.bind_some]
  · exact hat2.links.congr fun b hb => update_of_ne (ne_of_mem_of_not_mem hb hx) _ _
  · rw [horder2]
    exact hasc.sublist ((List.Sublist.refl _).append (List.sublist_cons_self _ _))
  · show t2.nodeCount - 1 = _
    rw [hcount2, hcount1, hs.count, hlen, horder2, List.length_append]
    omega

/-! ## Every call -/

variable (record) in
theorem call_insert (hs : IsTree t s) (hm : Holds m (inorder s)) (hfuel : t.nodeCount < fuel) (hz : t.node z = none) :
    ∃ t', treeInsert fuel t k record z = some (t', (m k).isNone) ∧ Represents t' (Call.apply m (.insert k record z)) := by
  rcases hs.search k with ⟨fs, h⟩ | ⟨fs, c, l, r, h⟩
  · have hnone := h.not_bound hm
    obtain ⟨t', s', hrun, hs', horder⟩ := treeInsert_gap record h hs hfuel hz
    refine ⟨t', ?_, s', hs', ?_⟩
    · rw [hnone]
      exact hrun
    · rw [Call.apply, hnone, horder]
      rw [h.order] at hm
      refine Holds.insert (c := ⟨z, ⟨k, record⟩⟩) hm fun c hc => ?_
      rcases List.mem_append.1 hc with hc | hc
      · exact (h.divides.1 c hc).ne
      · exact (h.divides.2 c hc).ne'
  · have hsome := h.bound hm
    refine ⟨t, ?_, s, hs, ?_⟩
    · rw [hsome, treeInsert, hs.insertLoop_eq hfuel, h.search]
      rfl
    · rw [Call.apply, hsome]
      exact hm

theorem call_remove (hs : IsTree t s) (hm : Holds m (inorder s)) (hfuel : t.nodeCount < fuel) :
    ∃ t', treeRemove fuel t k = some (t', m k) ∧ Represents t' (Call.apply m (.remove k)) := by
  rcases hs.search k with ⟨fs, h⟩ | ⟨fs, c, l, r, h⟩
  · have hnone := h.not_bound hm
    refine ⟨t, ?_, s, hs, ?_⟩
    · rw [hnone, treeRemove, hs.removeLoop_eq hfuel, h.search]
      rfl
    · rw [Call.apply, ← hnone, update_eq_self]
      exact hm
  · obtain ⟨t', s', bs, cs, hrun, hs', horder, horder'⟩ := treeRemove_found h hs hfuel
    refine ⟨t', ?_, s', hs', ?_⟩
    · rw [h.bound hm]
      exact hrun
    · have hasc := hs.ascending
      rw [horder] at hm hasc
      rw [Call.apply, horder', ← h.key]
      exact hm.remove hasc

theorem call_find (hs : IsTree t s) (hm : Holds m (inorder s)) (hfuel : t.nodeCount < fuel) :
    treeFind fuel t k = some (m k) := by
  rw [hs.treeFind_eq hfuel]
  rcases hs.search k with ⟨fs, h⟩ | ⟨fs, c, l, r, h⟩
  · rw [h.search, h.not_bound hm]
    rfl
  · rw [h.search, h.bound hm]
    rfl

/-- The last node before a gap has the greatest key below it. -/
theorem Gap.nearest (h : Gap t s k fs) (hs : IsTree t s) (hm : Holds m (inorder s)) : Nearest m k (nearestAt (fs, .nil)) := by
  have hnone : ∀ j ≤ k, (∀ c ∈ before fs, c.val.key ≠ j) → m j = none := by
    intro j hj hbefore
    apply hm.none
    intro c hc
    rw [h.order] at hc
    rcases List.mem_append.1 hc with hc | hc
    · exact hbefore c hc
    · exact (hj.trans_lt (h.divides.2 c hc)).ne'
  rcases List.eq_nil_or_concat (before fs) with hnil | ⟨cs, c, hcs⟩
  · refine .inl ⟨by simp [nearestAt, hnil], fun j hj => hnone j hj ?_⟩
    simp [hnil]
  · have hc : c ∈ before fs := by simp [hcs]
    have hbound : m c.val.key = some c.val.record := by
      apply hm.some
      rw [h.order]
      exact List.mem_append_left _ hc
    have hrecord : nearestAt (fs, .nil) = some c.val.record := by simp [nearestAt, hcs]
    have hasc := hs.ascending
    rw [h.order, hcs, List.concat_eq_append] at hasc
    have hlast := (List.pairwise_append.1 (List.pairwise_append.1 hasc).1).2.2
    refine .inr ⟨c.val.key, (h.divides.1 c hc).le, by rw [hrecord]; simp, hbound.trans hrecord.symm, fun i hlt hle => ?_⟩
    refine hnone i hle fun c' hc' hi => ?_
    rw [hcs, List.concat_eq_append] at hc'
    rcases List.mem_append.1 hc' with hc' | hc'
    · have hlt' := hlast c' hc' c (List.mem_singleton.2 rfl)
      omega
    · rw [List.mem_singleton.1 hc'] at hi
      omega

theorem call_findNearest (hs : IsTree t s) (hm : Holds m (inorder s)) (hfuel : t.nodeCount < fuel) :
    ∃ r, treeFindNearest fuel t k = some r ∧ Nearest m k r := by
  refine ⟨nearestAt (placeOf k [] s), hs.treeFindNearest_eq hfuel, ?_⟩
  · rcases hs.search k with ⟨fs, h⟩ | ⟨fs, c, l, r, h⟩
    · rw [h.search]
      exact h.nearest hs hm
    · rw [h.search]
      refine .inr ⟨k, le_rfl, Option.some_ne_none _, h.bound hm, fun i hlt hle => ?_⟩
      omega

/-- The tree has no other bindings. -/
theorem Represents.unique {m' : Bindings ρ} (h : Represents t m) (h' : Represents t m') : m = m' := by
  obtain ⟨s, hs, hm⟩ := h
  obtain ⟨s', hs', hm'⟩ := h'
  funext k
  have hfind := call_find (k := k) hs hm (Nat.lt_succ_self _)
  exact Option.some.inj (hfind.symm.trans (call_find hs' hm' (Nat.lt_succ_self _)))

/-- A call returns, returns what the map says, and changes the bindings as it
says. -/
theorem call_at {c : Call ρ} (h : Represents t m) (hr : Ready t (fuel, c)) :
    ∃ t' a, call fuel t c = some (t', a) ∧ c.Returns m a ∧ Represents t' (c.apply m) := by
  obtain ⟨s, hs, hm⟩ := h
  obtain ⟨hfuel, hfresh⟩ := hr
  cases c with
  | insert key record z =>
    obtain ⟨t', hrun, hrep⟩ := call_insert (k := key) record hs hm hfuel hfresh
    exact ⟨t', _, by rw [call, hrun]; rfl, rfl, hrep⟩
  | remove key =>
    obtain ⟨t', hrun, hrep⟩ := call_remove (k := key) hs hm hfuel
    exact ⟨t', _, by rw [call, hrun]; rfl, rfl, hrep⟩
  | find key => exact ⟨t, _, by rw [call, call_find hs hm hfuel]; rfl, rfl, s, hs, hm⟩
  | findNearest key =>
    obtain ⟨r, hrun, hnear⟩ := call_findNearest (k := key) hs hm hfuel
    exact ⟨t, _, by rw [call, hrun]; rfl, ⟨r, rfl, hnear⟩, s, hs, hm⟩

/-! ## Every sequence of calls -/

/-- A call as a step. -/
def step (t : Tree ρ) (l : Nat × Call ρ) : Option (Tree ρ) := (call l.1 t l.2).map Prod.fst

/-- The bindings after calls. -/
def bindings (labels : List (Nat × Call ρ)) : Bindings ρ := labels.foldl (fun m l => l.2.apply m) fun _ => none

instance (t : Tree ρ) : (c : Call ρ) → Decidable (c.Fresh t)
  | .insert _ _ z => inferInstanceAs (Decidable (t.node z = none))
  | .remove _ | .find _ | .findNearest _ => inferInstanceAs (Decidable True)

instance (t : Tree ρ) (l : Nat × Call ρ) : Decidable (Ready t l) := inferInstanceAs (Decidable (_ ∧ _))

/-- The tree is the map, and so is every call that can be made next. -/
structure IsMap (t : Tree ρ) (m : Bindings ρ) : Prop where
  represents : Represents t m
  calls : ∀ fuel c, Ready t (fuel, c) → ∃ t' a, call fuel t c = some (t', a) ∧ c.Returns m a ∧ Represents t' (c.apply m)

theorem represents_new : Represents (treeNew : Tree ρ) fun _ => none := by
  refine ⟨.nil, ⟨⟨trivial, rfl, List.nodup_nil⟩, List.Pairwise.nil, rfl⟩, fun k record => ?_⟩
  constructor
  · intro h
    cases h
  · rintro ⟨c, hc, -⟩
    cases hc

theorem represents_exec {labels : List (Nat × Call ρ)} : ∀ {t u : Tree ρ} {m : Bindings ρ}, Represents t m →
    exec (guarded step Ready) t labels = some u → Represents u (labels.foldl (fun m l => l.2.apply m) m) := by
  induction labels with
  | nil =>
    intro t u m h he
    cases he
    exact h
  | cons l labels ih =>
    intro t u m h he
    obtain ⟨v, hv, he⟩ := Option.bind_eq_some_iff.1 he
    obtain ⟨hr, hstep⟩ := Option.ite_none_right_eq_some.1 hv
    obtain ⟨t', a, hcall, -, hrep⟩ := call_at h hr
    rw [step, hcall] at hstep
    cases hstep
    exact ih hrep he

/-- After every sequence of calls the tree is an ordered map. -/
theorem ordered_map {labels : List (Nat × Call ρ)} (h : exec (guarded step Ready) treeNew labels = some t) :
    IsMap t (bindings labels) :=
  have hrep := represents_exec represents_new h
  ⟨hrep, fun _ _ hr => call_at hrep hr⟩

/-- Calls with rotations of both kinds and a deletion inside the tree. -/
def someCalls : List (Nat × Call Nat) :=
  [(9, .insert 5 50 100), (9, .insert 3 30 101), (9, .insert 8 80 102), (9, .insert 4 40 103), (9, .insert 6 60 104),
    (9, .remove 5), (9, .findNearest 7), (9, .insert 4 41 105)]

/-- `ordered_map` after these calls. -/
theorem ordered_map_some : ∃ t, exec (guarded step Ready) treeNew someCalls = some t ∧ t.nodeCount = 4 ∧
    IsMap t (bindings someCalls) := by
  have hrun : (exec (guarded step Ready) treeNew someCalls).any (·.nodeCount = 4) = true := by decide +kernel
  obtain ⟨t, ht, hcount⟩ := (Option.any_eq_true _ _).1 hrun
  exact ⟨t, ht, of_decide_eq_true hcount, ordered_map ht⟩

end Cmpsc473.Stree
