import Cmpsc473.Lib.SearchTree
/-!
# Binary trees linked in memory

Nodes with pointers to their children and to their parent. `Links` says that the
nodes in memory are those of a tree. A place in the tree is the list of the
frames above it, innermost first (`At`); a part of the tree is changed by giving
its parent, or the root, another child (`hang`).
-/

namespace Cmpsc473.LinkedTree

open SearchTree Function

variable {α : Type}

/-- A node. A pointer is `none` where it is `NULL`. -/
structure Node (α : Type) where
  left : Option Nat
  right : Option Nat
  parent : Option Nat
  val : α
  deriving DecidableEq

/-- A side of a node. -/
inductive Side where
  | left
  | right
  deriving DecidableEq

def Side.other : Side → Side
  | .left => .right
  | .right => .left

/-- The child on a side. -/
def Node.child (n : Node α) : Side → Option Nat
  | .left => n.left
  | .right => n.right

/-- The node with another child on a side. -/
def Node.setChild (n : Node α) (d : Side) (v : Option Nat) : Node α :=
  match d with
  | .left => { n with left := v }
  | .right => { n with right := v }

/-- The node with another parent. -/
def Node.setParent (n : Node α) (p : Option Nat) : Node α := { n with parent := p }

/-- The node with the child `v` on the side `d` and `w` on the other. -/
def Node.make (d : Side) (v w parent : Option Nat) (a : α) : Node α :=
  match d with
  | .left => { left := v, right := w, parent := parent, val := a }
  | .right => { left := w, right := v, parent := parent, val := a }

variable {d : Side} {v w u p : Option Nat} {a : α}

@[simp] theorem child_make : (Node.make d v w p a).child d = v := by cases d <;> rfl

@[simp] theorem child_other_make : (Node.make d v w p a).child d.other = w := by cases d <;> rfl

@[simp] theorem parent_make : (Node.make d v w p a).parent = p := by cases d <;> rfl

@[simp] theorem val_make : (Node.make d v w p a).val = a := by cases d <;> rfl

@[simp] theorem setChild_make : (Node.make d v w p a).setChild d u = Node.make d u w p a := by cases d <;> rfl

@[simp] theorem setChild_other_make : (Node.make d v w p a).setChild d.other u = Node.make d v u p a := by cases d <;> rfl

@[simp] theorem setParent_make : (Node.make d v w p a).setParent u = Node.make d v w u a := by cases d <;> rfl

/-- What an address holds. -/
abbrev Mem (α : Type) := Nat → Option (Node α)

/-- A node of a tree: where it is, and what it holds. -/
structure Cell (α : Type) where
  ptr : Nat
  val : α
  deriving DecidableEq

/-- The pointer to the root. -/
def top : BinaryTree (Cell α) → Option Nat
  | .nil => none
  | .node c _ _ => some c.ptr

/-- The tree with `l` on the side `d` of `c` and `r` on the other. -/
def join (d : Side) (c : Cell α) (l r : BinaryTree (Cell α)) : BinaryTree (Cell α) :=
  match d with
  | .left => .node c l r
  | .right => .node c r l

/-- Where the nodes are. -/
def ptrs (s : BinaryTree (Cell α)) : List Nat := (inorder s).map Cell.ptr

/-- The nodes of the tree are in memory, below `parent`. -/
def Links (mem : Mem α) : Option Nat → BinaryTree (Cell α) → Prop
  | _, .nil => True
  | parent, .node c l r =>
    mem c.ptr = some { left := top l, right := top r, parent := parent, val := c.val } ∧
      Links mem (some c.ptr) l ∧ Links mem (some c.ptr) r

variable {mem mem' : Mem α} {root : Option Nat} {c x y : Cell α} {l r s A B C : BinaryTree (Cell α)}

@[simp] theorem top_nil : top (.nil : BinaryTree (Cell α)) = none := rfl

@[simp] theorem top_node : top (.node c l r) = some c.ptr := rfl

@[simp] theorem top_join : top (join d c l r) = some c.ptr := by cases d <;> rfl

theorem join_other : join d.other c l r = join d c r l := by cases d <;> rfl

theorem links_join : Links mem p (join d c l r) ↔
    mem c.ptr = some (.make d (top l) (top r) p c.val) ∧ Links mem (some c.ptr) l ∧ Links mem (some c.ptr) r := by
  cases d with
  | left => exact Iff.rfl
  | right => exact and_congr_right fun _ => and_comm

theorem ptrs_join : (ptrs (join d c l r)).Perm (c.ptr :: (ptrs l ++ ptrs r)) := by
  cases d with
  | left => simp [ptrs, join]
  | right =>
    have h : (ptrs (join .right c l r)).Perm (c.ptr :: (ptrs r ++ ptrs l)) := by
      simp [ptrs, join]
    exact h.trans (List.perm_append_comm.cons _)

/-- The two ways to join three trees list the same nodes. -/
theorem inorder_rotate : inorder (join d y (join d x A B) C) = inorder (join d x A (join d y B C)) := by
  cases d <;> simp [join]

/-- The tree is where it was if its nodes are unchanged. -/
theorem Links.congr (h : Links mem p s) (hs : ∀ a ∈ ptrs s, mem' a = mem a) : Links mem' p s := by
  induction s generalizing p with
  | nil => trivial
  | node c l r ihl ihr =>
    simp only [ptrs, inorder_node, List.map_append, List.map_cons, List.mem_append, List.mem_cons] at hs
    obtain ⟨hc, hl, hr⟩ := h
    refine ⟨(hs _ (.inr (.inl rfl))).trans hc, ihl hl fun a ha => ?_, ihr hr fun a ha => ?_⟩
    · exact hs a (.inl ha)
    · exact hs a (.inr (.inr ha))

/-- A node of the tree is in memory. -/
theorem Links.holds (h : Links mem p s) (hc : c ∈ inorder s) : ∃ n, mem c.ptr = some n ∧ n.val = c.val := by
  induction s generalizing p with
  | nil => cases hc
  | node c' l r ihl ihr =>
    obtain ⟨hc', hl, hr⟩ := h
    rw [inorder_node, List.mem_append, List.mem_cons] at hc
    rcases hc with hc | rfl | hc
    · exact ihl hl hc
    · exact ⟨_, hc', rfl⟩
    · exact ihr hr hc

/-! ## Places -/

/-- A node above the place, the side of the place, and the tree on its other side. -/
structure Frame (α : Type) where
  side : Side
  cell : Cell α
  sibling : BinaryTree (Cell α)

/-- The tree one frame up. -/
def Frame.plug (f : Frame α) (s : BinaryTree (Cell α)) : BinaryTree (Cell α) := join f.side f.cell s f.sibling

/-- The node above the place. -/
def up : List (Frame α) → Option Nat
  | [] => none
  | f :: _ => some f.cell.ptr

/-- The nodes before the place, in order. -/
def before : List (Frame α) → List (Cell α)
  | [] => []
  | ⟨.left, _, _⟩ :: fs => before fs
  | ⟨.right, c, s⟩ :: fs => before fs ++ (inorder s ++ [c])

/-- The nodes after the place, in order. -/
def after : List (Frame α) → List (Cell α)
  | [] => []
  | ⟨.left, c, s⟩ :: fs => c :: inorder s ++ after fs
  | ⟨.right, _, _⟩ :: fs => after fs

/-- All nodes, in order. -/
def whole (fs : List (Frame α)) (s : BinaryTree (Cell α)) : List (Cell α) := before fs ++ inorder s ++ after fs

/-- Where the nodes around the place are. -/
def outer (fs : List (Frame α)) : List Nat := (before fs ++ after fs).map Cell.ptr

/-- The nodes around the place are in memory, with the pointer `v` in its place. -/
def Around (mem : Mem α) (root : Option Nat) : Option Nat → List (Frame α) → Prop
  | v, [] => root = v
  | v, f :: fs =>
    mem f.cell.ptr = some (.make f.side v (top f.sibling) (up fs) f.cell.val) ∧
      Links mem (some f.cell.ptr) f.sibling ∧ Around mem root (some f.cell.ptr) fs

/-- The tree `s` is in its place in memory. -/
structure At (mem : Mem α) (root : Option Nat) (fs : List (Frame α)) (s : BinaryTree (Cell α)) : Prop where
  links : Links mem (up fs) s
  around : Around mem root (top s) fs
  nodup : ((whole fs s).map Cell.ptr).Nodup

variable {f : Frame α} {fs : List (Frame α)}

@[simp] theorem outer_nil : outer ([] : List (Frame α)) = [] := rfl

@[simp] theorem up_nil : up ([] : List (Frame α)) = none := rfl

@[simp] theorem up_cons : up (f :: fs) = some f.cell.ptr := rfl

theorem whole_plug : whole fs (f.plug s) = whole (f :: fs) s := by
  obtain ⟨d, c, sib⟩ := f
  cases d <;> simp [whole, Frame.plug, join, before, after]

@[simp] theorem whole_nil : whole [] s = inorder s := by simp [whole, before, after]

/-- A tree in its place, one frame up. -/
theorem at_plug : At mem root fs (f.plug s) ↔ At mem root (f :: fs) s := by
  constructor
  · rintro ⟨h1, h2, h3⟩
    obtain ⟨hc, hs, hsib⟩ := links_join.1 h1
    rw [Frame.plug, top_join] at h2
    exact ⟨hs, ⟨hc, hsib, h2⟩, whole_plug ▸ h3⟩
  · rintro ⟨h1, ⟨hc, hsib, h2⟩, h3⟩
    refine ⟨links_join.2 ⟨hc, h1, hsib⟩, ?_, whole_plug ▸ h3⟩
    rw [Frame.plug, top_join]
    exact h2

theorem ptrs_whole : ((whole fs s).map Cell.ptr).Perm (ptrs s ++ outer fs) := by
  simp only [whole, outer, ptrs, List.map_append]
  rw [← List.append_assoc]
  exact List.perm_append_comm.append_right _

theorem outer_cons : (outer (f :: fs)).Perm (f.cell.ptr :: (ptrs f.sibling ++ outer fs)) := by
  have hnil : outer (f :: fs) = (whole (f :: fs) .nil).map Cell.ptr := by simp [outer, whole]
  have hjoin : (ptrs (f.plug .nil)).Perm (f.cell.ptr :: (ptrs .nil ++ ptrs f.sibling)) := ptrs_join
  rw [hnil, ← whole_plug]
  exact ptrs_whole.trans (hjoin.append_right (outer fs))

theorem mem_ptrs_of_top {b : Nat} (h : top s = some b) : b ∈ ptrs s := by
  cases s with
  | nil => cases h
  | node c l r =>
    rw [← Option.some.inj h]
    exact List.mem_map_of_mem (List.mem_append_right _ List.mem_cons_self)

theorem mem_outer_of_up {b : Nat} (h : up fs = some b) : b ∈ outer fs := by
  cases fs with
  | nil => cases h
  | cons f fs =>
    rw [← Option.some.inj h]
    exact outer_cons.mem_iff.2 List.mem_cons_self

/-- The nodes of the tree and those around it are different. -/
theorem At.places (h : At mem root fs s) : (ptrs s ++ outer fs).Nodup := ptrs_whole.nodup_iff.1 h.nodup

/-- The place is where it was if the nodes around it are unchanged. -/
theorem Around.congr (h : Around mem root v fs) (hs : ∀ b ∈ outer fs, mem' b = mem b) : Around mem' root v fs := by
  induction fs generalizing v with
  | nil => exact h
  | cons f fs ih =>
    obtain ⟨hc, hl, hfs⟩ := h
    have hmem : ∀ b, b = f.cell.ptr ∨ b ∈ ptrs f.sibling ∨ b ∈ outer fs → mem' b = mem b := by
      intro b hb
      apply hs
      rw [outer_cons.mem_iff, List.mem_cons, List.mem_append]
      exact hb
    refine ⟨(hmem _ (.inl rfl)).trans hc, hl.congr fun b hb => ?_, ih hfs fun b hb => ?_⟩
    · exact hmem b (.inr (.inl hb))
    · exact hmem b (.inr (.inr hb))

/-! ## Changes -/

/-- The root gets another parent. -/
def adopt (mem : Mem α) (p : Option Nat) : BinaryTree (Cell α) → Mem α
  | .nil => mem
  | .node c l r => update mem c.ptr (some { left := top l, right := top r, parent := p, val := c.val })

theorem adopt_of_ne {b : Nat} (h : top s ≠ some b) : adopt mem p s b = mem b := by
  cases s with
  | nil => rfl
  | node c l r => exact update_of_ne (fun hb => h (congrArg some hb.symm)) _ _

theorem adopt_congr {b : Nat} (h : mem' b = mem b) : adopt mem' p s b = adopt mem p s b := by
  cases s with
  | nil => exact h
  | node c l r =>
    simp only [adopt]
    by_cases hb : b = c.ptr
    · rw [hb, update_self, update_self]
    · rw [update_of_ne hb, update_of_ne hb, h]

theorem Links.adopt {q : Option Nat} (h : Links mem q s) (hn : (ptrs s).Nodup) : Links (adopt mem p s) p s := by
  cases s with
  | nil => trivial
  | node c l r =>
    obtain ⟨-, hl, hr⟩ := h
    have hne : ∀ b ∈ ptrs l ++ ptrs r, b ≠ c.ptr := by
      have hc := (List.nodup_cons.1 ((@ptrs_join _ .left c l r).nodup_iff.1 hn)).1
      intro b hb heq
      exact hc (heq ▸ hb)
    refine ⟨update_self _ _ _, hl.congr fun b hb => ?_, hr.congr fun b hb => ?_⟩
    · exact update_of_ne (hne b (List.mem_append_left _ hb)) _ _
    · exact update_of_ne (hne b (List.mem_append_right _ hb)) _ _

/-- The memory with the pointer `v` in the place. -/
def hang (mem : Mem α) (v : Option Nat) : List (Frame α) → Mem α
  | [] => mem
  | f :: fs => update mem f.cell.ptr (some (.make f.side v (top f.sibling) (up fs) f.cell.val))

/-- The root with the pointer `v` in the place. -/
def hangRoot (root v : Option Nat) : List (Frame α) → Option Nat
  | [] => v
  | _ :: _ => root

theorem hang_of_ne {b : Nat} (h : up fs ≠ some b) : hang mem v fs b = mem b := by
  cases fs with
  | nil => rfl
  | cons f fs => exact update_of_ne (fun hb => h (congrArg some hb.symm)) _ _

theorem hang_congr {b : Nat} (h : mem' b = mem b) : hang mem' v fs b = hang mem v fs b := by
  cases fs with
  | nil => exact h
  | cons f fs =>
    simp only [hang]
    by_cases hb : b = f.cell.ptr
    · rw [hb, update_self, update_self]
    · rw [update_of_ne hb, update_of_ne hb, h]

theorem Around.hang (h : Around mem root u fs) (hn : (outer fs).Nodup) : Around (hang mem v fs) (hangRoot root v fs) v fs := by
  cases fs with
  | nil => rfl
  | cons f fs =>
    obtain ⟨-, hl, hfs⟩ := h
    have hne : ∀ b ∈ ptrs f.sibling ++ outer fs, b ≠ f.cell.ptr := by
      have hc := (List.nodup_cons.1 (outer_cons.nodup_iff.1 hn)).1
      intro b hb heq
      exact hc (heq ▸ hb)
    refine ⟨update_self _ _ _, hl.congr fun b hb => ?_, hfs.congr fun b hb => ?_⟩
    · exact update_of_ne (hne b (List.mem_append_left _ hb)) _ _
    · exact update_of_ne (hne b (List.mem_append_right _ hb)) _ _

/-- Where the nodes of two nodes and their three trees are. -/
theorem At.places_join (h : At mem root fs (join d x A (join d y B C))) :
    (x.ptr :: (ptrs A ++ (y.ptr :: (ptrs B ++ ptrs C))) ++ outer fs).Nodup :=
  ((ptrs_join.trans ((ptrs_join.append_left _).cons _)).append_right _).nodup_iff.1 h.places

/-- A node goes to the side `d`, below its child on the other. -/
theorem At.rotate (h : At mem root fs (join d x A (join d y B C)))
    (hx : mem' x.ptr = some (.make d (top A) (top B) (some y.ptr) x.val))
    (hy : mem' y.ptr = some (.make d (some x.ptr) (top C) (up fs) y.val))
    (hA : ∀ b ∈ ptrs A, mem' b = mem b) (hB : ∀ b ∈ ptrs B, mem' b = adopt mem (some x.ptr) B b)
    (hC : ∀ b ∈ ptrs C, mem' b = mem b) (hfs : ∀ b ∈ outer fs, mem' b = LinkedTree.hang mem (some y.ptr) fs b) :
    At mem' (hangRoot root (some y.ptr) fs) fs (join d y (join d x A B) C) := by
  obtain ⟨-, hlA, hlyBC⟩ := links_join.1 h.links
  obtain ⟨-, hlB, hlC⟩ := links_join.1 hlyBC
  have hn : (outer fs).Nodup := (List.nodup_append.1 h.places).2.1
  have hnB : (ptrs B).Nodup := by
    have h1 := (List.nodup_cons.1 (List.nodup_append.1 h.places_join).1).2
    have h2 := (List.nodup_cons.1 (List.nodup_append.1 h1).2.1).2
    exact (List.nodup_append.1 h2).1
  refine ⟨links_join.2 ⟨?_, links_join.2 ⟨hx, hlA.congr hA, (hlB.adopt hnB).congr hB⟩, hlC.congr hC⟩, ?_, ?_⟩
  · rw [top_join]
    exact hy
  · rw [top_join]
    exact (h.around.hang hn).congr hfs
  · have hnodup := h.nodup
    rwa [whole, ← inorder_rotate] at hnodup

/-! ## Several frames up -/

/-- The tree all frames up. -/
def plugAll (fs : List (Frame α)) (s : BinaryTree (Cell α)) : BinaryTree (Cell α) := fs.foldl (fun s f => f.plug s) s

variable {gs : List (Frame α)}

theorem plugAll_append : plugAll (gs ++ fs) s = plugAll fs (plugAll gs s) := List.foldl_append

theorem before_append : before (gs ++ fs) = before fs ++ before gs := by
  induction gs with
  | nil => exact (List.append_nil _).symm
  | cons g gs ih =>
    obtain ⟨d, c, sib⟩ := g
    cases d with
    | left => exact ih
    | right => simp [before, ih]

theorem at_plugAll : At mem root fs (plugAll gs s) ↔ At mem root (gs ++ fs) s := by
  induction gs generalizing s with
  | nil => exact Iff.rfl
  | cons g gs ih => exact ih.trans at_plug

theorem whole_plugAll : whole fs (plugAll gs s) = whole (gs ++ fs) s := by
  induction gs generalizing s with
  | nil => rfl
  | cons g gs ih => exact ih.trans whole_plug

theorem inorder_plugAll : inorder (plugAll gs s) = whole gs s := by
  have h := @whole_plugAll _ s [] gs
  rwa [whole_nil, List.append_nil] at h

theorem ptrs_plugAll : (ptrs (plugAll gs s)).Perm (ptrs s ++ outer gs) := by
  rw [ptrs, inorder_plugAll]
  exact ptrs_whole

theorem outer_append : (outer (gs ++ fs)).Perm (outer gs ++ outer fs) := by
  have h1 : (ptrs (plugAll (gs ++ fs) (.nil : BinaryTree (Cell α)))).Perm (outer (gs ++ fs)) := ptrs_plugAll
  have h2 : (ptrs (plugAll gs (.nil : BinaryTree (Cell α)))).Perm (outer gs) := ptrs_plugAll
  rw [plugAll_append] at h1
  exact h1.symm.trans (ptrs_plugAll.trans (h2.append_right _))

theorem plugAll_node (hne : gs ≠ []) : ∃ c l r, plugAll gs s = .node c l r := by
  induction gs generalizing s with
  | nil => exact absurd rfl hne
  | cons g gs ih =>
    by_cases hgs : gs = []
    · subst hgs
      obtain ⟨d, c, sib⟩ := g
      cases d with
      | left => exact ⟨c, s, sib, rfl⟩
      | right => exact ⟨c, sib, s, rfl⟩
    · exact ih hgs

/-- A node around the place is in memory. -/
theorem Around.holds (h : Around mem root v fs) (hc : c ∈ before fs ++ after fs) :
    ∃ n, mem c.ptr = some n ∧ n.val = c.val := by
  induction fs generalizing v with
  | nil => cases hc
  | cons f fs ih =>
    obtain ⟨d, c', sib⟩ := f
    obtain ⟨hc', hl, hfs⟩ := h
    have hcases : c = c' ∨ c ∈ inorder sib ∨ c ∈ before fs ++ after fs := by
      cases d <;> simp only [before, after, List.mem_append, List.mem_cons, List.not_mem_nil, or_false] at hc ⊢ <;> tauto
    rcases hcases with rfl | hc | hc
    · exact ⟨_, hc', val_make⟩
    · exact hl.holds hc
    · exact ih hfs hc

/-! ## Search -/

section Search

variable {κ : Type} [LinearOrder κ] (key : α → κ) (k : κ)

/-- Where a search for `k` ends: at a node with that key, or at a place for one. -/
def seek : List (Frame α) → BinaryTree (Cell α) → List (Frame α) × BinaryTree (Cell α)
  | fs, .nil => (fs, .nil)
  | fs, .node c l r =>
    if k = key c.val then (fs, .node c l r)
    else if k > key c.val then seek (⟨.right, c, l⟩ :: fs) r
    else seek (⟨.left, c, r⟩ :: fs) l

variable {key k}

theorem whole_seek : whole (seek key k fs s).1 (seek key k fs s).2 = whole fs s := by
  induction s generalizing fs with
  | nil => rfl
  | node c l r ihl ihr =>
    rw [seek]
    split
    · rfl
    · split
      · exact ihr.trans whole_plug.symm
      · exact ihl.trans whole_plug.symm

theorem at_seek (h : At mem root fs s) : At mem root (seek key k fs s).1 (seek key k fs s).2 := by
  induction s generalizing fs with
  | nil => exact h
  | node c l r ihl ihr =>
    rw [seek]
    split
    · exact h
    · split
      · exact ihr (at_plug.1 h)
      · exact ihl (at_plug.1 h)

/-- The search goes down no further than there are nodes. -/
theorem length_seek : (seek key k fs s).1.length ≤ fs.length + (inorder s).length := by
  induction s generalizing fs with
  | nil => exact Nat.le_add_right _ _
  | node c l r ihl ihr =>
    rw [seek, inorder_node, List.length_append, List.length_cons]
    split
    · exact Nat.le_add_right _ _
    · split
      · have h := @ihr (⟨.right, c, l⟩ :: fs)
        rw [List.length_cons] at h
        omega
      · have h := @ihl (⟨.left, c, r⟩ :: fs)
        rw [List.length_cons] at h
        omega

/-- The keys ascend. -/
def Ascending (key : α → κ) (cs : List (Cell α)) : Prop := cs.Pairwise fun c c' => key c.val < key c'.val

/-- The place divides the nodes around it at `k`. -/
def Divides (key : α → κ) (k : κ) (fs : List (Frame α)) : Prop :=
  (∀ c ∈ before fs, key c.val < k) ∧ ∀ c ∈ after fs, k < key c.val

theorem divides_nil : Divides key k ([] : List (Frame α)) := by
  constructor
  · intro c hc
    cases hc
  · intro c hc
    cases hc

theorem Ascending.subtree (h : Ascending key (whole fs s)) : Ascending key (inorder s) :=
  (List.pairwise_append.1 (List.pairwise_append.1 h).1).2.1

/-- A node where a search ends has the key. -/
theorem key_seek {fs' : List (Frame α)} (h : seek key k fs s = (fs', .node c l r)) : key c.val = k := by
  induction s generalizing fs with
  | nil => cases h
  | node c' l' r' ihl ihr =>
    rw [seek] at h
    split at h
    · cases h
      exact Eq.symm ‹_›
    · split at h
      · exact ihr h
      · exact ihl h

/-- A search ends at a place that divides the nodes at `k`. -/
theorem divides_seek (h : Ascending key (whole fs s)) (hd : Divides key k fs) : Divides key k (seek key k fs s).1 := by
  induction s generalizing fs with
  | nil => exact hd
  | node c l r ihl ihr =>
    obtain ⟨hl, hr, hlr⟩ := List.pairwise_append.1 h.subtree
    obtain ⟨hcr, -⟩ := List.pairwise_cons.1 hr
    rw [seek]
    split
    · exact hd
    · rename_i hne
      split
      · rename_i hgt
        refine ihr (whole_plug ▸ h) ⟨fun x hx => ?_, hd.2⟩
        rcases List.mem_append.1 hx with hx | hx
        · exact hd.1 x hx
        rcases List.mem_append.1 hx with hx | hx
        · exact (hlr x hx c List.mem_cons_self).trans hgt
        · rw [List.mem_singleton.1 hx]
          exact hgt
      · rename_i hle
        have hlt : k < key c.val := lt_of_le_of_ne (not_lt.1 hle) hne
        refine ihl (whole_plug ▸ h) ⟨hd.1, fun x hx => ?_⟩
        rcases List.mem_cons.1 hx with rfl | hx
        · exact hlt
        rcases List.mem_append.1 hx with hx | hx
        · exact hlt.trans (hcr x hx)
        · exact hd.2 x hx

end Search

end Cmpsc473.LinkedTree
