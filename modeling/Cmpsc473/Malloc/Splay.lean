import Cmpsc473.Malloc.Stree
/-!
# Rotations and splaying

Each function on nodes is a change of a tree in its place. A rotation keeps the
order of the nodes (`rotate_at`), so a splay brings a node to the root and
changes nothing else (`splay_at`); `replace` puts another tree in the place
(`replace_at`).
-/

namespace Cmpsc473.Stree

open LinkedTree SearchTree Function

variable {ρ : Type} {t : Tree ρ} {fs : List (Frame (Entry ρ))} {d : Side} {x y : Cell (Entry ρ)}
  {A B C l r s : BinaryTree (Cell (Entry ρ))} {u v p : Option Nat} {a fuel : Nat} {n : Node (Entry ρ)} {f g : Frame (Entry ρ)}

/-- The tree `s` is in its place. -/
abbrev Tree.At (t : Tree ρ) (fs : List (Frame (Entry ρ))) (s : BinaryTree (Cell (Entry ρ))) : Prop :=
  LinkedTree.At t.node t.root fs s

/-! ## Assignments -/

theorem modify_eq {f : Node (Entry ρ) → Node (Entry ρ)} (h : t.node a = some n) :
    t.modify a f = some { t with node := update t.node a (some (f n)) } := by
  rw [Tree.modify, h]
  rfl

/-- `relink` hangs another child in the place of `a`. -/
theorem relink_eq (h : Around t.node t.root (some a) fs) (ha : a ∉ outer fs) (hn : t.node a = some n)
    (hp : n.parent = up fs) : relink t a v = some { t with root := hangRoot t.root v fs, node := hang t.node v fs } := by
  cases fs with
  | nil =>
    simp only [relink, hn, Option.bind_eq_bind, Option.bind_some, hp, up]
    rfl
  | cons f fs =>
    obtain ⟨d, c, sib⟩ := f
    obtain ⟨hc, -, -⟩ := h
    simp only [relink, hn, Option.bind_eq_bind, Option.bind_some, hp, up, hc, modify_eq hc]
    cases d with
    | left => exact if_pos rfl
    | right =>
      -- `a` is not the root of the tree on the other side
      have hsib : top sib ≠ some a := by
        intro htop
        apply ha
        rw [outer_cons.mem_iff]
        exact List.mem_cons_of_mem _ (List.mem_append_left _ (mem_ptrs_of_top htop))
      exact if_neg hsib

/-- `reparent` gives the root of a tree another parent. -/
theorem reparent_eq (h : Links t.node u s) : reparent t (top s) p = some { t with node := adopt t.node p s } := by
  cases s with
  | nil => rfl
  | node c l r => exact modify_eq h.1

/-! ## Rotations -/

theorem rotate_at (h : t.At fs (join d x A (join d y B C))) :
    ∃ t', rotate d t x.ptr = some t' ∧ t'.At fs (join d y (join d x A B) C) ∧ t'.nodeCount = t.nodeCount := by
  obtain ⟨hx, hlA, hlyBC⟩ := links_join.1 h.links
  obtain ⟨hy, hlB, hlC⟩ := links_join.1 hlyBC
  rw [top_join] at hx
  have hnodup := h.places_join
  have hxy : x.ptr ≠ y.ptr := by grind
  have hA : ∀ b ∈ ptrs A, b ≠ x.ptr ∧ b ≠ y.ptr ∧ b ∉ ptrs B ∧ b ∉ outer fs := by grind
  have hB : ∀ b ∈ ptrs B, b ≠ x.ptr ∧ b ≠ y.ptr ∧ b ∉ outer fs := by grind
  have hC : ∀ b ∈ ptrs C, b ≠ x.ptr ∧ b ≠ y.ptr ∧ b ∉ ptrs B ∧ b ∉ outer fs := by grind
  have hfs : ∀ b ∈ outer fs, b ≠ x.ptr ∧ b ≠ y.ptr ∧ b ∉ ptrs B := by grind
  -- the states after each assignment
  obtain ⟨t1, ht1⟩ : ∃ t1 : Tree ρ, t1 = { t with
      node := update t.node x.ptr (some (.make d (top A) (top B) (up fs) x.val)) } := ⟨_, rfl⟩
  obtain ⟨t2, ht2⟩ : ∃ t2 : Tree ρ, t2 = { t1 with node := adopt t1.node (some x.ptr) B } := ⟨_, rfl⟩
  obtain ⟨t3, ht3⟩ : ∃ t3 : Tree ρ, t3 = { t2 with
      node := update t2.node y.ptr (some (.make d (top B) (top C) (up fs) y.val)) } := ⟨_, rfl⟩
  obtain ⟨t4, ht4⟩ : ∃ t4 : Tree ρ, t4 = { t3 with
      root := hangRoot t3.root (some y.ptr) fs, node := hang t3.node (some y.ptr) fs } := ⟨_, rfl⟩
  obtain ⟨t5, ht5⟩ : ∃ t5 : Tree ρ, t5 = { t4 with
      node := update t4.node y.ptr (some (.make d (some x.ptr) (top C) (up fs) y.val)) } := ⟨_, rfl⟩
  have hx1 : t1.node x.ptr = some (.make d (top A) (top B) (up fs) x.val) := by rw [ht1]; exact update_self _ _ _
  have h1 : ∀ b, b ≠ x.ptr → t1.node b = t.node b := by rw [ht1]; exact fun b hb => update_of_ne hb _ _
  have h2 : ∀ b, b ∉ ptrs B → t2.node b = t1.node b := by
    rw [ht2]
    exact fun b hb => adopt_of_ne fun htop => hb (mem_ptrs_of_top htop)
  have h3 : ∀ b, b ≠ y.ptr → t3.node b = t2.node b := by rw [ht3]; exact fun b hb => update_of_ne hb _ _
  have h4 : ∀ b, b ∉ outer fs → t4.node b = t3.node b := by
    rw [ht4]
    exact fun b hb => hang_of_ne fun hup => hb (mem_outer_of_up hup)
  have h5 : ∀ b, b ≠ y.ptr → t5.node b = t4.node b := by rw [ht5]; exact fun b hb => update_of_ne hb _ _
  have hxB : x.ptr ∉ ptrs B := fun hb => (hB _ hb).1 rfl
  have hyB : y.ptr ∉ ptrs B := fun hb => (hB _ hb).2.1 rfl
  have hxfs : x.ptr ∉ outer fs := fun hb => (hfs _ hb).1 rfl
  have hyfs : y.ptr ∉ outer fs := fun hb => (hfs _ hb).2.1 rfl
  have hy1 : t1.node y.ptr = some (.make d (top B) (top C) (some x.ptr) y.val) := (h1 _ hxy.symm).trans hy
  have hx2 : t2.node x.ptr = some (.make d (top A) (top B) (up fs) x.val) := (h2 _ hxB).trans hx1
  have hy2 : t2.node y.ptr = some (.make d (top B) (top C) (some x.ptr) y.val) := (h2 _ hyB).trans hy1
  have hx3 : t3.node x.ptr = some (.make d (top A) (top B) (up fs) x.val) := (h3 _ hxy).trans hx2
  have hy3 : t3.node y.ptr = some (.make d (top B) (top C) (up fs) y.val) := by rw [ht3]; exact update_self _ _ _
  have hy4 : t4.node y.ptr = some (.make d (top B) (top C) (up fs) y.val) := (h4 _ hyfs).trans hy3
  have hx5 : t5.node x.ptr = some (.make d (top A) (top B) (up fs) x.val) :=
    (h5 _ hxy).trans ((h4 _ hxfs).trans hx3)
  have hy5 : t5.node y.ptr = some (.make d (some x.ptr) (top C) (up fs) y.val) := by rw [ht5]; exact update_self _ _ _
  have hadopt : reparent t1 (top B) (some x.ptr) = some t2 := by
    rw [ht2]
    exact reparent_eq (hlB.congr fun b hb => h1 b (hB b hb).1)
  have hrelink : relink t3 x.ptr (some y.ptr) = some t4 := by
    have haround : Around t3.node t3.root (some x.ptr) fs := by
      have hnode : ∀ b ∈ outer fs, t3.node b = t.node b := by
        intro b hb
        rw [h3 b (hfs b hb).2.1, h2 b (hfs b hb).2.2, h1 b (hfs b hb).1]
      have h0 := h.around.congr hnode
      rw [top_join] at h0
      rw [ht3, ht2, ht1] at h0 ⊢
      exact h0
    rw [ht4]
    exact relink_eq haround hxfs hx3 parent_make
  have hs1 : t.modify x.ptr (·.setChild d.other (top B)) = some t1 := by rw [modify_eq hx, setChild_other_make, ht1]
  have hs3 : t2.modify y.ptr (·.setParent (up fs)) = some t3 := by rw [modify_eq hy2, setParent_make, ht3]
  have hs5 : t4.modify y.ptr (·.setChild d (some x.ptr)) = some t5 := by rw [modify_eq hy4, setChild_make, ht5]
  have hrun : rotate d t x.ptr = t5.modify x.ptr (·.setParent (some y.ptr)) := by
    simp only [rotate, hx, Option.bind_eq_bind, Option.bind_some, child_other_make, hy, child_make, hs1, hy1, hadopt,
      hx2, parent_make, hs3, hrelink, hs5]
  rw [hrun, modify_eq hx5, setParent_make]
  have hkeep : ∀ b, b ≠ x.ptr → b ≠ y.ptr → b ∉ ptrs B → b ∉ outer fs → t5.node b = t.node b := by
    intro b hbx hby hbB hbfs
    rw [h5 b hby, h4 b hbfs, h3 b hby, h2 b hbB, h1 b hbx]
  refine ⟨_, rfl, ?_, by rw [ht5, ht4, ht3, ht2, ht1]⟩
  have hroot : t5.root = hangRoot t.root (some y.ptr) fs := by rw [ht5, ht4, ht3, ht2, ht1]
  rw [Tree.At, hroot]
  apply h.rotate
  · exact update_self _ _ _
  · exact (update_of_ne hxy.symm _ _).trans hy5
  · intro b hb
    obtain ⟨hbx, hby, hbB, hbfs⟩ := hA b hb
    exact (update_of_ne hbx _ _).trans (hkeep b hbx hby hbB hbfs)
  · intro b hb
    obtain ⟨hbx, hby, hbfs⟩ := hB b hb
    refine (update_of_ne hbx _ _).trans ?_
    rw [h5 b hby, h4 b hbfs, h3 b hby, ht2]
    exact adopt_congr (h1 b hbx)
  · intro b hb
    obtain ⟨hbx, hby, hbB, hbfs⟩ := hC b hb
    exact (update_of_ne hbx _ _).trans (hkeep b hbx hby hbB hbfs)
  · intro b hb
    obtain ⟨hbx, hby, hbB⟩ := hfs b hb
    refine (update_of_ne hbx _ _).trans ?_
    rw [h5 b hby, ht4]
    refine hang_congr ?_
    rw [h3 b hby, h2 b hbB, h1 b hbx]

/-! ## Splaying -/

/-- A node with both children, seen from either side. -/
theorem node_eq_join (d : Side) : ∃ B C, BinaryTree.node x l r = join d x B C := by
  cases d with
  | left => exact ⟨l, r, rfl⟩
  | right => exact ⟨r, l, rfl⟩

theorem join_eq_node : ∃ l r, join d x B C = BinaryTree.node x l r := by
  cases d with
  | left => exact ⟨B, C, rfl⟩
  | right => exact ⟨C, B, rfl⟩

theorem plug_eq : f.plug s = join f.side.other f.cell f.sibling s := by rw [join_other, Frame.plug]

/-- A node rises above its parent. -/
theorem rotate_up (h : t.At (f :: fs) (.node x l r)) :
    ∃ t' l' r', rotate f.side.other t f.cell.ptr = some t' ∧ t'.At fs (.node x l' r') ∧
      whole fs (.node x l' r') = whole (f :: fs) (.node x l r) ∧ t'.nodeCount = t.nodeCount := by
  obtain ⟨B, C, hs⟩ := @node_eq_join _ x l r f.side.other
  rw [hs, Tree.At, ← at_plug, plug_eq] at h
  obtain ⟨t', hrun, hat, hcount⟩ := rotate_at h
  obtain ⟨l', r', hs'⟩ := @join_eq_node _ f.side.other x (join f.side.other f.cell f.sibling B) C
  refine ⟨t', l', r', hrun, hs' ▸ hat, ?_, hcount⟩
  rw [← hs', hs, ← whole_plug, plug_eq, whole, whole, inorder_rotate]

/-- A node, with what is below it, rises above its grandparent. -/
theorem rotate_over (h : t.At (f :: g :: fs) s) (hside : f.side = g.side) :
    ∃ t' f', rotate g.side.other t g.cell.ptr = some t' ∧ t'.At (f' :: fs) s ∧ f'.side = f.side ∧ f'.cell = f.cell ∧
      whole (f' :: fs) s = whole (f :: g :: fs) s ∧ t'.nodeCount = t.nodeCount := by
  have h' := h
  rw [Tree.At, ← at_plug, ← at_plug, plug_eq, plug_eq, hside] at h'
  obtain ⟨t', hrun, hat, hcount⟩ := rotate_at h'
  refine ⟨t', ⟨f.side, f.cell, join g.side.other g.cell g.sibling f.sibling⟩, hrun, ?_, rfl, rfl, ?_, hcount⟩
  · rw [Tree.At, ← at_plug, plug_eq, hside]
    exact hat
  · rw [← whole_plug, ← whole_plug, ← whole_plug, plug_eq, plug_eq, plug_eq, hside, whole, whole, inorder_rotate]

/-- The tree on the other side has another root. -/
theorem sibling_ne (h : t.At (f :: fs) (.node x l r)) : top f.sibling ≠ some x.ptr := by
  intro htop
  have hout : x.ptr ∈ outer (f :: fs) := by
    rw [outer_cons.mem_iff]
    exact List.mem_cons_of_mem _ (List.mem_append_left _ (mem_ptrs_of_top htop))
  have hin : x.ptr ∈ ptrs (.node x l r) := mem_ptrs_of_top rfl
  exact (List.nodup_append.1 h.places).2.2 _ hin _ hout rfl

theorem left_make (hw : v ≠ some a) {e : Entry ρ} : (Node.make d (some a) v p e).left = some a ↔ d = .left := by
  cases d with
  | left => simp [Node.make]
  | right => simp [Node.make, hw]

theorem right_make (hw : v ≠ some a) {e : Entry ρ} : (Node.make d (some a) v p e).right = some a ↔ d = .right := by
  cases d with
  | left => simp [Node.make, hw]
  | right => simp [Node.make]

/-- What `splay`'s loop reads of the root of a tree in its place. -/
theorem parent_at (h : t.At fs (.node x l r)) : ∃ n, t.node x.ptr = some n ∧ n.parent = up fs := ⟨_, h.links.1, rfl⟩

/-- A round of `splay` brings `x` up. -/
theorem splayRound_at (h : t.At (f :: fs) (.node x l r)) :
    ∃ t' gs l' r', splayRound t x.ptr f.cell.ptr = some t' ∧ t'.At gs (.node x l' r') ∧ gs.length ≤ fs.length ∧
      whole gs (.node x l' r') = whole (f :: fs) (.node x l r) ∧ t'.nodeCount = t.nodeCount := by
  obtain ⟨hp, -, -⟩ := h.around
  have hsib := sibling_ne h
  cases fs with
  | nil =>
    obtain ⟨t', l', r', hrun, hat, hwhole, hcount⟩ := rotate_up h
    refine ⟨t', [], l', r', ?_, hat, le_rfl, hwhole, hcount⟩
    simp only [splayRound, hp, Option.bind_eq_bind, Option.bind_some, parent_make, up_nil, top_node, left_make hsib]
    cases hd : f.side <;> rw [hd] at hrun
    · exact hrun
    · exact hrun
  | cons g fs =>
    obtain ⟨l1, r1, hplug⟩ := @join_eq_node _ f.side f.cell (.node x l r) f.sibling
    have hup : t.At (g :: fs) (.node f.cell l1 r1) := by
      rw [← hplug]
      exact at_plug.2 h
    obtain ⟨hg, -, -⟩ := hup.around
    have hsib' := sibling_ne hup
    simp only [splayRound, hp, Option.bind_eq_bind, Option.bind_some, parent_make, up_cons, top_node, left_make hsib,
      right_make hsib, hg, left_make hsib', right_make hsib']
    by_cases hside : f.side = g.side
    -- the grandparent first
    · obtain ⟨t1, f', hrun1, hat1, hside1, hcell1, hwhole1, hcount1⟩ := rotate_over h hside
      obtain ⟨t2, l', r', hrun2, hat2, hwhole2, hcount2⟩ := rotate_up hat1
      obtain ⟨n, hn, hparent⟩ := parent_at hat1
      rw [hside1, hcell1] at hrun2
      rw [up_cons, hcell1] at hparent
      refine ⟨t2, fs, l', r', ?_, hat2, Nat.le_succ _, hwhole2.trans hwhole1, hcount2.trans hcount1⟩
      cases hd : f.side <;> rw [hside] at hd <;> rw [hd] at hrun1 <;> rw [hside, hd] at hrun2
      · have h1 : rightRotate t g.cell.ptr = some t1 := hrun1
        have h2 : rightRotate t1 f.cell.ptr = some t2 := hrun2
        simp [hd, h1, h2, hn, hparent]
      · have h1 : leftRotate t g.cell.ptr = some t1 := hrun1
        have h2 : leftRotate t1 f.cell.ptr = some t2 := hrun2
        simp [hd, h1, h2, hn, hparent]
    -- the parent first
    · obtain ⟨t1, l1', r1', hrun1, hat1, hwhole1, hcount1⟩ := rotate_up h
      obtain ⟨t2, l', r', hrun2, hat2, hwhole2, hcount2⟩ := rotate_up hat1
      obtain ⟨n, hn, hparent⟩ := parent_at hat1
      refine ⟨t2, fs, l', r', ?_, hat2, Nat.le_succ _, hwhole2.trans hwhole1, hcount2.trans hcount1⟩
      cases hd : f.side <;> cases hd' : g.side <;> rw [hd] at hrun1 <;> rw [hd'] at hrun2
      · exact absurd (hd.trans hd'.symm) hside
      · have h1 : rightRotate t f.cell.ptr = some t1 := hrun1
        have h2 : leftRotate t1 g.cell.ptr = some t2 := hrun2
        simp [h1, h2, hn, hparent]
      · have h1 : leftRotate t f.cell.ptr = some t1 := hrun1
        have h2 : rightRotate t1 g.cell.ptr = some t2 := hrun2
        simp [h1, h2, hn, hparent]
      · exact absurd (hd.trans hd'.symm) hside

/-- `splay` brings `x` to the root and keeps the order of the nodes. -/
theorem splay_at : ∀ {fs : List (Frame (Entry ρ))} {t : Tree ρ} {l r : BinaryTree (Cell (Entry ρ))},
    t.At fs (.node x l r) → fs.length < fuel →
    ∃ t' l' r', splay fuel t x.ptr = some t' ∧ t'.At [] (.node x l' r') ∧
      inorder (.node x l' r') = whole fs (.node x l r) ∧ t'.nodeCount = t.nodeCount := by
  induction fuel with
  | zero =>
    intro fs t l r _ hfuel
    exact absurd hfuel (Nat.not_lt_zero _)
  | succ fuel ih =>
    intro fs t l r h hfuel
    obtain ⟨n, hn, hparent⟩ := parent_at h
    cases fs with
    | nil =>
      refine ⟨t, l, r, ?_, h, whole_nil.symm, rfl⟩
      simp only [splay, hn, hparent, Option.bind_eq_bind, Option.bind_some, up_nil]
    | cons f fs =>
      obtain ⟨t1, gs, l1, r1, hround, hat, hlen, hwhole, hcount⟩ := splayRound_at h
      rw [List.length_cons] at hfuel
      obtain ⟨t2, l2, r2, hrun, hat2, horder, hcount2⟩ := ih hat (by omega)
      refine ⟨t2, l2, r2, ?_, hat2, horder.trans hwhole, hcount2.trans hcount⟩
      simp only [splay, hn, hparent, Option.bind_eq_bind, Option.bind_some, up_cons, hround, hrun]

/-! ## Replacing -/

/-- `replace` puts the tree `s` in the place of `a`. -/
theorem replace_at (h : Around t.node t.root (some a) fs) (ha : a ∉ outer fs) (hn : t.node a = some n)
    (hp : n.parent = up fs) (hl : Links t.node p s) (hs : (ptrs s ++ outer fs).Nodup) :
    ∃ t', replace t a (top s) = some t' ∧ t'.At fs s ∧ t'.nodeCount = t.nodeCount ∧
      ∀ b, b ∉ ptrs s → b ∉ outer fs → t'.node b = t.node b := by
  obtain ⟨hns, hnfs, hdis⟩ := List.nodup_append.1 hs
  have hrelink := relink_eq (v := top s) h ha hn hp
  have ha' : hang t.node (top s) fs a = some n := (hang_of_ne fun hup => ha (mem_outer_of_up hup)).trans hn
  have hl' : Links (hang t.node (top s) fs) p s := hl.congr fun b hb => hang_of_ne fun hup =>
    hdis b hb b (mem_outer_of_up hup) rfl
  refine ⟨{ t with root := hangRoot t.root (top s) fs, node := adopt (hang t.node (top s) fs) (up fs) s }, ?_,
    ⟨hl'.adopt hns, ?_, ptrs_whole.nodup_iff.2 hs⟩, rfl, fun b hb hb' => ?_⟩
  · simp only [replace, hrelink, ha', hp, Option.bind_eq_bind, Option.bind_some]
    exact reparent_eq (t := { t with root := hangRoot t.root (top s) fs, node := hang t.node (top s) fs }) hl'
  · exact (h.hang hnfs).congr fun b hb => adopt_of_ne fun htop => hdis b (mem_ptrs_of_top htop) b hb rfl
  · refine (adopt_of_ne fun htop => hb (mem_ptrs_of_top htop)).trans ?_
    exact hang_of_ne fun hup => hb' (mem_outer_of_up hup)

/-- `replace` of the root. -/
theorem replace_root (h : t.root = some a) (hn : t.node a = some n) (hp : n.parent = none) (hl : Links t.node p s)
    (hs : (ptrs s).Nodup) : ∃ t', replace t a (top s) = some t' ∧ t'.At [] s ∧ t'.nodeCount = t.nodeCount ∧
      ∀ b, b ∉ ptrs s → t'.node b = t.node b := by
  have hs' : (ptrs s ++ outer ([] : List (Frame (Entry ρ)))).Nodup := by
    rw [outer_nil, List.append_nil]
    exact hs
  have hroot : Around t.node t.root (some a) ([] : List (Frame (Entry ρ))) := h
  obtain ⟨t', hrep, hat, hcount, hkeep⟩ := replace_at hroot List.not_mem_nil hn hp hl hs'
  exact ⟨t', hrep, hat, hcount, fun b hb => hkeep b hb List.not_mem_nil⟩

/-- `subtree_minimum` goes down to the left. -/
theorem subtreeMinimum_at : ∀ {c : Cell (Entry ρ)} {l r : BinaryTree (Cell (Entry ρ))} {p : Option Nat} {fuel : Nat},
    Links t.node p (.node c l r) → (inorder l).length < fuel → ∃ gs y s, subtreeMinimum t fuel c.ptr = some y.ptr ∧
      .node c l r = plugAll gs (.node y .nil s) ∧ before gs = [] := by
  intro c l
  induction l generalizing c with
  | nil =>
    intro r p fuel h hfuel
    obtain ⟨k, rfl⟩ := Nat.exists_eq_succ_of_ne_zero (Nat.pos_iff_ne_zero.1 hfuel)
    refine ⟨[], c, r, ?_, rfl, rfl⟩
    simp only [subtreeMinimum, h.1, Option.bind_eq_bind, Option.bind_some, top_nil]
  | node c' l' r' ih =>
    intro r p fuel h hfuel
    obtain ⟨k, rfl⟩ := Nat.exists_eq_succ_of_ne_zero (Nat.pos_iff_ne_zero.1 (Nat.zero_lt_of_lt hfuel))
    rw [inorder_node, List.length_append, List.length_cons] at hfuel
    obtain ⟨gs, y, s, hrun, hplug, hbefore⟩ := @ih c' r' _ k h.2.1 (by omega)
    refine ⟨gs ++ [⟨.left, c, r⟩], y, s, ?_, ?_, ?_⟩
    · simp only [subtreeMinimum, h.1, Option.bind_eq_bind, Option.bind_some, top_node, hrun]
    · rw [plugAll_append, ← hplug]
      rfl
    · rw [before_append, hbefore]
      rfl

/-- A node gets a child, which gets the node as its parent. -/
theorem graft_at {c : Cell (Entry ρ)} (d : Side) (hy : t.node a = some n) (hs : Links t.node p (.node c A B))
    (ha : a ∉ ptrs (.node c A B)) (hn : (ptrs (.node c A B)).Nodup) :
    ∃ t1 t2, t.modify a (·.setChild d (some c.ptr)) = some t1 ∧ t1.node a = some (n.setChild d (some c.ptr)) ∧
      t1.modify c.ptr (·.setParent (some a)) = some t2 ∧ t2.node a = some (n.setChild d (some c.ptr)) ∧
      Links t2.node (some a) (.node c A B) ∧ (∀ b, b ≠ a → b ∉ ptrs (.node c A B) → t2.node b = t.node b) ∧
      t2.root = t.root ∧ t2.nodeCount = t.nodeCount := by
  have hkeep1 : ∀ b, b ≠ a → update t.node a (some (n.setChild d (some c.ptr))) b = t.node b :=
    fun b hb => update_of_ne hb _ _
  have hs1 : Links (update t.node a (some (n.setChild d (some c.ptr)))) p (.node c A B) :=
    hs.congr fun b hb => hkeep1 b fun hba => ha (hba ▸ hb)
  have hkeep2 : ∀ b, b ∉ ptrs (.node c A B) →
      adopt (update t.node a (some (n.setChild d (some c.ptr)))) (some a) (.node c A B) b =
        update t.node a (some (n.setChild d (some c.ptr))) b :=
    fun b hb => adopt_of_ne fun htop => hb (mem_ptrs_of_top htop)
  refine ⟨_, _, modify_eq hy, update_self _ _ _, modify_eq hs1.1, (hkeep2 a ha).trans (update_self _ _ _), hs1.adopt hn,
    fun b hba hb => (hkeep2 b hb).trans (hkeep1 b hba), rfl, rfl⟩

/-- The root `x` has the tree `l` on the left; what is on the right is a tree
with `y` on top and nothing on the left, whatever the pointers above it. -/
structure Topped (t : Tree ρ) (x y : Cell (Entry ρ)) (l s : BinaryTree (Cell (Entry ρ))) : Prop where
  right : ∃ q, Links t.node q (.node y .nil s)
  left : Links t.node (some x.ptr) l
  node : ∃ v, t.node x.ptr = some { left := top l, right := v, parent := none, val := x.val }
  root : t.root = some x.ptr

/-- `takeMinimum` puts the minimum of the right subtree on top of it. -/
theorem takeMinimum_at {c : Cell (Entry ρ)} (h : t.At [] (.node x l (.node c A B))) (hfuel : (inorder A).length < fuel) :
    ∃ t' y s, takeMinimum fuel t x.ptr c.ptr = some (y.ptr, t') ∧ Topped t' x y l s ∧
      inorder (.node y .nil s) = inorder (.node c A B) ∧ t'.nodeCount = t.nodeCount := by
  obtain ⟨hx, hl, hr⟩ := h.links
  obtain ⟨gs, y, s, hmin, hplug, hbefore⟩ := subtreeMinimum_at hr hfuel
  by_cases hgs : gs = []
  -- the right child is the minimum
  · subst hgs
    have hnode : BinaryTree.node c A B = .node y .nil s := hplug
    rw [hnode] at hr
    refine ⟨t, y, s, ?_, ⟨⟨_, hr⟩, hl, ⟨_, hx⟩, h.around⟩, congrArg inorder hnode.symm, rfl⟩
    simp only [takeMinimum, hmin, hr.1, Option.bind_eq_bind, Option.bind_some, ne_eq, not_true_eq_false, if_false]
  -- the minimum is taken out
  · have hnodup : (x.ptr :: (ptrs l ++ (y.ptr :: ptrs s ++ outer gs))).Nodup := by
      have h0 : (ptrs (join .left x l (.node c A B))).Nodup := (List.nodup_append.1 h.places).1
      rw [hplug] at h0
      exact (ptrs_join.trans ((ptrs_plugAll.append_left _).cons _)).nodup_iff.1 h0
    have hin : t.At [⟨.right, x, l⟩] (plugAll gs (.node y .nil s)) := by
      rw [← hplug]
      exact at_plug.1 h
    have hy := at_plugAll.1 hin
    have houter : ∀ b, b ∈ outer (gs ++ [⟨.right, x, l⟩]) ↔ b ∈ outer gs ∨ b ∈ ptrs l ∨ b = x.ptr := by
      intro b
      rw [outer_append.mem_iff, List.mem_append]
      simp [outer, before, after, ptrs]
    have hyout : y.ptr ∉ outer (gs ++ [⟨.right, x, l⟩]) := by
      rw [houter]
      grind
    have hplaces : (ptrs s ++ outer (gs ++ [⟨.right, x, l⟩])).Nodup := (List.nodup_cons.1 hy.places).2
    obtain ⟨t1, hrep, hat1, hcount1, hkeep1⟩ := replace_at hy.around hyout hy.links.1 rfl hy.links.2.2 hplaces
    obtain ⟨hx1, hl1, hroot1⟩ := (at_plugAll.2 hat1).around
    have hR := (at_plugAll.2 hat1).links
    have hnodupR : (x.ptr :: (ptrs l ++ (y.ptr :: ptrs (plugAll gs s)))).Nodup :=
      (((ptrs_plugAll.cons y.ptr).append_left _).cons _).nodup_iff.2 hnodup
    obtain ⟨c', l', r', hnode⟩ := @plugAll_node _ s gs hgs
    rw [hnode] at hx1 hR hnodupR
    have hxy : x.ptr ≠ y.ptr := by grind
    have hyR : y.ptr ∉ ptrs (.node c' l' r') := by grind
    have hxR : x.ptr ∉ ptrs (.node c' l' r') := by grind
    have hyl : y.ptr ∉ ptrs l := by grind
    have hlR : ∀ b ∈ ptrs l, b ∉ ptrs (.node c' l' r') := by grind
    have hparent : up (gs ++ [⟨.right, x, l⟩]) ≠ some x.ptr := by
      cases gs with
      | nil => exact absurd rfl hgs
      | cons g gs =>
        intro hup
        have hmem : x.ptr ∈ outer (g :: gs) := mem_outer_of_up hup
        grind
    have hys : y.ptr ∉ ptrs s := (List.nodup_cons.1 hy.places).1 ∘ List.mem_append_left _
    have hy1 := (hkeep1 y.ptr hys hyout).trans hy.links.1
    have hnodupR' : (ptrs (.node c' l' r')).Nodup := by grind
    -- what is left becomes the right child of the minimum
    obtain ⟨t2, t3, hchild, hy2, hadopt, hy3, hR3, hkeep3, hroot3, hcount3⟩ := graft_at .right hy1 hR hyR hnodupR'
    have hy2' : t2.node y.ptr =
        some { left := none, right := some c'.ptr, parent := up (gs ++ [⟨.right, x, l⟩]), val := y.val } := hy2
    have hy3' : t3.node y.ptr =
        some { left := none, right := some c'.ptr, parent := up (gs ++ [⟨.right, x, l⟩]), val := y.val } := hy3
    have hrun : takeMinimum fuel t x.ptr c.ptr = some (y.ptr, t3) := by
      simp only [takeMinimum, hmin, hy.links.1, Option.bind_eq_bind, Option.bind_some, ne_eq, hparent, not_false_eq_true,
        if_true, hrep, hx1, Node.make, top_node, hchild, hy2', hadopt]
    refine ⟨t3, y, .node c' l' r', hrun, ⟨⟨_, hy3', trivial, hR3⟩,
      hl1.congr fun b hb => hkeep3 b (fun hby => hyl (hby ▸ hb)) (hlR b hb),
      ⟨some c'.ptr, (hkeep3 _ hxy hxR).trans hx1⟩, hroot3.trans hroot1⟩, ?_, hcount3.trans hcount1⟩
    rw [hplug, inorder_plugAll, inorder_node, ← hnode, inorder_plugAll, whole, whole, hbefore]
    rfl

/-- `hoist` joins the two subtrees of the root under `y`. -/
theorem hoist_at {y : Cell (Entry ρ)} (h : Topped t x y l s) (hl : l ≠ .nil)
    (hn : (x.ptr :: (ptrs l ++ (y.ptr :: ptrs s))).Nodup) :
    ∃ t' n, hoist t x.ptr y.ptr = some t' ∧ t'.At [] (.node y l s) ∧ t'.node x.ptr = some n ∧ n.val = x.val ∧
      t'.nodeCount = t.nodeCount := by
  obtain ⟨q, hs⟩ := h.right
  obtain ⟨v, hx⟩ := h.node
  obtain ⟨c, l', r', hnode⟩ : ∃ c l' r', l = .node c l' r' := by
    cases l with
    | nil => exact absurd rfl hl
    | node c l' r' => exact ⟨c, l', r', rfl⟩
  have hxy : x.ptr ≠ y.ptr := by grind
  have hxl : x.ptr ∉ ptrs l := by grind
  have hxs : x.ptr ∉ ptrs s := by grind
  have hyl : y.ptr ∉ ptrs l := by grind
  have hys : y.ptr ∉ ptrs s := by grind
  have hls : ∀ b ∈ ptrs l, b ∉ ptrs s := by grind
  have hnl : (ptrs l).Nodup := by grind
  have hptrs : ∀ b, b ∈ ptrs (.node y .nil s) ↔ b = y.ptr ∨ b ∈ ptrs s := by
    intro b
    simp [ptrs]
  have hns : (ptrs (.node y .nil s)).Nodup := by
    have hys' : (y.ptr :: ptrs s).Nodup := by grind
    simpa [ptrs] using hys'
  obtain ⟨t1, hrep, hat, hcount, hkeep⟩ := replace_root h.root hx rfl hs hns
  have hy1 := hat.links.1
  have hkeep1 : ∀ b, b ≠ y.ptr → b ∉ ptrs s → t1.node b = t.node b := by
    intro b hby hbs
    apply hkeep
    rw [hptrs]
    tauto
  have hx1 := (hkeep1 _ hxy hxs).trans hx
  have hl1 : Links t1.node (some x.ptr) l := h.left.congr fun b hb => hkeep1 b (fun hby => hyl (hby ▸ hb)) (hls b hb)
  have htop : top l = some c.ptr := by rw [hnode, top_node]
  rw [hnode] at hl1 hyl hnl
  obtain ⟨t2, t3, hchild, hy2, hadopt, hy3, hl3, hkeep3, hroot3, hcount3⟩ := graft_at .left hy1 hl1 hyl hnl
  rw [← hnode] at hl3 hkeep3
  have hy2' : t2.node y.ptr = some { left := some c.ptr, right := top s, parent := none, val := y.val } := hy2
  have hy3' : t3.node y.ptr = some { left := some c.ptr, right := top s, parent := none, val := y.val } := hy3
  refine ⟨t3, _, ?_, ⟨⟨?_, hl3, ?_⟩, hroot3.trans hat.around, ?_⟩, (hkeep3 _ hxy hxl).trans hx1, rfl, hcount3.trans hcount⟩
  · rw [top_node] at hrep
    simp only [hoist, hrep, hx1, htop, hchild, hy2', hadopt, Option.bind_eq_bind, Option.bind_some]
  · rw [htop]
    exact hy3'
  · exact hat.links.2.2.congr fun b hb => hkeep3 b (fun hby => hys (hby ▸ hb)) fun hbl => hls b hbl hb
  · have hjoin : (ptrs (join .left y l s)).Nodup := ptrs_join.nodup_iff.2 (by grind)
    rw [whole_nil]
    exact hjoin

/-- `tree_remove` joins the children of the root. -/
theorem unlink_at (h : t.At [] (.node x l r)) (hfuel : (inorder r).length < fuel) :
    ∃ t' s n, unlink fuel t x.ptr = some t' ∧ t'.At [] s ∧ inorder s = inorder l ++ inorder r ∧
      t'.node x.ptr = some n ∧ n.val = x.val ∧ t'.nodeCount = t.nodeCount := by
  obtain ⟨hx, hl, hr⟩ := h.links
  have hn : (x.ptr :: (ptrs l ++ ptrs r)).Nodup :=
    (@ptrs_join _ .left x l r).nodup_iff.1 (List.nodup_append.1 h.places).1
  have hxl : x.ptr ∉ ptrs l := by grind
  have hxr : x.ptr ∉ ptrs r := by grind
  cases l with
  | nil =>
    obtain ⟨t', hrep, hat, hcount, hkeep⟩ := replace_root h.around hx rfl hr (List.nodup_cons.1 hn).2
    refine ⟨t', r, _, ?_, hat, rfl, (hkeep _ hxr).trans hx, rfl, hcount⟩
    simp only [unlink, hx, top_nil, Option.bind_eq_bind, Option.bind_some, hrep]
  | node c l' r' =>
    cases r with
    | nil =>
      have hnl : (ptrs (.node c l' r')).Nodup := by grind
      obtain ⟨t', hrep, hat, hcount, hkeep⟩ := replace_root h.around hx rfl hl hnl
      refine ⟨t', .node c l' r', _, ?_, hat, (List.append_nil _).symm, (hkeep _ hxl).trans hx, rfl, hcount⟩
      rw [top_node] at hrep
      simp only [unlink, hx, top_nil, top_node, Option.bind_eq_bind, Option.bind_some, hrep]
    | node c' A B =>
      have hA : (inorder A).length < fuel := by
        rw [inorder_node, List.length_append] at hfuel
        omega
      obtain ⟨t1, y, s, hmin, htopped, horder, hcount1⟩ := takeMinimum_at h hA
      have hptrs : ptrs (.node c' A B) = y.ptr :: ptrs s := by rw [ptrs, ← horder, ptrs]; rfl
      rw [hptrs] at hn
      obtain ⟨t2, n, hhoist, hat, hn2, hval, hcount2⟩ := hoist_at htopped (by simp) hn
      refine ⟨t2, _, n, ?_, hat, ?_, hn2, hval, hcount2.trans hcount1⟩
      · simp only [unlink, hx, top_node, Option.bind_eq_bind, Option.bind_some, hmin, hhoist]
      · rw [← horder, inorder_node]
        rfl

end Cmpsc473.Stree
