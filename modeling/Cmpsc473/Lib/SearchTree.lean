import Mathlib
/-!
# Search trees as `<search.h>` has them

A tree is ordered by a comparison of its elements. `tfind` follows the
comparison; `tsearch` may balance the tree as it likes, so it is any function
that adds an element to the set (`Inserts`). `twalk` visits an inner node three
times and a leaf once; the visits in between and those of leaves are the
elements in order (`between_twalk`).
-/

namespace Cmpsc473.SearchTree

open Std

variable {α : Type}

/-- The elements in order. -/
def inorder : BinaryTree α → List α
  | .nil => []
  | .node a l r => inorder l ++ a :: inorder r

@[simp] theorem inorder_nil : inorder (.nil : BinaryTree α) = [] := rfl

@[simp] theorem inorder_node (a : α) (l r : BinaryTree α) : inorder (.node a l r) = inorder l ++ a :: inorder r := rfl

/-! ## Visits -/

/-- `VISIT`. -/
inductive Visit where
  | preorder
  | postorder
  | endorder
  | leaf

/-- The calls that `twalk` makes, in order. -/
def twalk : BinaryTree α → List (α × Visit)
  | .nil => []
  | .node a .nil .nil => [(a, .leaf)]
  | .node a l r => (a, .preorder) :: twalk l ++ (a, .postorder) :: twalk r ++ [(a, .endorder)]

/-- The visits between the subtrees of a node, or to a leaf. -/
def between : α × Visit → Option α
  | (_, .preorder) => none
  | (a, .postorder) => some a
  | (_, .endorder) => none
  | (a, .leaf) => some a

theorem between_inner (a : α) (ls rs : List (α × Visit)) :
    ((a, Visit.preorder) :: ls ++ (a, Visit.postorder) :: rs ++ [(a, Visit.endorder)]).filterMap between =
      ls.filterMap between ++ a :: rs.filterMap between := by
  have hpost : between (a, Visit.postorder) = some a := rfl
  rw [List.filterMap_append, List.filterMap_append, List.filterMap_cons_none rfl, List.filterMap_cons_some hpost]
  exact List.append_nil _

/-- These meet each element once, in order. -/
theorem between_twalk (t : BinaryTree α) : (twalk t).filterMap between = inorder t := by
  induction t with
  | nil => rfl
  | node a l r ihl ihr =>
    rw [inorder_node, ← ihl, ← ihr]
    cases l with
    | node => exact between_inner a _ _
    | nil =>
      cases r with
      | nil => rfl
      | node => exact between_inner a _ _

/-! ## The set -/

variable {cmp : α → α → Ordering} {a b : α} {t l r : BinaryTree α}

/-- The elements ascend. -/
def Ordered (cmp : α → α → Ordering) (t : BinaryTree α) : Prop := (inorder t).Pairwise fun a b => cmp a b = .lt

/-- `tfind`. -/
def tfind (cmp : α → α → Ordering) (a : α) : BinaryTree α → Option α
  | .nil => none
  | .node b l r =>
    match cmp a b with
    | .eq => some b
    | .lt => tfind cmp a l
    | .gt => tfind cmp a r

/-- `tsearch` for an element that is not in the set adds it. -/
def Inserts (tsearch : (α → α → Ordering) → α → BinaryTree α → BinaryTree α) : Prop :=
  ∀ cmp, TransCmp cmp → ∀ a t, Ordered cmp t → (∀ b ∈ inorder t, cmp a b ≠ .eq) →
    Ordered cmp (tsearch cmp a t) ∧ (inorder (tsearch cmp a t)).Perm (a :: inorder t)

theorem ordered_node [TransCmp cmp] : Ordered cmp (.node b l r) ↔
    Ordered cmp l ∧ Ordered cmp r ∧ (∀ x ∈ inorder l, cmp x b = .lt) ∧ ∀ y ∈ inorder r, cmp b y = .lt := by
  simp only [Ordered, inorder_node, List.pairwise_append, List.pairwise_cons, List.mem_cons]
  constructor
  · rintro ⟨hl, ⟨hb, hr⟩, hlr⟩
    exact ⟨hl, hr, fun x hx => hlr x hx b (.inl rfl), hb⟩
  · rintro ⟨hl, hr, hxb, hby⟩
    refine ⟨hl, ⟨hby, hr⟩, fun x hx y hy => ?_⟩
    rcases hy with rfl | hy
    · exact hxb x hx
    · exact TransCmp.lt_trans (hxb x hx) (hby y hy)

/-- `tfind` finds the element that compares equal. -/
theorem tfind_eq_some [TransCmp cmp] (h : Ordered cmp t) :
    tfind cmp a t = some b ↔ b ∈ inorder t ∧ cmp a b = .eq := by
  induction t with
  | nil => simp [tfind]
  | node c l r ihl ihr =>
    obtain ⟨hl, hr, hlc, hcr⟩ := ordered_node.1 h
    rw [tfind, inorder_node, List.mem_append, List.mem_cons]
    cases hac : cmp a c with
    | eq =>
      -- what lies to the sides of `c` does not compare equal to `a`
      have hleft : ∀ x ∈ inorder l, cmp a x ≠ .eq := fun x hx heq => by
        have hxc : cmp x c = .eq := (TransCmp.congr_left heq).symm.trans hac
        rw [hlc x hx] at hxc
        cases hxc
      have hright : ∀ x ∈ inorder r, cmp a x ≠ .eq := fun x hx heq => by
        have hcx : cmp c x = .eq := (TransCmp.congr_left hac).symm.trans heq
        rw [hcr x hx] at hcx
        cases hcx
      simp only [Option.some.injEq]
      constructor
      · rintro rfl
        exact ⟨.inr (.inl rfl), hac⟩
      · rintro ⟨hb | hb | hb, hab⟩
        · exact absurd hab (hleft b hb)
        · exact hb.symm
        · exact absurd hab (hright b hb)
    | lt =>
      rw [ihl hl]
      refine ⟨fun hb => ⟨.inl hb.1, hb.2⟩, ?_⟩
      rintro ⟨hb | rfl | hb, hab⟩
      · exact ⟨hb, hab⟩
      · rw [hac] at hab
        cases hab
      · have hlt := TransCmp.lt_trans hac (hcr b hb)
        rw [hlt] at hab
        cases hab
    | gt =>
      rw [ihr hr]
      refine ⟨fun hb => ⟨.inr (.inr hb.1), hb.2⟩, ?_⟩
      rintro ⟨hb | rfl | hb, hab⟩
      · have hlt := TransCmp.lt_trans (hlc b hb) (OrientedCmp.lt_of_gt hac)
        rw [OrientedCmp.eq_symm hab] at hlt
        cases hlt
      · rw [hac] at hab
        cases hab
      · exact ⟨hb, hab⟩

theorem tfind_eq_none [TransCmp cmp] (h : Ordered cmp t) : tfind cmp a t = none ↔ ∀ b ∈ inorder t, cmp a b ≠ .eq := by
  rw [Option.eq_none_iff_forall_ne_some]
  simp only [ne_eq, tfind_eq_some h, not_and]

/-- An ordered set has one element of each kind. -/
theorem Ordered.eq_of_cmp [TransCmp cmp] (h : Ordered cmp t) (ha : a ∈ inorder t) (hb : b ∈ inorder t)
    (hab : cmp a b = .eq) : a = b := by
  have hself := (tfind_eq_some h).2 ⟨ha, ReflCmp.compare_self⟩
  rw [(tfind_eq_some h).2 ⟨hb, hab⟩] at hself
  exact (Option.some.inj hself).symm

/-- The order of the elements of a tree is all that matters. -/
theorem Ordered.congr {cmp' : α → α → Ordering} (h : Ordered cmp t)
    (hcmp : ∀ a ∈ inorder t, ∀ b ∈ inorder t, cmp' a b = cmp a b) : Ordered cmp' t :=
  h.imp_of_mem fun ha hb hab => (hcmp _ ha _ hb).trans hab

/-! ## A tree that is not balanced -/

/-- `tsearch` that adds a leaf. -/
def addLeaf (cmp : α → α → Ordering) (a : α) : BinaryTree α → BinaryTree α
  | .nil => .node a .nil .nil
  | .node b l r =>
    match cmp a b with
    | .eq => .node b l r
    | .lt => .node b (addLeaf cmp a l) r
    | .gt => .node b l (addLeaf cmp a r)

theorem addLeaf_inserts : Inserts (@addLeaf α) := by
  intro cmp _ a t h hnew
  induction t with
  | nil => exact ⟨List.pairwise_singleton _ _, .refl _⟩
  | node b l r ihl ihr =>
    obtain ⟨hl, hr, hlb, hbr⟩ := ordered_node.1 h
    simp only [inorder_node, List.mem_append, List.mem_cons] at hnew
    rw [addLeaf]
    cases hab : cmp a b with
    | eq => exact absurd hab (hnew b (.inr (.inl rfl)))
    | lt =>
      obtain ⟨hord, hperm⟩ := ihl hl fun x hx => hnew x (.inl hx)
      refine ⟨ordered_node.2 ⟨hord, hr, fun x hx => ?_, hbr⟩, ?_⟩
      · rcases List.mem_cons.1 (hperm.mem_iff.1 hx) with rfl | hx
        · exact hab
        · exact hlb x hx
      · exact hperm.append_right (b :: inorder r)
    | gt =>
      obtain ⟨hord, hperm⟩ := ihr hr fun x hx => hnew x (.inr (.inr hx))
      refine ⟨ordered_node.2 ⟨hl, hord, hlb, fun y hy => ?_⟩, ?_⟩
      · rcases List.mem_cons.1 (hperm.mem_iff.1 hy) with rfl | hy
        · exact OrientedCmp.lt_of_gt hab
        · exact hbr y hy
      · have hswap : (b :: inorder (addLeaf cmp a r)).Perm (a :: b :: inorder r) :=
          (hperm.cons b).trans (List.Perm.swap a b _)
        exact (hswap.append_left (inorder l)).trans List.perm_middle

end Cmpsc473.SearchTree
