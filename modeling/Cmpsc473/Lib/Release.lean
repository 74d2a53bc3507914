import Cmpsc473.Lib.LinkedTree
/-!
# Memory that is given back

`free` faults where nothing is allocated, so a run of it that returns frees
nothing twice. A linked tree is freed from its leaves up: each node once, and
what the nodes hold in the same order (`freeTree_at`).
-/

namespace Cmpsc473.Release

open LinkedTree SearchTree Function

variable {α β σ : Type} {a : Nat} {as bs : List Nat}

/-! ## Blocks -/

/-- `free` of the block at `a`. -/
def free (mem : Nat → Option β) (a : Nat) : Option (Nat → Option β) := (mem a).map fun _ => update mem a none

/-- The memory without the blocks at `as`. -/
def without (mem : Nat → Option β) (as : List Nat) : Nat → Option β := fun b => if b ∈ as then none else mem b

variable {mem : Nat → Option β}

theorem without_of_notMem (h : a ∉ as) : without mem as a = mem a := if_neg h

@[simp] theorem without_nil : without mem [] = mem := by
  funext b
  exact without_of_notMem List.not_mem_nil

theorem without_without : without (without mem as) bs = without mem (as ++ bs) := by
  funext b
  simp only [without, List.mem_append]
  by_cases ha : b ∈ as <;> by_cases hb : b ∈ bs <;> simp [ha, hb]

theorem without_congr (h : ∀ b, b ∈ as ↔ b ∈ bs) : without mem as = without mem bs := by
  funext b
  simp only [without, h b]

theorem free_eq (h : (mem a).isSome = true) : free mem a = some (without mem [a]) := by
  obtain ⟨x, hx⟩ := Option.isSome_iff_exists.1 h
  rw [free, hx, Option.map_some]
  congr 1
  funext b
  by_cases hb : b = a
  · rw [hb, update_self, without, if_pos List.mem_cons_self]
  · rw [update_of_ne hb, without_of_notMem (by simpa using hb)]

/-- Different blocks that are allocated can be freed one after the other. -/
theorem foldlM_free (hn : as.Nodup) (ha : ∀ a ∈ as, (mem a).isSome = true) :
    as.foldlM free mem = some (without mem as) := by
  induction as generalizing mem with
  | nil => rw [without_nil]; rfl
  | cons a as ih =>
    obtain ⟨hnot, hn⟩ := List.nodup_cons.1 hn
    have hrest : ∀ b ∈ as, (without mem [a] b).isSome = true := by
      intro b hb
      rw [without_of_notMem (by simpa using ne_of_mem_of_not_mem hb hnot)]
      exact ha b (List.mem_cons_of_mem _ hb)
    rw [List.foldlM_cons, free_eq (ha a List.mem_cons_self), Option.bind_eq_bind, Option.bind_some, ih hn hrest,
      without_without]
    rfl

/-- Nothing is left of what was allocated. -/
theorem without_all (h : ∀ b, (mem b).isSome = true → b ∈ as) : without mem as = fun _ => none := by
  funext b
  by_cases hb : b ∈ as
  · exact if_pos hb
  · rw [without_of_notMem hb, ← Option.not_isSome_iff_eq_none]
    exact fun hsome => hb (h b hsome)

/-! ## Trees -/

/-- The tree at a pointer is freed, with `freeFun` for what a node holds. -/
def freeTree (freeFun : σ → α → Option σ) : Nat → Mem α → σ → Option Nat → Option (Mem α × σ)
  | 0, _, _, _ => none
  | _ + 1, mem, s, none => some (mem, s)
  | fuel + 1, mem, s, some x => do
    let (mem, s) ← freeTree freeFun fuel mem s (← mem x).left
    let (mem, s) ← freeTree freeFun fuel mem s (← mem x).right
    let s ← freeFun s (← mem x).val
    let mem ← free mem x
    some (mem, s)

/-- What the nodes hold, in the order in which it is freed. -/
def postorder : BinaryTree (Cell α) → List α
  | .nil => []
  | .node c l r => postorder l ++ (postorder r ++ [c.val])

theorem postorder_perm (t : BinaryTree (Cell α)) : (postorder t).Perm ((inorder t).map Cell.val) := by
  induction t with
  | nil => exact .refl _
  | node c l r ihl ihr =>
    rw [postorder, inorder_node, List.map_append, List.map_cons]
    exact ihl.append ((List.perm_append_singleton _ _).trans (ihr.cons _))

/-- A tree is freed, and nothing else. -/
theorem freeTree_at {freeFun : σ → α → Option σ} {fuel : Nat} {mem : Mem α} {p : Option Nat} {t : BinaryTree (Cell α)}
    (h : Links mem p t) (hn : (ptrs t).Nodup) (hfuel : (inorder t).length < fuel) (s : σ) :
    freeTree freeFun fuel mem s (top t) = ((postorder t).foldlM freeFun s).map fun s => (without mem (ptrs t), s) := by
  induction t generalizing mem p fuel s with
  | nil =>
    obtain ⟨n, rfl⟩ := Nat.exists_eq_succ_of_ne_zero (Nat.pos_iff_ne_zero.1 hfuel)
    have hnil : ptrs (.nil : BinaryTree (Cell α)) = [] := rfl
    rw [hnil, without_nil]
    rfl
  | node c l r ihl ihr =>
    obtain ⟨n, rfl⟩ := Nat.exists_eq_succ_of_ne_zero (Nat.pos_iff_ne_zero.1 (Nat.zero_lt_of_lt hfuel))
    obtain ⟨hc, hl, hr⟩ := h
    rw [inorder_node, List.length_append, List.length_cons] at hfuel
    have hplaces : (c.ptr :: (ptrs l ++ ptrs r)).Nodup := (@ptrs_join _ .left c l r).nodup_iff.1 hn
    obtain ⟨hnot, hboth⟩ := List.nodup_cons.1 hplaces
    obtain ⟨hnl, hnr, hapart⟩ := List.nodup_append.1 hboth
    rw [List.mem_append, not_or] at hnot
    have hcl : without mem (ptrs l) c.ptr = some { left := top l, right := top r, parent := p, val := c.val } :=
      (without_of_notMem hnot.1).trans hc
    have hcr : without (without mem (ptrs l)) (ptrs r) c.ptr =
        some { left := top l, right := top r, parent := p, val := c.val } := (without_of_notMem hnot.2).trans hcl
    have hr' : Links (without mem (ptrs l)) (some c.ptr) r :=
      hr.congr fun b hb => without_of_notMem fun hbl => hapart b hbl b hb rfl
    have hall : without (without (without mem (ptrs l)) (ptrs r)) [c.ptr] = without mem (ptrs (.node c l r)) := by
      rw [without_without, without_without]
      refine without_congr fun b => ?_
      simp only [ptrs, inorder_node, List.map_append, List.map_cons, List.mem_append, List.mem_cons, List.not_mem_nil,
        or_false]
      tauto
    have hfree : free (without (without mem (ptrs l)) (ptrs r)) c.ptr = some (without mem (ptrs (.node c l r))) := by
      rw [free_eq (by rw [hcr]; rfl), hall]
    have hleft : freeTree freeFun n mem s (top l) = _ := ihl hl hnl (by omega) s
    have hright : ∀ s, freeTree freeFun n (without mem (ptrs l)) s (top r) = _ := ihr hr' hnr (by omega)
    simp only [top_node, freeTree, hc, Option.bind_eq_bind, Option.bind_some, hleft, postorder, List.foldlM_append,
      List.foldlM_cons, List.foldlM_nil]
    cases (postorder l).foldlM freeFun s with
    | none => rfl
    | some s1 =>
      simp only [Option.map_some, Option.bind_some, hcl, hright]
      cases (postorder r).foldlM freeFun s1 with
      | none => rfl
      | some s2 =>
        simp only [Option.map_some, Option.bind_some, hcr]
        cases freeFun s2 c.val with
        | none => rfl
        | some s3 => simp only [Option.bind_some, hfree, Option.pure_def, Option.map_some]

end Cmpsc473.Release
