import Mathlib
/-!
# Sums by key in an ordered tree

Entries are pairs of a key and a value. `IsTally cmp es l` says what the tally
of `es` is: each key once, in ascending order, with the sum of its values.
There is only one such list (`IsTally.unique`), the order of the entries does
not matter (`IsTally.perm`), and a search tree that adds up the entries one by
one walks it in order (`isTally_toList`).
-/

namespace Cmpsc473.Tally

open Std

variable {κ M : Type} {cmp : κ → κ → Ordering}

section Spec
variable [DecidableEq κ] [AddCommMonoid M]

/-- The sum of the values of the key `k`. -/
def total (k : κ) (es : List (κ × M)) : M := ((es.filter fun e => e.1 = k).map Prod.snd).sum

/-- `l` lists each key of `es` once, in ascending order, with its sum. -/
structure IsTally (cmp : κ → κ → Ordering) (es l : List (κ × M)) : Prop where
  ascending : l.Pairwise fun a b => cmp a.1 b.1 = .lt
  sums : ∀ k v, (k, v) ∈ l ↔ k ∈ es.map Prod.fst ∧ v = total k es

@[simp] theorem total_nil (k : κ) : total k ([] : List (κ × M)) = 0 := rfl

@[simp] theorem total_append (k : κ) (es fs : List (κ × M)) : total k (es ++ fs) = total k es + total k fs := by
  simp [total]

theorem total_cons (k : κ) (e : κ × M) (es : List (κ × M)) :
    total k (e :: es) = (if e.1 = k then e.2 else 0) + total k es := by
  by_cases h : e.1 = k <;> simp [total, h]

/-- A key without entries has the sum 0. -/
theorem total_eq_zero {k : κ} {es : List (κ × M)} (h : k ∉ es.map Prod.fst) : total k es = 0 := by
  have hnil : es.filter (fun e => e.1 = k) = [] := by
    rw [List.filter_eq_nil_iff]
    intro e he hk
    exact h (List.mem_map.2 ⟨e, he, by simpa using hk⟩)
  rw [total, hnil]
  rfl

theorem total_perm {es fs : List (κ × M)} (h : es.Perm fs) (k : κ) : total k es = total k fs :=
  ((h.filter _).map _).sum_eq

/-- The order of the entries does not matter. -/
theorem IsTally.perm {es fs l : List (κ × M)} (h : IsTally cmp es l) (hp : es.Perm fs) : IsTally cmp fs l := by
  refine ⟨h.ascending, fun k v => ?_⟩
  rw [h.sums, total_perm hp, (hp.map Prod.fst).mem_iff]

omit [DecidableEq κ] [AddCommMonoid M] in
/-- Two ascending lists of the same entries are the same list. -/
theorem ascending_ext [TransCmp cmp] {l m : List (κ × M)} (hl : l.Pairwise fun a b => cmp a.1 b.1 = .lt)
    (hm : m.Pairwise fun a b => cmp a.1 b.1 = .lt) (h : ∀ e, e ∈ l ↔ e ∈ m) : l = m := by
  have nodup : ∀ l : List (κ × M), l.Pairwise (fun a b => cmp a.1 b.1 = .lt) → l.Nodup := by
    intro l h
    apply h.imp
    rintro a _ hab rfl
    have hself : cmp a.1 a.1 = .eq := ReflCmp.compare_self
    rw [hself] at hab
    cases hab
  have hperm : l.Perm m := (List.perm_ext_iff_of_nodup (nodup l hl) (nodup m hm)).2 h
  refine hperm.eq_of_pairwise (fun a b _ _ hab hba => ?_) hl hm
  have hswap : cmp a.1 b.1 = (cmp b.1 a.1).swap := OrientedCmp.eq_swap
  rw [hba, hab] at hswap
  cases hswap

/-- There is one tally. -/
theorem IsTally.unique [TransCmp cmp] {es l m : List (κ × M)} (hl : IsTally cmp es l) (hm : IsTally cmp es m) :
    l = m :=
  ascending_ext hl.ascending hm.ascending fun ⟨k, v⟩ => by rw [hl.sums, hm.sums]

end Spec

/-! ## The tree -/

/-- A value added to its key, or inserted if the key is new. -/
def accumulate (add : M → M → M) (t : TreeMap κ M cmp) (key : κ) (value : M) : TreeMap κ M cmp :=
  match t[key]? with
  | none => t.insert key value
  | some v => t.insert key (add v value)

/-- The tree after the entries, one by one. -/
def tally (cmp : κ → κ → Ordering) (add : M → M → M) (es : List (κ × M)) : TreeMap κ M cmp :=
  es.foldl (fun t e => accumulate add t e.1 e.2) ∅

theorem tally_concat (add : M → M → M) (es : List (κ × M)) (e : κ × M) :
    tally cmp add (es ++ [e]) = accumulate add (tally cmp add es) e.1 e.2 := by
  simp only [tally, List.foldl_append, List.foldl_cons, List.foldl_nil]

variable [TransCmp cmp] [LawfulEqCmp cmp] [DecidableEq κ] {add : M → M → M}

theorem getElem?_accumulate (t : TreeMap κ M cmp) (key k : κ) (value : M) :
    (accumulate add t key value)[k]? =
      if key = k then some (t[key]?.elim value fun v => add v value) else t[k]? := by
  unfold accumulate
  split
  · rename_i hn
    rw [TreeMap.getElem?_insert, hn]
    simp only [LawfulEqCmp.compare_eq_iff_eq, Option.elim_none]
  · rename_i v hv
    rw [TreeMap.getElem?_insert, hv]
    simp only [LawfulEqCmp.compare_eq_iff_eq, Option.elim_some]

variable [AddCommMonoid M] {wrap : M → M}

/-- The tree holds the sums, as `add` wraps them. -/
theorem getElem?_tally (hadd : ∀ a b, add (wrap a) (wrap b) = wrap (a + b)) {es : List (κ × M)}
    (hw : ∀ e ∈ es, wrap e.2 = e.2) (k : κ) :
    (tally cmp add es)[k]? = if k ∈ es.map Prod.fst then some (wrap (total k es)) else none := by
  induction es using List.reverseRecOn with
  | nil => simp [tally]
  | append_singleton es e ih =>
    have ih := ih fun e he => hw e (List.mem_append_left _ he)
    have he := hw e (by simp)
    rw [tally_concat, getElem?_accumulate]
    by_cases hk : e.1 = k
    -- the entry goes to `k`: added to its sum, or its first
    · subst hk
      rw [if_pos rfl, if_pos (by simp), ih, total_append, total_cons, if_pos rfl, total_nil, add_zero]
      split
      · rw [Option.elim_some, ← he, hadd, he]
      · rename_i hnew
        rw [Option.elim_none, total_eq_zero hnew, zero_add, he]
    · have hmem : k ∈ (es ++ [e]).map Prod.fst ↔ k ∈ es.map Prod.fst := by simp [Ne.symm hk]
      rw [if_neg hk, ih, total_append, total_cons, if_neg hk, total_nil, add_zero, add_zero]
      simp only [hmem]

/-- If no sum is wrapped, the tree walked in order is the tally. -/
theorem isTally_toList (hadd : ∀ a b, add (wrap a) (wrap b) = wrap (a + b)) {es : List (κ × M)}
    (hw : ∀ e ∈ es, wrap e.2 = e.2) (hsum : ∀ k, wrap (total k es) = total k es) :
    IsTally cmp es (tally cmp add es).toList := by
  refine ⟨TreeMap.ordered_keys_toList, fun k v => ?_⟩
  rw [TreeMap.mem_toList_iff_getElem?_eq_some, getElem?_tally hadd hw, hsum, Option.ite_none_right_eq_some,
    Option.some.injEq, eq_comm (a := v)]

end Cmpsc473.Tally
