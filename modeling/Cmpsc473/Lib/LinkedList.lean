import Mathlib.Tactic
/-!
# Doubly linked lists in memory

Nodes with pointers to the next and the previous one. `Links` says that the nodes
in memory are those of a list; a part of the list is linked to what is around it
at its two ends only. `splice` links two parts anew: with the nodes of a third
between them a node is inserted, with none a node is removed.
-/

namespace Cmpsc473.LinkedList

open Function

variable {α : Type}

/-- A node. A pointer is `none` where it is `NULL`. -/
structure Node (α : Type) where
  next : Option Nat
  prev : Option Nat
  val : α
  deriving DecidableEq

/-- What an address holds. -/
abbrev Mem (α : Type) := Nat → Option (Node α)

/-- A node of a list: where it is, and what it holds. -/
structure Cell (α : Type) where
  ptr : Nat
  val : α
  deriving DecidableEq

/-- The pointer to the first node, or `q` if there is none. -/
def first (cs : List (Cell α)) (q : Option Nat) : Option Nat :=
  match cs with
  | [] => q
  | c :: _ => some c.ptr

/-- The pointer to the last node, or `p` if there is none. -/
def last (p : Option Nat) : List (Cell α) → Option Nat
  | [] => p
  | c :: cs => last (some c.ptr) cs

/-- Where the nodes are. -/
abbrev ptrs (cs : List (Cell α)) : List Nat := cs.map Cell.ptr

/-- The nodes are in memory, after `p` and before `q`. -/
def Links (mem : Mem α) : Option Nat → List (Cell α) → Option Nat → Prop
  | _, [], _ => True
  | p, c :: cs, q => mem c.ptr = some { next := first cs q, prev := p, val := c.val } ∧ Links mem (some c.ptr) cs q

/-- `list` points to the first of the nodes. -/
structure IsList (mem : Mem α) (list : Option Nat) (cs : List (Cell α)) : Prop where
  list : list = first cs none
  links : Links mem none cs none
  nodup : (ptrs cs).Nodup

variable {mem mem' : Mem α} {list p q u v : Option Nat} {c : Cell α} {as bs cs : List (Cell α)}

@[simp] theorem first_append : first (as ++ bs) q = first as (first bs q) := by cases as <;> rfl

@[simp] theorem last_append : last p (as ++ bs) = last (last p as) bs := by
  induction as generalizing p with
  | nil => rfl
  | cons a as ih => exact ih

theorem first_eq_some {a : Nat} (h : first bs none = some a) : a ∈ ptrs bs := by
  cases bs with
  | nil => cases h
  | cons b bs =>
    cases h
    exact List.mem_cons_self

theorem last_eq_some {a : Nat} (h : last none as = some a) : a ∈ ptrs as := by
  rcases List.eq_nil_or_concat as with rfl | ⟨as, c, rfl⟩
  · cases h
  · rw [List.concat_eq_append, last_append] at h
    cases h
    simp

theorem links_append : Links mem p (as ++ bs) q ↔ Links mem p as (first bs q) ∧ Links mem (last p as) bs q := by
  induction as generalizing p with
  | nil => simp [Links, last]
  | cons a as ih => simp [Links, last, ih, and_assoc]

/-- The list is where it was if its nodes are unchanged. -/
theorem Links.congr (h : Links mem p cs q) (hs : ∀ a ∈ ptrs cs, mem' a = mem a) : Links mem' p cs q := by
  induction cs generalizing p with
  | nil => trivial
  | cons c cs ih =>
    obtain ⟨hc, hcs⟩ := h
    refine ⟨(hs _ List.mem_cons_self).trans hc, ih hcs fun a ha => ?_⟩
    exact hs a (List.mem_cons_of_mem _ ha)

/-- What is in memory at a node of the list. -/
theorem Links.node (h : Links mem p (as ++ c :: bs) q) :
    mem c.ptr = some { next := first bs q, prev := last p as, val := c.val } :=
  (links_append.1 h).2.1

theorem Links.val (h : Links mem p cs q) (hc : c ∈ cs) : ∃ n, mem c.ptr = some n ∧ n.val = c.val := by
  obtain ⟨as, bs, rfl⟩ := List.append_of_mem hc
  exact ⟨_, h.node, rfl⟩

/-- The place for `x` in a list in ascending order. -/
theorem split_ascending {f : α → Nat} (h : cs.Pairwise fun c d => f c.val < f d.val) (x : Nat) :
    ∃ as bs, cs = as ++ bs ∧ (∀ c ∈ as, f c.val ≤ x) ∧ ∀ c ∈ bs, x < f c.val := by
  induction cs with
  | nil => exact ⟨[], [], rfl, by simp, by simp⟩
  | cons c cs ih =>
    obtain ⟨hc, hcs⟩ := List.pairwise_cons.1 h
    by_cases hx : f c.val ≤ x
    · obtain ⟨as, bs, rfl, ha, hb⟩ := ih hcs
      refine ⟨c :: as, bs, rfl, fun a ha' => ?_, hb⟩
      rcases List.mem_cons.1 ha' with rfl | ha'
      · exact hx
      · exact ha a ha'
    · refine ⟨[], c :: cs, rfl, by simp, fun b hb => ?_⟩
      rcases List.mem_cons.1 hb with rfl | hb
      · exact Nat.lt_of_not_le hx
      · exact (Nat.lt_of_not_le hx).trans (hc b hb)

/-- An element between two parts of a list that are related to it. -/
theorem pairwise_insert {β : Type} {r : β → β → Prop} {xs ys : List β} {x : β} (h : (xs ++ ys).Pairwise r)
    (hbefore : ∀ y ∈ xs, r y x) (hafter : ∀ y ∈ ys, r x y) : (xs ++ x :: ys).Pairwise r := by
  obtain ⟨h1, h2, h3⟩ := List.pairwise_append.1 h
  refine List.pairwise_append.2 ⟨h1, List.pairwise_cons.2 ⟨hafter, h2⟩, fun y hy z hz => ?_⟩
  rcases List.mem_cons.1 hz with rfl | hz
  · exact hbefore y hy
  · exact h3 y hy z hz

/-- An element is related to all others, from one side or the other. -/
theorem pairwise_others {β : Type} {r : β → β → Prop} {xs ys : List β} {x y : β} (h : (xs ++ x :: ys).Pairwise r)
    (hy : y ∈ xs ++ ys) : r y x ∨ r x y := by
  obtain ⟨-, h2, h3⟩ := List.pairwise_append.1 h
  rcases List.mem_append.1 hy with hy | hy
  · exact .inl (h3 y hy x List.mem_cons_self)
  · exact .inr ((List.pairwise_cons.1 h2).1 y hy)

theorem exists_mem_insert {β : Type} {P : β → Prop} {xs ys : List β} {x : β} :
    (∃ y ∈ xs ++ x :: ys, P y) ↔ P x ∨ ∃ y ∈ xs ++ ys, P y := by
  simp only [List.perm_middle.mem_iff, List.mem_cons, or_and_right, exists_or, exists_eq_left]

/-! ## Linking two parts -/

/-- `if (p) p->next = v; else list = v;`. -/
def linkNext (mem : Mem α) (list : Option Nat) (p v : Option Nat) : Option (Mem α × Option Nat) :=
  match p with
  | none => some (mem, v)
  | some a => (mem a).map fun n => (update mem a (some { n with next := v }), list)

/-- `if (q) q->prev = u;`. -/
def linkPrev (mem : Mem α) (q u : Option Nat) : Option (Mem α) :=
  match q with
  | none => some mem
  | some a => (mem a).map fun n => update mem a (some { n with prev := u })

/-- Both. -/
def splice (mem : Mem α) (list p v q u : Option Nat) : Option (Mem α × Option Nat) := do
  let (mem, list) ← linkNext mem list p v
  let mem ← linkPrev mem q u
  some (mem, list)

theorem linkNext_last {q' : Option Nat} (h : Links mem none as q') (hn : (ptrs as).Nodup) (hlist : list = first as q') :
    ∃ mem', linkNext mem list (last none as) v = some (mem', first as v) ∧ Links mem' none as v ∧
      ∀ a, a ∉ ptrs as → mem' a = mem a := by
  rcases List.eq_nil_or_concat as with rfl | ⟨as, c, rfl⟩
  · exact ⟨mem, rfl, trivial, fun _ _ => rfl⟩
  · rw [List.concat_eq_append] at *
    have hc := h.node
    rw [ptrs, List.map_append, List.map_singleton] at hn
    have hnot : c.ptr ∉ ptrs as := fun hmem => (List.nodup_append.1 hn).2.2 _ hmem _ (List.mem_singleton.2 rfl) rfl
    refine ⟨update mem c.ptr (some { next := v, prev := last none as, val := c.val }), ?_, ?_, fun a ha => ?_⟩
    · have hfirst : ∀ q : Option Nat, first (as ++ [c]) q = first as (some c.ptr) := fun _ => first_append
      simp only [last_append, last, linkNext, hc, Option.map_some, hlist, hfirst]
    · refine links_append.2 ⟨(links_append.1 h).1.congr fun a ha => ?_, update_self _ _ _, trivial⟩
      exact update_of_ne (ne_of_mem_of_not_mem ha hnot) _ _
    · refine update_of_ne (ne_of_mem_of_not_mem ?_ ha).symm _ _
      exact List.mem_map_of_mem (List.mem_append_right _ (List.mem_singleton.2 rfl))

theorem linkPrev_first {p' : Option Nat} (h : Links mem p' bs none) (hn : (ptrs bs).Nodup) :
    ∃ mem', linkPrev mem (first bs none) u = some mem' ∧ Links mem' u bs none ∧ ∀ a, a ∉ ptrs bs → mem' a = mem a := by
  cases bs with
  | nil => exact ⟨mem, rfl, trivial, fun _ _ => rfl⟩
  | cons c bs =>
    obtain ⟨hc, hbs⟩ := h
    have hnot : c.ptr ∉ ptrs bs := (List.nodup_cons.1 hn).1
    refine ⟨update mem c.ptr (some { next := first bs none, prev := u, val := c.val }), ?_, ⟨update_self _ _ _, ?_⟩,
      fun a ha => ?_⟩
    · simp only [first, linkPrev, hc, Option.map_some]
    · exact hbs.congr fun a ha => update_of_ne (ne_of_mem_of_not_mem ha hnot) _ _
    · exact update_of_ne (ne_of_mem_of_not_mem List.mem_cons_self ha).symm _ _

/-- What the nodes hold does not change. -/
theorem splice_val {list' : Option Nat} (h : splice mem list p v q u = some (mem', list')) (a : Nat) :
    (mem' a).map Node.val = (mem a).map Node.val := by
  have hset : ∀ (m : Mem α) b n n', m b = some n → n'.val = n.val →
      (update m b (some n') a).map Node.val = (m a).map Node.val := by
    intro m b n n' hb hval
    by_cases hab : a = b
    · rw [hab, update_self, hb, Option.map_some, Option.map_some, hval]
    · rw [update_of_ne hab]
  simp only [splice, Option.bind_eq_bind, Option.bind_eq_some_iff] at h
  obtain ⟨⟨mem1, list1⟩, hnext, mem2, hprev, heq⟩ := h
  cases heq
  have h1 : (mem1 a).map Node.val = (mem a).map Node.val := by
    cases p with
    | none =>
      cases hnext
      rfl
    | some b =>
      obtain ⟨n, hb, hn⟩ := Option.map_eq_some_iff.1 hnext
      cases hn
      exact hset mem b n _ hb rfl
  refine Eq.trans ?_ h1
  cases q with
  | none =>
    cases hprev
    rfl
  | some b =>
    obtain ⟨n, hb, hn⟩ := Option.map_eq_some_iff.1 hprev
    cases hn
    exact hset mem1 b n _ hb rfl

/-- Other nodes than the two ends do not change. -/
theorem splice_frame {list' : Option Nat} (h : splice mem list p v q u = some (mem', list')) {a : Nat} (hp : p ≠ some a)
    (hq : q ≠ some a) : mem' a = mem a := by
  simp only [splice, Option.bind_eq_bind, Option.bind_eq_some_iff] at h
  obtain ⟨⟨mem1, list1⟩, hnext, mem2, hprev, heq⟩ := h
  cases heq
  have h1 : mem1 a = mem a := by
    cases p with
    | none =>
      cases hnext
      rfl
    | some b =>
      obtain ⟨n, hb, hn⟩ := Option.map_eq_some_iff.1 hnext
      cases hn
      exact update_of_ne (fun hab => hp (by rw [hab])) _ _
  cases q with
  | none =>
    cases hprev
    exact h1
  | some b =>
    obtain ⟨n, hb, hn⟩ := Option.map_eq_some_iff.1 hprev
    cases hn
    exact (update_of_ne (fun hab => hq (by rw [hab])) _ _).trans h1

theorem splice_at {p' q' : Option Nat} (ha : Links mem none as q') (hb : Links mem p' bs none)
    (hn : (ptrs (as ++ bs)).Nodup) (hlist : list = first as q') :
    ∃ mem', splice mem list (last none as) v (first bs none) u = some (mem', first as v) ∧ Links mem' none as v ∧
      Links mem' u bs none ∧ ∀ a, a ∉ ptrs (as ++ bs) → mem' a = mem a := by
  rw [ptrs, List.map_append] at hn
  obtain ⟨hna, hnb, hne⟩ := List.nodup_append.1 hn
  obtain ⟨mem1, hnext, ha1, hframe1⟩ := linkNext_last (v := v) ha hna hlist
  have hb1 : Links mem1 p' bs none := hb.congr fun b hb => hframe1 b fun ha => hne b ha b hb rfl
  obtain ⟨mem2, hprev, hb2, hframe2⟩ := linkPrev_first (u := u) hb1 hnb
  refine ⟨mem2, ?_, ha1.congr fun a ha => hframe2 a fun hb => hne a ha a hb rfl, hb2, fun a hab => ?_⟩
  · simp only [splice, hnext, hprev, Option.bind_eq_bind, Option.bind_some]
  · rw [ptrs, List.map_append, List.mem_append, not_or] at hab
    exact (hframe2 a hab.2).trans (hframe1 a hab.1)

/-- A new node between two parts of a list. -/
theorem IsList.insert (h : IsList mem list (as ++ bs)) (hc : c.ptr ∉ ptrs (as ++ bs)) :
    ∃ mem', splice (update mem c.ptr (some { next := first bs none, prev := last none as, val := c.val })) list
        (last none as) (some c.ptr) (first bs none) (some c.ptr) = some (mem', first (as ++ c :: bs) none) ∧
      IsList mem' (first (as ++ c :: bs) none) (as ++ c :: bs) := by
  have hlinks : Links (update mem c.ptr (some { next := first bs none, prev := last none as, val := c.val })) none
      (as ++ bs) none :=
    h.links.congr fun a ha => update_of_ne (ne_of_mem_of_not_mem ha hc) _ _
  obtain ⟨ha, hb⟩ := links_append.1 hlinks
  have hlist := h.list
  rw [first_append] at hlist
  obtain ⟨mem', hrun, ha', hb', hframe⟩ := splice_at (v := some c.ptr) (u := some c.ptr) ha hb h.nodup hlist
  have hfirst : first (as ++ c :: bs) none = first as (some c.ptr) := first_append
  refine ⟨mem', hfirst ▸ hrun, rfl, links_append.2 ⟨ha', ?_, hb'⟩, ?_⟩
  · rw [hframe _ hc]
    exact update_self _ _ _
  · rw [ptrs, List.map_append, List.map_cons]
    refine List.nodup_middle.2 (List.nodup_cons.2 ⟨?_, ?_⟩)
    · rwa [← List.map_append]
    · rw [← List.map_append]
      exact h.nodup

/-- A node is taken out of a list. -/
theorem IsList.remove (h : IsList mem list (as ++ c :: bs)) :
    ∃ mem', splice mem list (last none as) (first bs none) (first bs none) (last none as) =
        some (mem', first (as ++ bs) none) ∧
      IsList (update mem' c.ptr none) (first (as ++ bs) none) (as ++ bs) := by
  obtain ⟨ha, -, hb⟩ := links_append.1 h.links
  have hn := h.nodup
  rw [ptrs, List.map_append, List.map_cons, List.nodup_middle, ← List.map_append] at hn
  obtain ⟨hc, hn⟩ := List.nodup_cons.1 hn
  have hlist := h.list
  rw [first_append] at hlist
  obtain ⟨mem', hrun, ha', hb', -⟩ := splice_at (v := first bs none) (u := last none as) ha hb hn hlist
  have hfirst : first (as ++ bs) none = first as (first bs none) := first_append
  refine ⟨mem', hfirst ▸ hrun, rfl, ?_, hn⟩
  have hlinks : Links mem' none (as ++ bs) none := links_append.2 ⟨ha', hb'⟩
  exact hlinks.congr fun a ha => update_of_ne (ne_of_mem_of_not_mem ha hc) _ _

end Cmpsc473.LinkedList
