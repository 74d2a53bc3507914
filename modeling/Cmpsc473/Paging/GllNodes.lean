import Cmpsc473.Lib.LinkedList
import Cmpsc473.Paging.Gll
/-!
# The nodes of the generic linked list (`gll.c`)

The list functions on the nodes in memory, as `gll.c` has them: `gll_findNode`
walks from the nearer end, and the others link and unlink what it finds. A
pointer is an address, or `none` for `NULL`. A function that follows a pointer
to no node, or frees a node twice, has no result. `malloc` is the address it
returns. The lists are shorter than the largest `int`.
-/

namespace Cmpsc473.Paging

open Function LinkedList

/-- `gll_t`. -/
structure GllT where
  size : Int
  first : Option Nat
  last : Option Nat
  deriving DecidableEq

/-- The nodes in memory. -/
abbrev Nodes := LinkedList.Mem (Option Nat)

namespace Nodes

/-- `p->next = v`. -/
def setNext (mem : Nodes) (p v : Option Nat) : Option Nodes := do
  let a ← p
  let n ← mem a
  some (update mem a (some { n with next := v }))

/-- `p->prev = v`. -/
def setPrev (mem : Nodes) (p v : Option Nat) : Option Nodes := do
  let a ← p
  let n ← mem a
  some (update mem a (some { n with prev := v }))

/-- `free`. -/
def free (mem : Nodes) (p : Nat) : Option Nodes := (mem p).map fun _ => update mem p none

/-- `gll_init`. -/
def gllInit : GllT := { size := 0, first := none, last := none }

/-- `gll_initNode`, where `malloc` returns `newNode`. -/
def gllInitNode (mem : Nodes) (newNode : Nat) (data : Option Nat) : Nodes :=
  update mem newNode (some { val := data, prev := none, next := none })

/-- The loop of `gll_findNode`, for `fuel` rounds. -/
def findLoop (mem : Nodes) (reverse : Bool) (pos : Int) : Nat → Option Nat → Int → Option (Option Nat)
  | _, none, _ => some none
  | 0, some _, _ => none
  | fuel + 1, some currNode, currPos =>
    if currPos = pos then some (some currNode)
    else do
      let n ← mem currNode
      findLoop mem reverse pos fuel (if reverse then n.prev else n.next) (if reverse then currPos - 1 else currPos + 1)

/-- `gll_findNode`. -/
def gllFindNode (mem : Nodes) (list : GllT) (pos : Int) (fuel : Nat) : Option (Option Nat) :=
  if pos > list.size then some none
  else if pos > (list.size - 1).tdiv 2 then findLoop mem true pos fuel list.last (list.size - 1)
  else findLoop mem false pos fuel list.first 0

/-- The rounds that are enough for a list: its nodes. -/
def rounds (list : GllT) : Nat := list.size.toNat

/-- `gll_get`. -/
def gllGet (mem : Nodes) (list : GllT) (pos : Int) : Option (Option Nat) := do
  match ← gllFindNode mem list pos (rounds list) with
  | some node => (mem node).map Node.val
  | none => some none

/-- `gll_first`. -/
def gllFirst (mem : Nodes) (list : GllT) : Option (Option Nat) :=
  match list.first with
  | none => some none
  | some node => (mem node).map Node.val

/-- `gll_last`. -/
def gllLast (mem : Nodes) (list : GllT) : Option (Option Nat) :=
  match list.last with
  | none => some none
  | some node => (mem node).map Node.val

/-- `gll_add`: what it returns, and the memory and the list it leaves. -/
def gllAdd (mem : Nodes) (list : GllT) (data : Option Nat) (pos : Int) (newNode : Nat) :
    Option (Nodes × GllT × Int) :=
  if pos > list.size then some (mem, list, -1)
  else
    let mem := gllInitNode mem newNode data
    if list.size = 0 then
      some (mem, { size := list.size + 1, first := some newNode, last := some newNode }, 0)
    else do
      match ← gllFindNode mem list pos (rounds list) with
      | some currNode =>
        let n ← mem currNode
        let mem ← setPrev mem (some newNode) n.prev
        let mem ← setNext mem (some newNode) (some currNode)
        if n.prev = none then
          let mem ← setPrev mem (some currNode) (some newNode)
          some (mem, { list with first := some newNode, size := list.size + 1 }, 0)
        else
          let mem ← setNext mem n.prev (some newNode)
          let mem ← setPrev mem (some currNode) (some newNode)
          some (mem, { list with size := list.size + 1 }, 0)
      | none =>
        let mem ← setNext mem list.last (some newNode)
        let mem ← setPrev mem (some newNode) list.last
        some (mem, { list with last := some newNode, size := list.size + 1 }, 0)

/-- `gll_set`. -/
def gllSet (mem : Nodes) (list : GllT) (data : Option Nat) (pos : Int) : Option (Nodes × Option Nat) := do
  match ← gllFindNode mem list pos (rounds list) with
  | none => some (mem, none)
  | some currNode =>
    let n ← mem currNode
    some (update mem currNode (some { n with val := data }), n.val)

/-- `gll_push`. -/
def gllPush (mem : Nodes) (list : GllT) (data : Option Nat) (newNode : Nat) : Option (Nodes × GllT) :=
  let mem := gllInitNode mem newNode data
  if list.size = 0 then some (mem, { size := list.size + 1, first := some newNode, last := some newNode })
  else do
    let mem ← setPrev mem list.first (some newNode)
    let mem ← setNext mem (some newNode) list.first
    some (mem, { list with first := some newNode, size := list.size + 1 })

/-- `gll_pushBack`. -/
def gllPushBack (mem : Nodes) (list : GllT) (data : Option Nat) (newNode : Nat) : Option (Nodes × GllT) :=
  let mem := gllInitNode mem newNode data
  if list.size = 0 then some (mem, { size := list.size + 1, first := some newNode, last := some newNode })
  else do
    let mem ← setNext mem list.last (some newNode)
    let mem ← setPrev mem (some newNode) list.last
    some (mem, { list with last := some newNode, size := list.size + 1 })

/-- `gll_remove`. -/
def gllRemove (mem : Nodes) (list : GllT) (pos : Int) : Option (Nodes × GllT × Option Nat) := do
  match ← gllFindNode mem list pos (rounds list) with
  | none => some (mem, list, none)
  | some currNode =>
    let n ← mem currNode
    let (mem, first) ← linkNext mem list.first n.prev n.next
    let mem ← linkPrev mem n.next n.prev
    let last := if n.next = none then n.prev else list.last
    let mem ← free mem currNode
    some (mem, { size := list.size - 1, first := first, last := last }, n.val)

/-- `gll_pop`. The head goes even if its data is `NULL`. -/
def gllPop (mem : Nodes) (list : GllT) : Option (Nodes × GllT × Option Nat) :=
  match list.first with
  | none => some (mem, list, none)
  | some node => do
    let n ← mem node
    let (mem, list, removed) ← gllRemove mem list 0
    some (mem, list, if removed = none then none else n.val)

/-- `gll_popBack`. -/
def gllPopBack (mem : Nodes) (list : GllT) : Option (Nodes × GllT × Option Nat) :=
  match list.last with
  | none => some (mem, list, none)
  | some node => do
    let n ← mem node
    let (mem, list, removed) ← gllRemove mem list (list.size - 1)
    some (mem, list, if removed = none then none else n.val)

/-- The loops of `gll_each` and `gll_eachReverse`: what `f` is called with. -/
def eachLoop (mem : Nodes) (reverse : Bool) : Nat → Option Nat → Option (List (Option Nat))
  | _, none => some []
  | 0, some _ => none
  | fuel + 1, some currNode => do
    let n ← mem currNode
    let rest ← eachLoop mem reverse fuel (if reverse then n.prev else n.next)
    some (n.val :: rest)

/-- `gll_each`. -/
def gllEach (mem : Nodes) (list : GllT) : Option (List (Option Nat)) := eachLoop mem false (rounds list) list.first

/-- `gll_eachReverse`. -/
def gllEachReverse (mem : Nodes) (list : GllT) : Option (List (Option Nat)) :=
  eachLoop mem true (rounds list) list.last

/-- The loop of `gll_clear` and of `gll_destroy`. -/
def clearLoop (mem : Nodes) : Nat → Option Nat → Option Nodes
  | _, none => some mem
  | 0, some _ => none
  | fuel + 1, some currNode => do
    let n ← mem currNode
    let mem ← free mem currNode
    clearLoop mem fuel n.next

/-- `gll_clear`. -/
def gllClear (mem : Nodes) (list : GllT) : Option (Nodes × GllT) :=
  (clearLoop mem (rounds list) list.first).map fun mem => (mem, { size := 0, first := none, last := none })

/-- `gll_destroy`: the nodes, and the list itself. -/
def gllDestroy (mem : Nodes) (list : GllT) : Option Nodes := clearLoop mem (rounds list) list.first

/-! ## Finding a node -/

/-- `list` and the nodes in memory are those of `cs`. -/
structure IsGll (mem : Nodes) (list : GllT) (cs : List (Cell (Option Nat))) : Prop where
  isList : IsList mem list.first cs
  last : list.last = last none cs
  size : list.size = cs.length

variable {mem mem' : Nodes} {list list' : GllT} {p q : Option Nat} {c : Cell (Option Nat)}
  {as bs cs ds : List (Cell (Option Nat))} {pos k : Int} {fuel : Nat}

theorem findLoop_next (h : Links mem p (bs ++ c :: ds) none) (hf : bs.length < fuel) :
    findLoop mem false (k + bs.length) fuel (first (bs ++ c :: ds) none) k = some (some c.ptr) := by
  induction bs generalizing p k fuel with
  | nil =>
    obtain ⟨fuel, rfl⟩ := Nat.exists_eq_add_of_lt hf
    simp [findLoop, first]
  | cons b bs ih =>
    obtain ⟨fuel, rfl⟩ := Nat.exists_eq_add_of_lt hf
    obtain ⟨hb, hrest⟩ := h
    have hne : ¬k = k + (b :: bs).length := by simp; omega
    have hnext := ih (k := k + 1) hrest (show bs.length < (b :: bs).length + fuel by simp; omega)
    rw [List.length_cons, Nat.cast_add, Nat.cast_one, show k + ((bs.length : Int) + 1) = k + 1 + bs.length by omega] at *
    simp only [List.cons_append, first, findLoop, if_neg hne, hb, Option.bind_eq_bind, Option.bind_some]
    exact hnext

theorem findLoop_next_none (h : Links mem p bs none) (hpos : pos < k ∨ k + bs.length ≤ pos) (hf : bs.length ≤ fuel) :
    findLoop mem false pos fuel (first bs none) k = some none := by
  induction bs generalizing p k fuel with
  | nil => cases fuel <;> rfl
  | cons b bs ih =>
    obtain ⟨fuel, rfl⟩ := Nat.exists_eq_add_of_lt (show bs.length < fuel from hf)
    obtain ⟨hb, hrest⟩ := h
    rw [List.length_cons, Nat.cast_add, Nat.cast_one] at hpos
    have hne : ¬k = pos := by omega
    have hnext := ih (k := k + 1) hrest (by omega) (show bs.length ≤ bs.length + fuel by omega)
    simp only [first, findLoop, if_neg hne, hb, Option.bind_eq_bind, Option.bind_some]
    exact hnext

theorem findLoop_prev (h : Links mem none (as ++ c :: bs) q) (hf : bs.length < fuel) :
    findLoop mem true as.length fuel (last none (as ++ c :: bs)) (as.length + bs.length) = some (some c.ptr) := by
  induction bs using List.reverseRecOn generalizing q fuel with
  | nil =>
    obtain ⟨fuel, rfl⟩ := Nat.exists_eq_add_of_lt hf
    simp [findLoop, last]
  | append_singleton bs b ih =>
    obtain ⟨fuel, rfl⟩ := Nat.exists_eq_add_of_lt hf
    rw [← List.cons_append, ← List.append_assoc] at h ⊢
    have hb := h.node
    rw [List.length_append, List.length_singleton] at *
    have hne : ¬(as.length : Int) + ((bs.length + 1 : Nat) : Int) = as.length := by omega
    have hprev := ih (links_append.1 h).1 (show bs.length < bs.length + 1 + fuel by omega)
    rw [show (as.length : Int) + bs.length = as.length + ((bs.length + 1 : Nat) : Int) - 1 by omega] at hprev
    have hlast : last none ((as ++ c :: bs) ++ [b]) = some b.ptr := last_append
    simp only [hlast, findLoop, if_neg hne, hb, Option.bind_eq_bind, Option.bind_some]
    exact hprev

theorem findLoop_prev_none (h : Links mem none as q) (hpos : pos < 0 ∨ as.length ≤ pos) (hf : as.length ≤ fuel) :
    findLoop mem true pos fuel (last none as) (as.length - 1) = some none := by
  induction as using List.reverseRecOn generalizing q fuel with
  | nil => cases fuel <;> rfl
  | append_singleton as a ih =>
    rw [List.length_append, List.length_singleton] at *
    obtain ⟨fuel, rfl⟩ := Nat.exists_eq_add_of_lt (show as.length < fuel from hf)
    have ha := h.node
    have hne : ¬((as.length + 1 : Nat) : Int) - 1 = pos := by omega
    have hprev := ih (links_append.1 h).1 (by omega) (show as.length ≤ as.length + fuel by omega)
    rw [show (as.length : Int) - 1 = ((as.length + 1 : Nat) : Int) - 1 - 1 by omega] at hprev
    have hlast : last none (as ++ [a]) = some a.ptr := last_append
    simp only [hlast, findLoop, if_neg hne, ha, Option.bind_eq_bind, Option.bind_some]
    exact hprev

/-- The node at a position of the list, found from the nearer end. -/
theorem gllFindNode_at (h : IsGll mem list (as ++ c :: bs)) (hf : (as.length + bs.length) / 2 < fuel) :
    gllFindNode mem list as.length fuel = some (some c.ptr) := by
  have hsize := h.size
  have hlinks := h.isList.links
  rw [List.length_append, List.length_cons] at hsize
  have hlen : ¬(as.length : Int) > list.size := by omega
  rw [gllFindNode, if_neg hlen]
  have hdiv : (list.size - 1).tdiv 2 = (((as.length + bs.length) / 2 : Nat) : Int) := by
    rw [Int.tdiv_eq_ediv_of_nonneg (by omega), hsize]
    push_cast
    omega
  split
  · rw [h.last, show list.size - 1 = as.length + bs.length by omega]
    exact findLoop_prev hlinks (by omega)
  · have hfirst := findLoop_next (k := 0) hlinks (show as.length < fuel by omega)
    rw [h.isList.list]
    rwa [zero_add] at hfirst

/-- No node is at a position before the list or behind it. -/
theorem gllFindNode_none (h : IsGll mem list cs) (hpos : pos < 0 ∨ cs.length ≤ pos) (hf : cs.length ≤ fuel) :
    gllFindNode mem list pos fuel = some none := by
  have hsize := h.size
  rw [gllFindNode]
  split
  · rfl
  · split
    · rw [h.last, hsize]
      exact findLoop_prev_none h.isList.links hpos hf
    · rw [h.isList.list]
      exact findLoop_next_none h.isList.links (by omega) hf

/-! ## One list -/

/-- What a function does to the nodes of one list: those of `cs'` are the
list's after it, at most one of them is new, the ones it dropped are free, and
no other node changes. -/
structure Leaves (mem : Nodes) (cs : List (Cell (Option Nat))) (newNode : Nat) (mem' : Nodes) (list' : GllT)
    (cs' : List (Cell (Option Nat))) : Prop where
  isGll : IsGll mem' list' cs'
  others : ∀ a, a ∉ ptrs cs → a ∉ ptrs cs' → mem' a = mem a
  dropped : ∀ a ∈ ptrs cs, a ∉ ptrs cs' → mem' a = none
  kept : ∀ a ∈ ptrs cs', a ∈ ptrs cs ∨ a = newNode

variable {newNode : Nat} {data : Option Nat}

/-- A function that changes no node. -/
theorem Leaves.refl (h : IsGll mem list cs) : Leaves mem cs newNode mem list cs :=
  ⟨h, fun _ _ _ => rfl, fun _ ha hn => absurd ha hn, fun _ ha => .inl ha⟩

theorem isGll_init (mem : Nodes) : IsGll mem gllInit [] := ⟨⟨rfl, trivial, List.nodup_nil⟩, rfl, rfl⟩

/-- A new node between two parts of the list. -/
theorem Leaves.insert (h : IsGll mem list cs) (hcs : cs = as ++ bs) (hp : p = last none as) (hq : q = first bs none)
    (hnew : newNode ∉ ptrs cs) {first' last' : Option Nat}
    (hs : splice (update mem newNode (some { next := q, prev := p, val := data })) list.first p (some newNode) q
      (some newNode) = some (mem', first')) (hlast : last' = if bs = [] then some newNode else list.last) :
    Leaves mem cs newNode mem' { size := list.size + 1, first := first', last := last' }
      (as ++ { ptr := newNode, val := data } :: bs) := by
  subst hcs hp hq hlast
  obtain ⟨mem'', hrun, hlist⟩ := h.isList.insert (c := { ptr := newNode, val := data }) hnew
  rw [hs] at hrun
  cases hrun
  refine ⟨⟨hlist, ?_, ?_⟩, fun a ha ha' => ?_, fun a ha hn => ?_, fun a ha => ?_⟩
  · have hlast := h.last
    rw [last_append] at hlast ⊢
    cases bs with
    | nil => rfl
    | cons b bs => exact hlast
  · rw [h.size, List.length_append, List.length_append, List.length_cons]
    push_cast
    ring
  · have hne : a ≠ newNode := by
      rintro rfl
      exact ha' (by simp)
    have hends : last none as ≠ some a ∧ first bs none ≠ some a := by
      constructor
      · exact fun hl => ha (by simpa using Or.inl (List.mem_map.1 (last_eq_some hl)))
      · exact fun hf => ha (by simpa using Or.inr (List.mem_map.1 (first_eq_some hf)))
    rw [splice_frame hs hends.1 hends.2, update_of_ne hne]
  · refine absurd ?_ hn
    simp only [ptrs, List.map_append, List.map_cons, List.mem_append, List.mem_cons] at ha ⊢
    exact ha.imp_right .inr
  · simp only [ptrs, List.map_append, List.map_cons, List.mem_append, List.mem_cons] at ha ⊢
    tauto

theorem IsGll.fresh (h : IsGll mem list cs) (hnew : mem newNode = none) : newNode ∉ ptrs cs := by
  intro hm
  obtain ⟨c, hc, rfl⟩ := List.mem_map.1 hm
  obtain ⟨n, hn, -⟩ := h.isList.links.val hc
  rw [hnew] at hn
  cases hn

theorem IsGll.size_eq_zero (h : IsGll mem list cs) : list.size = 0 ↔ cs = [] := by
  rw [h.size, Nat.cast_eq_zero, List.length_eq_zero_iff]

theorem setNext_some {a : Nat} {n : Node (Option Nat)} {v : Option Nat} (h : mem a = some n) :
    setNext mem (some a) v = some (update mem a (some { n with next := v })) := by
  simp [setNext, h]

theorem setPrev_some {a : Nat} {n : Node (Option Nat)} {v : Option Nat} (h : mem a = some n) :
    setPrev mem (some a) v = some (update mem a (some { n with prev := v })) := by
  simp [setPrev, h]

/-- A node that is written before and after another one. -/
theorem update_twice {a b : Nat} {x y z : Option (Node (Option Nat))} (h : a ≠ b) :
    update (update (update mem a x) b y) a z = update (update mem a z) b y := by
  rw [update_comm h.symm, update_idem]

theorem gllPushBack_spec (h : IsGll mem list cs) (hnew : mem newNode = none) (data : Option Nat) :
    ∃ mem' list', gllPushBack mem list data newNode = some (mem', list') ∧
      Leaves mem cs newNode mem' list' (cs ++ [{ ptr := newNode, val := data }]) := by
  have hfresh := h.fresh hnew
  rcases List.eq_nil_or_concat cs with rfl | ⟨as, c, rfl⟩
  · have hzero := h.size_eq_zero.2 rfl
    refine ⟨_, _, by rw [gllPushBack, if_pos hzero], ?_⟩
    exact Leaves.insert h (List.append_nil []).symm rfl rfl hfresh rfl rfl
  · rw [List.concat_eq_append] at *
    have hzero : ¬list.size = 0 := fun h0 => by simpa using h.size_eq_zero.1 h0
    have hc := h.isList.links.node
    have hne : c.ptr ≠ newNode := fun heq => hfresh (heq ▸ by simp)
    have hlast : list.last = some c.ptr := by rw [h.last, last_append, last, last]
    have hc' : gllInitNode mem newNode data c.ptr = some { next := first [] none, prev := last none as, val := c.val } :=
      (update_of_ne hne _ _).trans hc
    have hnode : update (gllInitNode mem newNode data) c.ptr (some { next := some newNode, prev := last none as, val := c.val })
        newNode = some { val := data, prev := none, next := none } := (update_of_ne hne.symm _ _).trans (update_self _ _ _)
    have hrun : gllPushBack mem list data newNode = some (update (update (gllInitNode mem newNode data) c.ptr
        (some { next := some newNode, prev := last none as, val := c.val })) newNode
          (some { next := none, prev := some c.ptr, val := data }),
        { list with last := some newNode, size := list.size + 1 }) := by
      simp only [gllPushBack, if_neg hzero, hlast, setNext_some hc', setPrev_some hnode, Option.bind_eq_bind,
        Option.bind_some]
    refine ⟨_, _, hrun, ?_⟩
    rw [gllInitNode, update_twice hne.symm]
    have hsplice : splice (update mem newNode (some { next := none, prev := some c.ptr, val := data })) list.first
        (some c.ptr) (some newNode) none (some newNode) = some (update (update mem newNode
          (some { next := none, prev := some c.ptr, val := data })) c.ptr
            (some { next := some newNode, prev := last none as, val := c.val }), list.first) := by
      simp [splice, linkNext, linkPrev, update_of_ne hne, hc]
    exact Leaves.insert h (List.append_nil _).symm last_append.symm rfl hfresh hsplice rfl

theorem gllPush_spec (h : IsGll mem list cs) (hnew : mem newNode = none) (data : Option Nat) :
    ∃ mem' list', gllPush mem list data newNode = some (mem', list') ∧
      Leaves mem cs newNode mem' list' ({ ptr := newNode, val := data } :: cs) := by
  have hfresh := h.fresh hnew
  cases cs with
  | nil =>
    have hzero := h.size_eq_zero.2 rfl
    refine ⟨_, _, by rw [gllPush, if_pos hzero], ?_⟩
    exact Leaves.insert h (List.append_nil []).symm rfl rfl hfresh rfl rfl
  | cons c bs =>
    have hzero : ¬list.size = 0 := fun h0 => by simpa using h.size_eq_zero.1 h0
    have hc := h.isList.links.1
    have hne : c.ptr ≠ newNode := fun heq => hfresh (heq ▸ by simp)
    have hfirst : list.first = some c.ptr := h.isList.list
    have hc' : gllInitNode mem newNode data c.ptr = some { next := first bs none, prev := none, val := c.val } :=
      (update_of_ne hne _ _).trans hc
    have hnode : update (gllInitNode mem newNode data) c.ptr (some { next := first bs none, prev := some newNode, val := c.val })
        newNode = some { val := data, prev := none, next := none } := (update_of_ne hne.symm _ _).trans (update_self _ _ _)
    have hrun : gllPush mem list data newNode = some (update (update (gllInitNode mem newNode data) c.ptr
        (some { next := first bs none, prev := some newNode, val := c.val })) newNode
          (some { next := some c.ptr, prev := none, val := data }),
        { list with first := some newNode, size := list.size + 1 }) := by
      simp only [gllPush, if_neg hzero, hfirst, setNext_some hnode, setPrev_some hc', Option.bind_eq_bind,
        Option.bind_some]
    refine ⟨_, _, hrun, ?_⟩
    rw [gllInitNode, update_twice hne.symm]
    have hsplice : splice (update mem newNode (some { next := some c.ptr, prev := none, val := data })) list.first none
        (some newNode) (some c.ptr) (some newNode) = some (update (update mem newNode
          (some { next := some c.ptr, prev := none, val := data })) c.ptr
            (some { next := first bs none, prev := some newNode, val := c.val }), some newNode) := by
      simp [splice, linkNext, linkPrev, update_of_ne hne, hc]
    exact Leaves.insert h (List.nil_append (c :: bs)).symm rfl rfl hfresh hsplice rfl

theorem IsGll.congr (h : IsGll mem list cs) (hs : ∀ a ∈ ptrs cs, mem' a = mem a) : IsGll mem' list cs :=
  ⟨⟨h.isList.list, h.isList.links.congr hs, h.isList.nodup⟩, h.last, h.size⟩

/-- A node that is in no list yet. -/
theorem IsGll.initNode (h : IsGll mem list cs) (hnew : newNode ∉ ptrs cs) (data : Option Nat) :
    IsGll (gllInitNode mem newNode data) list cs :=
  h.congr fun _ ha => update_of_ne (ne_of_mem_of_not_mem ha hnew) _ _

theorem IsGll.rounds (h : IsGll mem list cs) : rounds list = cs.length := by
  rw [Nodes.rounds, h.size, Int.toNat_natCast]

/-- `gll_add` links a node as `splice` does. -/
theorem splice_eq {a b : Nat} : (if p = none then do
      let mem ← setPrev mem (some b) (some a)
      some (mem, { list with first := some a, size := list.size + 1 }, (0 : Int))
    else do
      let mem ← setNext mem p (some a)
      let mem ← setPrev mem (some b) (some a)
      some (mem, { list with size := list.size + 1 }, 0)) =
    (splice mem list.first p (some a) (some b) (some a)).map fun r =>
      (r.1, { list with first := r.2, size := list.size + 1 }, 0) := by
  cases p with
  | none => cases hb : mem b <;> simp [splice, linkNext, linkPrev, setPrev, hb]
  | some d =>
    cases hd : mem d with
    | none => simp [splice, linkNext, setNext, hd]
    | some n =>
      simp only [splice, linkNext, linkPrev, setNext, setPrev, hd, reduceCtorEq, if_false, Option.map_some,
        Option.bind_eq_bind, Option.bind_some]
      cases update mem d (some { n with next := some a }) b <;> rfl

/-- `gll_add` at the place of a node. -/
theorem gllAdd_at (h : IsGll mem list (as ++ c :: bs)) (hnew : mem newNode = none) (data : Option Nat) :
    ∃ mem' list', gllAdd mem list data as.length newNode = some (mem', list', 0) ∧
      Leaves mem (as ++ c :: bs) newNode mem' list' (as ++ { ptr := newNode, val := data } :: c :: bs) := by
  have hfresh := h.fresh hnew
  have hinit := h.initNode hfresh data
  have hsize := h.size
  have hrounds := h.rounds
  rw [List.length_append, List.length_cons] at hsize hrounds
  have hpos : ¬(as.length : Int) > list.size := by omega
  have hzero : ¬list.size = 0 := by omega
  have hfind := gllFindNode_at hinit (show (as.length + bs.length) / 2 < rounds list by omega)
  have hc := hinit.isList.links.node
  have hself : gllInitNode mem newNode data newNode = some { val := data, prev := none, next := none } := update_self _ _ _
  obtain ⟨mem', hrun, -⟩ := h.isList.insert (c := { ptr := newNode, val := data }) hfresh
  refine ⟨mem', _, ?_, Leaves.insert h rfl rfl rfl hfresh hrun (if_neg (List.cons_ne_nil c bs)).symm⟩
  simp only [gllAdd, if_neg hpos, if_neg hzero, hfind, hc, setPrev_some hself, setNext_some (update_self _ _ _),
    Option.bind_eq_bind, Option.bind_some]
  rw [update_idem, gllInitNode, update_idem]
  refine splice_eq.trans ?_
  exact congrArg (Option.map fun r => (r.1, { list with first := r.2, size := list.size + 1 }, (0 : Int))) hrun

/-- `gll_add` behind the last node, which is also where a negative position puts it. -/
theorem gllAdd_end (h : IsGll mem list cs) (hnew : mem newNode = none) (data : Option Nat)
    (hpos : pos < 0 ∨ pos = cs.length) : ∃ mem' list', gllAdd mem list data pos newNode = some (mem', list', 0) ∧
      Leaves mem cs newNode mem' list' (cs ++ [{ ptr := newNode, val := data }]) := by
  have hinit := h.initNode (h.fresh hnew) data
  have hle : ¬pos > list.size := by
    rw [h.size]
    omega
  have hfind : list.size ≠ 0 → gllFindNode (gllInitNode mem newNode data) list pos (rounds list) = some none :=
    fun _ => gllFindNode_none hinit (by omega) h.rounds.ge
  obtain ⟨mem', list', hrun, hleaves⟩ := gllPushBack_spec h hnew data
  refine ⟨mem', list', ?_, hleaves⟩
  rw [gllPushBack] at hrun
  rw [gllAdd, if_neg hle]
  split at hrun
  · rename_i hzero
    cases hrun
    rw [if_pos hzero]
  · rename_i hzero
    obtain ⟨mem1, h1, hrest⟩ := Option.bind_eq_some_iff.1 hrun
    obtain ⟨mem2, h2, heq⟩ := Option.bind_eq_some_iff.1 hrest
    cases heq
    simp only [if_neg hzero, hfind hzero, h1, h2, Option.bind_eq_bind, Option.bind_some]

/-- A node is unlinked and freed. -/
theorem Leaves.remove (h : IsGll mem list (as ++ c :: bs)) {first' last' : Option Nat}
    (hs : splice mem list.first (last none as) (first bs none) (first bs none) (last none as) = some (mem', first'))
    (hlast : last' = if first bs none = none then last none as else list.last) :
    Leaves mem (as ++ c :: bs) newNode (update mem' c.ptr none)
      { size := list.size - 1, first := first', last := last' } (as ++ bs) := by
  subst hlast
  obtain ⟨mem'', hrun, hlist⟩ := h.isList.remove
  rw [hs] at hrun
  cases hrun
  refine ⟨⟨hlist, ?_, ?_⟩, fun a ha _ => ?_, fun a ha hn => ?_, fun a ha => ?_⟩
  · cases bs with
    | nil => simp [first]
    | cons b bs =>
      have hlast := h.last
      have hne : ¬first (b :: bs) none = none := by simp [first]
      rw [last_append] at hlast ⊢
      simp only [if_neg hne]
      exact hlast
  · have hsize := h.size
    rw [List.length_append, List.length_cons] at hsize
    rw [List.length_append]
    show list.size - 1 = _
    omega
  · have hne : a ≠ c.ptr := by
      rintro rfl
      exact ha (by simp)
    have hends : last none as ≠ some a ∧ first bs none ≠ some a := by
      constructor
      · exact fun hl => ha (by simpa using .inl (List.mem_map.1 (last_eq_some hl)))
      · exact fun hf => ha (by simpa using .inr (.inr (List.mem_map.1 (first_eq_some hf))))
    rw [update_of_ne hne, splice_frame hs hends.1 hends.2]
  · have heq : a = c.ptr := by
      simp only [ptrs, List.map_append, List.map_cons, List.mem_append, List.mem_cons] at ha hn
      tauto
    rw [heq, update_self]
  · simp only [ptrs, List.map_append, List.map_cons, List.mem_append, List.mem_cons] at ha ⊢
    tauto

theorem gllRemove_at (h : IsGll mem list (as ++ c :: bs)) : ∃ mem' list',
    gllRemove mem list as.length = some (mem', list', c.val) ∧
      ∀ newNode, Leaves mem (as ++ c :: bs) newNode mem' list' (as ++ bs) := by
  have hrounds := h.rounds
  rw [List.length_append, List.length_cons] at hrounds
  have hfind := gllFindNode_at h (show (as.length + bs.length) / 2 < rounds list by omega)
  have hc := h.isList.links.node
  obtain ⟨mem', hrun, -⟩ := h.isList.remove
  refine ⟨_, _, ?_, fun _ => Leaves.remove h hrun rfl⟩
  -- the links of the node itself stay until it is freed
  have hkeep : mem' c.ptr = some { next := first bs none, prev := last none as, val := c.val } := by
    have hnodup := h.isList.nodup
    rw [ptrs, List.map_append, List.map_cons, List.nodup_middle, ← List.map_append] at hnodup
    have hnot := (List.nodup_cons.1 hnodup).1
    rw [List.map_append, List.mem_append, not_or] at hnot
    rw [splice_frame hrun (fun hl => hnot.1 (last_eq_some hl)) fun hf => hnot.2 (first_eq_some hf), hc]
  simp only [splice, Option.bind_eq_bind, Option.bind_eq_some_iff] at hrun
  obtain ⟨⟨mem1, first1⟩, hnext, mem2, hprev, heq⟩ := hrun
  simp only [Option.some.injEq, Prod.mk.injEq] at heq
  obtain ⟨rfl, rfl⟩ := heq
  simp only [gllRemove, hfind, hc, hnext, hprev, free, hkeep, Option.bind_eq_bind, Option.bind_some, Option.map_some]

theorem gllRemove_none (h : IsGll mem list cs) (hpos : pos < 0 ∨ cs.length ≤ pos) :
    gllRemove mem list pos = some (mem, list, none) := by
  simp only [gllRemove, gllFindNode_none h hpos h.rounds.ge, Option.bind_eq_bind, Option.bind_some]

theorem gllPop_spec (h : IsGll mem list cs) : ∃ mem' list',
    gllPop mem list = some (mem', list', (cs.map Cell.val).headD none) ∧
      ∀ newNode, Leaves mem cs newNode mem' list' cs.tail := by
  have hfirst := h.isList.list
  cases cs with
  | nil =>
    refine ⟨mem, list, ?_, fun _ => .refl h⟩
    rw [gllPop, hfirst]
    rfl
  | cons c bs =>
    have h' : IsGll mem list ([] ++ c :: bs) := h
    obtain ⟨mem', list', hrun, hleaves⟩ := gllRemove_at h'
    refine ⟨mem', list', ?_, hleaves⟩
    have hc := h.isList.links.1
    have hrun' : gllRemove mem list 0 = some (mem', list', c.val) := hrun
    simp only [gllPop, hfirst, first, hc, hrun', Option.bind_eq_bind, Option.bind_some, List.map_cons, List.headD_cons]
    cases c.val <;> rfl

theorem gllPopBack_spec (h : IsGll mem list cs) : ∃ mem' list',
    gllPopBack mem list = some (mem', list', (cs.map Cell.val).getLastD none) ∧
      ∀ newNode, Leaves mem cs newNode mem' list' cs.dropLast := by
  have hlast := h.last
  rcases List.eq_nil_or_concat cs with rfl | ⟨as, c, rfl⟩
  · refine ⟨mem, list, ?_, fun _ => .refl h⟩
    rw [gllPopBack, hlast]
    rfl
  · rw [List.concat_eq_append] at *
    obtain ⟨mem', list', hrun, hleaves⟩ := gllRemove_at h
    rw [List.append_nil] at hleaves
    refine ⟨mem', list', ?_, by rwa [List.dropLast_concat]⟩
    have hc := h.isList.links.node
    have hlast' : list.last = some c.ptr := hlast.trans last_append
    have hpos : list.size - 1 = as.length := by
      rw [h.size]
      simp
    simp only [gllPopBack, hlast', hpos, hc, hrun, Option.bind_eq_bind, Option.bind_some, List.map_append, List.map_cons,
      List.map_nil, List.getLastD_concat]
    cases c.val <;> rfl

theorem gllSet_at (h : IsGll mem list (as ++ c :: bs)) (data : Option Nat) : ∃ mem',
    gllSet mem list data as.length = some (mem', c.val) ∧
      ∀ newNode, Leaves mem (as ++ c :: bs) newNode mem' list (as ++ { c with val := data } :: bs) := by
  have hrounds := h.rounds
  rw [List.length_append, List.length_cons] at hrounds
  have hfind := gllFindNode_at h (show (as.length + bs.length) / 2 < rounds list by omega)
  have hc := h.isList.links.node
  have hptrs : ptrs (as ++ { c with val := data } :: bs) = ptrs (as ++ c :: bs) := by simp
  refine ⟨_, by simp only [gllSet, hfind, hc, Option.bind_eq_bind, Option.bind_some]; rfl, fun newNode => ?_⟩
  refine ⟨⟨⟨?_, ?_, ?_⟩, ?_, ?_⟩, fun a ha _ => ?_, fun a ha hn => absurd (hptrs ▸ ha) hn, fun a ha => .inl (hptrs ▸ ha)⟩
  · rw [h.isList.list, first_append, first_append]
    rfl
  · have hnodup := h.isList.nodup
    rw [ptrs, List.map_append, List.map_cons, List.nodup_middle, ← List.map_append] at hnodup
    have hnot := (List.nodup_cons.1 hnodup).1
    rw [List.map_append, List.mem_append, not_or] at hnot
    obtain ⟨has, -, hbs⟩ := links_append.1 h.isList.links
    refine links_append.2 ⟨has.congr fun a ha => ?_, update_self _ _ _, hbs.congr fun a ha => ?_⟩
    · exact update_of_ne (ne_of_mem_of_not_mem ha hnot.1) _ _
    · exact update_of_ne (ne_of_mem_of_not_mem ha hnot.2) _ _
  · rw [hptrs]
    exact h.isList.nodup
  · rw [h.last, last_append, last_append]
    rfl
  · rw [h.size]
    simp
  · refine update_of_ne ?_ _ _
    rintro rfl
    exact ha (by simp)

theorem gllSet_none (h : IsGll mem list cs) (hpos : pos < 0 ∨ cs.length ≤ pos) (data : Option Nat) :
    gllSet mem list data pos = some (mem, none) := by
  simp only [gllSet, gllFindNode_none h hpos h.rounds.ge, Option.bind_eq_bind, Option.bind_some]

theorem gllGet_at (h : IsGll mem list (as ++ c :: bs)) : gllGet mem list as.length = some c.val := by
  have hrounds := h.rounds
  rw [List.length_append, List.length_cons] at hrounds
  have hfind := gllFindNode_at h (show (as.length + bs.length) / 2 < rounds list by omega)
  have hc := h.isList.links.node
  simp only [gllGet, hfind, hc, Option.bind_eq_bind, Option.bind_some, Option.map_some]

theorem gllGet_none (h : IsGll mem list cs) (hpos : pos < 0 ∨ cs.length ≤ pos) : gllGet mem list pos = some none := by
  simp only [gllGet, gllFindNode_none h hpos h.rounds.ge, Option.bind_eq_bind, Option.bind_some]

theorem gllFirst_spec (h : IsGll mem list cs) : gllFirst mem list = some ((cs.map Cell.val).headD none) := by
  rw [gllFirst, h.isList.list]
  cases cs with
  | nil => rfl
  | cons c bs =>
    have hc := h.isList.links.1
    simp [first, hc]

theorem gllLast_spec (h : IsGll mem list cs) : gllLast mem list = some ((cs.map Cell.val).getLastD none) := by
  rw [gllLast, h.last]
  rcases List.eq_nil_or_concat cs with rfl | ⟨as, c, rfl⟩
  · rfl
  · rw [List.concat_eq_append] at *
    have hc := h.isList.links.node
    simp [last, hc]

theorem eachLoop_next (h : Links mem p cs none) (hf : cs.length ≤ fuel) :
    eachLoop mem false fuel (first cs none) = some (cs.map Cell.val) := by
  induction cs generalizing p fuel with
  | nil => cases fuel <;> rfl
  | cons c cs ih =>
    obtain ⟨fuel, rfl⟩ := Nat.exists_eq_add_of_lt (show cs.length < fuel from hf)
    obtain ⟨hc, hrest⟩ := h
    have hnext := ih hrest (show cs.length ≤ cs.length + fuel by omega)
    have hfirst : first (c :: cs) none = some c.ptr := rfl
    simp only [hfirst, eachLoop, hc, Option.bind_eq_bind, Option.bind_some, Bool.false_eq_true, if_false, hnext]
    rfl

theorem eachLoop_prev (h : Links mem none cs q) (hf : cs.length ≤ fuel) :
    eachLoop mem true fuel (last none cs) = some (cs.map Cell.val).reverse := by
  induction cs using List.reverseRecOn generalizing q fuel with
  | nil => cases fuel <;> rfl
  | append_singleton cs c ih =>
    rw [List.length_append, List.length_singleton] at hf
    obtain ⟨fuel, rfl⟩ := Nat.exists_eq_add_of_lt (show cs.length < fuel from hf)
    have hc := h.node
    have hprev := ih (links_append.1 h).1 (show cs.length ≤ cs.length + fuel by omega)
    have hlast : last none (cs ++ [c]) = some c.ptr := last_append
    simp only [hlast, eachLoop, hc, Option.bind_eq_bind, Option.bind_some, if_true, hprev]
    simp

/-- The nodes of a list are freed, each once, and no other. -/
theorem clearLoop_spec (h : Links mem p cs none) (hn : (ptrs cs).Nodup) (hf : cs.length ≤ fuel) :
    ∃ mem', clearLoop mem fuel (first cs none) = some mem' ∧ (∀ a ∈ ptrs cs, mem' a = none) ∧
      ∀ a, a ∉ ptrs cs → mem' a = mem a := by
  induction cs generalizing p fuel mem with
  | nil => exact ⟨mem, by cases fuel <;> rfl, fun _ ha => by simp at ha, fun _ _ => rfl⟩
  | cons c cs ih =>
    obtain ⟨fuel, rfl⟩ := Nat.exists_eq_add_of_lt (show cs.length < fuel from hf)
    obtain ⟨hc, hrest⟩ := h
    obtain ⟨hnot, hn⟩ := List.nodup_cons.1 hn
    have hfreed : Links (update mem c.ptr none) (some c.ptr) cs none :=
      hrest.congr fun a ha => update_of_ne (ne_of_mem_of_not_mem ha hnot) _ _
    obtain ⟨mem', hrun, hgone, hframe⟩ := ih hfreed hn (show cs.length ≤ cs.length + fuel by omega)
    refine ⟨mem', ?_, fun a ha => ?_, fun a ha => ?_⟩
    · have hfirst : first (c :: cs) none = some c.ptr := rfl
      simp only [hfirst, clearLoop, hc, free, Option.map_some, Option.bind_eq_bind, Option.bind_some, hrun]
    · rcases List.mem_cons.1 ha with rfl | ha
      · rw [hframe _ hnot, update_self]
      · exact hgone a ha
    · rw [ptrs, List.map_cons, List.mem_cons, not_or] at ha
      rw [hframe a ha.2, update_of_ne ha.1]

theorem gllEach_spec (h : IsGll mem list cs) : gllEach mem list = some (cs.map Cell.val) := by
  rw [gllEach, h.isList.list]
  exact eachLoop_next h.isList.links h.rounds.ge

theorem gllEachReverse_spec (h : IsGll mem list cs) : gllEachReverse mem list = some (cs.map Cell.val).reverse := by
  rw [gllEachReverse, h.last]
  exact eachLoop_prev h.isList.links h.rounds.ge

theorem gllDestroy_spec (h : IsGll mem list cs) : ∃ mem', gllDestroy mem list = some mem' ∧
    (∀ a ∈ ptrs cs, mem' a = none) ∧ ∀ a, a ∉ ptrs cs → mem' a = mem a := by
  rw [gllDestroy, h.isList.list]
  exact clearLoop_spec h.isList.links h.isList.nodup h.rounds.ge

theorem gllClear_spec (h : IsGll mem list cs) : ∃ mem' list', gllClear mem list = some (mem', list') ∧
    ∀ newNode, Leaves mem cs newNode mem' list' [] := by
  obtain ⟨mem', hrun, hgone, hframe⟩ := gllDestroy_spec h
  rw [gllDestroy] at hrun
  refine ⟨mem', gllInit, by rw [gllClear, hrun]; rfl, fun _ => ?_⟩
  exact ⟨isGll_init mem', fun a ha _ => hframe a ha, fun a ha _ => hgone a ha, fun a ha => by simp at ha⟩

end Nodes

end Cmpsc473.Paging
