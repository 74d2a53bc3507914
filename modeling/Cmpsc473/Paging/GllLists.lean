import Cmpsc473.Lib.CData
import Cmpsc473.Lib.Runs
import Cmpsc473.Paging.GllNodes
/-!
# The lists of `gll.c` as lists of data

To its callers a list is the sequence of its data, and that is how the
simulator is modelled. `gll_refines` says that `gll.c` keeps that picture for
any number of lists that share the memory: every sequence of calls returns what
it returns on the sequences, no call follows a pointer that leads nowhere or
frees a node twice, and the nodes in memory are those of the lists, so that
none is lost.
-/

namespace Cmpsc473.Paging

open Function LinkedList Runs

/-- A call on a list. -/
inductive GllCall where
  | get (pos : Int)
  | first
  | last
  | add (data : Option Nat) (pos : Int)
  | set (data : Option Nat) (pos : Int)
  | push (data : Option Nat)
  | pushBack (data : Option Nat)
  | remove (pos : Int)
  | pop
  | popBack
  | each
  | eachReverse
  | clear

/-- What a call returns, or what it calls `f` with. -/
inductive GllRet where
  | data (d : Option Nat)
  | status (r : Int)
  | visited (ds : List (Option Nat))
  | void
  deriving DecidableEq

/-- The call on the nodes. `malloc`, if it is called, returns `newNode`. -/
def GllCall.onNodes (mem : Nodes) (list : GllT) (newNode : Nat) : GllCall → Option (Nodes × GllT × GllRet)
  | .get pos => (Nodes.gllGet mem list pos).map fun d => (mem, list, .data d)
  | .first => (Nodes.gllFirst mem list).map fun d => (mem, list, .data d)
  | .last => (Nodes.gllLast mem list).map fun d => (mem, list, .data d)
  | .add data pos => (Nodes.gllAdd mem list data pos newNode).map fun r => (r.1, r.2.1, .status r.2.2)
  | .set data pos => (Nodes.gllSet mem list data pos).map fun r => (r.1, list, .data r.2)
  | .push data => (Nodes.gllPush mem list data newNode).map fun r => (r.1, r.2, .status 0)
  | .pushBack data => (Nodes.gllPushBack mem list data newNode).map fun r => (r.1, r.2, .status 0)
  | .remove pos => (Nodes.gllRemove mem list pos).map fun r => (r.1, r.2.1, .data r.2.2)
  | .pop => (Nodes.gllPop mem list).map fun r => (r.1, r.2.1, .data r.2.2)
  | .popBack => (Nodes.gllPopBack mem list).map fun r => (r.1, r.2.1, .data r.2.2)
  | .each => (Nodes.gllEach mem list).map fun ds => (mem, list, .visited ds)
  | .eachReverse => (Nodes.gllEachReverse mem list).map fun ds => (mem, list, .visited ds)
  | .clear => (Nodes.gllClear mem list).map fun r => (r.1, r.2, .void)

/-- The data at a position, `NULL` if there is none. -/
def gllAt (l : Gll) (pos : Int) : Option Nat := if 0 ≤ pos then l.getD pos.toNat none else none

/-- The call on the data alone. A negative position adds at the end. -/
def GllCall.onData (l : Gll) : GllCall → Gll × GllRet
  | .get pos => (l, .data (gllAt l pos))
  | .first => (l, .data (gllFirst l))
  | .last => (l, .data (l.getLastD none))
  | .add data pos =>
    if pos > l.length then (l, .status (-1))
    else (if 0 ≤ pos then l.insertIdx pos.toNat data else gllPushBack l data, .status 0)
  | .set data pos => (if 0 ≤ pos then l.set pos.toNat data else l, .data (gllAt l pos))
  | .push data => (gllPush l data, .status 0)
  | .pushBack data => (gllPushBack l data, .status 0)
  | .remove pos => (if 0 ≤ pos then l.eraseIdx pos.toNat else l, .data (gllAt l pos))
  | .pop => (gllPop l, .data (gllFirst l))
  | .popBack => (l.dropLast, .data (l.getLastD none))
  | .each => (l, .visited l)
  | .eachReverse => (l, .visited l.reverse)
  | .clear => ([], .void)

/-! ## One call -/

variable {mem mem' : Nodes} {list list' : GllT} {as bs cs cs' : List (Cell (Option Nat))} {c : Cell (Option Nat)}
  {pos : Int} {newNode : Nat}

/-- A position is that of a node, or there is none. -/
theorem position_cases (cs : List (Cell (Option Nat))) (pos : Int) :
    (pos < 0 ∨ cs.length ≤ pos) ∨ ∃ as c bs, cs = as ++ c :: bs ∧ pos = (as.length : Nat) := by
  by_cases h : pos < 0 ∨ cs.length ≤ pos
  · exact .inl h
  · right
    have hlt : pos.toNat < cs.length := by omega
    refine ⟨cs.take pos.toNat, cs[pos.toNat], cs.drop (pos.toNat + 1), ?_, ?_⟩
    · rw [List.cons_getElem_drop_succ, List.take_append_drop]
    · rw [List.length_take]
      omega

theorem gllAt_none {l : Gll} (h : pos < 0 ∨ l.length ≤ pos) : gllAt l pos = none := by
  unfold gllAt
  split
  · rw [List.getD_eq_getElem?_getD, List.getElem?_eq_none (by omega)]
    rfl
  · rfl

/-! What the functions on the data do at the place of `d` in `l ++ d :: m`. -/

theorem gllAt_append {l m : Gll} {d : Option Nat} : gllAt (l ++ d :: m) l.length = d := by
  simp [gllAt]

theorem insertIdx_append {l m : Gll} {d : Option Nat} : (l ++ m).insertIdx l.length d = l ++ d :: m := by
  induction l with
  | nil => simp
  | cons x l ih => simp [ih]

theorem set_append {l m : Gll} {d e : Option Nat} : (l ++ d :: m).set l.length e = l ++ e :: m := by
  simp

theorem eraseIdx_append {l m : Gll} {d : Option Nat} : (l ++ d :: m).eraseIdx l.length = l ++ m := by
  simp [List.eraseIdx_append]

/-- Every call does on the nodes what it does on the data. -/
theorem GllCall.onNodes_spec (h : Nodes.IsGll mem list cs) (hnew : mem newNode = none) (call : GllCall) :
    ∃ mem' list' cs', call.onNodes mem list newNode = some (mem', list', (call.onData (cs.map Cell.val)).2) ∧
      Nodes.Leaves mem cs newNode mem' list' cs' ∧ cs'.map Cell.val = (call.onData (cs.map Cell.val)).1 := by
  have same : Nodes.Leaves mem cs newNode mem list cs := .refl h
  have hlen : ∀ l : List (Cell (Option Nat)), (l.map Cell.val).length = l.length := fun _ => List.length_map _
  cases call with
  | get pos =>
    refine ⟨mem, list, cs, ?_, same, rfl⟩
    rcases position_cases cs pos with hpos | ⟨as, c, bs, rfl, rfl⟩
    · simp only [onNodes, onData, Nodes.gllGet_none h hpos, gllAt_none (hlen cs ▸ hpos), Option.map_some]
    · rw [onData, List.map_append, List.map_cons, ← hlen as, gllAt_append, hlen]
      simp only [onNodes, Nodes.gllGet_at h, Option.map_some]
  | first => exact ⟨mem, list, cs, by simp only [onNodes, Nodes.gllFirst_spec h, Option.map_some]; rfl, same, rfl⟩
  | last => exact ⟨mem, list, cs, by simp only [onNodes, Nodes.gllLast_spec h, Option.map_some]; rfl, same, rfl⟩
  | add data pos =>
    by_cases hpos : pos > cs.length
    · have hnok : pos > list.size := by rwa [h.size]
      rw [onData, if_pos (by rwa [hlen])]
      exact ⟨mem, list, cs, by rw [onNodes, Nodes.gllAdd, if_pos hnok]; rfl, same, rfl⟩
    · rw [onData, if_neg (by rwa [hlen])]
      rcases position_cases cs pos with hend | ⟨as, c, bs, rfl, rfl⟩
      · have hat : pos < 0 ∨ pos = cs.length := by omega
        obtain ⟨mem', list', hrun, hleaves⟩ := Nodes.gllAdd_end h hnew data hat
        refine ⟨mem', list', _, by rw [onNodes, hrun]; rfl, hleaves, ?_⟩
        rw [List.map_append]
        split
        · rw [show pos.toNat = (cs.map Cell.val).length by rw [hlen]; omega, List.insertIdx_length_self]
          rfl
        · rfl
      · obtain ⟨mem', list', hrun, hleaves⟩ := Nodes.gllAdd_at h hnew data
        refine ⟨mem', list', _, by rw [onNodes, hrun]; rfl, hleaves, ?_⟩
        rw [if_pos (by omega), Int.toNat_natCast, ← hlen as, List.map_append, List.map_append, insertIdx_append]
        rfl
  | set data pos =>
    rcases position_cases cs pos with hpos | ⟨as, c, bs, rfl, rfl⟩
    · refine ⟨mem, list, cs, ?_, same, ?_⟩
      · rw [onNodes, Nodes.gllSet_none h hpos, onData, gllAt_none (hlen cs ▸ hpos)]
        rfl
      · rw [onData]
        split
        · exact (List.set_eq_of_length_le (by rw [hlen]; omega)).symm
        · rfl
    · obtain ⟨mem', hrun, hleaves⟩ := Nodes.gllSet_at h data
      refine ⟨mem', list, _, ?_, hleaves _, ?_⟩
      · rw [onNodes, hrun, onData, List.map_append, List.map_cons, ← hlen as, gllAt_append]
        rfl
      · rw [onData, if_pos (by omega), Int.toNat_natCast, ← hlen as, List.map_append, List.map_append, List.map_cons,
          List.map_cons, set_append]
  | push data =>
    obtain ⟨mem', list', hrun, hleaves⟩ := Nodes.gllPush_spec h hnew data
    exact ⟨mem', list', _, by rw [onNodes, hrun]; rfl, hleaves, rfl⟩
  | pushBack data =>
    obtain ⟨mem', list', hrun, hleaves⟩ := Nodes.gllPushBack_spec h hnew data
    exact ⟨mem', list', _, by rw [onNodes, hrun]; rfl, hleaves, List.map_append⟩
  | remove pos =>
    rcases position_cases cs pos with hpos | ⟨as, c, bs, rfl, rfl⟩
    · refine ⟨mem, list, cs, ?_, same, ?_⟩
      · rw [onNodes, Nodes.gllRemove_none h hpos, onData, gllAt_none (hlen cs ▸ hpos)]
        rfl
      · rw [onData]
        split
        · exact (List.eraseIdx_of_length_le (by rw [hlen]; omega)).symm
        · rfl
    · obtain ⟨mem', list', hrun, hleaves⟩ := Nodes.gllRemove_at h
      refine ⟨mem', list', _, ?_, hleaves _, ?_⟩
      · rw [onNodes, hrun, onData, List.map_append, List.map_cons, ← hlen as, gllAt_append]
        rfl
      · rw [onData, if_pos (by omega), Int.toNat_natCast, ← hlen as, List.map_append, List.map_append, List.map_cons,
          eraseIdx_append]
  | pop =>
    obtain ⟨mem', list', hrun, hleaves⟩ := Nodes.gllPop_spec h
    exact ⟨mem', list', _, by rw [onNodes, hrun]; rfl, hleaves _, List.map_tail⟩
  | popBack =>
    obtain ⟨mem', list', hrun, hleaves⟩ := Nodes.gllPopBack_spec h
    exact ⟨mem', list', _, by rw [onNodes, hrun]; rfl, hleaves _, List.map_dropLast⟩
  | each => exact ⟨mem, list, cs, by simp only [onNodes, Nodes.gllEach_spec h, Option.map_some]; rfl, same, rfl⟩
  | eachReverse =>
    exact ⟨mem, list, cs, by simp only [onNodes, Nodes.gllEachReverse_spec h, Option.map_some]; rfl, same, rfl⟩
  | clear =>
    obtain ⟨mem', list', hrun, hleaves⟩ := Nodes.gllClear_spec h
    exact ⟨mem', list', [], by rw [onNodes, hrun]; rfl, hleaves _, rfl⟩

/-! ## Any number of lists -/

variable {κ : Type} [DecidableEq κ]

/-- The lists of a program: the nodes of all of them, what each `gll_t` holds
(`none` before `gll_init` and after `gll_destroy`), and what was returned. -/
structure Lists (κ : Type) where
  nodes : Nodes
  lists : κ → Option GllT
  out : List GllRet

/-- The same for the data alone. -/
structure ListData (κ : Type) where
  lists : κ → Option Gll
  out : List GllRet

inductive GllOp where
  | init
  | call (c : GllCall)
  | destroy

/-- An operation on the list `k`, and what `malloc` returns to it. -/
structure GllStep (κ : Type) where
  k : κ
  op : GllOp
  newNode : Nat

/-- A step of the program. There is none for a list that does not exist, or that
exists already. -/
def Lists.step (s : Lists κ) (l : GllStep κ) : Option (Lists κ) :=
  match l.op, s.lists l.k with
  | .init, none => some { s with lists := update s.lists l.k (some Nodes.gllInit) }
  | .call c, some list => (c.onNodes s.nodes list l.newNode).map fun r =>
    { nodes := r.1, lists := update s.lists l.k (some r.2.1), out := s.out ++ [r.2.2] }
  | .destroy, some list => (Nodes.gllDestroy s.nodes list).map fun mem =>
    { s with nodes := mem, lists := update s.lists l.k none }
  | _, _ => none

def ListData.step (s : ListData κ) (l : GllStep κ) : Option (ListData κ) :=
  match l.op, s.lists l.k with
  | .init, none => some { s with lists := update s.lists l.k (some []) }
  | .call c, some data =>
    let r := c.onData data
    some { lists := update s.lists l.k (some r.1), out := s.out ++ [r.2] }
  | .destroy, some _ => some { s with lists := update s.lists l.k none }
  | _, _ => none

/-- No list, and no node. -/
def noLists : Lists κ := { nodes := fun _ => none, lists := fun _ => none, out := [] }

def noListData : ListData κ := { lists := fun _ => none, out := [] }

/-- The lists hold the data, in nodes of their own, and there are no other nodes. -/
structure Refines (s : Lists κ) (d : ListData κ) (cells : κ → List (Cell (Option Nat))) : Prop where
  out : s.out = d.out
  live : ∀ k l, d.lists k = some l →
    ∃ list, s.lists k = some list ∧ Nodes.IsGll s.nodes list (cells k) ∧ (cells k).map Cell.val = l
  gone : ∀ k, d.lists k = none → s.lists k = none ∧ cells k = []
  apart : ∀ k k', k ≠ k' → ∀ a ∈ ptrs (cells k), a ∉ ptrs (cells k')
  nodes : ∀ a, s.nodes a ≠ none ↔ ∃ k, a ∈ ptrs (cells k)

omit [DecidableEq κ] in
theorem refines_start : Refines (noLists : Lists κ) noListData fun _ => [] :=
  ⟨rfl, fun _ _ h => (by cases h), fun _ _ => ⟨rfl, rfl⟩, fun _ _ _ _ h => (by simp at h), fun _ => by simp [noLists]⟩

variable {s s' : Lists κ} {d d' : ListData κ} {cells : κ → List (Cell (Option Nat))} {k : κ}

/-- One list changes, and its nodes with it. -/
theorem Refines.change (h : Refines s d cells) (hnew : s.nodes newNode = none)
    (hothers : ∀ a, a ∉ ptrs (cells k) → a ∉ ptrs cs' → mem' a = s.nodes a)
    (hdropped : ∀ a ∈ ptrs (cells k), a ∉ ptrs cs' → mem' a = none)
    (hkept : ∀ a ∈ ptrs cs', a ∈ ptrs (cells k) ∨ a = newNode) (hin : ∀ a ∈ ptrs cs', mem' a ≠ none)
    {new : Option GllT} {data : Option Gll} {out : List GllRet}
    (hlive : ∀ l, data = some l → ∃ list', new = some list' ∧ Nodes.IsGll mem' list' cs' ∧ cs'.map Cell.val = l)
    (hgone : data = none → new = none ∧ cs' = []) :
    Refines { nodes := mem', lists := update s.lists k new, out := out }
      { lists := update d.lists k data, out := out } (update cells k cs') := by
  -- the nodes of the other lists are none of those that change
  have foreign : ∀ k' a, k' ≠ k → a ∈ ptrs (cells k') → a ∉ ptrs (cells k) ∧ a ∉ ptrs cs' := by
    intro k' a hne ha
    refine ⟨h.apart k' k hne a ha, fun hcs => ?_⟩
    rcases hkept a hcs with hk | rfl
    · exact h.apart k' k hne a ha hk
    · exact (h.nodes a).2 ⟨k', ha⟩ hnew
  refine ⟨rfl, fun k' l hl => ?_, fun k' hk' => ?_, fun k₁ k₂ hne a ha => ?_, fun a => ⟨fun ha => ?_, ?_⟩⟩
  · by_cases hk : k' = k
    · subst hk
      simp only [update_self] at hl ⊢
      exact hlive l hl
    · simp only [update_of_ne hk] at hl ⊢
      obtain ⟨list, hlist, hgll, hval⟩ := h.live k' l hl
      refine ⟨list, hlist, hgll.congr fun a ha => ?_, hval⟩
      exact hothers a (foreign k' a hk ha).1 (foreign k' a hk ha).2
  · by_cases hk : k' = k
    · subst hk
      simp only [update_self] at hk' ⊢
      exact hgone hk'
    · simp only [update_of_ne hk] at hk' ⊢
      exact h.gone k' hk'
  · by_cases h1 : k₁ = k
    · subst h1
      rw [update_self] at ha
      rw [update_of_ne (Ne.symm hne)]
      exact fun ha2 => (foreign k₂ a (Ne.symm hne) ha2).2 ha
    · rw [update_of_ne h1] at ha
      by_cases h2 : k₂ = k
      · subst h2
        rw [update_self]
        exact (foreign k₁ a h1 ha).2
      · rw [update_of_ne h2]
        exact h.apart k₁ k₂ hne a ha
  · by_cases hcs : a ∈ ptrs cs'
    · exact ⟨k, by rwa [update_self]⟩
    · have hck : a ∉ ptrs (cells k) := fun hk => ha (hdropped a hk hcs)
      obtain ⟨k', hk'⟩ := (h.nodes a).1 (hothers a hck hcs ▸ ha)
      have hne : k' ≠ k := by
        rintro rfl
        exact hck hk'
      exact ⟨k', by rwa [update_of_ne hne]⟩
  · rintro ⟨k', hk'⟩
    by_cases hk : k' = k
    · subst hk
      rw [update_self] at hk'
      exact hin a hk'
    · rw [update_of_ne hk] at hk'
      show mem' a ≠ none
      rw [hothers a (foreign k' a hk hk').1 (foreign k' a hk hk').2]
      exact (h.nodes a).2 ⟨k', hk'⟩

omit [DecidableEq κ] in
/-- The nodes of a list are in memory. -/
theorem isGll_nodes (h : Nodes.IsGll mem list cs) : ∀ a ∈ ptrs cs, mem a ≠ none := by
  intro a ha
  obtain ⟨c, hc, rfl⟩ := List.mem_map.1 ha
  obtain ⟨n, hn, -⟩ := h.isList.links.val hc
  rw [hn]
  simp

/-- A step on the data is a step on the nodes, if `malloc` returns no address that is in use. -/
theorem refines_step (h : Refines s d cells) {l : GllStep κ} (hnew : s.nodes l.newNode = none) (hd : d.step l = some d') :
    ∃ s' cells', s.step l = some s' ∧ Refines s' d' cells' := by
  obtain ⟨k, op, newNode⟩ := l
  have hout := h.out
  cases op with
  | init =>
    cases hl : d.lists k with
    | some l => simp [ListData.step, hl] at hd
    | none =>
      simp only [ListData.step, hl, Option.some.injEq] at hd
      subst hd
      obtain ⟨hnone, hcells⟩ := h.gone k hl
      refine ⟨_, update cells k [], by simp only [Lists.step, hnone]; rfl, ?_⟩
      rw [hout]
      refine h.change hnew (fun _ _ _ => rfl) ?_ (fun a ha => absurd ha (by simp)) (fun a ha => absurd ha (by simp)) ?_
        (fun hn => by cases hn)
      · rw [hcells]
        exact fun a ha => absurd ha (by simp)
      · rintro l ⟨⟩
        exact ⟨_, rfl, Nodes.isGll_init _, rfl⟩
  | call c =>
    cases hl : d.lists k with
    | none => simp [ListData.step, hl] at hd
    | some data =>
      simp only [ListData.step, hl, Option.some.injEq] at hd
      subst hd
      obtain ⟨list, hlist, hgll, rfl⟩ := h.live k data hl
      obtain ⟨mem', list', cs', hrun, hleaves, hval⟩ := c.onNodes_spec hgll hnew
      refine ⟨_, update cells k cs', by simp only [Lists.step, hlist, hrun, Option.map_some]; rfl, ?_⟩
      rw [hout]
      refine h.change hnew hleaves.others hleaves.dropped hleaves.kept (isGll_nodes hleaves.isGll) ?_ (fun hn => by cases hn)
      rintro l ⟨⟩
      exact ⟨list', rfl, hleaves.isGll, hval⟩
  | destroy =>
    cases hl : d.lists k with
    | none => simp [ListData.step, hl] at hd
    | some data =>
      simp only [ListData.step, hl, Option.some.injEq] at hd
      subst hd
      obtain ⟨list, hlist, hgll, -⟩ := h.live k data hl
      obtain ⟨mem', hrun, hfreed, hframe⟩ := Nodes.gllDestroy_spec hgll
      refine ⟨_, update cells k [], by simp only [Lists.step, hlist, hrun, Option.map_some]; rfl, ?_⟩
      rw [hout]
      exact h.change hnew (fun a ha _ => hframe a ha) (fun a ha _ => hfreed a ha) (fun a ha => absurd ha (by simp))
        (fun a ha => absurd ha (by simp)) (fun l hn => by cases hn) fun _ => ⟨rfl, rfl⟩

/-! ## How long the lists get -/

/-- A call makes a list longer by one at most. -/
theorem GllCall.length_onData (l : Gll) (call : GllCall) : (call.onData l).1.length ≤ l.length + 1 := by
  cases call with
  | get | first | last | each | eachReverse => exact Nat.le_succ _
  | add data pos =>
    rw [onData]
    split
    · exact Nat.le_succ _
    · dsimp only
      split
      · exact List.length_insertIdx_le_succ ..
      · simp [gllPushBack]
  | set data pos =>
    rw [onData]
    split <;> simp
  | push data => simp [onData, gllPush]
  | pushBack data => simp [onData, gllPushBack]
  | remove pos =>
    rw [onData]
    dsimp only
    split
    · exact (List.length_eraseIdx_le ..).trans (Nat.le_succ _)
    · exact Nat.le_succ _
  | pop =>
    rw [onData, gllPop, List.length_tail]
    omega
  | popBack =>
    rw [onData, List.length_dropLast]
    omega
  | clear => exact Nat.zero_le _

/-- No list has more than `n` elements. -/
def ListData.Within (n : Nat) (d : ListData κ) : Prop := ∀ k l, d.lists k = some l → l.length ≤ n

theorem within_step {n : Nat} (h : d.Within n) {l : GllStep κ} (hd : d.step l = some d') : d'.Within (n + 1) := by
  have hchange : ∀ {data : Option Gll} {out}, (∀ l, data = some l → l.length ≤ n + 1) →
      ListData.Within (n + 1) { lists := update d.lists l.k data, out := out } := by
    intro data out hdata k l' hl
    dsimp only at hl
    rw [update_apply] at hl
    split at hl
    · exact hdata l' hl
    · exact (h k l' hl).trans (Nat.le_succ n)
  unfold ListData.step at hd
  split at hd <;> cases hd
  · exact hchange fun l hl => by cases hl; exact Nat.zero_le _
  · rename_i c data _ hdata
    refine hchange fun l hl => ?_
    cases hl
    exact (c.length_onData data).trans (Nat.succ_le_succ (h _ _ hdata))
  · exact hchange fun l hl => by cases hl

/-- The lists of `gll.c`, any number of them in one memory, are their data: a
program that uses the lists it made, and for which `malloc` returns no address
in use, gets from each call what the call returns on the data. In each state it
reaches, each list is linked both ways over nodes of its own, and the nodes in
memory are those of the lists. Within `2^31 - 1` calls, `size` is an `int`. -/
theorem gll_refines {ls : List (GllStep κ)} (hd : exec ListData.step noListData ls = some d)
    (hmalloc : ∀ before l after s, ls = before ++ l :: after → exec Lists.step noLists before = some s →
      s.nodes l.newNode = none) :
    ∃ s : Lists κ, exec Lists.step noLists ls = some s ∧ s.out = d.out ∧ ∃ cells : κ → List (Cell (Option Nat)),
      (∀ k l, d.lists k = some l → ∃ list, s.lists k = some list ∧ Nodes.IsGll s.nodes list (cells k) ∧
        (cells k).map Cell.val = l) ∧
      (∀ k k', k ≠ k' → ∀ a ∈ ptrs (cells k), a ∉ ptrs (cells k')) ∧
      (∀ a, s.nodes a ≠ none ↔ ∃ k, (d.lists k).isSome ∧ a ∈ ptrs (cells k)) ∧
      (ls.length ≤ 2147483647 → ∀ k list, s.lists k = some list → 0 ≤ list.size ∧ list.size ≤ intMax) := by
  obtain ⟨s, hs, cells, h⟩ := exec_refine (fun s d => ∃ cells, Refines s d cells)
    (fun (s : Lists κ) l => s.nodes l.newNode = none) (fun s d l d' ⟨cells, hrel⟩ hnew hstep => by
      obtain ⟨s', cells', h1, h2⟩ := refines_step hrel hnew hstep
      exact ⟨s', h1, cells', h2⟩) ⟨_, refines_start⟩ hd hmalloc
  refine ⟨s, hs, h.out, cells, h.live, h.apart, fun a => ?_, fun hlen k list hlist => ?_⟩
  · rw [h.nodes]
    refine exists_congr fun k => (and_iff_right_of_imp fun ha => ?_).symm
    by_contra hn
    rw [(h.gone k (by simpa using hn)).2] at ha
    simp at ha
  · have hwithin : d.Within (0 + ls.length * 1) := exec_grows ListData.Within (fun _ _ _ _ hw hstep => within_step hw hstep)
      hd fun _ _ hn => by cases hn
    cases hl : d.lists k with
    | none =>
      rw [(h.gone k hl).1] at hlist
      cases hlist
    | some data =>
      obtain ⟨list', hlist', hgll, rfl⟩ := h.live k data hl
      obtain rfl : list' = list := Option.some.inj (hlist'.symm.trans hlist)
      have hsize := hgll.size
      have hdata := hwithin k _ hl
      rw [List.length_map] at hdata
      unfold intMax
      omega

/-- Two lists are filled, read from both ends and emptied, one node by one or all at once. -/
def twoLists : List (GllStep Bool) :=
  [⟨false, .init, 0⟩, ⟨true, .init, 0⟩, ⟨false, .call (.pushBack (some 5)), 10⟩, ⟨true, .call (.push (some 7)), 11⟩,
    ⟨false, .call (.add none 1), 12⟩, ⟨false, .call (.add (some 6) 1), 13⟩, ⟨false, .call .each, 0⟩,
    ⟨false, .call (.remove 1), 0⟩, ⟨false, .call .popBack, 0⟩, ⟨false, .call .eachReverse, 0⟩, ⟨false, .call .pop, 0⟩,
    ⟨true, .destroy, 0⟩]

/-- `gll_refines` on that run. -/
theorem gll_refines_two : ∃ (s : Lists Bool) (d : ListData Bool), exec Lists.step noLists twoLists = some s ∧
    exec ListData.step noListData twoLists = some d ∧ s.out = d.out ∧
    d.out = [.status 0, .status 0, .status 0, .status 0, .visited [some 5, some 6, none], .data (some 6), .data none,
      .visited [some 5], .data (some 5)] := by
  obtain ⟨d, hd, hout⟩ := (Option.any_eq_true _ _).1 (show (exec ListData.step noListData twoLists).any (fun d => decide
    (d.out = [.status 0, .status 0, .status 0, .status 0, .visited [some 5, some 6, none], .data (some 6), .data none,
      .visited [some 5], .data (some 5)])) = true by decide)
  have hsome : (exec Lists.step noLists twoLists).isSome = true := by decide
  have halong : along Lists.step (fun (s : Lists Bool) l => s.nodes l.newNode = none) noLists twoLists = true := by
    decide
  obtain ⟨t, ht⟩ := Option.isSome_iff_exists.1 hsome
  obtain ⟨s, hs, hsame, -⟩ := gll_refines hd fun before l after u he hu => by
    rw [he] at ht halong
    obtain ⟨v, hv⟩ := takes_of_exec ht hu
    exact takes_along halong u l v hv
  exact ⟨s, d, hs, hd, hsame, of_decide_eq_true hout⟩

end Cmpsc473.Paging
