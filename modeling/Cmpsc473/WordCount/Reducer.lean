import Cmpsc473.Lib.SearchTree
import Cmpsc473.WordCount.Words
/-!
# `Reducer`

The loop of `Reducer` over the messages it receives, with the buffer that
`strtok` cuts up, the records that `malloc` returns, and the tree of pointers to
them. `tsearch` is any function that adds to an ordered set. What `twalk` prints
is the tally of the messages if they fit the buffer (`reducer_sums_iff`).
-/

namespace Cmpsc473.WordCount

open Channel Function SearchTree

/-- `intStrMap`. -/
structure IntStrMap where
  key : CStr
  value : Int

/-- The buffer at `out`, the records by number, the number of the record that
`malloc` returns next, and the tree at `rooteduce`. -/
structure Reduction where
  out : List UInt8
  map : Nat → IntStrMap
  next : Nat
  rooteduce : BinaryTree Nat

/-- `strdup`: the string at the front of `m`. -/
def strdup (m : List UInt8) : CStr where
  bytes := cstr m
  noNul := cstr_noNul m

/-- The calls of `strtok`, `atoi` and `strdup` in the loop of `Reducer`. The
pointers `key` and `val` point into the buffer at `out`, and `strdup` copies the
key when both calls of `strtok` have been made. -/
def parseAt (out : List UInt8) : Option ((CStr × Int) × List UInt8) :=
  let r := strtok 32 out
  let r' := strtok 32 r.rest
  let buf := r.passed ++ r'.passed ++ r'.rest
  let key := tokenAt 32 out
  let val := r.passed.length + tokenAt 32 r.rest
  if r.token.isSome then
    let value := if r'.token.isSome then atoi (cstr (buf.drop val)) else -1
    some ((strdup (buf.drop key), value), buf)
  else none

/-- `compar`, on pointers to records. -/
def comparAt (map : Nat → IntStrMap) (pa pb : Nat) : Ordering := compar (map pa).key (map pb).key

/-- `tsearch`, `tfind` and `twalk` for pointers. -/
abbrev Tsearch := (Nat → Nat → Ordering) → Nat → BinaryTree Nat → BinaryTree Nat

variable {tsearch : Tsearch}

/-- The body of the loop of `Reducer` for the message `data`. `none` is a message
that `buffer_receive` writes past the end of the buffer, or `strdup(NULL)`. -/
def reduceMessage (tsearch : Tsearch) (s : Reduction) (data : CStr) : Option Reduction :=
  if s.out.length < data.mem.length then none
  else
    match parseAt (overwrite s.out data.mem) with
    | none => none
    | some ((key, value), out) =>
      let a := s.next
      let map := update s.map a { key := key, value := value }
      match tfind (comparAt map) a s.rooteduce with
      | none => some { out := out, map := map, next := s.next + 1, rooteduce := tsearch (comparAt map) a s.rooteduce }
      -- `a` is freed
      | some tmp =>
        some { s with out := out, map := update map tmp { map tmp with value := addInt (map tmp).value value } }

/-- The loop, over the messages in the channel. -/
def reduceLoop (tsearch : Tsearch) : List CStr → Reduction → Option Reduction
  | [], s => some s
  | data :: rest, s => if data = splmsg then some s else (reduceMessage tsearch s data).bind (reduceLoop tsearch rest)

/-- `actionReduce`: what it writes. -/
def actionReduce (map : Nat → IntStrMap) : Nat × Visit → List UInt8
  | (_, .preorder) => []
  | (datap, .postorder) => line ((map datap).key, (map datap).value)
  | (_, .endorder) => []
  | (datap, .leaf) => line ((map datap).key, (map datap).value)

/-- `Reducer`: what it writes when these messages are in the channel. -/
def reducer (tsearch : Tsearch) (received : List CStr) : Option (List UInt8) :=
  (reduceLoop tsearch received
      { out := List.replicate 1024 0, map := fun _ => ⟨⟨[], List.not_mem_nil⟩, 0⟩, next := 0, rooteduce := .nil }).map
    fun s => (twalk s.rooteduce).flatMap (actionReduce s.map)

/-! ## The first two tokens -/

/-- The first token of a string, with blanks for delimiters. -/
def firstToken (s : List UInt8) : List UInt8 := (s.dropWhile (· = 32)).takeWhile (· ≠ 32)

/-- The second token, or nothing. -/
def secondToken (s : List UInt8) : List UInt8 := firstToken ((s.dropWhile (· = 32)).dropWhile (· ≠ 32))

/-- The entry of a message: its first token, and the number in its second. -/
def entry (m : CStr) : CStr × Int :=
  (⟨firstToken m.bytes, fun h => m.noNul ((List.dropWhile_sublist _).subset ((List.takeWhile_sublist _).subset h))⟩,
    if secondToken m.bytes = [] then -1 else atoi (secondToken m.bytes))

/-- What `strdup` and `atoi` read at the pointers are the tokens, though the
buffer was cut up. -/
theorem parseAt_eq (out : List UInt8) : parseAt out = parseKV out := by
  have hend := strtok_end (show (32 : UInt8) ≠ 0 by decide) (m := (strtok 32 out).rest)
  unfold parseAt parseKV
  cases hkey : (strtok 32 out).token with
  | none => simp only [hkey, Option.isSome_none, Bool.false_eq_true, if_false]
  | some key =>
    have h1 : strdup (((strtok 32 out).passed ++ (strtok 32 (strtok 32 out).rest).passed ++
        (strtok 32 (strtok 32 out).rest).rest).drop (tokenAt 32 out)) = key := by
      apply CStr.ext_bytes
      rw [strdup, List.append_assoc]
      apply cstr_token hkey
      intro hzero
      rw [(hend hzero).1, (hend hzero).2]
      exact hzero
    cases hval : (strtok 32 (strtok 32 out).rest).token with
    | none => simp only [hkey, hval, h1, Option.isSome_some, Option.isSome_none, if_true, Bool.false_eq_true, if_false]
    | some val =>
      have h2 : cstr (((strtok 32 out).passed ++ (strtok 32 (strtok 32 out).rest).passed ++
          (strtok 32 (strtok 32 out).rest).rest).drop ((strtok 32 out).passed.length + tokenAt 32 (strtok 32 out).rest)) =
          val.bytes := by
        rw [List.append_assoc, ← List.drop_drop, List.drop_left]
        exact cstr_token hval id
      simp only [hkey, hval, h1, h2, Option.isSome_some, if_true]

/-- A string has no NUL for `strtok` to stop at. -/
theorem takeWhile_string {s : List UInt8} (hs : 0 ∉ s) :
    s.takeWhile (fun b => b ≠ 32 && b ≠ 0) = s.takeWhile (· ≠ 32) ∧
      s.dropWhile (fun b => b ≠ 32 && b ≠ 0) = s.dropWhile (· ≠ 32) := by
  induction s with
  | nil => exact ⟨rfl, rfl⟩
  | cons b s ih =>
    obtain ⟨h1, h2⟩ := ih fun h => hs (List.mem_cons_of_mem _ h)
    have hb : b ≠ 0 := fun h => hs (h ▸ List.mem_cons_self)
    simp only [List.takeWhile_cons, List.dropWhile_cons, h1, h2, hb, ne_eq, not_false_eq_true, decide_true, Bool.and_true,
      and_self]

/-- A call of `strtok` on a string: the first token, and what is left has the
second for its first. -/
theorem strtok_string {s : List UInt8} (hs : 0 ∉ s) :
    (strtok 32 s).token.map CStr.bytes = (if firstToken s = [] then none else some (firstToken s)) ∧
      (firstToken s ≠ [] → firstToken (strtok 32 s).rest = secondToken s ∧ 0 ∉ (strtok 32 s).rest) := by
  have hdrop : 0 ∉ s.dropWhile (· = 32) := fun h => hs ((List.dropWhile_sublist _).subset h)
  obtain ⟨htake, hrest⟩ := takeWhile_string hdrop
  have htoken : (tokenPrefix 32 (s.dropWhile (· = 32))).bytes = firstToken s := htake
  have hnil : 0 ∉ (s.dropWhile (· = 32)).dropWhile (· ≠ 32) := fun h => hdrop ((List.dropWhile_sublist _).subset h)
  simp only [strtok, htoken, hrest]
  by_cases hfirst : firstToken s = []
  · exact ⟨by rw [if_pos hfirst, if_pos hfirst]; rfl, fun h => absurd hfirst h⟩
  · rw [if_neg hfirst, if_neg hfirst]
    split
    · rename_i hhead
      refine ⟨congrArg some htoken, fun _ => ⟨?_, fun h => hnil (List.mem_of_mem_tail h)⟩⟩
      -- the delimiter is skipped here, or by the next call
      rw [secondToken]
      cases hrest' : (s.dropWhile (· = 32)).dropWhile (· ≠ 32) with
      | nil => rfl
      | cons b rest =>
        rw [hrest'] at hhead
        cases hhead
        rfl
    · exact ⟨congrArg some htoken, fun _ => ⟨rfl, hnil⟩⟩

theorem firstToken_ne_nil {s : List UInt8} (h : ∃ b ∈ s, b ≠ 32) : firstToken s ≠ [] := by
  obtain ⟨b, hb, hne⟩ := h
  have hdrop : s.dropWhile (· = 32) ≠ [] := fun hnil => hne (by simpa using List.dropWhile_eq_nil_iff.1 hnil b hb)
  obtain ⟨c, rest, hcons⟩ := List.exists_cons_of_ne_nil hdrop
  have hc := List.head?_dropWhile_not (fun b : UInt8 => decide (b = 32)) s
  rw [hcons, List.head?_cons] at hc
  have hc : c ≠ 32 := by simpa using hc
  simp [firstToken, hcons, hc]

theorem decode_entry {m : CStr} (h : ∃ b ∈ m.bytes, b ≠ 32) : decode m.bytes = some (entry m) := by
  have hfirst := firstToken_ne_nil h
  obtain ⟨h1, h2⟩ := strtok_string m.noNul
  obtain ⟨hsecond, hzero⟩ := h2 hfirst
  obtain ⟨h3, -⟩ := strtok_string hzero
  rw [if_neg hfirst] at h1
  rw [hsecond] at h3
  obtain ⟨key, hkey, hbytes⟩ := Option.map_eq_some_iff.1 h1
  have hentry : (entry m).1 = key := CStr.ext_bytes hbytes.symm
  simp only [decode, parseKV, hkey, Option.map_some]
  rw [← hentry]
  by_cases hnil : secondToken m.bytes = []
  · rw [if_pos hnil, Option.map_eq_none_iff] at h3
    simp only [h3, entry, hnil, if_true]
  · rw [if_neg hnil] at h3
    obtain ⟨val, hval, hbytes'⟩ := Option.map_eq_some_iff.1 h3
    simp only [hval, hbytes', entry, hnil, if_false]

/-! ## The tree holds the sums -/

instance (map : Nat → IntStrMap) : Std.TransCmp (comparAt map) where
  eq_swap {pa pb} := by
    show compar (map pa).key (map pb).key = (compar (map pb).key (map pa).key).swap
    exact Std.OrientedCmp.eq_swap
  isLE_trans {pa pb pc} hab hbc := by
    have hab : (compar (map pa).key (map pb).key).isLE = true := hab
    have hbc : (compar (map pb).key (map pc).key).isLE = true := hbc
    show (compar (map pa).key (map pc).key).isLE = true
    exact Std.TransCmp.isLE_trans hab hbc

theorem comparAt_eq {map : Nat → IntStrMap} {pa pb : Nat} : comparAt map pa pb = .eq ↔ (map pa).key = (map pb).key := by
  unfold comparAt
  exact Std.LawfulEqCmp.compare_eq_iff_eq

/-- The key and the value of a record. -/
def IntStrMap.entry (r : IntStrMap) : CStr × Int := (r.key, r.value)

/-- The tree is an ordered set of records that were allocated, and they hold the
sums of the entries `es`. -/
structure Counts (es : List (CStr × Int)) (s : Reduction) : Prop where
  ordered : Ordered (comparAt s.map) s.rooteduce
  allocated : ∀ p ∈ inorder s.rooteduce, p < s.next
  holds : ∀ e, e ∈ (inorder s.rooteduce).map (fun p => (s.map p).entry) ↔
    (Tally.tally compar addInt es)[e.1]? = some e.2

variable {es : List (CStr × Int)} {s s' : Reduction}

/-- A record that `malloc` returns is not in the tree. -/
theorem Counts.fresh (hc : Counts es s) (r : IntStrMap) {p : Nat} (hp : p ∈ inorder s.rooteduce) :
    update s.map s.next r p = s.map p :=
  update_of_ne (Nat.ne_of_lt (hc.allocated p hp)) _ _

theorem Counts.fresh_ordered (hc : Counts es s) (r : IntStrMap) :
    Ordered (comparAt (update s.map s.next r)) s.rooteduce :=
  hc.ordered.congr fun p hp q hq => by rw [comparAt, hc.fresh r hp, hc.fresh r hq]; rfl

/-- A new key goes into a new record, which `tsearch` puts into the tree. -/
theorem Counts.insert (hc : Counts es s) (ht : Inserts tsearch) {key : CStr} {value : Int}
    (hnone : tfind (comparAt (update s.map s.next ⟨key, value⟩)) s.next s.rooteduce = none) (out : List UInt8) :
    Counts (es ++ [(key, value)])
      { out := out
        map := update s.map s.next ⟨key, value⟩
        next := s.next + 1
        rooteduce := tsearch (comparAt (update s.map s.next ⟨key, value⟩)) s.next s.rooteduce } := by
  have hnew := (tfind_eq_none (hc.fresh_ordered _)).1 hnone
  obtain ⟨hord, hperm⟩ := ht _ inferInstance s.next s.rooteduce (hc.fresh_ordered _) hnew
  have hfree : (Tally.tally compar addInt es)[key]? = none := by
    rw [Option.eq_none_iff_forall_ne_some]
    intro v hv
    obtain ⟨p, hp, he⟩ := List.mem_map.1 ((hc.holds (key, v)).2 hv)
    apply hnew p hp
    rw [comparAt_eq, hc.fresh _ hp, update_self]
    exact (congrArg Prod.fst he).symm
  refine ⟨hord, fun p hp => ?_, fun e => ?_⟩
  · rcases List.mem_cons.1 (hperm.mem_iff.1 hp) with rfl | hp
    · exact Nat.lt_succ_self _
    · exact Nat.lt_succ_of_lt (hc.allocated p hp)
  · have hmem : e ∈ (inorder (tsearch (comparAt (update s.map s.next ⟨key, value⟩)) s.next s.rooteduce)).map
        (fun p => (update s.map s.next ⟨key, value⟩ p).entry) ↔
        e = (key, value) ∨ (Tally.tally compar addInt es)[e.1]? = some e.2 := by
      rw [(hperm.map _).mem_iff, List.map_cons, List.mem_cons, update_self, ← hc.holds,
        List.map_congr_left fun p hp => congrArg IntStrMap.entry (hc.fresh ⟨key, value⟩ hp)]
      rfl
    rw [Tally.tally_concat, Tally.getElem?_accumulate, hfree]
    refine hmem.trans ?_
    obtain ⟨k, v⟩ := e
    by_cases hk : key = k
    · subst hk
      simp [hfree, eq_comm]
    · simp [hk, Ne.symm hk]

/-- A key that is there keeps its record, and the value is added to it. -/
theorem Counts.add (hc : Counts es s) {key : CStr} {value : Int} {tmp : Nat}
    (hsome : tfind (comparAt (update s.map s.next ⟨key, value⟩)) s.next s.rooteduce = some tmp) (out : List UInt8) :
    Counts (es ++ [(key, value)])
      { s with
        out := out
        map := update (update s.map s.next ⟨key, value⟩) tmp
          { (update s.map s.next ⟨key, value⟩) tmp with
            value := addInt ((update s.map s.next ⟨key, value⟩) tmp).value value } } := by
  obtain ⟨htmp, heq⟩ := (tfind_eq_some (hc.fresh_ordered _)).1 hsome
  have hkey : key = (s.map tmp).key := by
    rwa [comparAt_eq, hc.fresh _ htmp, update_self] at heq
  rw [hc.fresh _ htmp]
  -- only the value of the record at `tmp` is another
  have hothers : ∀ p ∈ inorder s.rooteduce, p ≠ tmp →
      update (update s.map s.next ⟨key, value⟩) tmp
        { s.map tmp with value := addInt (s.map tmp).value value } p = s.map p := fun p hp hne => by
    rw [update_of_ne hne, hc.fresh _ hp]
  have hkeys : ∀ p ∈ inorder s.rooteduce,
      (update (update s.map s.next ⟨key, value⟩) tmp
        { s.map tmp with value := addInt (s.map tmp).value value } p).key = (s.map p).key := fun p hp => by
    by_cases hne : p = tmp
    · rw [hne, update_self]
    · rw [hothers p hp hne]
  refine ⟨hc.ordered.congr fun p hp q hq => ?_, hc.allocated, fun e => ?_⟩
  · rw [comparAt, hkeys p hp, hkeys q hq]
    rfl
  · have hvalue : (Tally.tally compar addInt es)[key]? = some (s.map tmp).value :=
      (hc.holds (key, (s.map tmp).value)).1 (List.mem_map.2 ⟨tmp, htmp, by rw [hkey]; rfl⟩)
    rw [Tally.tally_concat, Tally.getElem?_accumulate, hvalue, Option.elim_some, List.mem_map]
    split
    · rename_i hk
      constructor
      · rintro ⟨p, hp, rfl⟩
        -- the record at `tmp` is the only one with the key
        have hsame : (s.map p).key = (s.map tmp).key := by
          rw [← hkeys p hp, ← hkey]
          exact hk.symm
        obtain rfl := hc.ordered.eq_of_cmp hp htmp (comparAt_eq.2 hsame)
        dsimp only
        rw [update_self]
        rfl
      · intro he
        refine ⟨tmp, htmp, ?_⟩
        dsimp only
        rw [update_self]
        exact Prod.ext (hkey.symm.trans hk) (Option.some.inj he)
    · rename_i hk
      rw [← hc.holds, List.mem_map]
      have hne : ∀ p ∈ inorder s.rooteduce, (s.map p).key = e.1 → p ≠ tmp := by
        rintro p - hp rfl
        exact hk (hkey.trans hp)
      constructor
      · rintro ⟨p, hp, he⟩
        have hp' := hne p hp ((hkeys p hp).symm.trans (congrArg Prod.fst he))
        exact ⟨p, hp, by rw [← he]; dsimp only; rw [hothers p hp hp']⟩
      · rintro ⟨p, hp, he⟩
        have hp' := hne p hp (congrArg Prod.fst he)
        exact ⟨p, hp, by rw [← he]; dsimp only; rw [hothers p hp hp']⟩

/-- The buffer keeps its size. -/
theorem length_parseKV {out out' : List UInt8} {e : CStr × Int} (h : parseKV out = some (e, out')) :
    out'.length = out.length := by
  have h1 := length_strtok 32 out
  have h2 := length_strtok 32 (strtok 32 out).rest
  unfold parseKV at h
  dsimp only at h
  split at h
  · cases h
  · cases h
    simp only [List.length_append]
    omega

/-- The buffer that `calloc` returned. -/
def Reduction.Sized (s : Reduction) : Prop := s.out.length = 1024

/-- A message that fits the buffer is counted. -/
theorem reduceMessage_counts (hc : Counts es s) (ho : s.Sized) (ht : Inserts tsearch) {m : CStr}
    (hm : ∃ b ∈ m.bytes, b ≠ 32) (hfits : m.strlen < 1024) :
    ∃ s', reduceMessage tsearch s m = some s' ∧ Counts (es ++ [entry m]) s' ∧ s'.Sized := by
  have hle : m.mem.length ≤ s.out.length := by
    rw [ho, CStr.length_mem]
    exact hfits
  have hdecode : decode (overwrite s.out m.mem) = some (entry m) := by
    rw [← decode_cstr, overwrite, cstr_mem, decode_entry hm]
  obtain ⟨⟨e, out⟩, hparse, he⟩ := Option.map_eq_some_iff.1 hdecode
  obtain rfl : e = entry m := he
  have hout : out.length = 1024 := (length_parseKV hparse).trans ((length_overwrite hle).trans ho)
  rw [← parseAt_eq] at hparse
  unfold reduceMessage
  rw [if_neg (Nat.not_lt.2 hle), hparse]
  dsimp only
  split
  · exact ⟨_, rfl, hc.insert ht ‹_› out, hout⟩
  · exact ⟨_, rfl, hc.add ‹_› out, hout⟩

/-- A message that does not fit is written past the end. -/
theorem reduceMessage_long (ho : s.Sized) {m : CStr} (hlong : ¬m.strlen < 1024) : reduceMessage tsearch s m = none := by
  rw [reduceMessage, if_pos]
  rw [ho, CStr.length_mem]
  omega

theorem reduceLoop_counts (hc : Counts es s) (ho : s.Sized) (ht : Inserts tsearch) {ms : List CStr} (rest : List CStr)
    (hms : splmsg ∉ ms) (hblank : ∀ m ∈ ms, ∃ b ∈ m.bytes, b ≠ 32) (hfits : ∀ m ∈ ms, m.strlen < 1024) :
    ∃ s', reduceLoop tsearch (ms ++ splmsg :: rest) s = some s' ∧ Counts (es ++ ms.map entry) s' := by
  induction ms generalizing es s with
  | nil =>
    refine ⟨s, by rw [List.nil_append, reduceLoop, if_pos rfl], ?_⟩
    rwa [List.map_nil, List.append_nil]
  | cons m ms ih =>
    rw [List.forall_mem_cons] at hblank hfits
    obtain ⟨u, hu, hcu, hou⟩ := reduceMessage_counts hc ho ht hblank.1 hfits.1
    obtain ⟨s', hs', hcs'⟩ := ih hcu hou (fun h => hms (List.mem_cons_of_mem _ h)) hblank.2 hfits.2
    refine ⟨s', ?_, ?_⟩
    · have hne : m ≠ splmsg := fun h => hms (h ▸ List.mem_cons_self)
      rw [List.cons_append, reduceLoop, if_neg hne, hu]
      exact hs'
    · rwa [List.append_assoc] at hcs'

/-- The loop does not come past a message that does not fit. -/
theorem reduceLoop_long (hc : Counts es s) (ho : s.Sized) (ht : Inserts tsearch) {ms : List CStr} (rest : List CStr)
    (hms : splmsg ∉ ms) (hblank : ∀ m ∈ ms, ∃ b ∈ m.bytes, b ≠ 32) (hlong : ∃ m ∈ ms, ¬m.strlen < 1024) :
    reduceLoop tsearch (ms ++ rest) s = none := by
  induction ms generalizing es s with
  | nil =>
    obtain ⟨m, hm, -⟩ := hlong
    cases hm
  | cons m ms ih =>
    rw [List.forall_mem_cons] at hblank
    have hne : m ≠ splmsg := fun h => hms (h ▸ List.mem_cons_self)
    rw [List.cons_append, reduceLoop, if_neg hne]
    by_cases hfits : m.strlen < 1024
    · obtain ⟨u, hu, hcu, hou⟩ := reduceMessage_counts hc ho ht hblank.1 hfits
      obtain ⟨x, hx, hxlong⟩ := hlong
      have hrest : x ∈ ms := (List.mem_cons.1 hx).resolve_left fun heq => hxlong (heq ▸ hfits)
      rw [hu]
      exact ih hcu hou (fun h => hms (List.mem_cons_of_mem _ h)) hblank.2 ⟨x, hrest, hxlong⟩
    · rw [reduceMessage_long ho hfits]
      rfl

/-! ## What is printed -/

/-- `actionReduce` prints at the visits in between and at leaves. -/
theorem flatMap_actionReduce (map : Nat → IntStrMap) (t : BinaryTree Nat) :
    (twalk t).flatMap (actionReduce map) = ((inorder t).map fun p => (map p).entry).flatMap line := by
  rw [← between_twalk]
  induction twalk t with
  | nil => rfl
  | cons v vs ih =>
    obtain ⟨p, which⟩ := v
    rw [List.flatMap_cons, ih]
    cases which <;> rfl

/-- The records in the order of the tree are the tally. -/
theorem Counts.toList (hc : Counts es s) :
    (inorder s.rooteduce).map (fun p => (s.map p).entry) = (Tally.tally compar addInt es).toList := by
  have hascending : ((inorder s.rooteduce).map fun p => (s.map p).entry).Pairwise fun a b => compar a.1 b.1 = .lt :=
    List.pairwise_map.2 hc.ordered
  refine Tally.ascending_ext hascending Std.TreeMap.ordered_keys_toList fun e => ?_
  rw [hc.holds, ← Std.TreeMap.mem_toList_iff_getElem?_eq_some]

/-- At the start nothing is counted. -/
theorem Counts.nil {out : List UInt8} {map : Nat → IntStrMap} {next : Nat} :
    Counts [] { out := out, map := map, next := next, rooteduce := .nil } := by
  refine ⟨List.Pairwise.nil, fun p hp => absurd hp List.not_mem_nil, fun e => ?_⟩
  simp [Tally.tally]

/-- What is printed for a sequence of messages is the tally of their entries,
added up as `int`s. -/
theorem reducer_eq (ht : Inserts tsearch) {ms : List CStr} (rest : List CStr) (hms : splmsg ∉ ms)
    (hblank : ∀ m ∈ ms, ∃ b ∈ m.bytes, b ≠ 32) (hfits : ∀ m ∈ ms, m.strlen < 1024) :
    reducer tsearch (ms ++ splmsg :: rest) = some ((Tally.tally compar addInt (ms.map entry)).toList.flatMap line) := by
  obtain ⟨s, hs, hc⟩ := reduceLoop_counts Counts.nil List.length_replicate ht rest hms hblank hfits
  rw [reducer, hs, Option.map_some, flatMap_actionReduce, hc.toList, List.nil_append]

theorem toInt_entry (m : CStr) : toInt (entry m).2 = (entry m).2 := by
  unfold entry
  dsimp only
  split
  · rfl
  · exact toInt_atoi _

/-- `Reducer` writes one line for each first token of the messages before the
first `"splmsg"`, in the order of `strcmp`, with the sum of the numbers in the
second tokens, whatever the order of the messages, if and only if each of them
fits the buffer they are received into. -/
theorem reducer_sums_iff (ht : Inserts tsearch) {ms : List CStr} (hms : splmsg ∉ ms)
    (hblank : ∀ m ∈ ms, ∃ b ∈ m.bytes, b ≠ 32)
    (hint : ∀ k, -2147483648 ≤ Tally.total k (ms.map entry) ∧ Tally.total k (ms.map entry) ≤ intMax) :
    (∃ l, Tally.IsTally compar (ms.map entry) l ∧
      ∀ ms', ms'.Perm ms → ∀ rest, reducer tsearch (ms' ++ splmsg :: rest) = some (l.flatMap line)) ↔
    ∀ m ∈ ms, m.strlen < 1024 := by
  constructor
  · rintro ⟨l, -, hall⟩ m hm
    by_contra hlong
    have hnone : reducer tsearch (ms ++ splmsg :: []) = none := by
      rw [reducer, reduceLoop_long Counts.nil List.length_replicate ht _ hms hblank ⟨m, hm, hlong⟩, Option.map_none]
    rw [hall ms (List.Perm.refl ms) []] at hnone
    cases hnone
  · intro hfits
    have hwrap : ∀ e ∈ ms.map entry, toInt e.2 = e.2 := by
      intro e he
      obtain ⟨m, -, rfl⟩ := List.mem_map.1 he
      exact toInt_entry m
    have hsum : ∀ k, toInt (Tally.total k (ms.map entry)) = Tally.total k (ms.map entry) := fun k =>
      toInt_of_range (hint k).1 (hint k).2
    have hl : Tally.IsTally compar (ms.map entry) (Tally.tally compar addInt (ms.map entry)).toList :=
      Tally.isTally_toList toInt_add_toInt hwrap hsum
    refine ⟨_, hl, fun ms' hp rest => ?_⟩
    have hperm : (ms'.map entry).Perm (ms.map entry) := hp.map entry
    have hl' : Tally.IsTally compar (ms'.map entry) (Tally.tally compar addInt (ms'.map entry)).toList :=
      Tally.isTally_toList toInt_add_toInt (fun e he => hwrap e (hperm.mem_iff.1 he)) fun k => by
        rw [Tally.total_perm hperm]
        exact hsum k
    rw [reducer_eq ht rest (fun h => hms (hp.mem_iff.1 h)) (fun m hm => hblank m (hp.mem_iff.1 hm))
      fun m hm => hfits m (hp.mem_iff.1 hm)]
    rw [hl'.unique (hl.perm hperm.symm)]

/-- `"b 2"`, `"a 1"`, `" b"`, `"b 3"`. -/
def fourMessages : List CStr :=
  [⟨[98, 32, 50], by decide⟩, ⟨[97, 32, 49], by decide⟩, ⟨[32, 98], by decide⟩, ⟨[98, 32, 51], by decide⟩]

/-- `reducer_sums_iff` for these messages in another order, with a tree that is not
balanced: `"a 1\nb 4\n"`. -/
theorem reducer_sums_iff_four : ∃ l, Tally.IsTally compar (fourMessages.map entry) l ∧
    reducer addLeaf (fourMessages.reverse ++ [splmsg]) = some (l.flatMap line) ∧
    l.flatMap line = [97, 32, 49, 10, 98, 32, 52, 10] := by
  have hentries : fourMessages.map entry =
      [(⟨[98], by decide⟩, 2), (⟨[97], by decide⟩, 1), (⟨[98], by decide⟩, -1), (⟨[98], by decide⟩, 3)] := by
    decide +kernel
  have hms : splmsg ∉ fourMessages := by decide
  have hblank : ∀ m ∈ fourMessages, ∃ b ∈ m.bytes, b ≠ 32 := by decide
  have hfits : ∀ m ∈ fourMessages, m.strlen < 1024 := by decide
  have hint : ∀ k, -2147483648 ≤ Tally.total k (fourMessages.map entry) ∧
      Tally.total k (fourMessages.map entry) ≤ intMax := fun k => by
    rw [hentries]
    simp only [Tally.total_cons, Tally.total_nil]
    constructor <;> split_ifs <;> decide
  obtain ⟨l, hl, hall⟩ := (reducer_sums_iff addLeaf_inserts hms hblank hint).2 hfits
  have hout : reducer addLeaf (fourMessages.reverse ++ [splmsg]) = some [97, 32, 49, 10, 98, 32, 52, 10] := by
    decide +kernel
  have hline := hall fourMessages.reverse (List.reverse_perm _) []
  exact ⟨l, hl, hline, Option.some.inj (hline.symm.trans hout)⟩

/-- 1022 times `"a"`, then `" 1"`. -/
def longMessage : CStr := ⟨List.replicate 1022 97 ++ [32, 49], by decide +kernel⟩

/-- A message of 1024 characters does not fit: nothing is written for it, though
it counts 1 for its first token. -/
theorem reducer_sums_fails : longMessage ≠ splmsg ∧ (∃ b ∈ longMessage.bytes, b ≠ 32) ∧ (entry longMessage).2 = 1 ∧
    reducer addLeaf [longMessage, splmsg] = none ∧
    ¬∃ l, Tally.IsTally compar ([longMessage].map entry) l ∧
      ∀ ms', ms'.Perm [longMessage] → ∀ rest, reducer addLeaf (ms' ++ splmsg :: rest) = some (l.flatMap line) := by
  have hnone : reducer addLeaf [longMessage, splmsg] = none := by decide +kernel
  refine ⟨by decide +kernel, ⟨97, by decide +kernel, by decide⟩, by decide +kernel, hnone, ?_⟩
  rintro ⟨l, -, hall⟩
  have hsome := hall [longMessage] (List.Perm.refl _) []
  rw [List.singleton_append, hnone] at hsome
  cases hsome

end Cmpsc473.WordCount
