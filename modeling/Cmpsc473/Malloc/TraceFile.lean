import Cmpsc473.Lib.Fallible
import Cmpsc473.Lib.Scanf
import Cmpsc473.Malloc.Validity
/-!
# Trace files (`mdriver.c`)

`read_trace` reads a header of four numbers and then one request after the other,
until it has as many as the header says or the file ends. `traces/README` says
what a file looks like (`Trace.text`). The traces that can be read are those that
are `WellFormed`, and every one of them is read off its file.
-/

namespace Cmpsc473.Malloc

/-! ## The functions -/

/-- `trace_t`, without the name of the file and the arrays of zeros. -/
structure Trace where
  weight : Int
  numIds : Int
  numOps : Int
  dataBytes : UInt64
  ops : List TraceOp

/-- The ends of `read_trace` with a message. -/
inductive TraceError where
  | mallocFailed (n : Nat)
  | badWeight
  | bogusType (c : UInt8)
  | maxIndexDiffers
  | numOpsDiffer
  deriving DecidableEq

/-- What `read_trace` finds: the sizes that `malloc` has memory for, and what lies
in the memory and the variables that it does not write. -/
structure Storage where
  gives : Nat → Bool
  weight : Int32
  numIds : Int32
  numOps : Int32
  dataBytes : UInt64
  size : UInt64
  opSize : Nat → UInt64

/-- `malloc` succeeds. -/
def Storage.malloc (st : Storage) (size : Int) : Bool := st.gives (toSize size).toNat

/-- `calloc` succeeds. -/
def Storage.calloc (st : Storage) (nmemb size : Int) : Bool :=
  toSize nmemb * size < 18446744073709551616 && st.gives (toSize nmemb * size).toNat

/-- The variables of the loop, with the part of `ops` up to `op_index`. -/
structure Reading where
  index : Int
  size : UInt64
  maxIndex : Int
  ops : List TraceOp

/-- The variables before the loop. -/
def Storage.reading (st : Storage) : Reading := { index := 0, size := st.size, maxIndex := 0, ops := [] }

/-- The cases `a` and `r` of the `switch`. -/
def readSized (type : OpType) (fp : List UInt8) (r : Reading) : Reading × List UInt8 :=
  let ((index, size), fp) := scanUnsignedPair fp r.index r.size
  ({ index := index, size := size, maxIndex := if index > r.maxIndex then index else r.maxIndex
     ops := r.ops ++ [{ type := type, index := index, size := size }] }, fp)

/-- The case `f`, which leaves the size as it is. -/
def readFree (st : Storage) (fp : List UInt8) (r : Reading) : Reading × List UInt8 :=
  let (index, fp) := scanUnsigned fp r.index
  ({ r with index := index
            ops := r.ops ++ [{ type := .free, index := index, size := st.opSize r.ops.length }] }, fp)

/-- The `switch` of `read_trace`. -/
def readOp (st : Storage) (c : UInt8) (fp : List UInt8) (r : Reading) : Fallible TraceError (Reading × List UInt8) :=
  if c = 97 then pure (readSized .alloc fp r)
  else if c = 114 then pure (readSized .realloc fp r)
  else if c = 102 then pure (readFree st fp r)
  else throw (.bogusType c)

/-- `MAXLINE`. -/
def maxline : Nat := 1024

/-- At most `n` rounds of the loop of `read_trace`. -/
def readOps (st : Storage) (numOps : Int) : Nat → List UInt8 → Reading → Fallible TraceError Reading
  | 0, _, r => pure r
  | n + 1, fp, r =>
    match scanWord fp.length fp with
    | none => pure r
    | some (type, fp) => do
      -- `type` has room for so many bytes and the NUL
      access (type.length < maxline)
      let (r', fp) ← readOp st (type.headD 0) fp r
      access (r.ops.length < numOps)
      if r'.ops.length = numOps then pure r' else readOps st numOps n fp r'

/-- `read_trace`. Every round of the loop takes a word off the file. -/
def readTrace (st : Storage) (tracefile : List UInt8) : Fallible TraceError Trace := do
  let (weight, fp) := scanInt tracefile st.weight.toInt
  let (numIds, fp) := scanInt fp st.numIds.toInt
  let (numOps, fp) := scanInt fp st.numOps.toInt
  let (dataBytes, fp) := scanSsize fp st.dataBytes
  require (weight % 4294967296 ≤ 3) .badWeight
  require (st.malloc (numOps * 24)) (.mallocFailed 2)
  require (st.calloc numIds 8) (.mallocFailed 3)
  require (st.calloc numIds 8) (.mallocFailed 4)
  require (st.calloc numIds 4) (.mallocFailed 5)
  let r ← readOps st numOps fp.length fp st.reading
  require (r.maxIndex = numIds - 1) .maxIndexDiffers
  require (numOps = r.ops.length) .numOpsDiffer
  pure { weight := weight, numIds := numIds, numOps := numOps, dataBytes := dataBytes, ops := r.ops }

/-! ## The format -/

/-- A line of a trace file. -/
def TraceOp.text (op : TraceOp) : List UInt8 :=
  match op.type with
  | .alloc => 97 :: 32 :: (formatInt op.index ++ 32 :: (formatInt op.size.toNat ++ [10]))
  | .realloc => 114 :: 32 :: (formatInt op.index ++ 32 :: (formatInt op.size.toNat ++ [10]))
  | .free => 102 :: 32 :: (formatInt op.index ++ [10])

/-- The lines behind the header. -/
def opsText (ops : List TraceOp) : List UInt8 := ops.flatMap TraceOp.text

/-- A trace file. -/
def Trace.text (t : Trace) : List UInt8 :=
  formatInt t.weight ++ 10 :: (formatInt t.numIds ++ 10 :: (formatInt t.numOps ++
    10 :: (formatInt (toIntptr t.dataBytes) ++ 10 :: opsText t.ops)))

/-- The greatest index so far, of the requests that allocate. -/
def TraceOp.raise (m : Int) (op : TraceOp) : Int :=
  if op.type = .free then m else if op.index > m then op.index else m

/-- The greatest index, or 0. -/
def maxIndex (ops : List TraceOp) : Int := ops.foldl TraceOp.raise 0

/-- The index is an `int`, and a `FREE` has the size that was there before. -/
structure TraceOp.Ok (st : Storage) (i : Nat) (op : TraceOp) : Prop where
  int : -2147483648 ≤ op.index ∧ op.index ≤ intMax
  size : op.type = .free → op.size = st.opSize i

/-- The traces that `read_trace` accepts. -/
structure Trace.WellFormed (st : Storage) (t : Trace) : Prop where
  weight : 0 ≤ t.weight ∧ t.weight ≤ 3
  numIds : t.numIds = maxIndex t.ops + 1 ∧ t.numIds ≤ intMax
  numOps : t.numOps = t.ops.length ∧ t.numOps ≤ intMax
  ops : ∀ i (op : TraceOp), t.ops[i]? = some op → op.Ok st i
  malloc : st.gives (24 * t.ops.length) = true
  calloc : st.gives (8 * t.numIds.toNat) = true ∧ st.gives (4 * t.numIds.toNat) = true

variable {st : Storage} {t : Trace} {fp rest lead : List UInt8} {r r' : Reading} {op : TraceOp} {ops : List TraceOp}
  {type : OpType} {n : Nat} {numOps : Int} {c : UInt8}

/-! ## One round -/

theorem readOps_end (hs : scanWord fp.length fp = none) : Returns (readOps st numOps n fp r) r' ↔ r = r' := by
  cases n with
  | zero => rw [readOps, returns_pure]
  | succ n => rw [readOps, hs, returns_pure]

theorem readOps_word {word : List UInt8} (hs : scanWord fp.length fp = some (word, rest)) :
    Returns (readOps st numOps (n + 1) fp r) r' ↔ word.length < maxline ∧ ∃ r1 fp1,
      Returns (readOp st (word.headD 0) rest r) (r1, fp1) ∧ r.ops.length < numOps ∧
      if r1.ops.length = numOps then r1 = r' else Returns (readOps st numOps n fp1 r1) r' := by
  have hend : ∀ r1 fp1, Returns (if (r1.ops.length : Int) = numOps then pure r1 else readOps st numOps n fp1 r1) r' ↔
      if r1.ops.length = numOps then r1 = r' else Returns (readOps st numOps n fp1 r1) r' := by
    intro r1 fp1
    split
    · exact returns_pure
    · exact Iff.rfl
  simp only [readOps, hs, returns_bind, returns_access, hend, Prod.exists, exists_const, decide_eq_true_eq]

/-! ## Reading a file of the format -/

theorem scanUnsignedPair_text {index : Int} {size : UInt64} (h1 : -2147483648 ≤ index) (h2 : index ≤ intMax) (x : Int)
    (y : UInt64) :
    scanUnsignedPair (32 :: (formatInt index ++ 32 :: (formatInt size.toNat ++ 10 :: rest))) x y =
      ((index, size), 10 :: rest) := by
  have hindex : scanNumber (32 :: (formatInt index ++ 32 :: (formatInt size.toNat ++ 10 :: rest))) =
      (some index, 32 :: (formatInt size.toNat ++ 10 :: rest)) := scanNumber_between rfl rfl
  have hsize : scanNumber (32 :: (formatInt size.toNat ++ 10 :: rest)) = (some (size.toNat : Int), 10 :: rest) :=
    scanNumber_between rfl rfl
  simp only [scanUnsignedPair, hindex, hsize, Option.map_some, Option.getD_some, strtoul_toNat, toInt_strtoul h1 h2]

theorem scanUnsigned_text {index : Int} (h1 : -2147483648 ≤ index) (h2 : index ≤ intMax) (rest : List UInt8) (x : Int) :
    scanUnsigned (32 :: (formatInt index ++ 10 :: rest)) x = (index, 10 :: rest) := by
  have hindex : scanNumber (32 :: (formatInt index ++ 10 :: rest)) = (some index, 10 :: rest) :=
    scanNumber_between rfl rfl
  simp only [scanUnsigned, hindex, Option.map_some, Option.getD_some, toInt_strtoul h1 h2]

theorem readSized_text {index : Int} (h1 : -2147483648 ≤ index) (h2 : index ≤ intMax) (htype : type ≠ .free)
    (size : UInt64) (rest : List UInt8) (r : Reading) :
    ∃ r', readSized type (32 :: (formatInt index ++ 32 :: (formatInt size.toNat ++ 10 :: rest))) r = (r', 10 :: rest) ∧
      r'.ops = r.ops ++ [⟨type, index, size⟩] ∧ r'.maxIndex = TraceOp.raise r.maxIndex ⟨type, index, size⟩ := by
  rw [readSized, scanUnsignedPair_text h1 h2]
  refine ⟨_, rfl, rfl, ?_⟩
  rw [TraceOp.raise, if_neg htype]

/-- The line of a request is read as it is. -/
theorem readOp_text (hop : op.Ok st r.ops.length) (rest : List UInt8) :
    ∃ c line, op.text = c :: 32 :: line ∧ isspace c = false ∧ ∃ r',
      Returns (readOp st c (32 :: line ++ rest) r) (r', 10 :: rest) ∧ r'.ops = r.ops ++ [op] ∧
        r'.maxIndex = TraceOp.raise r.maxIndex op := by
  obtain ⟨type, index, size⟩ := op
  obtain ⟨⟨h1, h2⟩, hsize⟩ := hop
  cases type with
  | alloc =>
    obtain ⟨r', hread, hafter⟩ := readSized_text h1 h2 (by decide : OpType.alloc ≠ .free) size rest r
    refine ⟨97, _, rfl, rfl, r', ?_, hafter⟩
    rw [readOp, if_pos rfl, returns_pure, ← hread]
    simp
  | realloc =>
    obtain ⟨r', hread, hafter⟩ := readSized_text h1 h2 (by decide : OpType.realloc ≠ .free) size rest r
    refine ⟨114, _, rfl, rfl, r', ?_, hafter⟩
    rw [readOp, if_neg (by decide), if_pos rfl, returns_pure, ← hread]
    simp
  | free =>
    obtain rfl : size = st.opSize r.ops.length := hsize rfl
    have hread := scanUnsigned_text h1 h2 rest r.index
    refine ⟨102, _, rfl, rfl, { r with index := index, ops := r.ops ++ [⟨.free, index, st.opSize r.ops.length⟩] }, ?_,
      rfl, rfl⟩
    rw [readOp, if_neg (by decide), if_neg (by decide), if_pos rfl, returns_pure, readFree]
    simp only [List.cons_append, List.append_assoc, List.nil_append, hread]

/-- The lines of a trace are read one by one. -/
theorem readOps_text (hlead : ∀ b ∈ lead, isspace b = true) (hn : ops.length ≤ n)
    (hnum : numOps = r.ops.length + ops.length)
    (hops : ∀ i (op : TraceOp), ops[i]? = some op → op.Ok st (r.ops.length + i)) :
    ∃ r', Returns (readOps st numOps n (lead ++ opsText ops) r) r' ∧ r'.ops = r.ops ++ ops ∧
      r'.maxIndex = ops.foldl TraceOp.raise r.maxIndex := by
  induction ops generalizing lead n r with
  | nil =>
    refine ⟨r, ?_, (List.append_nil _).symm, rfl⟩
    rw [opsText, List.flatMap_nil, List.append_nil]
    exact (readOps_end (scanWord_end hlead)).2 rfl
  | cons op ops ih =>
    obtain ⟨n, rfl⟩ := Nat.exists_eq_succ_of_ne_zero (Nat.pos_iff_ne_zero.1 (Nat.zero_lt_of_lt hn))
    obtain ⟨c, line, htext, hc, r1, hread, hr1, hmax⟩ := readOp_text (hops 0 op rfl) (opsText ops)
    have hword : scanWord (lead ++ opsText (op :: ops)).length (lead ++ opsText (op :: ops)) =
        some ([c], 32 :: line ++ opsText ops) := by
      rw [opsText, List.flatMap_cons, htext]
      refine scanWord_char ?_ hlead hc rfl
      simp
    have hlen : r1.ops.length = r.ops.length + 1 := by rw [hr1, List.length_append, List.length_singleton]
    rw [List.length_cons] at hnum hn
    have hroom : (r.ops.length : Int) < numOps := by omega
    have hshort : [c].length < maxline := Nat.lt_add_of_pos_left (by decide)
    by_cases hall : (r1.ops.length : Int) = numOps
    · -- the loop ends with the last line
      obtain rfl : ops = [] := List.length_eq_zero_iff.1 (by omega)
      refine ⟨r1, (readOps_word hword).2 ⟨hshort, r1, _, hread, hroom, ?_⟩, hr1, hmax⟩
      rw [if_pos hall]
    · have hrest : ∀ i (op : TraceOp), ops[i]? = some op → op.Ok st (r1.ops.length + i) := by
        intro i op' hi
        have := hops (i + 1) op' hi
        rwa [hlen, Nat.add_assoc, Nat.add_comm 1]
      have hnewline : ∀ b ∈ [(10 : UInt8)], isspace b = true := by simp; decide
      obtain ⟨r2, hreads, hr2, hmax2⟩ := ih hnewline (Nat.le_of_succ_le_succ hn) (by omega) hrest
      refine ⟨r2, (readOps_word hword).2 ⟨hshort, r1, _, hread, hroom, ?_⟩, ?_, ?_⟩
      · rw [if_neg hall]
        exact hreads
      · rw [hr2, hr1, List.append_assoc]
        rfl
      · rw [hmax2, hmax]
        rfl

theorem ofInt_strtol (x : UInt64) : UInt64.ofInt (strtol (toIntptr x)) = x := by
  have hx := x.toNat_lt
  apply UInt64.toNat_inj.1
  apply Int.natCast_inj.1
  rw [toNat_ofInt]
  unfold toIntptr strtol
  split <;> omega

theorem scanInt_text {v : Int} (hlead : ∀ b ∈ lead, isspace b = true) (h1 : -2147483648 ≤ v) (h2 : v ≤ intMax)
    (rest : List UInt8) (x : Int) : scanInt (lead ++ (formatInt v ++ 10 :: rest)) x = (v, 10 :: rest) := by
  have hscan : scanNumber (lead ++ (formatInt v ++ 10 :: rest)) = (some v, 10 :: rest) :=
    scanNumber_formatInt hlead (by simp; decide)
  simp only [scanInt, hscan, Option.map_some, Option.getD_some, toInt_strtol h1 h2]

theorem scanSsize_text (v : UInt64) (rest : List UInt8) (x : UInt64) :
    scanSsize (10 :: (formatInt (toIntptr v) ++ 10 :: rest)) x = (v, 10 :: rest) := by
  have hscan : scanNumber (10 :: (formatInt (toIntptr v) ++ 10 :: rest)) = (some (toIntptr v), 10 :: rest) :=
    scanNumber_between rfl rfl
  simp only [scanSsize, hscan, Option.map_some, Option.getD_some, ofInt_strtol]

theorem malloc_gives (st : Storage) {n : Int} (h0 : 0 ≤ n) (h1 : n ≤ intMax) :
    st.malloc (n * 24) = st.gives (24 * n.toNat) := by
  simp only [intMax] at h1
  have hbytes : (toSize (n * 24)).toNat = 24 * n.toNat := by
    rw [toSize_of_range (by omega) (by omega)]
    omega
  rw [Storage.malloc, hbytes]

theorem calloc_gives (st : Storage) {n size : Int} (h0 : 0 ≤ n) (h1 : n ≤ intMax) (hs0 : 0 ≤ size) (hs1 : size ≤ 8) :
    st.calloc n size = st.gives (size.toNat * n.toNat) := by
  simp only [intMax] at h1
  obtain ⟨k, rfl⟩ := Int.eq_ofNat_of_zero_le hs0
  obtain ⟨n, rfl⟩ := Int.eq_ofNat_of_zero_le h0
  have hfits : (n : Int) * k < 18446744073709551616 := by
    have hle : (n : Int) * k ≤ n * 8 := Int.mul_le_mul_of_nonneg_left hs1 h0
    omega
  have hbytes : ((n : Int) * k).toNat = k * n := by
    rw [← Nat.cast_mul, Int.toNat_natCast, Nat.mul_comm]
  rw [Storage.calloc, toSize_of_range h0 (by omega), decide_eq_true hfits, hbytes]
  simp

theorem le_foldl_raise (m : Int) (ops : List TraceOp) : m ≤ ops.foldl TraceOp.raise m := by
  induction ops generalizing m with
  | nil => exact le_rfl
  | cons op ops ih =>
    refine le_trans ?_ (ih _)
    unfold TraceOp.raise
    split
    · exact le_rfl
    · split <;> omega

theorem length_opsText (ops : List TraceOp) : ops.length ≤ (opsText ops).length := by
  induction ops with
  | nil => exact le_rfl
  | cons op ops ih =>
    have hpos : 0 < op.text.length := by
      unfold TraceOp.text
      cases op.type <;> exact Nat.succ_pos _
    rw [opsText, List.flatMap_cons, List.length_append, List.length_cons]
    rw [opsText] at ih
    omega

/-- A well-formed trace is read off its file. -/
theorem readTrace_text (hw : t.WellFormed st) : Returns (readTrace st t.text) t := by
  obtain ⟨weight, numIds, numOps, dataBytes, ops⟩ := t
  obtain ⟨⟨hw0, hw3⟩, ⟨hids, hidsMax⟩, ⟨hnum, hnumMax⟩, hops, hmalloc, hcalloc8, hcalloc4⟩ := hw
  simp only at hw0 hw3 hids hidsMax hnum hnumMax hops hmalloc hcalloc8 hcalloc4
  have hpos : 0 ≤ maxIndex ops := le_foldl_raise 0 ops
  have hmax : (3 : Int) ≤ intMax := by decide
  have hnewline : ∀ b ∈ [(10 : UInt8)], isspace b = true := by simp; decide
  have hscan1 : ∀ rest x, scanInt ([] ++ (formatInt weight ++ 10 :: rest)) x = (weight, 10 :: rest) :=
    scanInt_text (by simp) (by omega) (by omega)
  have hscan2 : ∀ rest x, scanInt ([10] ++ (formatInt numIds ++ 10 :: rest)) x = (numIds, 10 :: rest) :=
    scanInt_text hnewline (by omega) hidsMax
  have hscan3 : ∀ rest x, scanInt ([10] ++ (formatInt numOps ++ 10 :: rest)) x = (numOps, 10 :: rest) :=
    scanInt_text hnewline (by omega) hnumMax
  simp only [List.nil_append, List.cons_append] at hscan1 hscan2 hscan3
  have hm := malloc_gives st (show 0 ≤ numOps by omega) hnumMax
  have hc8 := calloc_gives st (show 0 ≤ numIds by omega) hidsMax (by decide) (le_refl 8)
  have hc4 := calloc_gives st (show 0 ≤ numIds by omega) hidsMax (by decide) (by decide : (4 : Int) ≤ 8)
  have hrounds : ops.length ≤ (10 :: opsText ops).length := (length_opsText ops).trans (Nat.le_succ _)
  have hstart : numOps = st.reading.ops.length + ops.length := by simpa [Storage.reading] using hnum
  obtain ⟨r', hread, hr, hlast⟩ := readOps_text hnewline hrounds hstart (by simpa [Storage.reading] using hops)
  have hr' : r'.ops = ops := hr
  have hlast' : r'.maxIndex = maxIndex ops := hlast
  simp only [readTrace, Trace.text, hscan1, hscan2, hscan3, scanSsize_text, returns_bind, returns_require, returns_pure,
    exists_const, decide_eq_true_eq, hm, hc8, hc4]
  refine ⟨by omega, ?_, hcalloc8, hcalloc8, hcalloc4, r', hread, ?_, ?_, ?_⟩
  · rw [hnum, Int.toNat_natCast]
    exact hmalloc
  · rw [hlast']
    omega
  · rw [hr']
    exact hnum
  · rw [hr']

/-! ## Reading any file -/

/-- What the loop keeps. -/
structure Reading.Ok (st : Storage) (r : Reading) : Prop where
  index : -2147483648 ≤ r.index ∧ r.index ≤ intMax
  maxIndex : r.maxIndex = Malloc.maxIndex r.ops
  ops : ∀ i (op : TraceOp), r.ops[i]? = some op → op.Ok st i

theorem Reading.Ok.put {index : Int} {size : UInt64} (hr : r.Ok st) (hindex : -2147483648 ≤ index ∧ index ≤ intMax)
    (hsize : type = .free → size = st.opSize r.ops.length) (hat : r'.index = index)
    (hops : r'.ops = r.ops ++ [⟨type, index, size⟩])
    (hmax : r'.maxIndex = TraceOp.raise r.maxIndex ⟨type, index, size⟩) : r'.Ok st := by
  refine ⟨hat ▸ hindex, ?_, fun i op hi => ?_⟩
  · rw [hmax, hr.maxIndex, hops, Malloc.maxIndex, Malloc.maxIndex, List.foldl_append]
    rfl
  · rw [hops] at hi
    rcases Nat.lt_or_ge i r.ops.length with hlt | hge
    · rw [List.getElem?_append_left hlt] at hi
      exact hr.ops i op hi
    · rw [List.getElem?_append_right hge, List.getElem?_singleton] at hi
      obtain ⟨hzero, hop⟩ := Option.ite_none_right_eq_some.1 hi
      obtain rfl := Option.some.inj hop
      obtain rfl : i = r.ops.length := by omega
      exact ⟨hindex, hsize⟩

theorem scanInt_range {x : Int} (hx : -2147483648 ≤ x ∧ x ≤ intMax) (fp : List UInt8) :
    -2147483648 ≤ (scanInt fp x).1 ∧ (scanInt fp x).1 ≤ intMax := by
  simp only [scanInt]
  cases (scanNumber fp).1 with
  | none => exact hx
  | some v =>
    rw [Option.map_some, Option.getD_some]
    exact toInt_range _

theorem scanUnsigned_range {x : Int} (hx : -2147483648 ≤ x ∧ x ≤ intMax) (fp : List UInt8) :
    -2147483648 ≤ (scanUnsigned fp x).1 ∧ (scanUnsigned fp x).1 ≤ intMax := by
  simp only [scanUnsigned]
  cases (scanNumber fp).1 with
  | none => exact hx
  | some v =>
    rw [Option.map_some, Option.getD_some]
    exact toInt_range _

theorem scanUnsignedPair_range {x : Int} (hx : -2147483648 ≤ x ∧ x ≤ intMax) (fp : List UInt8) (y : UInt64) :
    -2147483648 ≤ (scanUnsignedPair fp x y).1.1 ∧ (scanUnsignedPair fp x y).1.1 ≤ intMax := by
  unfold scanUnsignedPair
  split
  · exact hx
  · simp only
    exact toInt_range _

theorem readSized_ok (hr : r.Ok st) (htype : type ≠ .free) (fp : List UInt8) : (readSized type fp r).1.Ok st := by
  refine hr.put (scanUnsignedPair_range hr.index fp r.size) (fun hfree => absurd hfree htype) rfl rfl ?_
  rw [TraceOp.raise, if_neg htype]
  rfl

theorem readFree_ok (hr : r.Ok st) (fp : List UInt8) : (readFree st fp r).1.Ok st :=
  hr.put (scanUnsigned_range hr.index fp) (fun _ => rfl) rfl rfl rfl

/-- A request that is read is an `int` index with a size. -/
theorem readOp_ok (hr : r.Ok st) {fp1 : List UInt8} (hread : Returns (readOp st c fp r) (r', fp1)) : r'.Ok st := by
  unfold readOp at hread
  split at hread
  · rw [returns_pure] at hread
    have := readSized_ok hr (by decide : OpType.alloc ≠ .free) fp
    rwa [hread] at this
  · split at hread
    · rw [returns_pure] at hread
      have := readSized_ok hr (by decide : OpType.realloc ≠ .free) fp
      rwa [hread] at this
    · split at hread
      · rw [returns_pure] at hread
        have := readFree_ok hr fp
        rwa [hread] at this
      · exact absurd hread returns_throw

theorem readOps_ok (hr : r.Ok st) (hread : Returns (readOps st numOps n fp r) r') : r'.Ok st := by
  induction n generalizing fp r with
  | zero =>
    rw [readOps, returns_pure] at hread
    rwa [← hread]
  | succ n ih =>
    cases hs : scanWord fp.length fp with
    | none =>
      rw [readOps_end hs] at hread
      rwa [← hread]
    | some w =>
      obtain ⟨word, rest⟩ := w
      obtain ⟨-, r1, fp1, hone, -, hread⟩ := (readOps_word hs).1 hread
      have hr1 := readOp_ok hr hone
      split at hread
      · rwa [← hread]
      · exact ih hr1 hread

theorem int32_range (x : Int32) : -2147483648 ≤ x.toInt ∧ x.toInt ≤ intMax := ⟨x.minValue_le_toInt, x.toInt_le⟩

theorem reading_ok (st : Storage) : st.reading.Ok st := by
  have hzero : -2147483648 ≤ (0 : Int) ∧ (0 : Int) ≤ intMax := by decide
  exact ⟨hzero, rfl, by simp [Storage.reading]⟩

/-- What `read_trace` accepts is well formed. -/
theorem wellFormed_of_readTrace (hread : Returns (readTrace st fp) t) : t.WellFormed st := by
  unfold readTrace at hread
  rcases hscan1 : scanInt fp st.weight.toInt with ⟨weight, fp1⟩
  rcases hscan2 : scanInt fp1 st.numIds.toInt with ⟨numIds, fp2⟩
  rcases hscan3 : scanInt fp2 st.numOps.toInt with ⟨numOps, fp3⟩
  rcases hscan4 : scanSsize fp3 st.dataBytes with ⟨dataBytes, fp4⟩
  have hr1 := scanInt_range (int32_range st.weight) fp
  have hr2 := scanInt_range (int32_range st.numIds) fp1
  have hr3 := scanInt_range (int32_range st.numOps) fp2
  rw [hscan1] at hr1
  rw [hscan2] at hr2
  rw [hscan3] at hr3
  simp only [hscan1, hscan2, hscan3, hscan4, returns_bind, returns_require, returns_pure, decide_eq_true_eq] at hread
  obtain ⟨-, hweight, -, hmalloc, -, hcalloc8, -, -, -, hcalloc4, r, hreads, -, hmax, -, hnum, hdone⟩ := hread
  obtain ⟨-, hlast, hops⟩ := readOps_ok (reading_ok st) hreads
  have hpos : 0 ≤ maxIndex r.ops := le_foldl_raise 0 r.ops
  simp only at hr1 hr2 hr3
  have hint : intMax = 2147483647 := rfl
  have hranges : (0 ≤ weight ∧ weight ≤ 3) ∧ numIds = maxIndex r.ops + 1 := by omega
  rw [malloc_gives st (by omega) hr3.2, hnum, Int.toNat_natCast] at hmalloc
  rw [calloc_gives st (by omega) hr2.2 (by decide) (by decide)] at hcalloc8 hcalloc4
  subst hdone
  exact ⟨hranges.1, ⟨hranges.2, hr2.2⟩, ⟨hnum, hr3.2⟩, hops, hmalloc, hcalloc8, hcalloc4⟩

theorem le_maxIndex (hop : op ∈ ops) (htype : op.type ≠ .free) (m : Int) : op.index ≤ ops.foldl TraceOp.raise m := by
  induction ops generalizing m with
  | nil => cases hop
  | cons op' ops ih =>
    rcases List.mem_cons.1 hop with rfl | hop
    · refine le_trans ?_ (le_foldl_raise _ ops)
      rw [TraceOp.raise, if_neg htype]
      split <;> omega
    · exact ih hop _

/-- An index of a request that allocates lies in the arrays of the trace, unless it
is negative. Nothing is known of the indices that are freed. -/
theorem Trace.WellFormed.slot (hw : t.WellFormed st) (hop : op ∈ t.ops) (htype : op.type ≠ .free) (h0 : 0 ≤ op.index) :
    slot t.numIds.toNat op.index = some op.index.toNat := by
  have hle : op.index ≤ maxIndex t.ops := le_maxIndex hop htype 0
  have hids := hw.numIds.1
  exact if_pos ⟨h0, by omega⟩

/-- `read_trace` returns the well-formed traces, and reads each of them off its file. -/
theorem readTrace_exact (st : Storage) (t : Trace) :
    (Returns (readTrace st t.text) t ↔ t.WellFormed st) ∧ ((∃ fp, Returns (readTrace st fp) t) ↔ t.WellFormed st) :=
  ⟨⟨wellFormed_of_readTrace, readTrace_text⟩,
    ⟨fun ⟨_, h⟩ => wellFormed_of_readTrace h, fun h => ⟨t.text, readTrace_text h⟩⟩⟩

end Cmpsc473.Malloc
