import Cmpsc473.Malloc.Memlib
/-!
# The allocator (`mm.c`)

Every request moves the break, and nothing is reused. `malloc_cases` says all
that `malloc` can do: nothing, a block at the old break, or, when the request
does not fit, a pointer that is not `NULL` and has no block behind it. The other
functions are specified from it.
-/

namespace Cmpsc473.Malloc

open Memory

/-- `NULL`. -/
def null : Nat := 0

/-- A `size_t` passed as `intptr_t`. -/
def toIntptr (n : UInt64) : Int :=
  if n.toNat < 9223372036854775808 then n.toNat else n.toNat - 18446744073709551616

/-- `align`: rounds up to the nearest multiple of `ALIGNMENT`. -/
def align (x : UInt64) : UInt64 := 16 * ((x + 16 - 1) / 16)

/-- `mm_init`. -/
def mmInit : Bool := true

/-- `mm_checkheap`. -/
def mmCheckheap : Bool := true

/-- `malloc`. -/
def malloc (h : Heap) (size : UInt64) : Nat × Heap :=
  if size = 0 then (null, h)
  else
    let r := memSbrk h (toIntptr (align size))
    let ptr := r.1
    let h := r.2
    if ptr = null then (null, h) else (ptr, h)

/-- `free`: whatever the pointer, nothing happens. -/
def free (h : Heap) (_ptr : Nat) : Heap := h

/-- `realloc`. -/
def realloc (h : Heap) (oldptr : Nat) (size : UInt64) : Option (Nat × Heap) :=
  let r := malloc h size
  let newptr := r.1
  let h := r.2
  if size ≤ 0 then some (null, free h oldptr)
  else if oldptr = null then some (malloc h size)
  else if newptr ≠ null then do
    let r ← memMemcpy h newptr oldptr size.toNat
    some (newptr, free r.2 oldptr)
  else some (newptr, h)

/-- `calloc`. -/
def calloc (h : Heap) (nmemb size : UInt64) : Option (Nat × Heap) :=
  let size := size * nmemb
  let r := malloc h size
  let ptr := r.1
  let h := r.2
  if ptr ≠ null then do
    let r ← memMemset h ptr 0 size.toNat
    some (ptr, r.2)
  else some (ptr, h)

/-! ## The heap -/

/-- The region `mmap` returned is page-aligned and lies in user space; the break
lies in it, at a multiple of `ALIGNMENT`. -/
structure Heap.Ok (h : Heap) : Prop where
  page : 4096 ∣ h.heap
  pos : 0 < h.heap
  max : h.memMaxAddr = h.heap + maxHeapSize
  user : h.memMaxAddr ≤ 140737488355328
  brk_ge : h.heap ≤ h.memBrk
  brk_le : h.memBrk ≤ h.memMaxAddr
  brk_aligned : 16 ∣ h.memBrk

/-- The last byte of the heap lies below the break. -/
theorem Heap.Ok.memHeapHi_succ {h : Heap} (hok : h.Ok) : memHeapHi h + 1 = h.memBrk :=
  Nat.sub_add_cancel (hok.pos.trans_le hok.brk_ge)

/-- What is left of the region. -/
def Heap.rest (h : Heap) : Nat := h.memMaxAddr - h.memBrk

/-- A size rounded up to a multiple of `ALIGNMENT`, as a number. -/
def alignUp (n : Nat) : Nat := 16 * ((n + 15) / 16)

theorem memInit_ok {addr : Nat} (mem : Nat → UInt8) (hp : 4096 ∣ addr) (h0 : 0 < addr)
    (hu : addr + maxHeapSize ≤ 140737488355328) : (memInit addr mem).Ok :=
  ⟨hp, h0, rfl, hu, le_rfl, Nat.le_add_right _ _, Dvd.dvd.trans (by decide) hp⟩

theorem Heap.Ok.writes {h h' : Heap} {dst n : Nat} (hok : h.Ok) (hw : Writes h h' dst n) : h'.Ok := by
  obtain ⟨h1, h2, h3, -⟩ := hw
  obtain ⟨k1, k2, k3, k4, k5, k6, k7⟩ := hok
  constructor <;> simp only [h1, h2, h3] <;> assumption

/-- The heap with the break moved up by `n`. -/
def Heap.grow (h : Heap) (n : Nat) : Heap := { h with memBrk := h.memBrk + n }

theorem Heap.Ok.grow {h : Heap} (hok : h.Ok) {n : Nat} (hn : alignUp n ≤ h.rest) : (h.grow (alignUp n)).Ok := by
  have hle := hok.brk_le
  simp only [Heap.rest] at hn
  refine ⟨hok.page, hok.pos, hok.max, hok.user, hok.brk_ge.trans (Nat.le_add_right _ _), ?_, ?_⟩
  · show h.memBrk + alignUp n ≤ h.memMaxAddr
    omega
  · exact (Nat.dvd_add_right hok.brk_aligned).2 (Dvd.intro _ rfl)

theorem Heap.Ok.brk_ne {h : Heap} (hok : h.Ok) : h.memBrk ≠ null := by
  have h1 := hok.pos
  have h2 := hok.brk_ge
  unfold null
  omega

theorem le_alignUp (n : Nat) : n ≤ alignUp n := by
  simp only [alignUp]
  omega

/-! ## `malloc` -/

theorem toNat_align (x : UInt64) : (align x).toNat = 16 * ((x.toNat + 15) % 18446744073709551616 / 16) := by
  have hx := x.toNat_lt
  simp only [align, UInt64.toNat_mul, UInt64.toNat_div, UInt64.toNat_sub, UInt64.toNat_add, UInt64.reduceToNat]
  omega

/-- All that `malloc` can do. -/
theorem malloc_cases {h : Heap} (hok : h.Ok) (size : UInt64) :
    (size.toNat = 0 ∧ malloc h size = (null, h)) ∨
    (0 < size.toNat ∧ alignUp size.toNat ≤ h.rest ∧ malloc h size = (h.memBrk, h.grow (alignUp size.toNat))) ∨
    (0 < size.toNat ∧ h.rest < alignUp size.toNat ∧
      ∃ p, malloc h size = (p, h) ∧ p ≠ null ∧ h.memMaxAddr < p + size.toNat) := by
  have hx := size.toNat_lt
  have hbrk := hok.brk_ne
  have hle := hok.brk_le
  have huser := hok.user
  rcases Nat.eq_zero_or_pos size.toNat with h0 | hpos
  · exact .inl ⟨h0, by rw [malloc, if_pos (UInt64.toNat_inj.1 h0)]⟩
  have hne : size ≠ 0 := by rintro rfl; exact absurd hpos (by decide)
  have hal := toNat_align size
  right
  by_cases hfit : alignUp size.toNat ≤ h.rest
  · have hal' : (align size).toNat = alignUp size.toNat := by
      rw [hal]; simp only [alignUp, Heap.rest] at hfit ⊢; omega
    have hincr : toIntptr (align size) = alignUp size.toNat := by
      rw [toIntptr, hal', if_pos]
      simp only [Heap.rest] at hfit
      omega
    refine .inl ⟨hpos, hfit, ?_⟩
    simp only [Heap.rest] at hfit
    have hsb := memSbrk_fits h (alignUp size.toNat) (by omega) (by omega)
    simp only [malloc, hne, if_false, hincr, hsb, hbrk, Int.toNat_natCast, Heap.grow]
  · refine .inr ⟨hpos, by omega, ?_⟩
    -- the sum wraps for the last fifteen sizes: the request is for no byte at all
    by_cases hwrap : (align size).toNat = 0
    · have hincr : toIntptr (align size) = 0 := by rw [toIntptr, hwrap]; rfl
      refine ⟨h.memBrk, ?_, hbrk, ?_⟩
      · have hsb := memSbrk_fits h 0 le_rfl (by omega)
        simp only [malloc, hne, if_false, hincr, hsb, hbrk]
        rfl
      · rw [hwrap] at hal
        omega
    · refine ⟨minusOne, ?_, by decide, by simp only [minusOne]; omega⟩
      have hsb : memSbrk h (toIntptr (align size)) = (minusOne, h) := by
        apply memSbrk_fails
        simp only [toIntptr, Heap.rest, alignUp] at hfit ⊢
        split <;> omega
      have hm : minusOne ≠ null := by decide
      simp only [malloc, hne, if_false, hsb, hm]

/-! ## What a request does -/

/-- A request a client can make. -/
inductive Request where
  | malloc (size : UInt64)
  | calloc (nmemb size : UInt64)
  | realloc (oldptr : Nat) (size : UInt64)

/-- The result of a request, `none` for a fault. -/
def Heap.request (h : Heap) : Request → Option (Nat × Heap)
  | .malloc size => some (malloc h size)
  | .calloc nmemb size => calloc h nmemb size
  | .realloc oldptr size => realloc h oldptr size

/-- The number of bytes asked for. -/
def Request.bytes : Request → Nat
  | .malloc size => size.toNat
  | .calloc nmemb size => nmemb.toNat * size.toNat
  | .realloc _ size => size.toNat

/-- The rounded-up sizes that `mem_sbrk` is asked for, one for each time
`malloc` runs: twice where `realloc` is given `NULL`. -/
def Request.sbrks (r : Request) : List Nat :=
  if r.bytes = 0 then []
  else match r with
    | .malloc _ | .calloc _ _ => [alignUp r.bytes]
    | .realloc oldptr _ => if oldptr = null then [alignUp r.bytes, alignUp r.bytes] else [alignUp r.bytes]

/-- The requests that ask `malloc` for nothing. -/
def Request.quiet : Request → Prop
  | .malloc size => size.toNat = 0
  | .calloc nmemb size => 18446744073709551616 ∣ nmemb.toNat * size.toNat
  | .realloc _ size => size.toNat = 0

/-- The pointer of a `realloc` is `NULL` or the address of a block of the heap. -/
def Request.fed (h : Heap) : Request → Prop
  | .realloc oldptr _ => oldptr = null ∨ (16 ∣ oldptr ∧ h.heap ≤ oldptr ∧ oldptr < h.memBrk)
  | _ => True

/-- A block of `n` bytes at `p`, above the old break; nothing else was written. -/
structure Grant (h : Heap) (n p : Nat) (h' : Heap) : Prop where
  ok : h'.Ok
  heap : h'.heap = h.heap
  fresh : h.memBrk ≤ p
  aligned : 16 ∣ p
  room : p + n ≤ h'.memBrk
  outside : ∀ a, a < p ∨ p + n ≤ a → h'.mem a = h.mem a

/-- A block that was granted lies in the heap. -/
theorem Grant.within {h h' : Heap} {n p : Nat} (hg : Grant h n p h') (hok : h.Ok) :
    memHeapLo h' ≤ p ∧ p + n ≤ memHeapHi h' + 1 := by
  constructor
  · rw [memHeapLo, hg.heap]
    exact hok.brk_ge.trans hg.fresh
  · rw [hg.ok.memHeapHi_succ]
    exact hg.room

/-- A fault, or a pointer that is not `NULL` without room for `n` bytes behind it. -/
def Bogus (h : Heap) (n : Nat) (r : Option (Nat × Heap)) : Prop :=
  ∀ p h', r = some (p, h') →
    p ≠ null ∧ h'.memMaxAddr < p + n ∧ h'.Ok ∧ h'.heap = h.heap ∧ h.memBrk ≤ h'.memBrk

theorem malloc_grant {h : Heap} (hok : h.Ok) {n : Nat} (hfit : alignUp n ≤ h.rest) :
    Grant h n h.memBrk (h.grow (alignUp n)) :=
  ⟨hok.grow hfit, rfl, le_rfl, hok.brk_aligned, Nat.add_le_add_left (le_alignUp n) _, fun _ _ => rfl⟩

/-- Filling the block keeps the grant. -/
theorem Grant.writes {h h' h'' : Heap} {n p : Nat} (hg : Grant h n p h') (hw : Writes h' h'' p n) : Grant h n p h'' :=
  ⟨hg.ok.writes hw, hw.heap.trans hg.heap, hg.fresh, hg.aligned, hw.brk ▸ hg.room,
    fun a ha => (hw.outside a ha).trans (hg.outside a ha)⟩

/-- The bytes of a block that `calloc` returned are zero. -/
def Request.zeroed (p : Nat) (h' : Heap) : Request → Prop
  | .calloc nmemb size => ∀ a, p ≤ a → a < p + nmemb.toNat * size.toNat → h'.mem a = 0
  | _ => True

/-- All that a request can do: nothing, for a request for nothing; a block, if
what it asks of `mem_sbrk` is left; and otherwise something bogus. -/
def Outcome (h : Heap) (r : Request) : Prop :=
  (r.quiet ∧ h.request r = some (null, h)) ∨
  (¬r.quiet ∧ r.sbrks.sum ≤ h.rest ∧
    ∃ p h', h.request r = some (p, h') ∧ p ≠ null ∧ Grant h r.bytes p h' ∧ r.zeroed p h') ∨
  (¬r.quiet ∧ h.rest < r.sbrks.sum ∧ Bogus h r.bytes (h.request r))

/-- A pointer into nothing stays bogus whatever is written behind it. -/
theorem bogus_of_writes {h g : Heap} {n p : Nat} (hok : g.Ok) (hh : g.heap = h.heap) (hb : h.memBrk ≤ g.memBrk)
    (hp : p ≠ null) (hn : g.memMaxAddr < p + n) {r : Option (Nat × Heap)}
    (hr : ∀ q h', r = some (q, h') → q = p ∧ ∃ k, Writes g h' p k) : Bogus h n r := by
  intro q h' hq
  obtain ⟨rfl, k, hw⟩ := hr q h' hq
  exact ⟨hp, hw.max ▸ hn, hok.writes hw, hw.heap.trans hh, hw.brk ▸ hb⟩

theorem malloc_outcome {h : Heap} (hok : h.Ok) (size : UInt64) : Outcome h (.malloc size) := by
  have hsum : 0 < size.toNat → (Request.malloc size).sbrks.sum = alignUp size.toNat := fun h0 => by
    simp [Request.sbrks, Request.bytes, Nat.pos_iff_ne_zero.1 h0]
  rcases malloc_cases hok size with ⟨h0, hm⟩ | ⟨h0, hfit, hm⟩ | ⟨h0, hfull, p, hm, hp, hn⟩
  · exact .inl ⟨h0, congrArg some hm⟩
  · refine .inr (.inl ⟨Nat.pos_iff_ne_zero.1 h0, by rwa [hsum h0], ?_⟩)
    exact ⟨_, _, congrArg some hm, hok.brk_ne, malloc_grant hok hfit, trivial⟩
  · refine .inr (.inr ⟨Nat.pos_iff_ne_zero.1 h0, by rwa [hsum h0], ?_⟩)
    refine bogus_of_writes hok rfl le_rfl hp hn fun q h' hq => ?_
    cases (congrArg some hm).symm.trans hq
    exact ⟨rfl, 0, .refl _ _⟩

/-- `calloc` with room for the product, as it wrapped: the block is filled. -/
theorem calloc_fills {h : Heap} (hok : h.Ok) {nmemb size : UInt64} (h0 : 0 < (size * nmemb).toNat)
    (hfit : alignUp (size * nmemb).toNat ≤ h.rest) :
    ∃ g, h.request (.calloc nmemb size) = some (h.memBrk, g) ∧
      Writes (h.grow (alignUp (size * nmemb).toNat)) g h.memBrk (size * nmemb).toNat ∧
      ∀ i < (size * nmemb).toNat, g.mem (h.memBrk + i) = 0 := by
  have hgrant := malloc_grant hok hfit
  have hm : malloc h (size * nmemb) = (h.memBrk, h.grow (alignUp (size * nmemb).toNat)) := by
    rcases malloc_cases hok (size * nmemb) with ⟨h1, -⟩ | ⟨-, -, hm⟩ | ⟨-, hfull, -⟩
    · omega
    · exact hm
    · omega
  have hmap : (h.grow (alignUp (size * nmemb).toNat)).mapped h.memBrk (size * nmemb).toNat = true :=
    mapped_iff.2 ⟨hok.brk_ge, hgrant.room.trans hgrant.ok.brk_le⟩
  obtain ⟨g, hset, hmem⟩ : ∃ g, memMemset (h.grow (alignUp (size * nmemb).toNat)) h.memBrk 0 (size * nmemb).toNat =
      some (h.memBrk, g) ∧ g.mem = store h.mem h.memBrk (List.replicate (size * nmemb).toNat 0) :=
    ⟨_, memMemset_eq 0 hmap, rfl⟩
  refine ⟨g, ?_, (memMemset_writes hset).2, fun i hi => ?_⟩
  · simp only [Heap.request, calloc, hm, ne_eq, hok.brk_ne, not_false_eq_true, if_true, hset, Option.bind_eq_bind,
      Option.bind_some]
  · rw [hmem, store_inside (by rwa [List.length_replicate])]
    simp only [List.getD, List.getElem?_replicate, hi, if_true, Option.getD_some]

theorem calloc_outcome {h : Heap} (hok : h.Ok) (nmemb size : UInt64) : Outcome h (.calloc nmemb size) := by
  have hle := hok.brk_le
  have huser := hok.user
  have hw : (size * nmemb).toNat = nmemb.toNat * size.toNat % 18446744073709551616 := by
    rw [UInt64.toNat_mul, Nat.mul_comm]
  have hmod : (size * nmemb).toNat ≤ nmemb.toNat * size.toNat := hw ▸ Nat.mod_le _ _
  have hsum : 0 < (size * nmemb).toNat → (Request.calloc nmemb size).sbrks.sum = alignUp (nmemb.toNat * size.toNat) := by
    intro h0
    have hne : ¬nmemb.toNat * size.toNat = 0 := by omega
    simp [Request.sbrks, Request.bytes, hne]
  have hloud : 0 < (size * nmemb).toNat → ¬(Request.calloc nmemb size).quiet := fun h0 hq => by
    rw [hw, Nat.mod_eq_zero_of_dvd hq] at h0
    exact absurd h0 (lt_irrefl 0)
  have hup : alignUp (size * nmemb).toNat ≤ alignUp (nmemb.toNat * size.toNat) := by
    unfold alignUp
    omega
  rcases malloc_cases hok (size * nmemb) with ⟨h0, hm⟩ | ⟨h0, hfit, -⟩ | ⟨h0, hfull, p, hm, hp, hn⟩
  · exact .inl ⟨Nat.dvd_of_mod_eq_zero (hw ▸ h0), by simp [Heap.request, calloc, hm]⟩
  · have hgrant := malloc_grant hok hfit
    obtain ⟨g, hres, hwr, hzero⟩ := calloc_fills hok h0 hfit
    by_cases hover : nmemb.toNat * size.toNat < 18446744073709551616
    · rw [Nat.mod_eq_of_lt hover] at hw
      refine .inr (.inl ⟨hloud h0, by rwa [hsum h0, ← hw], _, _, hres, hok.brk_ne, ?_, ?_⟩)
      · have := hgrant.writes hwr
        rwa [hw] at this
      · intro a ha1 ha2
        obtain ⟨i, rfl⟩ := Nat.exists_eq_add_of_le ha1
        exact hzero i (by omega)
    -- the product wrapped: the block is shorter than what was asked for
    · have hbig : h.memMaxAddr < alignUp (nmemb.toNat * size.toNat) := by
        have := le_alignUp (nmemb.toNat * size.toNat)
        omega
      refine .inr (.inr ⟨hloud h0, ?_, ?_⟩)
      · rw [hsum h0]
        unfold Heap.rest
        omega
      · refine bogus_of_writes (h := h) hgrant.ok rfl (Nat.le_add_right _ _) hok.brk_ne ?_ fun q h' hq => ?_
        · show h.memMaxAddr < h.memBrk + nmemb.toNat * size.toNat
          omega
        · cases hres.symm.trans hq
          exact ⟨rfl, _, hwr⟩
  · refine .inr (.inr ⟨hloud h0, by rw [hsum h0]; omega, ?_⟩)
    refine bogus_of_writes hok rfl le_rfl hp (hn.trans_le (Nat.add_le_add_left hmod _)) fun q h' hq => ?_
    simp only [Heap.request, calloc, hm, ne_eq, hp, not_false_eq_true, if_true, Option.bind_eq_bind,
      Option.bind_eq_some_iff] at hq
    obtain ⟨r, hset, hq⟩ := hq
    cases hq
    exact ⟨rfl, _, (memMemset_writes hset).2⟩

/-- `realloc` of `NULL`: the block of the first `malloc` is dropped, and `malloc`
runs again. -/
theorem realloc_null_outcome {h : Heap} (hok : h.Ok) {size : UInt64} (h0 : 0 < size.toNat) :
    Outcome h (.realloc null size) := by
  have hle := hok.brk_le
  have hpos : ¬size ≤ 0 := by rw [UInt64.le_iff_toNat_le]; exact Nat.not_le.2 h0
  have hloud : ¬(Request.realloc null size).quiet := Nat.pos_iff_ne_zero.1 h0
  have hsum : (Request.realloc null size).sbrks.sum = alignUp size.toNat + alignUp size.toNat := by
    simp [Request.sbrks, Request.bytes, Nat.pos_iff_ne_zero.1 h0]
  have hres : h.request (.realloc null size) = some (malloc (malloc h size).2 size) := by
    simp only [Heap.request, realloc, hpos, if_false, if_true]
  rcases malloc_cases hok size with ⟨h1, -⟩ | ⟨-, hfit, hm⟩ | ⟨-, hfull, p, hm, hp, hn⟩
  · omega
  · have hok' := hok.grow hfit
    have hrest : (h.grow (alignUp size.toNat)).rest = h.rest - alignUp size.toNat := by
      simp only [Heap.rest, Heap.grow]
      omega
    rw [hm] at hres
    rcases malloc_cases hok' size with ⟨h1, -⟩ | ⟨-, hfit', hm'⟩ | ⟨-, hfull', p, hm', hp, hn⟩
    · omega
    · obtain ⟨k1, k2, k3, k4, k5, k6⟩ := malloc_grant hok' hfit'
      refine .inr (.inl ⟨hloud, by omega, _, _, hres.trans (congrArg some hm'), hok'.brk_ne, ?_, trivial⟩)
      exact ⟨k1, k2, Nat.le_add_right _ _, k4, k5, k6⟩
    · refine .inr (.inr ⟨hloud, by omega, ?_⟩)
      refine bogus_of_writes (h := h) hok' rfl (Nat.le_add_right _ _) hp hn fun q h' hq => ?_
      cases (hres.trans (congrArg some hm')).symm.trans hq
      exact ⟨rfl, 0, .refl _ _⟩
  · refine .inr (.inr ⟨hloud, by omega, bogus_of_writes hok rfl le_rfl hp hn fun q h' hq => ?_⟩)
    rw [hm, hm] at hres
    cases hres.symm.trans hq
    exact ⟨rfl, 0, .refl _ _⟩

theorem sum_sbrks_block {oldptr : Nat} {size : UInt64} (h0 : 0 < size.toNat) (hnull : oldptr ≠ null) :
    (Request.realloc oldptr size).sbrks.sum = alignUp size.toNat := by
  simp [Request.sbrks, Request.bytes, Nat.pos_iff_ne_zero.1 h0, hnull]

/-- `realloc` of a block where `malloc` returns a pointer. -/
theorem realloc_block {h g : Heap} {p oldptr : Nat} {size : UInt64} (h0 : 0 < size.toNat) (hnull : oldptr ≠ null)
    (hm : malloc h size = (p, g)) (hp : p ≠ null) :
    h.request (.realloc oldptr size) = (memMemcpy g p oldptr size.toNat).map fun r => (p, r.2) := by
  have hpos : ¬size ≤ 0 := by rw [UInt64.le_iff_toNat_le]; exact Nat.not_le.2 h0
  simp only [Heap.request, realloc, hm, hpos, hnull, hp, ne_eq, not_false_eq_true, if_false, if_true, free]
  cases memMemcpy g p oldptr size.toNat <;> rfl

/-- `realloc` of a block: a new block, and a copy into it. -/
theorem realloc_block_outcome {h : Heap} (hok : h.Ok) {oldptr : Nat} {size : UInt64} (h0 : 0 < size.toNat)
    (hnull : oldptr ≠ null) (hfed : 16 ∣ oldptr ∧ h.heap ≤ oldptr ∧ oldptr < h.memBrk) :
    Outcome h (.realloc oldptr size) := by
  have hloud : ¬(Request.realloc oldptr size).quiet := Nat.pos_iff_ne_zero.1 h0
  have hsum := sum_sbrks_block h0 hnull
  rcases malloc_cases hok size with ⟨h1, -⟩ | ⟨-, hfit, hm⟩ | ⟨-, hfull, p, hm, hp, hn⟩
  · omega
  · have hgrant := malloc_grant hok hfit
    obtain ⟨⟨c, hc⟩, hlo, hhi⟩ := hfed
    obtain ⟨d, hd⟩ := hok.brk_aligned
    have hle := hok.brk_le
    -- the copy reads past the old block, but not past the new one
    have hend : h.memBrk + alignUp size.toNat ≤ h.memMaxAddr := by unfold Heap.rest at hfit; omega
    have hsrc : (h.grow (alignUp size.toNat)).mapped oldptr (size.toNat + 7) = true :=
      mapped_iff.2 ⟨hlo, by have := le_alignUp size.toNat; show _ ≤ h.memMaxAddr; omega⟩
    obtain ⟨g, hcpy⟩ := memMemcpy_total (h := h.grow (alignUp size.toNat)) (n := size.toNat)
      (mapped_iff.2 ⟨hok.brk_ge, hgrant.room.trans hgrant.ok.brk_le⟩) hsrc
    refine .inr (.inl ⟨hloud, by omega, h.memBrk, g, ?_, hok.brk_ne, ?_, trivial⟩)
    · rw [realloc_block h0 hnull hm hok.brk_ne, hcpy]
      rfl
    · exact hgrant.writes (memMemcpy_writes hcpy).2
  · refine .inr (.inr ⟨hloud, by omega, bogus_of_writes hok rfl le_rfl hp hn fun q h' hq => ?_⟩)
    rw [realloc_block h0 hnull hm hp] at hq
    obtain ⟨⟨q', g⟩, hcpy, hq⟩ := Option.map_eq_some_iff.1 hq
    cases hq
    exact ⟨rfl, _, (memMemcpy_writes hcpy).2⟩

theorem realloc_outcome {h : Heap} (hok : h.Ok) {oldptr : Nat} {size : UInt64} (hfed : (Request.realloc oldptr size).fed h) :
    Outcome h (.realloc oldptr size) := by
  rcases Nat.eq_zero_or_pos size.toNat with h0 | h0
  · have hsize : size ≤ 0 := by rw [UInt64.le_iff_toNat_le, h0]; exact Nat.zero_le _
    rcases malloc_cases hok size with ⟨-, hm⟩ | ⟨h1, -⟩ | ⟨h1, -⟩
    · exact .inl ⟨h0, by simp [Heap.request, realloc, hm, hsize, free]⟩
    · omega
    · omega
  by_cases hnull : oldptr = null
  · subst hnull
    exact realloc_null_outcome hok h0
  · exact realloc_block_outcome hok h0 hnull (hfed.resolve_left hnull)

/-- Every request ends in one of the three ways. -/
theorem request_outcome {h : Heap} (hok : h.Ok) {r : Request} (hfed : r.fed h) : Outcome h r := by
  cases r with
  | malloc size => exact malloc_outcome hok size
  | calloc nmemb size => exact calloc_outcome hok nmemb size
  | realloc oldptr size => exact realloc_outcome hok hfed

end Cmpsc473.Malloc
