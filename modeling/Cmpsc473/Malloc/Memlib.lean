import Cmpsc473.Lib.Memory
/-!
# The memory system (`memlib.c`)

The heap is a mapped region with a break that only grows. An access outside the
region is a fault: the functions that access memory return `none` there.

The copy and fill loops run over words of eight bytes with a shorter word at the
end. What they may write is bounded by `Writes`; that they do not fault inside
the region is `memMemcpy_total` and `memMemset_total`.
-/

namespace Cmpsc473.Malloc

open Memory

/-- `MAX_HEAP_SIZE`. -/
def maxHeapSize : Nat := 1 <<< 40

/-- `memlib.c`'s globals, and the memory. -/
structure Heap where
  heap : Nat
  memBrk : Nat
  memMaxAddr : Nat
  mem : Nat → UInt8

/-- `mem_init`, where `mmap` returned `addr` and the region holds `mem`. -/
def memInit (addr : Nat) (mem : Nat → UInt8) : Heap :=
  { heap := addr, memBrk := addr, memMaxAddr := addr + maxHeapSize, mem := mem }

/-- `mem_reset_brk`. -/
def memResetBrk (h : Heap) : Heap := { h with memBrk := h.heap }

/-- `(void *) -1`. -/
def minusOne : Nat := 18446744073709551615

/-- `mem_sbrk`. -/
def memSbrk (h : Heap) (incr : Int) : Nat × Heap :=
  let oldBrk := h.memBrk
  if incr < 0 then (minusOne, h)
  else if h.memBrk + incr > h.memMaxAddr then (minusOne, h)
  else (oldBrk, { h with memBrk := h.memBrk + incr.toNat })

/-- `mem_heap_lo`. -/
def memHeapLo (h : Heap) : Nat := h.heap

/-- `mem_heap_hi`. -/
def memHeapHi (h : Heap) : Nat := h.memBrk - 1

/-! ## Memory emulation -/

/-- The `n` bytes at `addr` are mapped. -/
def Heap.mapped (h : Heap) (addr n : Nat) : Bool := h.heap ≤ addr && addr + n ≤ h.memMaxAddr

/-- `mem_read`. It reads a whole word, whatever `len` is. -/
def memRead (h : Heap) (addr len : Nat) : Option Nat :=
  if h.mapped addr 8 then
    let rdata := ofLe (fetch h.mem addr 8)
    some (if len < 8 then rdata &&& ((1 <<< (8 * len)) - 1) else rdata)
  else none

/-- `mem_write`: both branches write the low `len` bytes of `val`. -/
def memWrite (h : Heap) (addr val len : Nat) : Option Heap :=
  if h.mapped addr len then some { h with mem := store h.mem addr (leBytes len val) } else none

/-- The first `k` rounds of `mem_memcpy`'s loop. -/
def memcpyWords (h : Heap) (dst src : Nat) : Nat → Option Heap
  | 0 => some h
  | k + 1 => do
    let data ← memRead h src 8
    let h ← memWrite h dst data 8
    memcpyWords h (dst + 8) (src + 8) k

/-- `mem_memcpy`: `while (n >= w)` runs `n / w` times. -/
def memMemcpy (h : Heap) (dst src n : Nat) : Option (Nat × Heap) := do
  let savedst := dst
  let h ← memcpyWords h dst src (n / 8)
  let src := src + 8 * (n / 8)
  let dst := dst + 8 * (n / 8)
  let n := n % 8
  if n ≠ 0 then
    let data ← memRead h src n
    let h ← memWrite h dst data n
    return (savedst, h)
  else return (savedst, h)

/-- The word that `mem_memset` builds. -/
def memsetData (c : Int) : Nat :=
  let byte := (c % 256).toNat
  (List.range 8).foldl (fun data i => data ||| (byte <<< (8 * i))) 0

/-- The first `k` rounds of `mem_memset`'s second loop. -/
def memsetWords (h : Heap) (dst data : Nat) : Nat → Option Heap
  | 0 => some h
  | k + 1 => do
    let h ← memWrite h dst data 8
    memsetWords h (dst + 8) data k

/-- `mem_memset`. -/
def memMemset (h : Heap) (dst : Nat) (c : Int) (n : Nat) : Option (Nat × Heap) := do
  let savedst := dst
  let data := memsetData c
  let h ← memsetWords h dst data (n / 8)
  let dst := dst + 8 * (n / 8)
  let n := n % 8
  if n ≠ 0 then
    let h ← memWrite h dst data n
    return (savedst, h)
  else return (savedst, h)

/-! ## The break -/

theorem memSbrk_fits (h : Heap) (incr : Int) (h0 : 0 ≤ incr) (hfit : h.memBrk + incr ≤ h.memMaxAddr) :
    memSbrk h incr = (h.memBrk, { h with memBrk := h.memBrk + incr.toNat }) := by
  simp only [memSbrk]
  rw [if_neg (by omega), if_neg (by omega)]

theorem memSbrk_fails {h : Heap} {incr : Int} (hf : incr < 0 ∨ h.memMaxAddr < h.memBrk + incr) :
    memSbrk h incr = (minusOne, h) := by
  simp only [memSbrk]
  rcases hf with hf | hf
  · rw [if_pos hf]
  · rw [if_pos (show h.memBrk + incr > h.memMaxAddr from hf), ite_self]

/-! ## What is written -/

/-- `h'` is `h` after a write to some of the `n` bytes at `dst`. -/
structure Writes (h h' : Heap) (dst n : Nat) : Prop where
  heap : h'.heap = h.heap
  brk : h'.memBrk = h.memBrk
  max : h'.memMaxAddr = h.memMaxAddr
  outside : ∀ a, a < dst ∨ dst + n ≤ a → h'.mem a = h.mem a

theorem Writes.refl (h : Heap) (dst : Nat) : Writes h h dst 0 := ⟨rfl, rfl, rfl, fun _ _ => rfl⟩

/-- Writes to neighbouring areas. -/
theorem Writes.trans {h h' h'' : Heap} {dst n k : Nat} (h1 : Writes h h' dst n) (h2 : Writes h' h'' (dst + n) k) :
    Writes h h'' dst (n + k) := by
  refine ⟨h2.heap.trans h1.heap, h2.brk.trans h1.brk, h2.max.trans h1.max, fun a ha => ?_⟩
  rw [h2.outside a (by omega), h1.outside a (by omega)]

theorem Writes.mapped {h h' : Heap} {dst n : Nat} (hw : Writes h h' dst n) (a k : Nat) : h'.mapped a k = h.mapped a k := by
  rw [Heap.mapped, Heap.mapped, hw.heap, hw.max]

theorem mapped_iff {h : Heap} {a n : Nat} : h.mapped a n = true ↔ h.heap ≤ a ∧ a + n ≤ h.memMaxAddr := by
  simp [Heap.mapped]

theorem memWrite_writes {h h' : Heap} {dst val n : Nat} (hw : memWrite h dst val n = some h') : Writes h h' dst n := by
  simp only [memWrite, Option.ite_none_right_eq_some, Option.some.injEq] at hw
  obtain ⟨-, rfl⟩ := hw
  exact ⟨rfl, rfl, rfl, fun a ha => store_outside (by simpa using ha)⟩

/-- The words, and the shorter word at the end. -/
theorem Writes.last {h h1 h' : Heap} {dst val n : Nat} (hwords : Writes h h1 dst (8 * (n / 8)))
    (hw : memWrite h1 (dst + 8 * (n / 8)) val (n % 8) = some h') : Writes h h' dst n := by
  have hall := hwords.trans (memWrite_writes hw)
  rwa [Nat.div_add_mod] at hall

theorem memcpyWords_writes {k : Nat} : ∀ {h h' : Heap} {dst src : Nat}, memcpyWords h dst src k = some h' →
    Writes h h' dst (8 * k) := by
  induction k with
  | zero =>
    intro h h' dst src hw
    cases hw
    exact .refl h dst
  | succ k ih =>
    intro h h' dst src hw
    simp only [memcpyWords, Option.bind_eq_bind, Option.bind_eq_some_iff] at hw
    obtain ⟨data, -, h1, hw1, hw2⟩ := hw
    have := (memWrite_writes hw1).trans (ih hw2)
    rwa [show 8 * (k + 1) = 8 + 8 * k by omega]

theorem memMemcpy_writes {h h' : Heap} {p dst src n : Nat} (hw : memMemcpy h dst src n = some (p, h')) :
    p = dst ∧ Writes h h' dst n := by
  simp only [memMemcpy, Option.bind_eq_bind, Option.bind_eq_some_iff] at hw
  obtain ⟨h1, hw1, hw2⟩ := hw
  have hwords := memcpyWords_writes hw1
  split at hw2
  · simp only [Option.bind_eq_some_iff, Option.pure_def, Option.some.injEq, Prod.mk.injEq] at hw2
    obtain ⟨data, -, h2, hw3, rfl, rfl⟩ := hw2
    exact ⟨rfl, hwords.last hw3⟩
  · simp only [Option.pure_def, Option.some.injEq, Prod.mk.injEq] at hw2
    obtain ⟨rfl, rfl⟩ := hw2
    rw [show 8 * (n / 8) = n by omega] at hwords
    exact ⟨rfl, hwords⟩

theorem memsetWords_writes {k : Nat} : ∀ {h h' : Heap} {dst data : Nat}, memsetWords h dst data k = some h' →
    Writes h h' dst (8 * k) := by
  induction k with
  | zero =>
    intro h h' dst data hw
    cases hw
    exact .refl h dst
  | succ k ih =>
    intro h h' dst data hw
    simp only [memsetWords, Option.bind_eq_bind, Option.bind_eq_some_iff] at hw
    obtain ⟨h1, hw1, hw2⟩ := hw
    have := (memWrite_writes hw1).trans (ih hw2)
    rwa [show 8 * (k + 1) = 8 + 8 * k by omega]

theorem memMemset_writes {h h' : Heap} {p dst n : Nat} {c : Int} (hw : memMemset h dst c n = some (p, h')) :
    p = dst ∧ Writes h h' dst n := by
  simp only [memMemset, Option.bind_eq_bind, Option.bind_eq_some_iff] at hw
  obtain ⟨h1, hw1, hw2⟩ := hw
  have hwords := memsetWords_writes hw1
  split at hw2
  · simp only [Option.bind_eq_some_iff, Option.pure_def, Option.some.injEq, Prod.mk.injEq] at hw2
    obtain ⟨h2, hw3, rfl, rfl⟩ := hw2
    exact ⟨rfl, hwords.last hw3⟩
  · simp only [Option.pure_def, Option.some.injEq, Prod.mk.injEq] at hw2
    obtain ⟨rfl, rfl⟩ := hw2
    rw [show 8 * (n / 8) = n by omega] at hwords
    exact ⟨rfl, hwords⟩

/-! ## Inside the region nothing faults -/

theorem memRead_mapped {h : Heap} {a : Nat} (len : Nat) (hm : h.mapped a 8 = true) : ∃ data, memRead h a len = some data :=
  ⟨_, if_pos hm⟩

theorem memWrite_mapped {h : Heap} {a n : Nat} (val : Nat) (hm : h.mapped a n = true) :
    memWrite h a val n = some { h with mem := store h.mem a (leBytes n val) } :=
  if_pos hm

theorem memcpyWords_total {k : Nat} : ∀ (h : Heap) (dst src : Nat), h.mapped dst (8 * k) = true →
    h.mapped src (8 * k) = true → ∃ h', memcpyWords h dst src k = some h' := by
  induction k with
  | zero => exact fun _ _ _ _ _ => ⟨_, rfl⟩
  | succ k ih =>
    intro h dst src hd hs
    rw [mapped_iff] at hd hs
    obtain ⟨data, hr⟩ := memRead_mapped (h := h) (a := src) 8 (mapped_iff.2 (by omega))
    have hw := memWrite_mapped (h := h) (a := dst) (n := 8) data (mapped_iff.2 (by omega))
    have hmap := (memWrite_writes hw).mapped
    obtain ⟨h', hrest⟩ := ih _ (dst + 8) (src + 8) (by rw [hmap, mapped_iff]; omega) (by rw [hmap, mapped_iff]; omega)
    exact ⟨h', by simp only [memcpyWords, hr, hw, Option.bind_eq_bind, Option.bind_some, hrest]⟩

/-- The word at the end of the source must be mapped too. -/
theorem memMemcpy_total {h : Heap} {dst src n : Nat} (hd : h.mapped dst n = true) (hs : h.mapped src (n + 7) = true) :
    ∃ h', memMemcpy h dst src n = some (dst, h') := by
  rw [mapped_iff] at hd hs
  obtain ⟨h1, hw⟩ := memcpyWords_total (k := n / 8) h dst src (mapped_iff.2 (by omega)) (mapped_iff.2 (by omega))
  have hmap := (memcpyWords_writes hw).mapped
  simp only [memMemcpy, hw, Option.bind_eq_bind, Option.bind_some]
  split
  · obtain ⟨data, hr⟩ := memRead_mapped (h := h1) (a := src + 8 * (n / 8)) (n % 8) (by rw [hmap, mapped_iff]; omega)
    have hw' := memWrite_mapped (h := h1) (a := dst + 8 * (n / 8)) (n := n % 8) data (by rw [hmap, mapped_iff]; omega)
    exact ⟨_, by rw [hr, Option.bind_some, hw']; rfl⟩
  · exact ⟨h1, rfl⟩

/-! ## What `mem_memset` writes -/

/-- Every byte of the word is the byte that fills. -/
theorem leBytes_memsetData (c : Int) (n : Nat) (hn : n ≤ 8) :
    leBytes n (memsetData c) = List.replicate n (UInt8.ofNat (c % 256).toNat) := by
  have all : ∀ b < 256, ∀ n < 9,
      leBytes n ((List.range 8).foldl (fun data i => data ||| (b <<< (8 * i))) 0) =
        List.replicate n (UInt8.ofNat b) := by decide +kernel
  exact all _ (by omega) n (by omega)

theorem memsetWords_eq {c : Int} {k : Nat} : ∀ (h : Heap) (dst : Nat), h.mapped dst (8 * k) = true →
    memsetWords h dst (memsetData c) k =
      some { h with mem := store h.mem dst (List.replicate (8 * k) (UInt8.ofNat (c % 256).toNat)) } := by
  induction k with
  | zero =>
    intro h dst _
    simp [memsetWords]
  | succ k ih =>
    intro h dst hd
    rw [mapped_iff] at hd
    have hw := memWrite_mapped (h := h) (a := dst) (n := 8) (memsetData c) (mapped_iff.2 (by omega))
    have hmap := (memWrite_writes hw).mapped
    rw [leBytes_memsetData c 8 le_rfl] at hw hmap
    have hrest := ih { h with mem := store h.mem dst (List.replicate 8 (UInt8.ofNat (c % 256).toNat)) }
      (dst + 8) (by rw [hmap, mapped_iff]; omega)
    have hjoin := store_store h.mem dst (List.replicate 8 (UInt8.ofNat (c % 256).toNat))
      (List.replicate (8 * k) (UInt8.ofNat (c % 256).toNat))
    rw [List.length_replicate, List.replicate_append_replicate, show 8 + 8 * k = 8 * (k + 1) by omega] at hjoin
    simp only [memsetWords, hw, Option.bind_eq_bind, Option.bind_some, hrest, hjoin]

/-- `mem_memset` fills `n` bytes with the low byte of `c`. -/
theorem memMemset_eq {h : Heap} {dst n : Nat} (c : Int) (hd : h.mapped dst n = true) :
    memMemset h dst c n =
      some (dst, { h with mem := store h.mem dst (List.replicate n (UInt8.ofNat (c % 256).toNat)) }) := by
  rw [mapped_iff] at hd
  have hwords := memsetWords_eq (c := c) (k := n / 8) h dst (mapped_iff.2 (by omega))
  simp only [memMemset, hwords, Option.bind_eq_bind, Option.bind_some]
  split
  · rename_i hz
    have hjoin := store_store h.mem dst (List.replicate (8 * (n / 8)) (UInt8.ofNat (c % 256).toNat))
      (List.replicate (n % 8) (UInt8.ofNat (c % 256).toNat))
    rw [List.length_replicate, List.replicate_append_replicate, Nat.div_add_mod] at hjoin
    rw [memWrite_mapped _ (mapped_iff.2 (by show h.heap ≤ _ ∧ _ ≤ h.memMaxAddr; omega)),
      leBytes_memsetData c _ (by omega), hjoin]
    rfl
  · rename_i hz
    rw [show 8 * (n / 8) = n by omega]
    rfl

end Cmpsc473.Malloc
