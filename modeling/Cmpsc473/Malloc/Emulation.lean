import Cmpsc473.Malloc.Memlib
/-!
# The memory emulation against `memcpy` and `memset`

`mem_memcpy` and `mem_memset` with the machine words they compute: the mask of a
short read, the word built from a byte by shifts, a short write that stores the
front of a word. Any address may be mapped, not those of the heap only.

Where the accesses are mapped they end as the loops over single bytes do
(`emulation_exact`); on a memory that maps the heap they are the functions that
`realloc` and `calloc` call (`memMemcpy_ofHeap`, `memMemset_ofHeap`).
-/

namespace Cmpsc473.Emulation

open Memory

/-- A memory, and the addresses that are mapped. -/
structure Ram where
  bytes : Nat → UInt8
  mapped : Nat → Bool

namespace Ram

/-- The `n` bytes at `a` are mapped. -/
def maps (m : Ram) (a n : Nat) : Bool := (List.range n).all fun i => m.mapped (a + i)

/-- The memory with `bs` at `a`. -/
def write (m : Ram) (a : Nat) (bs : List UInt8) : Ram := { m with bytes := store m.bytes a bs }

/-- The memory with the `n` bytes at `src` also at `dst`. -/
def copy (m : Ram) (dst src n : Nat) : Ram := m.write dst (fetch m.bytes src n)

/-- The memory with `n` copies of `b` at `dst`. -/
def fill (m : Ram) (dst : Nat) (b : UInt8) (n : Nat) : Ram := m.write dst (List.replicate n b)

/-- `*(uint64_t *) a`. -/
def load (m : Ram) (a : Nat) : Option UInt64 :=
  if m.maps a 8 then some (UInt64.ofNat (ofLe (fetch m.bytes a 8))) else none

/-- A write that faults outside the mapped addresses. -/
def save (m : Ram) (a : Nat) (bs : List UInt8) : Option Ram :=
  if m.maps a bs.length then some (m.write a bs) else none

end Ram

/-! ## `memlib.c` -/

/-- A `uint64_t` as it lies in memory. -/
def wordBytes (val : UInt64) : List UInt8 := leBytes 8 val.toNat

/-- `mem_read`. -/
def memRead (m : Ram) (addr len : Nat) : Option UInt64 := do
  let rdata ← m.load addr
  if len < 8 then
    let mask := ((1 : UInt64) <<< UInt64.ofNat (8 * len)) - 1
    return rdata &&& mask
  else return rdata

/-- `mem_write`. -/
def memWrite (m : Ram) (addr : Nat) (val : UInt64) (len : Nat) : Option Ram :=
  if len = 8 then m.save addr (wordBytes val)
  else if len < 8 then m.save addr ((wordBytes val).take len)
  -- `memcpy` reads past the end of `val`
  else none

/-- `mem_memcpy`'s `while (n >= w)`, with the variables as it leaves them. -/
def memcpyLoop (m : Ram) (dst src : Nat) : Nat → Option (Ram × Nat × Nat × Nat)
  | n + 8 => do
    let data ← memRead m src 8
    let m ← memWrite m dst data 8
    memcpyLoop m (dst + 8) (src + 8) n
  | n => some (m, dst, src, n)

/-- `mem_memcpy`. -/
def memMemcpy (m : Ram) (dst src n : Nat) : Option (Nat × Ram) := do
  let savedst := dst
  let (m, dst, src, n) ← memcpyLoop m dst src n
  if n ≠ 0 then
    let data ← memRead m src n
    let m ← memWrite m dst data n
    return (savedst, m)
  else return (savedst, m)

/-- `mem_memset`'s `data`. -/
def memsetData (c : Int32) : UInt64 :=
  let byte := (c &&& 0xFF).toInt64.toUInt64
  (List.range 8).foldl (fun data i => data ||| (byte <<< UInt64.ofNat (8 * i))) 0

/-- `mem_memset`'s `while (n >= w)`. -/
def memsetLoop (m : Ram) (dst : Nat) (data : UInt64) : Nat → Option (Ram × Nat × Nat)
  | n + 8 => do
    let m ← memWrite m dst data 8
    memsetLoop m (dst + 8) data n
  | n => some (m, dst, n)

/-- `mem_memset`. -/
def memMemset (m : Ram) (dst : Nat) (c : Int32) (n : Nat) : Option (Nat × Ram) := do
  let savedst := dst
  let data := memsetData c
  let (m, dst, n) ← memsetLoop m dst data n
  if n ≠ 0 then
    let m ← memWrite m dst data n
    return (savedst, m)
  else return (savedst, m)

/-! ## Byte by byte -/

/-- `memcpy`, a byte at a time. -/
def memcpy (m : Ram) (dst src : Nat) : Nat → Ram
  | 0 => m
  | n + 1 => memcpy { m with bytes := Function.update m.bytes dst (m.bytes src) } (dst + 1) (src + 1) n

/-- `memset`, a byte at a time. -/
def memset (m : Ram) (dst : Nat) (b : UInt8) : Nat → Ram
  | 0 => m
  | n + 1 => memset { m with bytes := Function.update m.bytes dst b } (dst + 1) b n

/-- `c & 0xFF`. -/
def lowByte (c : Int32) : UInt8 := (c &&& 0xFF).toUInt32.toUInt8

/-- The `n` bytes at `dst` become `f`, and nothing else changes. -/
structure Sets (m m' : Ram) (dst n : Nat) (f : Nat → UInt8) : Prop where
  inside : ∀ i < n, m'.bytes (dst + i) = f i
  outside : ∀ a, a < dst ∨ dst + n ≤ a → m'.bytes a = m.bytes a
  mapped : m'.mapped = m.mapped

variable {m : Ram} {a dst src n len : Nat}

/-! ## Accesses -/

namespace Ram

theorem maps_iff : m.maps a n = true ↔ ∀ i < n, m.mapped (a + i) = true := by
  simp [maps]

/-- A part of what is mapped is mapped. -/
theorem maps_part {b k : Nat} (h : m.maps a n = true) (hb : a ≤ b) (hk : b + k ≤ a + n) : m.maps b k = true := by
  rw [maps_iff] at *
  intro i hi
  have hpart := h (b - a + i) (by omega)
  rwa [show a + (b - a + i) = b + i by omega] at hpart

@[simp] theorem copy_zero (m : Ram) (dst src : Nat) : m.copy dst src 0 = m := by simp [copy, write, fetch]

@[simp] theorem fill_zero (m : Ram) (dst : Nat) (b : UInt8) : m.fill dst b 0 = m := by simp [fill, write]

theorem write_write (m : Ram) (a : Nat) (bs cs : List UInt8) :
    (m.write a bs).write (a + bs.length) cs = m.write a (bs ++ cs) := by
  simp only [write, store_store]

/-- Two copies in a row are one, where the first does not reach the source of
the second. -/
theorem copy_copy {k : Nat} (m : Ram) (dst src n : Nat) (h : Apart (dst, n) (src + n, k)) :
    (m.copy dst src n).copy (dst + n) (src + n) k = m.copy dst src (n + k) := by
  have hnext : fetch (m.copy dst src n).bytes (src + n) k = fetch m.bytes (src + n) k := by
    apply fetch_store_apart
    rw [length_fetch]
    exact h.symm
  have hjoin := m.write_write dst (fetch m.bytes src n) (fetch m.bytes (src + n) k)
  rw [length_fetch, fetch_append] at hjoin
  rw [copy, hnext]
  exact hjoin

theorem fill_fill (m : Ram) (dst : Nat) (b : UInt8) (n k : Nat) :
    (m.fill dst b n).fill (dst + n) b k = m.fill dst b (n + k) := by
  have hjoin := m.write_write dst (List.replicate n b) (List.replicate k b)
  rwa [List.length_replicate, List.replicate_append_replicate] at hjoin

theorem write_one (m : Ram) (a : Nat) (b : UInt8) :
    m.write a [b] = { m with bytes := Function.update m.bytes a b } := by
  rw [write]
  congr 1
  funext i
  by_cases h : i = a
  · subst h
    rw [Function.update_self]
    exact store_inside (i := 0) Nat.one_pos
  · rw [Function.update_of_ne h, store_outside (by simp only [List.length_singleton]; omega)]

end Ram

theorem sets_copy (m : Ram) (dst src n : Nat) : Sets m (m.copy dst src n) dst n fun i => m.bytes (src + i) := by
  refine ⟨fun i hi => ?_, fun a ha => store_outside (by rwa [length_fetch]), rfl⟩
  exact (store_inside (by rwa [length_fetch])).trans (getD_fetch hi)

theorem sets_fill (m : Ram) (dst : Nat) (b : UInt8) (n : Nat) : Sets m (m.fill dst b n) dst n fun _ => b := by
  refine ⟨fun i hi => ?_, fun a ha => store_outside (by rwa [List.length_replicate]), rfl⟩
  exact (store_inside (by rwa [List.length_replicate])).trans (by simp [hi])

@[simp] theorem length_wordBytes (val : UInt64) : (wordBytes val).length = 8 := length_leBytes _ _

theorem wordBytes_ofNat (k : Nat) : wordBytes (UInt64.ofNat k) = leBytes 8 k := by
  rw [wordBytes, UInt64.toNat_ofNat', show 2 ^ 64 = 256 ^ 8 from rfl, leBytes_mod]

theorem take_wordBytes (val : UInt64) (h : len ≤ 8) : (wordBytes val).take len = leBytes len val.toNat :=
  take_leBytes h _

/-- A word that is read is the bytes at its address. -/
theorem wordBytes_load (hs : m.maps a 8 = true) :
    ∃ val, m.load a = some val ∧ wordBytes val = fetch m.bytes a 8 := by
  refine ⟨_, if_pos hs, ?_⟩
  rw [wordBytes_ofNat, leBytes_ofLe (length_fetch _ _ _).ge, List.take_of_length_le (length_fetch _ _ _).le]

/-- The mask keeps the low bytes. -/
theorem toNat_mask (val : UInt64) (h : len < 8) :
    (val &&& (((1 : UInt64) <<< UInt64.ofNat (8 * len)) - 1)).toNat = val.toNat % 256 ^ len := by
  have hmask : ∀ len < 8, (((1 : UInt64) <<< UInt64.ofNat (8 * len)) - 1).toNat = 1 <<< (8 * len) - 1 := by decide
  rw [UInt64.toNat_and, hmask len h, and_lowMask]

/-- What `mem_read` returns begins with the bytes at the address. -/
theorem memRead_bytes (hlen : len ≤ 8) (hs : m.maps a 8 = true) :
    ∃ data, memRead m a len = some data ∧ (wordBytes data).take len = fetch m.bytes a len := by
  obtain ⟨val, hload, hval⟩ := wordBytes_load hs
  have hlow : (wordBytes val).take len = fetch m.bytes a len := by rw [hval, take_fetch hlen]
  simp only [memRead, hload, Option.bind_eq_bind, Option.bind_some]
  split
  · rename_i hshort
    refine ⟨_, rfl, ?_⟩
    rw [← hlow, take_wordBytes _ hlen, take_wordBytes _ hlen, toNat_mask val hshort, leBytes_mod]
  · exact ⟨val, rfl, hlow⟩

/-- `mem_write` stores the front of the word. -/
theorem memWrite_eq (m : Ram) (a : Nat) (val : UInt64) (hlen : len ≤ 8) :
    memWrite m a val len = if m.maps a len then some (m.write a ((wordBytes val).take len)) else none := by
  have hlength : ((wordBytes val).take len).length = len := by
    rw [List.length_take, length_wordBytes, Nat.min_eq_left hlen]
  rcases hlen.lt_or_eq with hshort | rfl
  · rw [memWrite, if_neg hshort.ne, if_pos hshort, Ram.save, hlength]
  · rw [memWrite, if_pos rfl, Ram.save, length_wordBytes, List.take_of_length_le (length_wordBytes val).le]

theorem memWrite_bytes (m : Ram) (a : Nat) (val : UInt64) (hlen : len ≤ 8) (hd : m.maps a len = true) :
    memWrite m a val len = some (m.write a ((wordBytes val).take len)) := by
  rw [memWrite_eq m a val hlen, if_pos hd]

/-- The front of a word that is one byte repeated. -/
theorem memWrite_fill {b : UInt8} {data : UInt64} (m : Ram) (dst : Nat) (hdata : wordBytes data = List.replicate 8 b)
    (hlen : len ≤ 8) (hd : m.maps dst len = true) : memWrite m dst data len = some (m.fill dst b len) := by
  rw [memWrite_bytes m dst data hlen hd, hdata, List.take_replicate, Nat.min_eq_left hlen, Ram.fill]

/-- A read and the write of what was read. -/
theorem transfer (m : Ram) (dst src : Nat) (hlen : len ≤ 8) (hd : m.maps dst len = true) (hs : m.maps src 8 = true) :
    ∃ data, memRead m src len = some data ∧ memWrite m dst data len = some (m.copy dst src len) := by
  obtain ⟨data, hr, hdata⟩ := memRead_bytes hlen hs
  exact ⟨data, hr, by rw [memWrite_bytes m dst data hlen hd, hdata, Ram.copy]⟩

/-! ## The word that fills -/

theorem toNat_low (c : Int32) : (c &&& 0xFF).toBitVec.toNat = c.toBitVec.toNat % 256 :=
  Nat.and_two_pow_sub_one_eq_mod c.toBitVec.toNat 8

/-- `c & 0xFF` is not negative, so it is the same number in all types. -/
theorem toUInt64_lowByte (c : Int32) : (lowByte c).toUInt64 = (c &&& 0xFF).toInt64.toUInt64 := by
  have hlow := toNat_low c
  have hpos : (c &&& 0xFF).toBitVec.msb = false := by
    rw [BitVec.msb_eq_false_iff_two_mul_lt]
    omega
  symm
  apply UInt64.toBitVec_inj.1
  rw [Int64.toBitVec_toUInt64, Int32.toBitVec_toInt64, BitVec.signExtend_eq_setWidth_of_msb_false hpos, lowByte,
    UInt8.toBitVec_toUInt64, UInt32.toBitVec_toUInt8, Int32.toBitVec_toUInt32]
  apply BitVec.eq_of_toNat_eq
  simp only [BitVec.toNat_setWidth, hlow]
  omega

/-- Every byte of the word is the byte that fills. -/
theorem wordBytes_memsetData (c : Int32) : wordBytes (memsetData c) = List.replicate 8 (lowByte c) := by
  have all : ∀ b < 256, wordBytes ((List.range 8).foldl
      (fun data i => data ||| (UInt64.ofNat b <<< UInt64.ofNat (8 * i))) 0) = List.replicate 8 (UInt8.ofNat b) := by
    decide +kernel
  have hb := all (lowByte c).toNat (lowByte c).toNat_lt
  rwa [UInt8.ofNat_toNat, UInt64.ofNat_uInt8ToNat, toUInt64_lowByte] at hb

/-! ## The loops -/

theorem memcpyLoop_rest (m : Ram) (dst src : Nat) (h : n < 8) : memcpyLoop m dst src n = some (m, dst, src, n) := by
  interval_cases n <;> rfl

theorem memsetLoop_rest (m : Ram) (dst : Nat) (data : UInt64) (h : n < 8) :
    memsetLoop m dst data n = some (m, dst, n) := by
  interval_cases n <;> rfl

/-- `k` rounds copy `8 * k` bytes. -/
theorem memcpyLoop_words {k r : Nat} (m : Ram) (dst src : Nat) (hr : r < 8) (hd : m.maps dst (8 * k) = true)
    (hs : m.maps src (8 * k) = true) (hapart : Apart (dst, 8 * k) (src, 8 * k)) :
    memcpyLoop m dst src (8 * k + r) = some (m.copy dst src (8 * k), dst + 8 * k, src + 8 * k, r) := by
  induction k generalizing m dst src with
  | zero => simpa using memcpyLoop_rest m dst src hr
  | succ k ih =>
    simp only [Apart] at ih hapart
    obtain ⟨data, hread, hwrite⟩ := transfer m dst src le_rfl
      (Ram.maps_part hd le_rfl (by omega)) (Ram.maps_part hs le_rfl (by omega))
    have hrest := ih (m.copy dst src 8) (dst + 8) (src + 8)
      (Ram.maps_part hd (by omega) (by omega)) (Ram.maps_part hs (by omega) (by omega)) (by omega)
    -- the words that follow are as they were
    rw [m.copy_copy dst src 8 (by simp only [Apart]; omega)] at hrest
    rw [show 8 * (k + 1) + r = 8 * k + r + 8 by omega, memcpyLoop]
    simp only [hread, hwrite, Option.bind_eq_bind, Option.bind_some, hrest]
    simp only [Nat.add_assoc, show 8 + 8 * k = 8 * (k + 1) by omega]

/-- `k` rounds fill `8 * k` bytes. -/
theorem memsetLoop_words {k r : Nat} {b : UInt8} {data : UInt64} (m : Ram) (dst : Nat)
    (hdata : wordBytes data = List.replicate 8 b) (hr : r < 8) (hd : m.maps dst (8 * k) = true) :
    memsetLoop m dst data (8 * k + r) = some (m.fill dst b (8 * k), dst + 8 * k, r) := by
  induction k generalizing m dst with
  | zero => simpa using memsetLoop_rest m dst data hr
  | succ k ih =>
    have hwrite := memWrite_fill m dst hdata le_rfl (Ram.maps_part hd le_rfl (by omega))
    have hrest := ih (m.fill dst b 8) (dst + 8) (Ram.maps_part hd (by omega) (by omega))
    rw [Ram.fill_fill] at hrest
    rw [show 8 * (k + 1) + r = 8 * k + r + 8 by omega, memsetLoop]
    simp only [hwrite, Option.bind_eq_bind, Option.bind_some, hrest]
    simp only [Nat.add_assoc, show 8 + 8 * k = 8 * (k + 1) by omega]

/-- `mem_memcpy` copies the source to the destination. -/
theorem memMemcpy_copy (hd : m.maps dst n = true) (hs : m.maps src (8 * ((n + 7) / 8)) = true)
    (hapart : Apart (dst, n) (src, n)) : memMemcpy m dst src n = some (dst, m.copy dst src n) := by
  obtain ⟨k, r, hr, rfl⟩ : ∃ k r, r < 8 ∧ n = 8 * k + r := ⟨n / 8, n % 8, by omega, by omega⟩
  simp only [Apart] at hapart
  have hwords := memcpyLoop_words (k := k) m dst src hr (Ram.maps_part hd le_rfl (by omega))
    (Ram.maps_part hs le_rfl (by omega)) (by simp only [Apart]; omega)
  simp only [memMemcpy, hwords, Option.bind_eq_bind, Option.bind_some]
  split
  · obtain ⟨data, hread, hwrite⟩ := transfer (m.copy dst src (8 * k)) (dst + 8 * k) (src + 8 * k) hr.le
      (Ram.maps_part hd (by omega) (by omega)) (Ram.maps_part hs (by omega) (by omega))
    rw [m.copy_copy dst src (8 * k) (by simp only [Apart]; omega)] at hwrite
    rw [hread, Option.bind_some, hwrite]
    rfl
  · rw [show r = 0 by omega]
    rfl

/-- `mem_memset` fills the destination with the low byte. -/
theorem memMemset_fill (c : Int32) (hd : m.maps dst n = true) :
    memMemset m dst c n = some (dst, m.fill dst (lowByte c) n) := by
  have hdata := wordBytes_memsetData c
  obtain ⟨k, r, hr, rfl⟩ : ∃ k r, r < 8 ∧ n = 8 * k + r := ⟨n / 8, n % 8, by omega, by omega⟩
  have hwords := memsetLoop_words (k := k) m dst hdata hr (Ram.maps_part hd le_rfl (by omega))
  simp only [memMemset, hwords, Option.bind_eq_bind, Option.bind_some]
  split
  · have hwrite := memWrite_fill (m.fill dst (lowByte c) (8 * k)) (dst + 8 * k) hdata hr.le
      (Ram.maps_part hd (by omega) (by omega))
    rw [Ram.fill_fill] at hwrite
    rw [hwrite]
    rfl
  · rw [show r = 0 by omega]
    rfl

/-! ## The loops over bytes -/

theorem memcpy_copy (hapart : Apart (dst, n) (src, n)) : memcpy m dst src n = m.copy dst src n := by
  induction n generalizing m dst src with
  | zero => simp [memcpy]
  | succ n ih =>
    simp only [Apart] at ih hapart
    have hrest := m.copy_copy (k := n) dst src 1 (by simp only [Apart]; omega)
    have hfirst : m.copy dst src 1 = { m with bytes := Function.update m.bytes dst (m.bytes src) } :=
      m.write_one dst (m.bytes src)
    rw [← ih (by omega), hfirst, Nat.add_comm 1 n] at hrest
    exact hrest

theorem memset_fill (m : Ram) (dst : Nat) (b : UInt8) (n : Nat) : memset m dst b n = m.fill dst b n := by
  induction n generalizing m dst with
  | zero => simp [memset]
  | succ n ih =>
    have hrest := m.fill_fill dst b 1 n
    have hfirst : m.fill dst b 1 = { m with bytes := Function.update m.bytes dst b } := m.write_one dst b
    rw [← ih, hfirst, Nat.add_comm 1 n] at hrest
    exact hrest

/-- The memory emulation is `memcpy` and `memset`: where the destination and the
words of the source are mapped, the destination gets the bytes of the source, or
copies of `c & 0xFF`, and no other byte changes. -/
theorem emulation_exact (m : Ram) (dst n : Nat) (hd : m.maps dst n = true) :
    (∀ src, m.maps src (8 * ((n + 7) / 8)) = true → Apart (dst, n) (src, n) →
      memMemcpy m dst src n = some (dst, memcpy m dst src n) ∧
        Sets m (memcpy m dst src n) dst n fun i => m.bytes (src + i)) ∧
    ∀ c, memMemset m dst c n = some (dst, memset m dst (lowByte c) n) ∧
      Sets m (memset m dst (lowByte c) n) dst n fun _ => lowByte c := by
  constructor
  · intro src hs hapart
    rw [memcpy_copy hapart]
    exact ⟨memMemcpy_copy hd hs hapart, sets_copy m dst src n⟩
  · intro c
    rw [memset_fill]
    exact ⟨memMemset_fill c hd, sets_fill m dst (lowByte c) n⟩

/-- A memory whose first 32 bytes are mapped. -/
def lowRam : Ram := { bytes := UInt8.ofNat, mapped := fun a => a < 32 }

/-- `emulation_exact` where the last word of the source runs into the
destination. -/
theorem emulation_exact_beside :
    (memMemcpy lowRam 14 3 11 = some (14, memcpy lowRam 14 3 11) ∧ (memcpy lowRam 14 3 11).bytes 24 = 13) ∧
      memMemset lowRam 14 (-2) 11 = some (14, memset lowRam 14 254 11) ∧
        (memset lowRam 14 254 11).bytes 24 = 254 := by
  obtain ⟨hcpy, hset⟩ := emulation_exact lowRam 14 11 (by decide)
  obtain ⟨hcpy, hcopied⟩ := hcpy 3 (by decide) (.inr (by decide))
  obtain ⟨hset, hfilled⟩ := hset (-2)
  exact ⟨⟨hcpy, hcopied.inside 10 (by decide)⟩, hset, hfilled.inside 10 (by decide)⟩

/-! ## On the heap -/

open Malloc

/-- A memory that maps the heap's region. -/
def ofHeap (h : Heap) : Ram :=
  { bytes := h.mem, mapped := fun a => decide (h.heap ≤ a) && decide (a < h.memMaxAddr) }

variable {h : Heap} {k r : Nat}

theorem maps_ofHeap (h : Heap) (a : Nat) (hn : 0 < n) : (ofHeap h).maps a n = h.mapped a n := by
  rw [Bool.eq_iff_iff, Ram.maps_iff, mapped_iff]
  simp only [ofHeap, Bool.and_eq_true, decide_eq_true_eq]
  constructor
  · intro hall
    have hfirst := hall 0 hn
    have hlast := hall (n - 1) (by omega)
    omega
  · intro hends i hi
    omega

theorem memRead_ofHeap (h : Heap) (a : Nat) (hlen : len ≤ 8) :
    memRead (ofHeap h) a len = (Malloc.memRead h a len).map UInt64.ofNat := by
  rw [memRead, Ram.load, Malloc.memRead, maps_ofHeap h a (by decide)]
  split
  · simp only [Option.bind_eq_bind, Option.bind_some, Option.map_some, ofHeap]
    split
    · rename_i hshort
      have hbound : ofLe (fetch h.mem a 8) % 256 ^ len < 2 ^ 64 := by
        calc ofLe (fetch h.mem a 8) % 256 ^ len < 256 ^ len := Nat.mod_lt _ (Nat.pow_pos (by decide))
          _ ≤ 256 ^ 8 := Nat.pow_le_pow_right (by decide) hlen
      refine congrArg some (UInt64.toNat_inj.1 ?_)
      rw [toNat_mask _ hshort, and_lowMask, UInt64.toNat_ofNat', UInt64.toNat_ofNat', Nat.mod_eq_of_lt hbound,
        show 2 ^ 64 = 256 ^ 8 from rfl]
      exact Nat.mod_mod_of_dvd _ (Nat.pow_dvd_pow 256 hlen)
    · rfl
  · rfl

/-- `val` and `v` have the same low bytes. -/
theorem memWrite_ofHeap {val : UInt64} {v : Nat} (h : Heap) (a : Nat) (h0 : 0 < len) (hlen : len ≤ 8)
    (hval : wordBytes val = leBytes 8 v) :
    memWrite (ofHeap h) a val len = (Malloc.memWrite h a v len).map ofHeap := by
  rw [memWrite_eq _ a val hlen, Malloc.memWrite, maps_ofHeap h a h0, hval, take_leBytes hlen]
  split
  · rfl
  · rfl

theorem memcpyLoop_ofHeap (h : Heap) (dst src : Nat) (hr : r < 8) : memcpyLoop (ofHeap h) dst src (8 * k + r) =
    (memcpyWords h dst src k).map fun h' => (ofHeap h', dst + 8 * k, src + 8 * k, r) := by
  induction k generalizing h dst src with
  | zero => simpa [memcpyWords] using memcpyLoop_rest (ofHeap h) dst src hr
  | succ k ih =>
    rw [show 8 * (k + 1) + r = 8 * k + r + 8 by omega, memcpyLoop, memcpyWords, memRead_ofHeap h src le_rfl]
    cases hread : Malloc.memRead h src 8 with
    | none => rfl
    | some data =>
      simp only [Option.map_some, Option.bind_eq_bind, Option.bind_some,
        memWrite_ofHeap h dst (by decide : 0 < 8) le_rfl (wordBytes_ofNat data)]
      cases hwrite : Malloc.memWrite h dst data 8 with
      | none => rfl
      | some h1 =>
        simp only [Option.map_some, Option.bind_some, ih]
        simp only [Nat.add_assoc, show 8 + 8 * k = 8 * (k + 1) by omega]

theorem memsetLoop_ofHeap {data : UInt64} {v : Nat} (h : Heap) (dst : Nat) (hdata : wordBytes data = leBytes 8 v)
    (hr : r < 8) :
    memsetLoop (ofHeap h) dst data (8 * k + r) =
      (memsetWords h dst v k).map fun h' => (ofHeap h', dst + 8 * k, r) := by
  induction k generalizing h dst with
  | zero => simpa [memsetWords] using memsetLoop_rest (ofHeap h) dst data hr
  | succ k ih =>
    rw [show 8 * (k + 1) + r = 8 * k + r + 8 by omega, memsetLoop, memsetWords,
      memWrite_ofHeap h dst (by decide) le_rfl hdata]
    cases hwrite : Malloc.memWrite h dst v 8 with
    | none => rfl
    | some h1 =>
      simp only [Option.map_some, Option.bind_eq_bind, Option.bind_some, ih]
      simp only [Nat.add_assoc, show 8 + 8 * k = 8 * (k + 1) by omega]

/-- `realloc` copies with this `mem_memcpy`. -/
theorem memMemcpy_ofHeap (h : Heap) (dst src n : Nat) : memMemcpy (ofHeap h) dst src n =
    (Malloc.memMemcpy h dst src n).map fun r => (r.1, ofHeap r.2) := by
  have hwords := memcpyLoop_ofHeap (k := n / 8) h dst src (Nat.mod_lt n (by decide : 0 < 8))
  rw [Nat.div_add_mod] at hwords
  simp only [memMemcpy, Malloc.memMemcpy, hwords]
  cases memcpyWords h dst src (n / 8) with
  | none => rfl
  | some h1 =>
    simp only [Option.map_some, Option.bind_eq_bind, Option.bind_some]
    split
    · rename_i hz
      rw [memRead_ofHeap h1 _ (by omega)]
      cases Malloc.memRead h1 (src + 8 * (n / 8)) (n % 8) with
      | none => rfl
      | some data =>
        simp only [Option.map_some, Option.bind_some,
          memWrite_ofHeap h1 _ (Nat.pos_of_ne_zero hz) (by omega) (wordBytes_ofNat data)]
        cases Malloc.memWrite h1 (dst + 8 * (n / 8)) data (n % 8) with
        | none => rfl
        | some h2 => rfl
    · rfl

theorem lowByte_eq (c : Int32) : lowByte c = UInt8.ofNat (c.toInt % 256).toNat := by
  have hlow : (lowByte c).toNat = (c &&& 0xFF).toBitVec.toNat % 256 := rfl
  have hint : c.toInt =
      if 2 * c.toBitVec.toNat < 2 ^ 32 then (c.toBitVec.toNat : Int) else c.toBitVec.toNat - 2 ^ 32 :=
    BitVec.toInt_eq_toNat_cond c.toBitVec
  apply UInt8.toNat_inj.1
  rw [hlow, toNat_low, UInt8.toNat_ofNat']
  split at hint
  · omega
  · omega

/-- `calloc` clears with this `mem_memset`. -/
theorem memMemset_ofHeap (h : Heap) (dst : Nat) (c : Int32) (n : Nat) : memMemset (ofHeap h) dst c n =
    (Malloc.memMemset h dst c.toInt n).map fun r => (r.1, ofHeap r.2) := by
  have hdata : wordBytes (memsetData c) = leBytes 8 (Malloc.memsetData c.toInt) := by
    rw [wordBytes_memsetData, leBytes_memsetData _ 8 le_rfl, lowByte_eq]
  have hwords := memsetLoop_ofHeap (k := n / 8) h dst hdata (Nat.mod_lt n (by decide : 0 < 8))
  rw [Nat.div_add_mod] at hwords
  simp only [memMemset, Malloc.memMemset, hwords]
  cases memsetWords h dst (Malloc.memsetData c.toInt) (n / 8) with
  | none => rfl
  | some h1 =>
    simp only [Option.map_some, Option.bind_eq_bind, Option.bind_some]
    split
    · rename_i hz
      rw [memWrite_ofHeap h1 _ (Nat.pos_of_ne_zero hz) (by omega) hdata]
      cases Malloc.memWrite h1 (dst + 8 * (n / 8)) (Malloc.memsetData c.toInt) (n % 8) with
      | none => rfl
      | some h2 => rfl
    · rfl

end Cmpsc473.Emulation
