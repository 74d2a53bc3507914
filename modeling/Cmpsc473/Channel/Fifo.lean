import Cmpsc473.Lib.CData
import Cmpsc473.Lib.Circular
/-!
# The byte ring (`que.c`)

`stored` is the arc from `tail` to `head`. One iteration of `fifo_write` appends
a byte to it and one iteration of `fifo_read` takes its first byte off; the two
loops follow by induction. One cell always stays free: it tells a full ring
from an empty one.
-/

namespace Cmpsc473.Channel

open Circular

/-- `fifo_t`, without its lock. -/
structure Fifo where
  buf : List UInt8
  head : Int
  tail : Int
  size : Int
  avilSize : Int
  deriving DecidableEq

/-- `fifo_init`. A negative size makes `malloc` fail: there is no cell. -/
def fifoInit (size : Int) : Fifo :=
  { buf := List.replicate size.toNat 0, head := 0, tail := 0, size := size, avilSize := size }

/-- The index after `i`, with the wrap-around check. -/
def Fifo.next (f : Fifo) (i : Int) : Int := if i + 1 = f.size then 0 else i + 1

/-- The byte `fifo_read` grabs. -/
def Fifo.front (f : Fifo) : UInt8 := f.buf.getD f.tail.toNat 0

/-- One iteration of `fifo_read`'s loop, after its test. -/
def Fifo.take (f : Fifo) : Fifo := { f with tail := f.next f.tail }

/-- The test of `fifo_write`: no more room. -/
def Fifo.full (f : Fifo) : Bool := f.head + 1 = f.tail || (f.head + 1 = f.size && f.tail = 0)

/-- One iteration of `fifo_write`'s loop, after its test. -/
def Fifo.put (f : Fifo) (b : UInt8) : Fifo :=
  { f with buf := f.buf.set f.head.toNat b, head := f.next f.head }

/-- The loop of `fifo_read`, and the bytes it stored at `p`. -/
def fifoReadLoop (f : Fifo) : Nat → Fifo × List UInt8
  | 0 => (f, [])
  | n + 1 =>
    if f.tail ≠ f.head then
      let r := fifoReadLoop f.take n
      (r.1, f.front :: r.2)
    else (f, [])

/-- `fifo_read`: the ring, the bytes stored at `buf`, and the number returned. -/
def fifoRead (f : Fifo) (nbytes : Int) : Fifo × List UInt8 × Int :=
  let r := fifoReadLoop f nbytes.toNat
  if r.2.length < nbytes.toNat then (r.1, r.2, r.2.length) -- the early `return i`
  else ({ r.1 with avilSize := r.1.avilSize + nbytes }, r.2, nbytes)

/-- The loop of `fifo_write` over the bytes at `p`, and how many it wrote. -/
def fifoWriteLoop (f : Fifo) : List UInt8 → Fifo × Nat
  | [] => (f, 0)
  | b :: bs =>
    if f.full then (f, 0)
    else
      let r := fifoWriteLoop (f.put b) bs
      (r.1, r.2 + 1)

/-- `fifo_write` of the first `nbytes` bytes at `buf`: the ring and the number
returned. -/
def fifoWrite (f : Fifo) (buf : List UInt8) (nbytes : Int) : Fifo × Int :=
  let r := fifoWriteLoop f (buf.take nbytes.toNat)
  if r.2 < nbytes.toNat then (r.1, r.2) -- the early `return i`
  else ({ r.1 with avilSize := r.1.avilSize - nbytes }, nbytes)

/-- `fifo_avail_size`. -/
def fifoAvailSize (f : Fifo) : Int := f.avilSize

/-- `fifo_used_size`. -/
def fifoUsedSize (f : Fifo) : Int := f.size - f.avilSize

/-! ## What the ring holds -/

/-- The number of bytes between `tail` and `head`, around the wrap. -/
def Fifo.used (f : Fifo) : Nat := ((f.head - f.tail) % f.size).toNat

/-- The bytes between `tail` and `head`, oldest first. -/
def Fifo.stored (f : Fifo) : List UInt8 := arc (fun i => f.buf.getD i 0) f.size.toNat f.tail.toNat f.used

/-- Indices in range. A ring without cells keeps both at 0. -/
structure Fifo.Ok (f : Fifo) : Prop where
  cells : f.buf.length = f.size.toNat
  head_nonneg : 0 ≤ f.head
  tail_nonneg : 0 ≤ f.tail
  head_lt : 0 < f.size → f.head < f.size
  tail_lt : 0 < f.size → f.tail < f.size
  unused : f.size ≤ 0 → f.head = 0 ∧ f.tail = 0

theorem Fifo.Ok.range {f : Fifo} (h : f.Ok) (hs : 0 < f.size) :
    0 ≤ f.head ∧ f.head < f.size ∧ 0 ≤ f.tail ∧ f.tail < f.size :=
  ⟨h.head_nonneg, h.head_lt hs, h.tail_nonneg, h.tail_lt hs⟩

/-- Only a ring with cells can have anything between `tail` and `head`. -/
theorem Fifo.Ok.size_pos {f : Fifo} (h : f.Ok) (hne : f.tail ≠ f.head) : 0 < f.size := by
  by_contra hs
  obtain ⟨h1, h2⟩ := h.unused (by omega)
  exact hne (by rw [h1, h2])

@[simp] theorem length_stored (f : Fifo) : f.stored.length = f.used := by simp [Fifo.stored]

theorem used_eq {f : Fifo} (h : f.Ok) :
    (f.used : Int) = if f.tail ≤ f.head then f.head - f.tail else f.head - f.tail + f.size := by
  by_cases hs : 0 < f.size
  · obtain ⟨h1, h2, h3, h4⟩ := h.range hs
    have hm := Int.emod_nonneg (f.head - f.tail) (show f.size ≠ 0 by omega)
    simp only [Fifo.used]
    rw [Int.toNat_of_nonneg hm]
    split
    · exact Int.emod_eq_of_lt (by omega) (by omega)
    · rw [← Int.add_emod_right]
      exact Int.emod_eq_of_lt (by omega) (by omega)
  · obtain ⟨h1, h2⟩ := h.unused (by omega)
    simp [Fifo.used, h1, h2]

theorem used_lt {f : Fifo} (h : f.Ok) (hs : 0 < f.size) : (f.used : Int) < f.size := by
  have hu := used_eq h
  obtain ⟨h1, h2, h3, h4⟩ := h.range hs
  split at hu <;> omega

theorem used_eq_zero {f : Fifo} (h : f.Ok) : f.used = 0 ↔ f.tail = f.head := by
  have hu := used_eq h
  by_cases hs : 0 < f.size
  · obtain ⟨h1, h2, h3, h4⟩ := h.range hs
    split at hu <;> omega
  · obtain ⟨h1, h2⟩ := h.unused (by omega)
    rw [h1, h2, if_pos le_rfl] at hu
    rw [h1, h2]
    omega

/-- `fifo_write` stops exactly when one cell is left. -/
theorem full_iff {f : Fifo} (h : f.Ok) (hs : 0 < f.size) : f.full = true ↔ (f.used : Int) + 1 = f.size := by
  have hu := used_eq h
  obtain ⟨h1, h2, h3, h4⟩ := h.range hs
  simp only [Fifo.full, Bool.or_eq_true, Bool.and_eq_true, decide_eq_true_eq]
  split at hu <;> omega

/-- The head is the cell just past the stored arc. -/
theorem head_eq {f : Fifo} (h : f.Ok) (hs : 0 < f.size) :
    f.head.toNat = (f.tail.toNat + f.used) % f.size.toNat := by
  have hu := used_eq h
  obtain ⟨h1, h2, h3, h4⟩ := h.range hs
  by_cases hle : f.tail ≤ f.head
  · rw [if_pos hle] at hu
    rw [Nat.mod_eq_of_lt (by omega)]
    omega
  · rw [if_neg hle] at hu
    rw [Nat.mod_eq_sub_mod (by omega), Nat.mod_eq_of_lt (by omega)]
    omega

theorem next_range {f : Fifo} {i : Int} (h0 : 0 ≤ i) (hi : i < f.size) : 0 ≤ f.next i ∧ f.next i < f.size := by
  unfold Fifo.next
  split <;> omega

/-! ## One byte -/

theorem put_ok {f : Fifo} (h : f.Ok) (hs : 0 < f.size) (b : UInt8) : (f.put b).Ok := by
  obtain ⟨h1, h2⟩ := next_range h.head_nonneg (h.head_lt hs)
  exact ⟨by simp [Fifo.put, h.cells], h1, h.tail_nonneg, fun _ => h2, h.tail_lt,
    fun hn => absurd hs (Int.not_lt.2 hn)⟩

theorem put_used {f : Fifo} (h : f.Ok) (hs : 0 < f.size) (hf : f.full = false) (b : UInt8) :
    (f.put b).used = f.used + 1 := by
  have hn : ¬(f.used : Int) + 1 = f.size := by rw [← full_iff h hs, hf]; simp
  have e1 := used_eq h
  have e2 := used_eq (put_ok h hs b)
  obtain ⟨h1, h2, h3, h4⟩ := h.range hs
  have hnext : (f.put b).head = if f.head + 1 = f.size then 0 else f.head + 1 := rfl
  have htail : (f.put b).tail = f.tail := rfl
  have hsize : (f.put b).size = f.size := rfl
  rw [hnext, htail, hsize] at e2
  split_ifs at e1 e2 <;> omega

theorem put_stored {f : Fifo} (h : f.Ok) (hs : 0 < f.size) (hf : f.full = false) (b : UInt8) :
    (f.put b).stored = f.stored ++ [b] := by
  have hlt := used_lt h hs
  have hhead := head_eq h hs
  have hin : f.head.toNat < f.buf.length := by
    have := h.head_lt hs
    have := h.head_nonneg
    rw [h.cells]
    omega
  have hcell : ∀ k, (f.put b).buf.getD k 0 = if f.head.toNat = k then b else f.buf.getD k 0 := by
    intro k
    simp only [Fifo.put, List.getD_eq_getElem?_getD, List.getElem?_set, hin, if_true]
    split <;> rfl
  have hold : arc (fun i => (f.put b).buf.getD i 0) f.size.toNat f.tail.toNat f.used = f.stored := by
    refine arc_write (by omega) fun k hk => ?_
    rw [hcell, if_neg (by rw [hhead]; exact Ne.symm hk)]
  have hsize : (f.put b).size = f.size := rfl
  have htail : (f.put b).tail = f.tail := rfl
  rw [Fifo.stored, put_used h hs hf, hsize, htail, arc_snoc, hold, ← hhead, hcell, if_pos rfl]

theorem take_ok {f : Fifo} (h : f.Ok) (hne : f.tail ≠ f.head) : f.take.Ok := by
  have hs := h.size_pos hne
  obtain ⟨h1, h2⟩ := next_range h.tail_nonneg (h.tail_lt hs)
  exact ⟨h.cells, h.head_nonneg, h1, h.head_lt, fun _ => h2, fun hn => absurd hs (Int.not_lt.2 hn)⟩

theorem take_stored {f : Fifo} (h : f.Ok) (hne : f.tail ≠ f.head) : f.stored = f.front :: f.take.stored := by
  have hs := h.size_pos hne
  obtain ⟨h1, h2, h3, h4⟩ := h.range hs
  have hnext : f.take.tail = if f.tail + 1 = f.size then 0 else f.tail + 1 := rfl
  have hhead : f.take.head = f.head := rfl
  have hsize : f.take.size = f.size := rfl
  have hbuf : f.take.buf = f.buf := rfl
  have hu : f.used = f.take.used + 1 := by
    have e1 := used_eq h
    have e2 := used_eq (take_ok h hne)
    rw [hnext, hhead, hsize] at e2
    split_ifs at e1 e2 <;> omega
  have htail : (f.tail.toNat + 1) % f.size.toNat = f.take.tail.toNat := by
    rw [hnext]
    split
    · rw [show f.tail.toNat + 1 = f.size.toNat by omega, Nat.mod_self]; rfl
    · rw [Nat.mod_eq_of_lt (by omega)]; omega
  rw [Fifo.stored, hu, arc_cons, htail, Nat.mod_eq_of_lt (by omega), Fifo.stored, hsize, hbuf]
  rfl

/-! ## The loops -/

theorem fifoReadLoop_spec {f : Fifo} (h : f.Ok) (n : Nat) :
    (fifoReadLoop f n).1.Ok ∧ (fifoReadLoop f n).2 = f.stored.take n ∧
      (fifoReadLoop f n).1.stored = f.stored.drop n ∧ (fifoReadLoop f n).1.size = f.size ∧
      (fifoReadLoop f n).1.avilSize = f.avilSize := by
  induction n generalizing f with
  | zero => simp [fifoReadLoop, h]
  | succ n ih =>
    by_cases hne : f.tail = f.head
    · have hnil : f.stored = [] := List.length_eq_zero_iff.1 (by rw [length_stored, used_eq_zero h, hne])
      simp [fifoReadLoop, hne, h, hnil]
    · obtain ⟨h1, h2, h3, h4, h5⟩ := ih (take_ok h hne)
      simp only [fifoReadLoop, ne_eq, hne, not_false_eq_true, if_true]
      rw [take_stored h hne, List.take_succ_cons, List.drop_succ_cons]
      exact ⟨h1, by rw [h2], h3, h4, h5⟩

/-- The write loop stores as many of the bytes as the free cells but one. -/
theorem fifoWriteLoop_spec {f : Fifo} (h : f.Ok) (hs : 0 < f.size) (bs : List UInt8) :
    (fifoWriteLoop f bs).1.Ok ∧ (fifoWriteLoop f bs).2 = min bs.length (f.size.toNat - 1 - f.used) ∧
      (fifoWriteLoop f bs).1.stored = f.stored ++ bs.take (fifoWriteLoop f bs).2 ∧
      (fifoWriteLoop f bs).1.size = f.size ∧ (fifoWriteLoop f bs).1.avilSize = f.avilSize := by
  induction bs generalizing f with
  | nil => simp [fifoWriteLoop, h]
  | cons b bs ih =>
    cases hf : f.full with
    | true =>
      have := (full_iff h hs).1 hf
      simp only [fifoWriteLoop, hf, if_true, List.take_zero, List.append_nil, and_self, and_true, h, true_and]
      omega
    | false =>
      obtain ⟨h1, h2, h3, h4, h5⟩ := ih (put_ok h hs b) hs
      have hn : ¬(f.used : Int) + 1 = f.size := by rw [← full_iff h hs, hf]; simp
      have hlt := used_lt h hs
      have hsize : (f.put b).size = f.size := rfl
      simp only [fifoWriteLoop, hf, Bool.false_eq_true, if_false]
      refine ⟨h1, ?_, ?_, h4, h5⟩
      · rw [h2, put_used h hs hf, hsize, List.length_cons]
        omega
      · rw [h3, put_stored h hs hf, List.take_succ_cons, List.append_assoc]
        rfl

/-! ## The calls -/

theorem fifoRead_spec {f : Fifo} (h : f.Ok) {n : Nat} (hn : n ≤ f.used) :
    ∃ g, fifoRead f n = (g, f.stored.take n, (n : Int)) ∧ g.Ok ∧ g.stored = f.stored.drop n ∧ g.size = f.size ∧
      g.avilSize = f.avilSize + n := by
  obtain ⟨h1, h2, h3, h4, h5⟩ := fifoReadLoop_spec h n
  have hl : (fifoReadLoop f n).2.length = n := by rw [h2, List.length_take, length_stored, Nat.min_eq_left hn]
  refine ⟨{ (fifoReadLoop f n).1 with avilSize := (fifoReadLoop f n).1.avilSize + n }, ?_, ?_, h3, h4, ?_⟩
  · simp only [fifoRead, Int.toNat_natCast, hl, lt_irrefl, if_false]
    rw [h2]
  · exact ⟨h1.cells, h1.head_nonneg, h1.tail_nonneg, h1.head_lt, h1.tail_lt, h1.unused⟩
  · simp [h5]

theorem fifoWrite_spec {f : Fifo} (h : f.Ok) (bs : List UInt8) (hroom : ((f.used + bs.length : Nat) : Int) < f.size) :
    ∃ g, fifoWrite f bs bs.length = (g, (bs.length : Int)) ∧ g.Ok ∧ g.stored = f.stored ++ bs ∧ g.size = f.size ∧
      g.avilSize = f.avilSize - bs.length := by
  obtain ⟨h1, h2, h3, h4, h5⟩ := fifoWriteLoop_spec h (by omega) bs
  have hl : (fifoWriteLoop f bs).2 = bs.length := by rw [h2]; omega
  refine ⟨{ (fifoWriteLoop f bs).1 with avilSize := (fifoWriteLoop f bs).1.avilSize - bs.length }, ?_, ?_, ?_, h4, ?_⟩
  · simp only [fifoWrite, Int.toNat_natCast, List.take_length, hl, lt_irrefl, if_false]
  · exact ⟨h1.cells, h1.head_nonneg, h1.tail_nonneg, h1.head_lt, h1.tail_lt, h1.unused⟩
  · rw [hl, List.take_length] at h3
    exact h3
  · simp [h5]

end Cmpsc473.Channel
