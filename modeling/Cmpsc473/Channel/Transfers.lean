import Cmpsc473.Channel.Fifo
import Cmpsc473.Lib.Runs
/-!
# Short transfers (`que.c`)

A transfer is short when the ring runs empty, or full, before all bytes are
moved. Both functions then return early with the counter as it was, so it is
right after the call only if the call moved all of its bytes or none
(`counter_exact_iff`).
-/

namespace Cmpsc473.Channel

open Runs

/-- A call of `fifo_write` with the bytes at `buf`, or of `fifo_read`. -/
inductive FifoCall where
  | write (buf : List UInt8)
  | read (nbytes : Nat)

/-- A call on the ring: the bytes it delivers and the number it returns. -/
def fifoCall (f : Fifo) : FifoCall → Fifo × List UInt8 × Int
  | .write buf =>
    let r := fifoWrite f buf buf.length
    (r.1, [], r.2)
  | .read nbytes => fifoRead f nbytes

/-- A call as a step of the ring. -/
def fifoStep (f : Fifo) (call : FifoCall) : Option Fifo := some (fifoCall f call).1

/-- The indices are in range and `avilSize` counts the cells that hold nothing. -/
structure Fifo.Counted (f : Fifo) : Prop where
  ok : f.Ok
  avil : f.avilSize = f.size - f.used

/-- `fifo_avail_size` and `fifo_used_size` tell the truth. -/
def Fifo.Truthful (f : Fifo) : Prop :=
  fifoAvailSize f = f.size - f.stored.length ∧ fifoUsedSize f = f.stored.length

/-- A write stores the first bytes of `buf`, as many as there is room for next to
the one cell that stays free; a read takes the oldest bytes, as many as there
are. Both return the number. -/
def FifoCall.Moves (f : Fifo) : FifoCall → Prop
  | .write buf =>
    let n := min (buf.length : Int) (f.size - 1 - f.stored.length)
    (fifoWrite f buf buf.length).2 = n ∧ (fifoWrite f buf buf.length).1.stored = f.stored ++ buf.take n.toNat
  | .read nbytes =>
    let n := min nbytes f.stored.length
    (fifoRead f nbytes).2 = (f.stored.take n, (n : Int)) ∧ (fifoRead f nbytes).1.stored = f.stored.drop n

/-- The call moves all of its bytes or, on a full or empty ring, none. -/
def FifoCall.Whole (f : Fifo) : FifoCall → Prop
  | .write buf => 0 < f.size ∧ ((f.used : Int) + buf.length < f.size ∨ (f.used : Int) + 1 = f.size)
  | .read nbytes => nbytes ≤ f.used ∨ f.used = 0

/-! ## What a call does to the ring -/

theorem counted_init (size : Int) : (fifoInit size).Counted := by
  have hu : (fifoInit size).used = 0 := by simp [fifoInit, Fifo.used]
  refine ⟨⟨?_, le_rfl, le_rfl, fun h => h, fun h => h, fun _ => ⟨rfl, rfl⟩⟩, ?_⟩
  · simp [fifoInit]
  · rw [hu]
    simp [fifoInit]

theorem truthful_iff {f : Fifo} : f.Truthful ↔ f.avilSize = f.size - f.used := by
  simp only [Fifo.Truthful, fifoAvailSize, fifoUsedSize, length_stored]
  omega

theorem Fifo.Ok.recount {f : Fifo} (h : f.Ok) (n : Int) : ({ f with avilSize := n } : Fifo).Ok :=
  ⟨h.cells, h.head_nonneg, h.tail_nonneg, h.head_lt, h.tail_lt, h.unused⟩

theorem fifoReadLoop_frame (n : Nat) : ∀ f : Fifo,
    (fifoReadLoop f n).1.buf = f.buf ∧ (fifoReadLoop f n).1.head = f.head := by
  induction n with
  | zero => exact fun _ => ⟨rfl, rfl⟩
  | succ n ih =>
    intro f
    simp only [fifoReadLoop]
    split
    · exact ih f.take
    · exact ⟨rfl, rfl⟩

/-- A read of any length: a short one leaves the counter as it was. -/
theorem fifoRead_moves {f : Fifo} (h : f.Ok) (n : Nat) :
    ∃ g, fifoRead f n = (g, f.stored.take n, ((min n f.used : Nat) : Int)) ∧ g.Ok ∧ g.stored = f.stored.drop n ∧
      g.size = f.size ∧ g.buf = f.buf ∧ g.head = f.head ∧
      g.avilSize = if f.used < n then f.avilSize else f.avilSize + n := by
  obtain ⟨h1, h2, h3, h4, h5⟩ := fifoReadLoop_spec h n
  obtain ⟨h6, h7⟩ := fifoReadLoop_frame n f
  have hl : (fifoReadLoop f n).2.length = min n f.used := by rw [h2, List.length_take, length_stored]
  simp only [fifoRead, Int.toNat_natCast, hl]
  by_cases hn : f.used < n
  · have hmin : min n f.used = f.used := by omega
    refine ⟨(fifoReadLoop f n).1, ?_, h1, h3, h4, h6, h7, ?_⟩
    · rw [hmin, if_pos hn, h2]
    · rw [if_pos hn, h5]
  · have hmin : min n f.used = n := by omega
    refine ⟨{ (fifoReadLoop f n).1 with avilSize := (fifoReadLoop f n).1.avilSize + n }, ?_, h1.recount _, h3, h4, h6,
      h7, ?_⟩
    · rw [hmin, if_neg (lt_irrefl n), h2]
    · rw [if_neg hn, ← h5]

/-- A write of any length: a short one leaves the counter as it was. -/
theorem fifoWrite_moves {f : Fifo} (h : f.Ok) (hs : 0 < f.size) (bs : List UInt8) :
    ∃ g, fifoWrite f bs bs.length = (g, ((min bs.length (f.size.toNat - 1 - f.used) : Nat) : Int)) ∧ g.Ok ∧
      g.stored = f.stored ++ bs.take (min bs.length (f.size.toNat - 1 - f.used)) ∧ g.size = f.size ∧
      g.avilSize = if f.size.toNat - 1 - f.used < bs.length then f.avilSize else f.avilSize - bs.length := by
  obtain ⟨h1, h2, h3, h4, h5⟩ := fifoWriteLoop_spec h hs bs
  rw [h2] at h3
  simp only [fifoWrite, Int.toNat_natCast, List.take_length, h2]
  by_cases hn : f.size.toNat - 1 - f.used < bs.length
  · have hmin : min bs.length (f.size.toNat - 1 - f.used) = f.size.toNat - 1 - f.used := by omega
    refine ⟨(fifoWriteLoop f bs).1, ?_, h1, h3, h4, ?_⟩
    · rw [hmin, if_pos hn]
    · rw [if_pos hn, h5]
  · have hmin : min bs.length (f.size.toNat - 1 - f.used) = bs.length := by omega
    refine ⟨{ (fifoWriteLoop f bs).1 with avilSize := (fifoWriteLoop f bs).1.avilSize - bs.length }, ?_, h1.recount _, h3,
      h4, ?_⟩
    · rw [hmin, if_neg (lt_irrefl bs.length)]
    · rw [if_neg hn, ← h5]

theorem fifoWrite_returned_nonneg (f : Fifo) (bs : List UInt8) : 0 ≤ (fifoWrite f bs bs.length).2 := by
  simp only [fifoWrite]
  split <;> exact Int.natCast_nonneg _

/-! ## The counter -/

/-- A read always moves what it should; the counter follows if it is whole. -/
theorem read_iff {f : Fifo} (h : f.Counted) (n : Nat) :
    ((FifoCall.read n).Moves f ∧ (fifoCall f (.read n)).1.Truthful ↔ (FifoCall.read n).Whole f) ∧
      (fifoCall f (.read n)).1.Ok := by
  obtain ⟨g, hg, gok, gst, gsz, -, -, gav⟩ := fifoRead_moves h.ok n
  have gu : g.used = f.used - n := by rw [← length_stored, gst, List.length_drop, length_stored]
  have hmoves : (FifoCall.read n).Moves f := by
    have htake : f.stored.take (min n f.used) = f.stored.take n := by
      rw [← length_stored f, ← List.take_eq_take_min]
    have hdrop : f.stored.drop (min n f.used) = f.stored.drop n := by
      rw [← length_stored f, ← List.drop_eq_drop_min]
    simp only [FifoCall.Moves, hg, length_stored, gst, htake, hdrop, and_self]
  refine ⟨?_, by rw [fifoCall, hg]; exact gok⟩
  simp only [hmoves, true_and, fifoCall, hg, truthful_iff, gsz, gu, gav, h.avil, FifoCall.Whole]
  split <;> omega

theorem write_iff {f : Fifo} (h : f.Counted) (bs : List UInt8) :
    ((FifoCall.write bs).Moves f ∧ (fifoCall f (.write bs)).1.Truthful ↔ (FifoCall.write bs).Whole f) ∧
      ((FifoCall.write bs).Moves f → (fifoCall f (.write bs)).1.Ok) := by
  by_cases hs : 0 < f.size
  · obtain ⟨g, hg, gok, gst, gsz, gav⟩ := fifoWrite_moves h.ok hs bs
    have hlt := used_lt h.ok hs
    have gu : g.used = f.used + min bs.length (f.size.toNat - 1 - f.used) := by
      rw [← length_stored, gst, List.length_append, List.length_take, length_stored]
      omega
    have hmin : min (bs.length : Int) (f.size - 1 - f.used) = ((min bs.length (f.size.toNat - 1 - f.used) : Nat) : Int) := by
      omega
    have hmoves : (FifoCall.write bs).Moves f := by
      simp only [FifoCall.Moves, hg, length_stored, hmin, gst, Int.toNat_natCast, and_self]
    refine ⟨?_, fun _ => by rw [fifoCall, hg]; exact gok⟩
    simp only [hmoves, true_and, fifoCall, hg, truthful_iff, gsz, gu, gav, h.avil, FifoCall.Whole]
    split <;> omega
  -- without a cell the claimed number is negative
  · have hmoves : ¬(FifoCall.write bs).Moves f := by
      rintro ⟨hn, -⟩
      have h0 := fifoWrite_returned_nonneg f bs
      omega
    have hwhole : ¬(FifoCall.write bs).Whole f := fun hw => hs hw.1
    exact ⟨iff_of_false (fun hm => hmoves hm.1) hwhole, fun hm => absurd hm hmoves⟩

/-- In every sequence of calls on any ring, each call moves what it should and
leaves an exact counter if and only if each call is whole. -/
theorem counter_exact_iff {f : Fifo} (h : f.Counted) (cs : List FifoCall) :
    (∀ g call g', Takes fifoStep f cs g call g' → call.Moves g ∧ g'.Truthful) ↔
      ∀ g call g', Takes fifoStep f cs g call g' → call.Whole g := by
  refine takes_iff_while Fifo.Counted ?_ ?_ h cs
  · intro g call g' hg hstep
    cases hstep
    cases call with
    | write bs => exact (write_iff hg bs).1
    | read n => exact (read_iff hg n).1
  · intro g call g' hg hstep hexact
    cases hstep
    refine ⟨?_, truthful_iff.1 hexact.2⟩
    cases call with
    | write bs => exact (write_iff hg bs).2 hexact.1
    | read n => exact (read_iff hg n).2

/-- `counter_exact_iff` on a fresh ring of four cells: a write of three bytes, a
write to the full ring, and a read. -/
theorem counter_exact_fresh :
    (∀ g call g', Takes fifoStep (fifoInit 4) [.write [1, 2, 3], .write [4, 5], .read 2] g call g' →
      call.Moves g ∧ g'.Truthful) ↔
    ∀ g call g', Takes fifoStep (fifoInit 4) [.write [1, 2, 3], .write [4, 5], .read 2] g call g' → call.Whole g :=
  counter_exact_iff (counted_init 4) _

/-- A write of five bytes to that ring stores three and leaves `avilSize` at 4. -/
theorem counter_exact_fails_short : ∃ g', Takes fifoStep (fifoInit 4) [.write [1, 2, 3, 4, 5]] (fifoInit 4)
      (.write [1, 2, 3, 4, 5]) g' ∧
    g'.stored = [1, 2, 3] ∧ fifoAvailSize g' = 4 ∧ fifoUsedSize g' = 0 ∧ ¬g'.Truthful := by
  refine ⟨_, ⟨[], [], rfl, rfl, rfl⟩, by decide, by decide, by decide, fun htrue => ?_⟩
  exact absurd htrue.1 (by decide)

end Cmpsc473.Channel
