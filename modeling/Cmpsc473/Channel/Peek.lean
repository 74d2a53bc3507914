import Cmpsc473.Channel.Queue
import Cmpsc473.Channel.Transfers
/-!
# Peeking into the ring (`buffer_top_message`)

`buffer_top_message` reads messages out of the ring and then puts the indices
and the counter back. What it must undo is what the reads returned: each read
that is whole, or finds the ring empty, adds just that to the counter
(`fifoRead_counts`). Past the last message the length is the one read last, or
undefined if there was none.
-/

namespace Cmpsc473.Channel

open BufferStatus

/-- The ring, the memory at `data`, and the locals of `buffer_top_message`. -/
structure Top where
  fifoQ : Fifo
  data : List UInt8
  actualDataSize : Int
  moveBytes : Int

/-- One round of its loop. -/
def topRound (t : Top) : Top :=
  let r := fifoRead t.fifoQ 4
  let actualDataSize := bytesInt (overwrite (intBytes t.actualDataSize) r.2.1)
  let moveBytes := t.moveBytes + r.2.2
  let r := fifoRead r.1 actualDataSize
  { fifoQ := r.1
    data := overwrite t.data r.2.1
    actualDataSize := actualDataSize
    moveBytes := moveBytes + r.2.2 }

/-- The loop. -/
def topLoop (t : Top) (index : Nat) : Top := topRound^[index] t

theorem topLoop_succ (t : Top) (index : Nat) : topLoop t (index + 1) = topLoop (topRound t) index :=
  Function.iterate_succ_apply topRound index t

/-- `buffer_top_message` with the memory `data`, where `actual_data_size` starts
out as `undefined`. -/
def bufferTopMessage (f : Fifo) (data : List UInt8) (index : Int) (undefined : Int) : Fifo × List UInt8 × BufferStatus :=
  let t := topLoop { fifoQ := f, data := data, actualDataSize := undefined, moveBytes := 0 } index.toNat
  ({ t.fifoQ with avilSize := t.fifoQ.avilSize - t.moveBytes, tail := f.tail, head := f.head }, t.data, bufferSuccess)

/-- What a read changes of a ring apart from its tail: the counter goes up by `moved`. -/
structure Moved (f g : Fifo) (moved : Int) : Prop where
  buf : g.buf = f.buf
  head : g.head = f.head
  size : g.size = f.size
  avil : g.avilSize = f.avilSize + moved

theorem Moved.refl (f : Fifo) : Moved f f 0 := ⟨rfl, rfl, rfl, by simp⟩

theorem Moved.trans {f g k : Fifo} {m n : Int} (h1 : Moved f g m) (h2 : Moved g k n) : Moved f k (m + n) :=
  ⟨h2.buf.trans h1.buf, h2.head.trans h1.head, h2.size.trans h1.size, by rw [h2.avil, h1.avil, Int.add_assoc]⟩

/-- A whole read, or any read of an empty ring, adds what it returns to the
counter. -/
theorem fifoRead_counts {f : Fifo} (h : f.Ok) {n : Int} (hn : n ≤ f.used ∨ f.used = 0) :
    ∃ g moved, fifoRead f n = (g, f.stored.take n.toNat, moved) ∧ g.Ok ∧ g.stored = f.stored.drop n.toNat ∧
      Moved f g moved := by
  rcases Int.le_total 0 n with h0 | h0
  · obtain ⟨k, rfl⟩ := Int.eq_ofNat_of_zero_le h0
    obtain ⟨g, hg, gok, gst, gsz, gbuf, ghd, gav⟩ := fifoRead_moves h k
    refine ⟨g, _, hg, gok, gst, gbuf, ghd, gsz, ?_⟩
    rw [gav]
    split <;> omega
  -- a negative length reads nothing and is still added
  · have hz : n.toNat = 0 := Int.toNat_of_nonpos h0
    refine ⟨{ f with avilSize := f.avilSize + n }, n, ?_, h.recount _, ?_, rfl, rfl, rfl, rfl⟩
    · simp [fifoRead, hz, fifoReadLoop]
    · rw [hz]
      rfl

/-- A round over an empty ring takes nothing. -/
theorem topRound_empty {t : Top} (hok : t.fifoQ.Ok) (hst : t.fifoQ.stored = []) :
    ∃ n, Moved t.fifoQ (topRound t).fifoQ n ∧ (topRound t).moveBytes = t.moveBytes + n ∧ (topRound t).data = t.data ∧
      (topRound t).fifoQ.Ok ∧ (topRound t).fifoQ.stored = [] := by
  have hu : t.fifoQ.used = 0 := by rw [← length_stored, hst, List.length_nil]
  obtain ⟨g, m, hg, gok, gst, gmv⟩ := fifoRead_counts (n := 4) hok (.inr hu)
  rw [hst, List.take_nil] at hg
  rw [hst, List.drop_nil] at gst
  have gu : g.used = 0 := by rw [← length_stored, gst, List.length_nil]
  obtain ⟨k, m', hk, kok, kst, kmv⟩ :=
    fifoRead_counts (n := bytesInt (overwrite (intBytes t.actualDataSize) [])) gok (.inr gu)
  rw [gst, List.take_nil] at hk
  rw [gst, List.drop_nil] at kst
  simp only [topRound, hg, hk]
  exact ⟨m + m', gmv.trans kmv, Int.add_assoc _ _ _, rfl, kok, kst⟩

/-- A round over a ring with a message takes the oldest one. -/
theorem topRound_cons {t : Top} {s : CStr} {q : List CStr} (hok : t.fifoQ.Ok)
    (hst : t.fifoQ.stored = (s :: q).flatMap frame) (hs : Sized s) :
    ∃ n, Moved t.fifoQ (topRound t).fifoQ n ∧ (topRound t).moveBytes = t.moveBytes + n ∧
      (topRound t).data = overwrite t.data s.mem ∧ (topRound t).fifoQ.Ok ∧
      (topRound t).fifoQ.stored = q.flatMap frame := by
  have hst' : t.fifoQ.stored = intBytes (s.strlen + 1) ++ (s.mem ++ q.flatMap frame) := by
    rw [hst, List.flatMap_cons, frame, List.append_assoc]
  have hu : t.fifoQ.used = 4 + (s.strlen + 1 + (q.flatMap frame).length) := by
    rw [← length_stored, hst', List.length_append, List.length_append, length_intBytes, CStr.length_mem]
  obtain ⟨g, m, hg, gok, gst, gmv⟩ := fifoRead_counts (n := 4) hok (.inl (by omega))
  rw [hst', show Int.toNat 4 = 4 from rfl, List.take_left' (length_intBytes _)] at hg
  rw [hst', show Int.toNat 4 = 4 from rfl, List.drop_left' (length_intBytes _)] at gst
  have gu : g.used = s.strlen + 1 + (q.flatMap frame).length := by
    rw [← length_stored, gst, List.length_append, CStr.length_mem]
  have hsize : bytesInt (overwrite (intBytes t.actualDataSize) (intBytes (s.strlen + 1))) = ((s.strlen + 1 : Nat) : Int) := by
    simp only [Sized, intMax] at hs
    rw [overwrite, List.drop_of_length_le (by simp), List.append_nil]
    exact bytesInt_intBytes (by omega) (by simp only [intMax]; omega)
  obtain ⟨k, m', hk, kok, kst, kmv⟩ := fifoRead_counts (n := ((s.strlen + 1 : Nat) : Int)) gok (.inl (by omega))
  rw [gst, Int.toNat_natCast, List.take_left' s.length_mem] at hk
  rw [gst, Int.toNat_natCast, List.drop_left' s.length_mem] at kst
  simp only [topRound, hg, hsize, hk]
  exact ⟨m + m', gmv.trans kmv, Int.add_assoc _ _ _, trivial, kok, kst⟩

/-- The loop over a ring that holds `q` stops behind the message `index`, or
behind the last one. -/
theorem topLoop_spec (index : Nat) : ∀ {t : Top} {q : List CStr}, t.fifoQ.Ok → t.fifoQ.stored = q.flatMap frame →
    (∀ s ∈ q, Sized s) →
    ∃ n, Moved t.fifoQ (topLoop t index).fifoQ n ∧ (topLoop t index).moveBytes = t.moveBytes + n ∧
      (index = 0 ∨ q = [] → (topLoop t index).data = t.data) ∧
      ∀ s, 0 < index → q[min index q.length - 1]? = some s → s.mem <+: (topLoop t index).data := by
  induction index with
  | zero =>
    intro t q _ _ _
    exact ⟨0, .refl _, (Int.add_zero _).symm, fun _ => rfl, fun s h0 => absurd h0 (lt_irrefl 0)⟩
  | succ index ih =>
    intro t q hok hst hsized
    rw [topLoop_succ]
    cases q with
    | nil =>
      obtain ⟨m, rmv, hmv, hdata, rok, rst⟩ := topRound_empty hok hst
      obtain ⟨n, lmv, hmv', hkeep, -⟩ := @ih _ [] rok rst (by simp)
      refine ⟨m + n, rmv.trans lmv, ?_, fun _ => (hkeep (.inr rfl)).trans hdata, by simp⟩
      rw [hmv', hmv, Int.add_assoc]
    | cons s q =>
      obtain ⟨m, rmv, hmv, hdata, rok, rst⟩ := topRound_cons hok hst (hsized s List.mem_cons_self)
      obtain ⟨n, lmv, hmv', hkeep, hout⟩ := ih rok rst fun x hx => hsized x (List.mem_cons_of_mem _ hx)
      refine ⟨m + n, rmv.trans lmv, ?_, by simp, ?_⟩
      · rw [hmv', hmv, Int.add_assoc]
      intro x _ hx
      by_cases hlast : index = 0 ∨ q = []
      · have h0 : min (index + 1) (s :: q).length - 1 = 0 := by
          rcases hlast with rfl | rfl <;> simp
        rw [h0, List.getElem?_cons_zero, Option.some.injEq] at hx
        rw [hkeep hlast, hdata, ← hx]
        exact List.prefix_append _ _
      · obtain ⟨hi, hq⟩ := not_or.1 hlast
        have hpos := List.length_pos_of_ne_nil hq
        have h1 : min (index + 1) (s :: q).length - 1 = min index q.length - 1 + 1 := by
          rw [List.length_cons]
          omega
        rw [h1, List.getElem?_cons_succ] at hx
        exact hout x (Nat.pos_of_ne_zero hi) hx

/-- After any sequence of calls on a fresh ring of any capacity, a peek at any
index leaves the ring as it was; if there is a message, the memory at `data`
then holds the message at the index, or the last one if there are fewer. -/
theorem top_message_peeks (c : Int) (h0 : 0 ≤ c) (hc : c ≤ intMax) (cs : List QueueCall) (hs : ∀ call ∈ cs, call.Sized)
    (index : Nat) (data : List UInt8) (undefined : Int) :
    let f := (Runs.calls ringCall (fifoInit c) cs).1
    let q := (Runs.calls (queueCall c) [] cs).1
    let r := bufferTopMessage f data index undefined
    r.1 = f ∧ (1 ≤ index → q ≠ [] → ∃ s, q[min index q.length - 1]? = some s ∧ s.mem <+: r.2.1) := by
  obtain ⟨⟨hold, -, -⟩, -⟩ := calls_refine_queue h0 hc cs hs
  generalize (Runs.calls ringCall (fifoInit c) cs).1 = f at hold ⊢
  generalize (Runs.calls (queueCall c) [] cs).1 = q at hold ⊢
  obtain ⟨n, ⟨hbuf, hhead, hsize, havil⟩, hmove, -, hout⟩ :=
    topLoop_spec index (t := { fifoQ := f, data := data, actualDataSize := undefined, moveBytes := 0 }) hold.ok
      hold.stored hold.sized
  simp only [bufferTopMessage, Int.toNat_natCast]
  constructor
  · obtain ⟨fbuf, fhead, ftail, fsize, favil⟩ := f
    simp only at hbuf hsize havil hmove
    simp only [hbuf, hsize, havil, hmove, Fifo.mk.injEq, true_and]
    omega
  · intro hi hq
    have hpos := List.length_pos_of_ne_nil hq
    have hlt : min index q.length - 1 < q.length := by omega
    exact ⟨_, List.getElem?_eq_getElem hlt, hout _ hi (List.getElem?_eq_getElem hlt)⟩

/-- `top_message_peeks` on a ring of 25 bytes with two messages: index 1 is the
first, and indices 2 and 5 are the second. -/
theorem top_message_peeks_two :
    let f := (Runs.calls ringCall (fifoInit 25) [.add ⟨[80, 83, 85], by decide⟩, .add ⟨[67, 77], by decide⟩]).1
    (∀ index ∈ [1, 2, 5], (bufferTopMessage f [] index 7).1 = f) ∧
      (bufferTopMessage f [] 1 7).2.1 = [80, 83, 85, 0] ∧ (bufferTopMessage f [] 2 7).2.1 = [67, 77, 0, 0] ∧
      (bufferTopMessage f [] 5 7).2.1 = [67, 77, 0, 0] := by
  have hs : ∀ call ∈ [QueueCall.add ⟨[80, 83, 85], by decide⟩, .add ⟨[67, 77], by decide⟩], call.Sized := by
    simp [QueueCall.Sized, Sized, CStr.strlen, intMax]
  refine ⟨fun index hi => ?_, by decide, by decide, by decide⟩
  have hnat : ((index.toNat : Nat) : Int) = index := by
    simp only [List.mem_cons, List.not_mem_nil, or_false] at hi
    omega
  have := (top_message_peeks 25 (by decide) (by decide) _ hs index.toNat [] 7).1
  rwa [hnat] at this

end Cmpsc473.Channel
