import Cmpsc473.Channel.Fifo
import Cmpsc473.Lib.Runs
/-!
# Messages in the ring (`buffer.c`)

A message lies in the ring as an `int` with its length, then its bytes with
the NUL. `Holds f q` says that the ring `f` holds the messages `q`; the two
calls refine a queue of strings that is bounded by its total size
(`ring_refines`).
-/

namespace Cmpsc473.Channel

/-- `enum buffer_status`: the values these functions return. -/
inductive BufferStatus where
  | bufferSuccess | closedError | bufferError | bufferSpecialMessage
  deriving DecidableEq, Repr

open BufferStatus

/-- `get_msg_size`: computed in `size_t`, returned as `int`. -/
def getMsgSize (data : CStr) : Int := toInt (toSize (4 + (data.strlen + 1)))

/-- `buffer_add_Q`. The guard compares an `int` with a `size_t`. -/
def bufferAddQ (f : Fifo) (data : CStr) : Fifo × BufferStatus :=
  let sizeData := toInt (toSize (data.strlen + 1))
  if toSize f.avilSize > toSize (4 + toSize sizeData) then
    let f := (fifoWrite f (intBytes sizeData) 4).1
    let f := (fifoWrite f data.mem sizeData).1
    (f, bufferSuccess)
  else (f, bufferError)

/-- `buffer_remove_Q` into the memory `data`. `actual_data_size` starts out
undefined; zeros stand for that. -/
def bufferRemoveQ (f : Fifo) (data : List UInt8) : Fifo × List UInt8 × BufferStatus :=
  if f.avilSize < f.size then
    let r := fifoRead f 4
    let actualDataSize := bytesInt (overwrite [0, 0, 0, 0] r.2.1)
    let r := fifoRead r.1 actualDataSize
    (r.1, overwrite data r.2.1, bufferSuccess)
  else (f, data, bufferError)

/-! ## The queue a ring holds -/

/-- A message as it lies in the ring. -/
def frame (s : CStr) : List UInt8 := intBytes (s.strlen + 1) ++ s.mem

/-- Its size: an `int`, the bytes and the NUL. -/
def frameSize (s : CStr) : Nat := 4 + s.strlen + 1

/-- The bytes a queue of messages takes up. -/
def load (q : List CStr) : Nat := (q.map frameSize).sum

/-- The size of the message is an `int`. -/
def Sized (s : CStr) : Prop := (s.strlen : Int) + 5 ≤ intMax

/-- The ring `f` holds the messages `q`, and `avilSize` counts the free cells. -/
structure Holds (f : Fifo) (q : List CStr) : Prop where
  ok : f.Ok
  stored : f.stored = q.flatMap frame
  avil : f.avilSize = f.size - f.used
  sized : ∀ s ∈ q, Sized s

@[simp] theorem length_frame (s : CStr) : (frame s).length = frameSize s := by
  simp [frame, frameSize, Nat.add_assoc]

@[simp] theorem load_nil : load [] = 0 := rfl

@[simp] theorem load_cons (s : CStr) (q : List CStr) : load (s :: q) = frameSize s + load q := by simp [load]

@[simp] theorem load_append (q r : List CStr) : load (q ++ r) = load q + load r := by simp [load]

/-- Bounds on each message bound the load. -/
theorem load_le {a b : Nat} {q : List CStr} (h : ∀ m ∈ q, a * frameSize m ≤ b) : a * load q ≤ q.length * b := by
  have hle := List.sum_le_card_nsmul (q.map fun m => a * frameSize m) b (by simpa using h)
  rwa [List.sum_map_mul_left, List.length_map, smul_eq_mul] at hle

theorem le_load {a b : Nat} {q : List CStr} (h : ∀ m ∈ q, b ≤ a * frameSize m) : q.length * b ≤ a * load q := by
  have hle := List.card_nsmul_le_sum (q.map fun m => a * frameSize m) b (by simpa using h)
  rwa [List.sum_map_mul_left, List.length_map, smul_eq_mul] at hle

theorem load_eq_length (q : List CStr) : load q = (q.flatMap frame).length := by
  induction q with
  | nil => rfl
  | cons s q ih => simp [ih]

theorem Holds.used {f : Fifo} {q : List CStr} (h : Holds f q) : f.used = load q := by
  rw [load_eq_length, ← h.stored, length_stored]

theorem Holds.avil_load {f : Fifo} {q : List CStr} (h : Holds f q) : f.avilSize = f.size - load q := by
  rw [h.avil, h.used]

/-- The test of `buffer_receive` and `buffer_remove_Q`. -/
theorem Holds.nonempty_iff {f : Fifo} {q : List CStr} (h : Holds f q) : f.avilSize < f.size ↔ q ≠ [] := by
  rw [h.avil_load]
  cases q with
  | nil => simp
  | cons s q => simp [frameSize]; omega

theorem holds_init (c : Int) : Holds (fifoInit c) [] := by
  have hu : (fifoInit c).used = 0 := by simp [fifoInit, Fifo.used]
  refine ⟨⟨by simp [fifoInit], by simp [fifoInit], by simp [fifoInit], fun h => h, fun h => h, fun _ => ⟨rfl, rfl⟩⟩,
    ?_, ?_, by simp⟩
  · simp [Fifo.stored, hu]
  · rw [hu]
    simp [fifoInit]

theorem Sized.toInt_size {s : CStr} (h : Sized s) : toInt (toSize (s.strlen + 1)) = s.strlen + 1 := by
  simp only [Sized, intMax] at h
  rw [toSize_of_range (by omega) (by omega), toInt_of_range (by omega) (by simp only [intMax]; omega)]

theorem getMsgSize_eq {s : CStr} (h : Sized s) : getMsgSize s = frameSize s := by
  simp only [Sized, intMax] at h
  rw [getMsgSize, toSize_of_range (by omega) (by omega), toInt_of_range (by omega) (by simp only [intMax]; omega),
    frameSize]
  omega

/-- On a ring that holds `q`, the guard of `buffer_add_Q` says that the message
fits. -/
theorem addGuard_iff {f : Fifo} {q : List CStr} {s : CStr} (h : Holds f q) (hc0 : 0 ≤ f.avilSize)
    (hc : f.size ≤ intMax) (hs : Sized s) :
    toSize f.avilSize > toSize (4 + toSize (toInt (toSize (s.strlen + 1)))) ↔ load q + frameSize s < f.size := by
  have := h.avil_load
  rw [hs.toInt_size]
  simp only [Sized, intMax, frameSize] at *
  rw [toSize_of_range hc0 (by omega), toSize_of_range (n := (s.strlen : Int) + 1) (by omega) (by omega),
    toSize_of_range (by omega) (by omega)]
  omega

/-! ## The two calls -/

/-- What `fifo_write` is asked to write by `buffer_add_Q`, and what it returns. -/
def addTransfers (f : Fifo) (data : CStr) : List (Int × Int) :=
  let sizeData := toInt (toSize (data.strlen + 1))
  if toSize f.avilSize > toSize (4 + toSize sizeData) then
    let r := fifoWrite f (intBytes sizeData) 4
    [(4, r.2), (sizeData, (fifoWrite r.1 data.mem sizeData).2)]
  else []

/-- What `fifo_read` is asked to read by `buffer_remove_Q`, and what it returns. -/
def removeTransfers (f : Fifo) : List (Int × Int) :=
  if f.avilSize < f.size then
    let r := fifoRead f 4
    let actualDataSize := bytesInt (overwrite [0, 0, 0, 0] r.2.1)
    [(4, r.2.2), (actualDataSize, (fifoRead r.1 actualDataSize).2.2)]
  else []

/-- A message that fits is appended, and both writes are complete. -/
theorem bufferAddQ_fits {f : Fifo} {q : List CStr} {s : CStr} (h : Holds f q) (hc : f.size ≤ intMax) (hs : Sized s)
    (hfit : load q + frameSize s < f.size) :
    ∃ g, bufferAddQ f s = (g, bufferSuccess) ∧ Holds g (q ++ [s]) ∧ g.size = f.size ∧
      ∀ p ∈ addTransfers f s, p.1 = p.2 := by
  have hu := h.used
  have hav := h.avil_load
  have hguard := (addGuard_iff h (by omega) hc hs).2 hfit
  simp only [frameSize] at hfit
  obtain ⟨g, hg, gok, gst, gsz, gav⟩ := fifoWrite_spec h.ok (intBytes (s.strlen + 1)) (by
    rw [length_intBytes]; omega)
  have gu : g.used = load q + 4 := by
    rw [← length_stored, gst, List.length_append, length_stored, hu, length_intBytes]
  obtain ⟨k, hk, kok, kst, ksz, kav⟩ := fifoWrite_spec gok s.mem (by rw [CStr.length_mem]; omega)
  simp only [length_intBytes, CStr.length_mem, Nat.cast_add, Nat.cast_ofNat, Nat.cast_one] at hg hk gav kav
  refine ⟨k, ?_, ⟨kok, ?_, ?_, ?_⟩, by rw [ksz, gsz], ?_⟩
  · simp only [bufferAddQ, hguard, if_true]
    rw [hs.toInt_size, hg, hk]
  · rw [kst, gst, h.stored, List.flatMap_append, List.flatMap_singleton, frame, List.append_assoc]
  · have ku : k.used = g.used + (s.strlen + 1) := by
      rw [← length_stored, kst, List.length_append, length_stored, CStr.length_mem]
    rw [kav, gav, ksz, gsz, ku, gu, hav]
    push_cast
    omega
  · intro x hx
    rcases List.mem_append.1 hx with hx | hx
    · exact h.sized x hx
    · rw [List.mem_singleton.1 hx]; exact hs
  · simp only [addTransfers, hguard, if_true]
    rw [hs.toInt_size, hg, hk]
    simp

/-- A message that does not fit is refused and changes nothing. -/
theorem bufferAddQ_refused {f : Fifo} {q : List CStr} {s : CStr} (h : Holds f q) (hc0 : 0 ≤ f.avilSize)
    (hc : f.size ≤ intMax) (hs : Sized s) (hfit : ¬load q + frameSize s < f.size) :
    bufferAddQ f s = (f, bufferError) ∧ addTransfers f s = [] := by
  have hguard := mt (addGuard_iff h hc0 hc hs).1 hfit
  simp only [bufferAddQ, addTransfers, hguard, if_false, and_self]

/-- The oldest message is read back whole, and both reads are complete. -/
theorem bufferRemoveQ_cons {f : Fifo} {q : List CStr} {s : CStr} (h : Holds f (s :: q)) (out : List UInt8) :
    ∃ g, bufferRemoveQ f out = (g, overwrite out s.mem, bufferSuccess) ∧ Holds g q ∧ g.size = f.size ∧
      ∀ p ∈ removeTransfers f, p.1 = p.2 := by
  have hu := h.used
  have hav := h.avil_load
  have hs := h.sized s List.mem_cons_self
  have hguard := h.nonempty_iff.2 (List.cons_ne_nil s q)
  simp only [load_cons, frameSize] at hu hav
  have hst : f.stored = intBytes (s.strlen + 1) ++ (s.mem ++ q.flatMap frame) := by
    rw [h.stored, List.flatMap_cons, frame, List.append_assoc]
  obtain ⟨g, hg, gok, gst, gsz, gav⟩ := fifoRead_spec (n := 4) h.ok (by omega)
  rw [hst, List.take_left' (length_intBytes _)] at hg
  rw [hst, List.drop_left' (length_intBytes _)] at gst
  have gu : g.used = s.strlen + 1 + load q := by
    rw [← length_stored, gst, List.length_append, CStr.length_mem, load_eq_length]
  obtain ⟨k, hk, kok, kst, ksz, kav⟩ := fifoRead_spec (n := s.strlen + 1) gok (by omega)
  rw [gst, List.take_left' s.length_mem] at hk
  rw [gst, List.drop_left' s.length_mem] at kst
  have hsize : bytesInt (overwrite [0, 0, 0, 0] (intBytes (s.strlen + 1))) = s.strlen + 1 := by
    simp only [Sized, intMax] at hs
    rw [overwrite, length_intBytes, show List.drop 4 ([0, 0, 0, 0] : List UInt8) = [] from rfl, List.append_nil]
    exact bytesInt_intBytes (by omega) (by simp only [intMax]; omega)
  simp only [Nat.cast_add, Nat.cast_ofNat, Nat.cast_one] at hg hk gav kav
  refine ⟨k, ?_, ⟨kok, kst, ?_, fun x hx => h.sized x (List.mem_cons_of_mem _ hx)⟩, by rw [ksz, gsz], ?_⟩
  · simp only [bufferRemoveQ, hguard, if_true]
    rw [hg, hsize, hk]
  · have ku : k.used = load q := by rw [← length_stored, kst, load_eq_length]
    rw [kav, gav, ksz, gsz, ku, hav]
    push_cast
    omega
  · simp only [removeTransfers, hguard, if_true]
    rw [hg, hsize, hk]
    simp

theorem bufferRemoveQ_nil {f : Fifo} (h : Holds f []) (out : List UInt8) :
    bufferRemoveQ f out = (f, out, bufferError) ∧ removeTransfers f = [] := by
  have hguard : ¬f.avilSize < f.size := fun hlt => h.nonempty_iff.1 hlt rfl
  simp only [bufferRemoveQ, removeTransfers, hguard, if_false, and_self]

/-! ## Sequences of calls -/

/-- A call of `buffer_add_Q`, or of `buffer_remove_Q` with the memory at `data`. -/
inductive QueueCall where
  | add (data : CStr)
  | remove (data : List UInt8)

/-- A call on the ring: the status returned and the memory at `data` after it. -/
def ringCall (f : Fifo) : QueueCall → Fifo × BufferStatus × List UInt8
  | .add s =>
    let r := bufferAddQ f s
    (r.1, r.2, s.mem)
  | .remove data =>
    let r := bufferRemoveQ f data
    (r.1, r.2.2, r.2.1)

/-- The same call on a queue of strings bounded by its total size. -/
def queueCall (c : Int) (q : List CStr) : QueueCall → List CStr × BufferStatus × List UInt8
  | .add s => if load q + frameSize s < c then (q ++ [s], bufferSuccess, s.mem) else (q, bufferError, s.mem)
  | .remove data =>
    match q with
    | [] => ([], bufferError, data)
    | s :: q => (q, bufferSuccess, overwrite data s.mem)

/-- The transfers a call makes: bytes asked for and bytes moved. -/
def ringTransfers (f : Fifo) : QueueCall → List (Int × Int)
  | .add s => addTransfers f s
  | .remove _ => removeTransfers f

/-- Every message of the call is sized. -/
def QueueCall.Sized : QueueCall → Prop
  | .add s => Channel.Sized s
  | .remove _ => True

theorem ringCall_refines {c : Int} (hc : c ≤ intMax) {f : Fifo} {q : List CStr} (h : Holds f q ∧ f.size = c ∧ 0 ≤ f.avilSize)
    {call : QueueCall} (hs : call.Sized) :
    (Holds (ringCall f call).1 (queueCall c q call).1 ∧ (ringCall f call).1.size = c ∧
        0 ≤ (ringCall f call).1.avilSize) ∧
      (ringCall f call).2 = (queueCall c q call).2 ∧ ∀ p ∈ ringTransfers f call, p.1 = p.2 := by
  obtain ⟨hh, rfl, h0⟩ := h
  cases call with
  | add s =>
    by_cases hfit : load q + frameSize s < f.size
    · obtain ⟨g, hg, hold, hsz, htr⟩ := bufferAddQ_fits hh hc hs hfit
      have hav := hold.avil_load
      simp only [load_append, load_cons, load_nil] at hav
      simp only [ringCall, queueCall, hg, hfit, if_true, hsz, true_and, ringTransfers]
      exact ⟨⟨hold, by omega⟩, htr⟩
    · obtain ⟨hg, htr⟩ := bufferAddQ_refused hh h0 hc hs hfit
      simp only [ringCall, queueCall, hg, hfit, if_false, ringTransfers, htr, true_and]
      exact ⟨⟨hh, h0⟩, by simp⟩
  | remove data =>
    cases q with
    | nil =>
      obtain ⟨hg, htr⟩ := bufferRemoveQ_nil hh data
      simp only [ringCall, queueCall, hg, ringTransfers, htr, true_and]
      exact ⟨⟨hh, h0⟩, by simp⟩
    | cons s q =>
      obtain ⟨g, hg, hold, hsz, htr⟩ := bufferRemoveQ_cons hh data
      have hav := hold.avil_load
      have hav0 := hh.avil_load
      simp only [load_cons] at hav0
      simp only [ringCall, queueCall, hg, hsz, true_and, ringTransfers]
      exact ⟨⟨hold, by omega⟩, htr⟩

/-- The ring after any sequence of calls, and the queue after the same calls. -/
theorem calls_refine_queue {c : Int} (h0 : 0 ≤ c) (hc : c ≤ intMax) (cs : List QueueCall) (hs : ∀ call ∈ cs, call.Sized) :
    (Holds (Runs.calls ringCall (fifoInit c) cs).1 (Runs.calls (queueCall c) [] cs).1 ∧
        (Runs.calls ringCall (fifoInit c) cs).1.size = c ∧ 0 ≤ (Runs.calls ringCall (fifoInit c) cs).1.avilSize) ∧
      (Runs.calls ringCall (fifoInit c) cs).2 = (Runs.calls (queueCall c) [] cs).2 :=
  Runs.calls_refine (fun f q => Holds f q ∧ f.size = c ∧ 0 ≤ f.avilSize) QueueCall.Sized
    (fun f q call h hok => by
      obtain ⟨h1, h2, -⟩ := ringCall_refines (q := q) hc h hok
      exact ⟨h1, h2⟩)
    ⟨holds_init c, rfl, h0⟩ cs hs

/-- A fresh ring of any capacity behaves as the bounded queue over every
sequence of calls: the same statuses, the same bytes delivered. After the
sequence it holds exactly the queue's messages, its indices are in range and
`avilSize` counts what is not stored. Whatever call comes next, none of its
transfers is short, and an add that fails changes nothing. -/
theorem ring_refines (c : Int) (h0 : 0 ≤ c) (hc : c ≤ intMax) (cs : List QueueCall) (hs : ∀ call ∈ cs, call.Sized) :
    let f := (Runs.calls ringCall (fifoInit c) cs).1
    let q := (Runs.calls (queueCall c) [] cs).1
    (Runs.calls ringCall (fifoInit c) cs).2 = (Runs.calls (queueCall c) [] cs).2 ∧
      f.stored = q.flatMap frame ∧
      (0 ≤ f.head ∧ 0 ≤ f.tail ∧ (0 < c → f.head < c ∧ f.tail < c)) ∧
      f.avilSize = c - f.stored.length ∧
      (∀ call : QueueCall, call.Sized → ∀ p ∈ ringTransfers f call, p.1 = p.2) ∧
      (∀ s, Sized s → ((bufferAddQ f s).2 = bufferSuccess ↔ load q + frameSize s < c) ∧
        ((bufferAddQ f s).2 ≠ bufferSuccess → (bufferAddQ f s).1 = f)) ∧
      (∀ data, (bufferRemoveQ f data).2.2 = bufferSuccess ↔ q ≠ []) := by
  intro f q
  obtain ⟨hf, hout⟩ := calls_refine_queue h0 hc cs hs
  have hh : Holds f q := hf.1
  have hsz : f.size = c := hf.2.1
  refine ⟨hout, hh.stored, ⟨hh.ok.head_nonneg, hh.ok.tail_nonneg, fun hp => ?_⟩, ?_, fun call hok => ?_,
    fun s hok => ?_, fun data => ?_⟩
  · rw [← hsz] at hp ⊢
    exact ⟨hh.ok.head_lt hp, hh.ok.tail_lt hp⟩
  · rw [hh.avil, hsz, length_stored]
  · exact (ringCall_refines hc hf hok).2.2
  · by_cases hfit : load q + frameSize s < f.size
    · obtain ⟨g, hg, -⟩ := bufferAddQ_fits hh (by omega) hok hfit
      rw [hg, ← hsz]
      simp [hfit]
    · rw [(bufferAddQ_refused hh hf.2.2 (by omega) hok hfit).1, ← hsz]
      simp [hfit]
  · cases hq : q with
    | nil =>
      rw [hq] at hh
      rw [(bufferRemoveQ_nil hh data).1]
      simp
    | cons s q' =>
      rw [hq] at hh
      obtain ⟨g, hg, -⟩ := bufferRemoveQ_cons hh data
      rw [hg]
      simp

/-- `ring_refines` on a ring of 16 bytes: the second message has to wait until
the first is gone. -/
theorem ring_refines_wrap :
    (Runs.calls ringCall (fifoInit 16)
      [.add ⟨[97, 98, 99], by decide⟩, .add ⟨[100, 101, 102], by decide⟩, .remove [], .add ⟨[103, 104, 105], by decide⟩,
        .remove []]).2 =
      [(bufferSuccess, [97, 98, 99, 0]), (bufferError, [100, 101, 102, 0]), (bufferSuccess, [97, 98, 99, 0]),
        (bufferSuccess, [103, 104, 105, 0]), (bufferSuccess, [103, 104, 105, 0])] :=
  (ring_refines 16 (by decide) (by decide) _ (by
    simp [QueueCall.Sized, Sized, CStr.strlen, intMax])).1.trans (by decide)

end Cmpsc473.Channel
