import Cmpsc473.Channel.Monitor
import Cmpsc473.Lib.Runs
/-!
# Invariants of the channel

One lemma for each of the three things a run keeps: the log and the ring agree
on what is queued (`delivers_step`), pending wake-ups cover what the sleepers
wait for (`covered_step`), and a closed channel stays as it is (`closeInv_step`).
Each is a case analysis over `Effect`.
-/

namespace Cmpsc473.Channel

open BufferStatus Function

variable {ι : Type}

/-! ## Reading the log -/

/-- The strings of the sends that returned `BUFFER_SUCCESS`. -/
def sent (log : List (Event ι)) : List (List UInt8) :=
  log.filterMap fun e => match e with
    | .send _ d bufferSuccess _ => some d.bytes
    | _ => none

/-- The strings at `*data` of the receives that returned a message. -/
def delivered (log : List (Event ι)) : List (List UInt8) :=
  log.filterMap fun e => match e with
    | .receive _ d bufferSuccess _ | .receive _ d bufferSpecialMessage _ => some (cstr d)
    | _ => none

/-- What the closes returned. -/
def closes (log : List (Event ι)) : List BufferStatus :=
  log.filterMap fun e => match e with
    | .close _ r => some r
    | _ => none

def Event.ret : Event ι → BufferStatus
  | .send _ _ r _ | .receive _ _ r _ | .close _ r => r

/-- The status an event carries from the ring is `BUFFER_SUCCESS`, or the call
was refused before the ring; and the special status goes with `"splmsg"`. -/
def Event.Ok : Event ι → Prop
  | .send _ _ r q => (r = bufferSuccess ∧ q = some bufferSuccess) ∨ (r = closedError ∧ q = none)
  | .receive _ d r q =>
    (r = bufferSuccess ∧ cstr d ≠ splmsg.bytes ∧ q = some bufferSuccess) ∨
      (r = bufferSpecialMessage ∧ cstr d = splmsg.bytes ∧ q = some bufferSuccess) ∨ (r = closedError ∧ q = none)
  | .close _ r => r = bufferSuccess ∨ r = closedError

theorem sent_append (l m : List (Event ι)) : sent (l ++ m) = sent l ++ sent m := List.filterMap_append

theorem delivered_append (l m : List (Event ι)) : delivered (l ++ m) = delivered l ++ delivered m :=
  List.filterMap_append

theorem closes_append (l m : List (Event ι)) : closes (l ++ m) = closes l ++ closes m := List.filterMap_append

/-! ## What is queued -/

/-- The ring holds `q`, and `q` is what was sent and not delivered yet. -/
structure Delivers (c : Int) (f : Fifo) (log : List (Event ι)) (q : List CStr) : Prop where
  size : f.size = c
  holds : Holds f q
  order : delivered log ++ q.map CStr.bytes = sent log
  events : ∀ e ∈ log, e.Ok

theorem delivers_init (c : Int) : Delivers c (fifoInit c) ([] : List (Event ι)) [] :=
  ⟨rfl, holds_init c, rfl, by simp⟩

variable {c : Int} {f : Fifo} {log : List (Event ι)} {q : List CStr}

/-- An event that moves no message. -/
theorem Delivers.refused (h : Delivers c f log q) {e : Event ι} (he : e.Ok) (hs : sent [e] = [])
    (hd : delivered [e] = []) : Delivers c f (log ++ [e]) q := by
  refine ⟨h.size, h.holds, ?_, ?_⟩
  · rw [delivered_append, sent_append, hs, hd, List.append_nil, List.append_nil, h.order]
  · intro x hx
    rcases List.mem_append.1 hx with hx | hx
    · exact h.events x hx
    · rw [List.mem_singleton.1 hx]; exact he

/-- A send that passed its guard puts its message at the end of the queue. -/
theorem Delivers.commit_send (h : Delivers c f log q) (hc : c ≤ intMax) {d : CStr} (hd : Sized d)
    (hroom : getMsgSize d < fifoAvailSize f) (t : ι) :
    Delivers c (bufferAddQ f d).1 (log ++ [.send t d bufferSuccess (some (bufferAddQ f d).2)]) (q ++ [d]) := by
  rw [getMsgSize_eq hd, fifoAvailSize, h.holds.avil_load] at hroom
  have hsz := h.size
  obtain ⟨g, hg, hh, hgs, -⟩ := bufferAddQ_fits h.holds (by omega) hd (by omega)
  rw [hg]
  refine ⟨by rw [hgs, hsz], hh, ?_, ?_⟩
  · rw [delivered_append, sent_append, ← h.order]
    simp [delivered, sent]
  · intro x hx
    rcases List.mem_append.1 hx with hx | hx
    · exact h.events x hx
    · rw [List.mem_singleton.1 hx]; exact .inl ⟨rfl, rfl⟩

/-- A receive that passed its guard takes the oldest message. -/
theorem Delivers.remove (h : Delivers c f log q) (hne : f.avilSize < f.size) (out : List UInt8) :
    ∃ m q', q = m :: q' ∧ cstr (bufferRemoveQ f out).2.1 = m.bytes ∧ ∀ (t : ι) r,
      (r = bufferSuccess ∧ m.bytes ≠ splmsg.bytes ∨ r = bufferSpecialMessage ∧ m.bytes = splmsg.bytes) →
      Delivers c (bufferRemoveQ f out).1
        (log ++ [.receive t (bufferRemoveQ f out).2.1 r (some (bufferRemoveQ f out).2.2)]) q' := by
  obtain ⟨m, q', rfl⟩ := List.exists_cons_of_ne_nil (h.holds.nonempty_iff.1 hne)
  obtain ⟨g, hg, hh, hgs, -⟩ := bufferRemoveQ_cons h.holds out
  have hstr : cstr (overwrite out m.mem) = m.bytes := cstr_mem _ _
  rw [hg]
  refine ⟨m, q', rfl, hstr, fun t r hr => ⟨by rw [hgs, h.size], hh, ?_, ?_⟩⟩
  · rw [delivered_append, sent_append, ← h.order]
    rcases hr with ⟨rfl, -⟩ | ⟨rfl, -⟩ <;> simp [delivered, sent, hstr]
  · intro x hx
    rcases List.mem_append.1 hx with hx | hx
    · exact h.events x hx
    · rw [List.mem_singleton.1 hx]
      rcases hr with ⟨rfl, hm⟩ | ⟨rfl, hm⟩
      · exact .inl ⟨rfl, by rwa [hstr], rfl⟩
      · exact .inr (.inl ⟨rfl, by rwa [hstr], rfl⟩)

/-- The length of a message whose send passes its guard is an `int`. -/
def CommitsSized (s : Chan ι) : Act ι → Prop
  | .lock t _ => ∀ d, (s.threads t).Sends d → s.isopen = true → getMsgSize d < fifoAvailSize s.fifoQ → Sized d
  | _ => True

variable [Fintype ι] [DecidableEq ι] {s s' : Chan ι} {a : Act ι}

theorem delivers_step (hc : c ≤ intMax) (h : Delivers c s.fifoQ s.log q) (hp : CommitsSized s a)
    (he : Effect s a s') : ∃ q', Delivers c s'.fifoQ s'.log q' := by
  cases he with
  | call | sendPass | receivePass | sendSleep | receiveSleep | signal | spuriousSend | spuriousReceive => exact ⟨q, h⟩
  | sendEarly | sendClosed => exact ⟨q, h.refused (.inr ⟨rfl, rfl⟩) rfl rfl⟩
  | receiveEarly | receiveClosed => exact ⟨q, h.refused (.inr (.inr ⟨rfl, rfl⟩)) rfl rfl⟩
  | closeFirst => exact ⟨q, h.refused (.inl rfl) rfl rfl⟩
  | closeAgain => exact ⟨q, h.refused (.inr rfl) rfl rfl⟩
  | sendCommit hd ho hroom hf => exact ⟨_, h.commit_send hc (hp _ hd ho hroom) hroom _⟩
  | receiveCommit hd ho hne hm hf =>
    obtain ⟨m, q', -, hstr, hq⟩ := h.remove hne _
    exact ⟨q', hq _ _ (.inl ⟨rfl, by rwa [← hstr]⟩)⟩
  | receiveSpecial hd ho hne hm =>
    obtain ⟨m, q', -, hstr, hq⟩ := h.remove hne _
    exact ⟨q', hq _ _ (.inr ⟨rfl, by rwa [← hstr]⟩)⟩

/-! ## What the senders hold -/

/-- The message a thread is sending. -/
def Local.sending : Local → Option CStr
  | .sendStart d | .sendLock d | .sendAsleep d | .sendWoken d => some d
  | _ => none

theorem Local.Sends.sending {l : Local} {d : CStr} (h : l.Sends d) : l.sending = some d := by
  rcases h with rfl | rfl <;> rfl

theorem wake_sending (l : Local) :
    (chconsend.wake l).sending = l.sending ∧ (chconrec.wake l).sending = l.sending := by
  cases l <;> exact ⟨rfl, rfl⟩

omit [Fintype ι] in
theorem update_sending {f : ι → Local} {t i : ι} {l : Local} {d : CStr} (hi : (update f t l i).sending = some d) :
    (f i).sending = some d ∨ (i = t ∧ l.sending = some d) := by
  by_cases hit : i = t
  · subst hit; rw [update_self] at hi; exact .inr ⟨rfl, hi⟩
  · rw [update_of_ne hit] at hi; exact .inl hi

/-- A message being sent was being sent before the step, or the step is its call. -/
theorem sending_step (he : Effect s a s') {i : ι} {d : CStr} (hi : (s'.threads i).sending = some d) :
    (s.threads i).sending = some d ∨ a = .call i (.send d) := by
  have gone : ∀ {t : ι} {l : Local}, l.sending = none → (update s.threads t l i).sending = some d →
      (s.threads i).sending = some d := by
    intro t l hl hu
    rcases update_sending hu with h | ⟨-, h⟩
    · exact h
    · rw [hl] at h; cases h
  have kept : ∀ {t : ι} {l : Local}, l.sending = (s.threads t).sending → (update s.threads t l i).sending = some d →
      (s.threads i).sending = some d := by
    intro t l hl hu
    rcases update_sending hu with h | ⟨rfl, h⟩
    · exact h
    · rw [← hl]; exact h
  cases he with
  | @call t c r ht =>
    rcases update_sending hi with h | ⟨rfl, h⟩
    · exact .inl h
    · cases c <;> simp only [Call.start, Local.sending] at h <;> cases h
      exact .inr rfl
  | sendPass ht => exact .inl (kept (by rw [ht]; rfl) hi)
  | sendSleep hd => exact .inl (kept (by rw [hd.sending]; rfl) hi)
  | spuriousSend ht => exact .inl (kept (by rw [ht]; rfl) hi)
  | sendEarly | receivePass | receiveEarly | sendClosed | receiveSleep | receiveSpecial | receiveClosed | closeAgain |
      spuriousReceive => exact .inl (gone rfl hi)
  | sendCommit hd ho hroom hf =>
    rw [chconrec.signal_keeps (fun l => (wake_sending l).2) hf] at hi
    exact .inl (gone rfl hi)
  | receiveCommit hd ho hne hm hf =>
    rw [chconsend.signal_keeps (fun l => (wake_sending l).1) hf] at hi
    exact .inl (gone rfl hi)
  | signal ht hf =>
    rw [chconsend.signal_keeps (fun l => (wake_sending l).1) hf] at hi
    exact .inl (gone rfl hi)
  | closeFirst ht ho =>
    rcases update_sending hi with h | ⟨-, h⟩
    · rw [chconrec.broadcast_keeps fun l => (wake_sending l).2, chconsend.broadcast_keeps fun l => (wake_sending l).1] at h
      exact .inl h
    · cases h

/-! ## Wake-ups -/

/-- While the channel is open, wake-ups are pending for each queued message if
a receiver sleeps, and for each of `k - |q|` free slots if a sender sleeps. -/
structure Covered (k : Nat) (s : Chan ι) (q : List CStr) : Prop where
  receivers : s.isopen = true → chconrec.Covered s.threads q.length
  senders : s.isopen = true → chconsend.Covered s.threads (k - q.length)

theorem Local.Sends.pending {l : Local} {d : CStr} (h : l.Sends d) : chconrec.pending l = false := by
  rcases h with rfl | rfl <;> rfl

theorem Local.Receives.pending {l : Local} {d : List UInt8} (h : l.Receives d) : chconsend.pending l = false := by
  rcases h with rfl | rfl <;> rfl

/-- The sleepers of one condition variable are no business of the other. -/
theorem asleep_frame (l : Local) :
    (chconsend.asleep l = true → chconrec.pending l = false ∧ chconrec.asleep (chconsend.wake l) = false) ∧
      (chconrec.asleep l = true → chconsend.pending l = false ∧ chconsend.asleep (chconrec.wake l) = false) := by
  cases l <;> simp [chconsend, chconrec]

/-- A step that neither sleeps nor acts for a sleeper. -/
theorem Covered.goto {k : Nat} (h : Covered k s q) {t : ι} {l : Local} (h1 : chconrec.pending (s.threads t) = false)
    (h2 : chconsend.pending (s.threads t) = false) (h3 : chconrec.asleep l = false) (h4 : chconsend.asleep l = false) :
    Covered k (s.goto t l) q :=
  ⟨fun ho => (h.receivers ho).other h1 h3, fun ho => (h.senders ho).other h2 h4⟩

/-- Every step keeps the wake-ups covered, provided that a sender only goes to
sleep when `k` messages are queued. -/
theorem covered_step {k : Nat} (hc : c ≤ intMax) (h : Delivers c s.fifoQ s.log q) (hk : Covered k s q)
    (hp : CommitsSized s a)
    (hsleep : ∀ t d, (s.threads t).Sends d → fifoAvailSize s.fifoQ ≤ getMsgSize d → k ≤ q.length)
    (he : Effect s a s') :
    ∃ q', Delivers c s'.fifoQ s'.log q' ∧ Covered k s' q' ∧ ∀ m ∈ q', m ∈ q ∨ ∃ t, (s.threads t).Sends m := by
  have old : ∀ m ∈ q, m ∈ q ∨ ∃ t, (s.threads t).Sends m := fun m hm => .inl hm
  -- the steps that leave a closed channel, or close it
  have shut : s'.isopen = false → ∀ q', Covered k s' q' := fun ho q' =>
    ⟨fun ht => absurd ht (by rw [ho]; decide), fun ht => absurd ht (by rw [ho]; decide)⟩
  cases he with
  | @call t cl r ht =>
    refine ⟨q, h, hk.goto ?_ ?_ ?_ ?_, old⟩
    · rw [ht]; rfl
    · rw [ht]; rfl
    · cases cl <;> rfl
    · cases cl <;> rfl
  | sendPass ht | receivePass ht => exact ⟨q, h, hk.goto (by rw [ht]; rfl) (by rw [ht]; rfl) rfl rfl, old⟩
  | sendEarly ht ho | sendClosed hd ho => exact ⟨q, h.refused (.inr ⟨rfl, rfl⟩) rfl rfl, shut ho q, old⟩
  | receiveEarly ht ho | receiveClosed hd ho => exact ⟨q, h.refused (.inr (.inr ⟨rfl, rfl⟩)) rfl rfl, shut ho q, old⟩
  | closeFirst ht ho => exact ⟨q, h.refused (.inl rfl) rfl rfl, shut rfl q, old⟩
  | closeAgain ht ho => exact ⟨q, h.refused (.inr rfl) rfl rfl, shut ho q, old⟩
  | sendSleep hd ho hfull =>
    refine ⟨q, h, ⟨fun ho => (hk.receivers ho).other hd.pending rfl, fun _ => ?_⟩, old⟩
    -- `k` messages are queued, so no slot is left to cover
    rw [Nat.sub_eq_zero_of_le (hsleep _ _ hd hfull)]
    exact Condvar.Covered.zero _
  | @sendCommit t w d f hd ho hroom hf =>
    refine ⟨q ++ [d], h.commit_send hc (hp _ hd ho hroom) hroom t, ⟨fun ho => ?_, fun ho => ?_⟩, ?_⟩
    · rw [List.length_append]
      exact ((hk.receivers ho).other hd.pending rfl).signal hf
    · have hl : chconsend.Covered (update s.threads t (.idle (some (bufferSuccess, d.mem)))) (k - q.length - 1) :=
        (hk.senders ho).leave rfl
      rw [List.length_append, List.length_singleton, Nat.sub_add_eq]
      exact hl.frame hf fun l => (asleep_frame l).2
    · intro m hm
      rcases List.mem_append.1 hm with hm | hm
      · exact .inl hm
      · rw [List.mem_singleton.1 hm]; exact .inr ⟨t, hd⟩
  | receiveSleep hd ho hempty =>
    -- nothing is queued, so there is no message to cover
    have hnil : q = [] := by
      by_contra hne
      have := h.holds.nonempty_iff.2 hne
      omega
    subst hnil
    exact ⟨[], h, ⟨fun _ => Condvar.Covered.zero _, fun ho => (hk.senders ho).other hd.pending rfl⟩, old⟩
  | @receiveCommit t w d f hd ho hne hm hf =>
    obtain ⟨m, q', rfl, hstr, hq⟩ := h.remove hne d
    refine ⟨q', hq t _ (.inl ⟨rfl, by rwa [← hstr]⟩), ⟨fun ho => ?_, fun ho => ?_⟩,
      fun x hx => .inl (List.mem_cons_of_mem _ hx)⟩
    · exact ((hk.receivers ho).leave rfl).frame hf fun l => (asleep_frame l).1
    · apply (((hk.senders ho).other hd.pending rfl).signal hf).mono
      rw [List.length_cons]
      omega
  | @receiveSpecial t w d hd ho hne hm =>
    obtain ⟨m, q', rfl, hstr, hq⟩ := h.remove hne d
    refine ⟨q', hq t _ (.inr ⟨rfl, by rwa [← hstr]⟩), ⟨fun ho => (hk.receivers ho).leave rfl, fun ho => ?_⟩,
      fun x hx => .inl (List.mem_cons_of_mem _ hx)⟩
    apply ((hk.senders ho).owe hd.pending rfl rfl).mono
    rw [List.length_cons]
    omega
  | @signal t w d f ht hf =>
    refine ⟨q, h, ⟨fun ho => ?_, fun ho => ?_⟩, old⟩
    · exact ((hk.receivers ho).other (by rw [ht]; rfl) rfl).frame hf fun l => (asleep_frame l).1
    · have hl : chconsend.Covered (update s.threads t (.idle (some (bufferSpecialMessage, d)))) (k - q.length - 1) :=
        (hk.senders ho).leave rfl
      exact (hl.signal hf).mono (by omega)
  | @spuriousSend t d ht =>
    refine ⟨q, h, ⟨fun ho => (hk.receivers ho).other (by rw [ht]; rfl) rfl, fun ho => ?_⟩, old⟩
    have := (hk.senders ho).spurious (t := t) (by rw [ht]; rfl)
    rwa [ht] at this
  | @spuriousReceive t d ht =>
    refine ⟨q, h, ⟨fun ho => ?_, fun ho => (hk.senders ho).other (by rw [ht]; rfl) rfl⟩, old⟩
    have := (hk.receivers ho).spurious (t := t) (by rw [ht]; rfl)
    rwa [ht] at this

/-! ## After the close -/

/-- No thread sleeps on either condition variable. -/
def Awake (f : ι → Local) : Prop := ∀ i, chconsend.asleep (f i) = false ∧ chconrec.asleep (f i) = false

/-- The first close to take the mutex succeeded; everything decided after it was
refused, and nobody sleeps. -/
structure Closed (s : Chan ι) : Prop where
  shut : s.isopen = false
  log : ∃ pre t post, s.log = pre ++ .close t bufferSuccess :: post ∧ closes pre = [] ∧
    ∀ e ∈ post, e.ret = closedError
  awake : Awake s.threads

/-- Open and never closed, or closed for good. -/
def CloseInv (s : Chan ι) : Prop := (s.isopen = true ∧ closes s.log = []) ∨ Closed s

omit [Fintype ι] in
theorem Awake.update {f : ι → Local} (h : Awake f) (t : ι) {l : Local} (h1 : chconsend.asleep l = false)
    (h2 : chconrec.asleep l = false) : Awake (Function.update f t l) := by
  intro i
  by_cases hi : i = t
  · subst hi; rw [update_self]; exact ⟨h1, h2⟩
  · rw [update_of_ne hi]; exact h i

omit [Fintype ι] [DecidableEq ι] in
theorem broadcast_both (f : ι → Local) : Awake (chconrec.broadcast (chconsend.broadcast f)) := by
  intro i
  refine ⟨?_, chconrec.broadcast_awake _ i⟩
  have hb := chconsend.broadcast_awake f i
  show chconsend.asleep (if chconrec.asleep (chconsend.broadcast f i) = true then _ else _) = false
  generalize chconsend.broadcast f i = l at hb ⊢
  cases l <;> exact hb

omit [Fintype ι] [DecidableEq ι] in
theorem Closed.refused {s s' : Chan ι} (h : Closed s) (hs : s'.isopen = s.isopen) (hw : Awake s'.threads) {e : Event ι}
    (he : e.ret = closedError) (hl : s'.log = s.log ++ [e]) : Closed s' := by
  obtain ⟨pre, t, post, hlog, hpre, hpost⟩ := h.log
  refine ⟨by rw [hs, h.shut], ⟨pre, t, post ++ [e], by rw [hl, hlog, List.append_assoc]; rfl, hpre, ?_⟩, hw⟩
  intro x hx
  rcases List.mem_append.1 hx with hx | hx
  · exact hpost x hx
  · rw [List.mem_singleton.1 hx]; exact he

/-- A closed channel stays closed, and its ring stays as it is. -/
theorem closed_step (h : Closed s) (he : Effect s a s') : Closed s' ∧ s'.fifoQ = s.fifoQ := by
  have hshut := h.shut
  have hw := h.awake
  cases he with
  | @call t c r ht => exact ⟨⟨hshut, h.log, hw.update t (by cases c <;> rfl) (by cases c <;> rfl)⟩, rfl⟩
  | sendEarly | sendClosed | receiveEarly | receiveClosed | closeAgain =>
    exact ⟨h.refused rfl (hw.update _ rfl rfl) rfl rfl, rfl⟩
  | @signal t w d f ht hf =>
    have hw' := hw.update t (l := .idle (some (bufferSpecialMessage, d))) rfl rfl
    rcases chconsend.signal_cases hf with ⟨u, hu, -⟩ | ⟨-, rfl⟩
    · rw [(hw' u).1] at hu; cases hu
    · exact ⟨⟨hshut, h.log, hw'⟩, rfl⟩
  | @spuriousSend t d ht => have := (hw t).1; rw [ht] at this; cases this
  | @spuriousReceive t d ht => have := (hw t).2; rw [ht] at this; cases this
  | sendPass _ ho | receivePass _ ho | sendSleep _ ho | receiveSleep _ ho | receiveSpecial _ ho | closeFirst _ ho =>
    rw [hshut] at ho; cases ho
  | sendCommit _ ho | receiveCommit _ ho => rw [hshut] at ho; cases ho

theorem closeInv_step (h : CloseInv s) (he : Effect s a s') : CloseInv s' := by
  rcases h with ⟨ho, hl⟩ | h
  · cases he with
    | sendEarly _ hn | receiveEarly _ hn | sendClosed _ hn | receiveClosed _ hn | closeAgain _ hn =>
      rw [ho] at hn; cases hn
    | @closeFirst t w ht =>
      exact .inr ⟨rfl, ⟨s.log, t, [], rfl, hl, by simp⟩, (broadcast_both _).update t rfl rfl⟩
    | sendCommit | receiveCommit | receiveSpecial => exact .inl ⟨ho, by rw [closes_append, hl]; rfl⟩
    | call | sendPass | receivePass | sendSleep | receiveSleep | signal | spuriousSend | spuriousReceive =>
      exact .inl ⟨ho, hl⟩
  · exact .inr (closed_step h he).1

end Cmpsc473.Channel
