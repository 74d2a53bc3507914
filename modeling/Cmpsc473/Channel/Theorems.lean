import Cmpsc473.Channel.Invariants
/-!
# Theorems about the channel

Every theorem is about any number of threads and any run: `Reach` ranges over
all interleavings, all choices of the woken thread and all spurious wake-ups.
-/

namespace Cmpsc473.Channel

open BufferStatus Function Runs

variable {ι : Type} [Fintype ι] [DecidableEq ι] {c : Int} {s : Chan ι}

/-! ## First in, first out -/

/-- What is delivered, followed by what the ring still holds, is what was sent,
in order and byte for byte. The calls agree with the ring functions they
ignore, the special status means `"splmsg"`, and a refused call leaves the ring
alone. -/
structure FifoChannel (s : Chan ι) : Prop where
  order : ∃ q : List CStr, s.fifoQ.stored = q.flatMap frame ∧ delivered s.log ++ q.map CStr.bytes = sent s.log
  events : ∀ e ∈ s.log, e.Ok
  refused : ∀ a s' e, step s a = some s' → s'.log = s.log ++ [e] → e.ret = closedError → s'.fifoQ = s.fifoQ

theorem refused_fifo {s' : Chan ι} {a : Act ι} {e : Event ι} (he : Effect s a s') (hl : s'.log = s.log ++ [e])
    (hr : e.ret = closedError) : s'.fifoQ = s.fifoQ := by
  cases he with
  | sendCommit | receiveCommit | receiveSpecial =>
    obtain rfl := List.singleton_inj.1 (List.append_cancel_left hl)
    cases hr
  | _ => rfl

theorem delivers_reach (hc : c ≤ intMax) (h : Reach step CommitsSized (bufferCreate c) s) :
    ∃ q, Delivers c s.fifoQ s.log q :=
  Reach.inv (fun s => ∃ q, Delivers c s.fifoQ s.log q)
    (fun _ _ _ ⟨_, hq⟩ hp hl => delivers_step hc hq hp (step_effect hl)) h ⟨[], delivers_init c⟩

/-- In every run in which the length of each message that passes the guard of
`buffer_send` is an `int`, the channel is first in, first out. -/
theorem fifo_channel (hc : c ≤ intMax) (h : Reach step CommitsSized (bufferCreate c) s) : FifoChannel s := by
  obtain ⟨q, hq⟩ := delivers_reach hc h
  exact ⟨⟨q, hq.holds.stored, hq.order⟩, hq.events, fun _ _ _ hl he hr => refused_fifo (step_effect hl) he hr⟩

/-! ## Runs by the messages sent -/

/-- The messages of the send calls meet `G`. -/
def CallsMeet (G : CStr → Prop) : Chan ι → Act ι → Prop := fun _ a => ∀ t d, a = .call t (.send d) → G d

/-- The run calls `buffer_send` with messages that meet `G` only, and the length
of each that passes the guard is an `int`. -/
def Allowed (G : CStr → Prop) (s : Chan ι) (a : Act ι) : Prop := CommitsSized s a ∧ CallsMeet G s a

theorem allowed_of_calls {G : CStr → Prop} (hG : ∀ d, G d → Sized d)
    (h : Reach step (CallsMeet G) (bufferCreate c) s) : Reach step (Allowed G) (bufferCreate c) s := by
  refine Reach.mono (fun s => ∀ t d, (s.threads t).sending = some d → G d) ?_ ?_ h (fun t d h => by cases h)
  · intro s a s' ih hp hl t d hd
    rcases sending_step (step_effect hl) hd with h | h
    · exact ih t d h
    · exact hp t d h
  · intro s a ih hp
    cases a with
    | lock t w => exact ⟨fun d hd _ _ => hG d (ih t d hd.sending), hp⟩
    | _ => exact ⟨trivial, hp⟩

/-- `"hi"`. -/
def hi : CStr := ⟨[104, 105], by decide⟩

/-- A run in which a thread sends `"hi"` twice, and sleeps, and another receives. -/
def sendReceive : List (Act (Fin 2)) :=
  [.call 0 (.send hi), .test 0, .lock 0 none, .call 0 (.send hi), .test 0, .lock 0 none, .call 1 (.receive []), .test 1,
    .lock 1 (some 0)]

theorem sendReceive_hi (n : Nat) : ∀ a ∈ sendReceive.take n, ∀ s, CallsMeet (· = hi) s a := by
  intro a ha s t d h
  have hm := List.mem_of_mem_take ha
  subst h
  simp only [sendReceive, List.mem_cons, Act.call.injEq, Call.send.injEq, List.not_mem_nil, or_false, reduceCtorEq,
    false_or, and_false] at hm
  rcases hm with ⟨-, rfl⟩ | ⟨-, rfl⟩ <;> rfl

theorem hi_sized (d : CStr) (h : d = hi) : Sized d := by subst h; simp [Sized, hi, CStr.strlen, intMax]

/-- `fifo_channel` on that run. -/
theorem fifo_channel_hi : ∃ s : Chan (Fin 2), exec step (bufferCreate 12) sendReceive = some s ∧
    delivered s.log = [hi.bytes] ∧ FifoChannel s := by
  obtain ⟨s, hs, hd⟩ := (Option.any_eq_true _ _).1
    (show (exec step (bufferCreate 12) sendReceive).any (delivered ·.log = [hi.bytes]) = true by decide)
  have hr := allowed_of_calls hi_sized (exec_reach (P := CallsMeet (· = hi)) hs (sendReceive_hi 9))
  exact ⟨s, hs, by simpa using hd,
    fifo_channel (by decide) (Reach.mono (fun _ => True) (fun _ _ _ _ _ _ => trivial) (fun _ _ _ h => h.1) hr trivial)⟩

/-- A string of `n` letters. -/
def letters (n : Nat) : CStr := ⟨List.replicate n 97, by simp [List.mem_replicate]⟩

@[simp] theorem strlen_letters (n : Nat) : (letters n).strlen = n := by simp [letters, CStr.strlen]

/-- A send by a single thread that passes the guard, whatever the ring makes of it. -/
theorem send_alone {d : CStr} (h : getMsgSize d < c) {P : Chan (Fin 1) → Act (Fin 1) → Prop}
    (hp : ∀ s a, (∀ t e, a = .call t (.send e) → e = d) → P s a) :
    ∃ s : Chan (Fin 1), Reach step P (bufferCreate c) s ∧ (∃ r, s.threads 0 = .idle r) ∧ s.isopen = true ∧
      s.fifoQ = (bufferAddQ (fifoInit c) d).1 ∧
      s.log = [.send 0 d bufferSuccess (some (bufferAddQ (fifoInit c) d).2)] := by
  have h1 : step (bufferCreate c) (.call (0 : Fin 1) (.send d)) = some ((bufferCreate c).goto 0 (.sendStart d)) :=
    effect_step (.call rfl)
  obtain ⟨s, h2, ht, hopen, hring, hnil⟩ : ∃ s : Chan (Fin 1),
      step ((bufferCreate c).goto (0 : Fin 1) (.sendStart d)) (.test 0) = some s ∧ s.threads 0 = .sendLock d ∧
        s.isopen = true ∧ s.fifoQ = fifoInit c ∧ s.log = [] :=
    ⟨_, effect_step (.sendPass rfl rfl), rfl, rfl, rfl, rfl⟩
  have hwake : chconrec.signal (update s.threads 0 (.idle (some (bufferSuccess, d.mem)))) none =
      some (update s.threads 0 (.idle (some (bufferSuccess, d.mem)))) := by
    rw [Condvar.signal, if_neg]
    rintro ⟨i, hi⟩
    rw [Subsingleton.elim i 0, update_self] at hi
    cases hi
  have hroom : getMsgSize d < fifoAvailSize s.fifoQ := by rwa [hring]
  obtain ⟨s', h3, hidle, ho, hq, hlog⟩ : ∃ s', step s (.lock 0 none) = some s' ∧ (∃ r, s'.threads 0 = .idle r) ∧
      s'.isopen = s.isopen ∧ s'.fifoQ = (bufferAddQ s.fifoQ d).1 ∧
      s'.log = s.log ++ [.send 0 d bufferSuccess (some (bufferAddQ s.fifoQ d).2)] :=
    ⟨_, effect_step (.sendCommit (.inl ht) hopen hroom hwake), ⟨_, rfl⟩, rfl, rfl, rfl⟩
  rw [hring] at hq
  rw [hring, hnil, List.nil_append] at hlog
  refine ⟨s', ?_, hidle, by rw [ho, hopen], hq, hlog⟩
  refine Reach.tail (Reach.tail (Reach.tail .refl (hp _ _ ?_) h1) (hp _ _ ?_) h2) (hp _ _ ?_) h3
  · rintro _ _ ⟨⟩; rfl
  · rintro _ _ ⟨⟩
  · rintro _ _ ⟨⟩

/-- A string of `2^31 - 5` bytes passes the guard of `buffer_send`, because its
size as an `int` is negative; `buffer_add_Q` refuses it, and `buffer_send`
returns `BUFFER_SUCCESS`. -/
theorem fifo_channel_fails_long : ∃ d : CStr, d.strlen = 2147483643 ∧ ∃ s : Chan (Fin 1),
    Reach step Any (bufferCreate 100) s ∧ s.log = [.send 0 d bufferSuccess (some bufferError)] ∧ ¬FifoChannel s := by
  obtain ⟨d, hd⟩ : ∃ d : CStr, d.strlen = 2147483643 := ⟨letters 2147483643, strlen_letters _⟩
  have hmsg : getMsgSize d = -2147483648 := by rw [getMsgSize, hd]; decide
  have hadd : (bufferAddQ (fifoInit 100) d).2 = bufferError := by
    have hguard : ¬toSize (fifoInit 100).avilSize > toSize (4 + toSize (toInt (toSize (d.strlen + 1)))) := by
      rw [hd]; decide
    simp only [bufferAddQ, hguard, if_false]
  obtain ⟨s, hs, -, -, -, hlog⟩ := send_alone (c := 100) (d := d) (by rw [hmsg]; decide) fun _ _ _ => trivial
  rw [hadd] at hlog
  refine ⟨d, hd, s, hs, hlog, fun hfifo => ?_⟩
  have hev := hfifo.events
  rw [hlog] at hev
  simpa [Event.Ok] using hev _ List.mem_cons_self

/-! ## Stuck states -/

/-- The thread is outside the calls, or asleep and not woken yet. -/
def Local.blocked : Local → Bool
  | .idle _ | .sendAsleep _ | .receiveAsleep _ => true
  | _ => false

/-- Every thread inside a call is asleep, and no wake-up is on its way. -/
def Stuck (s : Chan ι) : Prop := ∀ t, (s.threads t).blocked = true

/-- A step inside a call that is not a wake-up out of nothing. -/
def Act.Inside : Act ι → Prop
  | .call _ _ | .spurious _ => False
  | _ => True

/-- The stuck states are those in which no thread inside a call can take a step. -/
theorem stuck_iff : Stuck s ↔ ∀ a s', a.Inside → step s a ≠ some s' := by
  constructor
  · intro h a s' ha hs
    have he := step_effect hs
    cases he with
    | call | spuriousSend | spuriousReceive => exact ha
    | @sendPass t d ht | @sendEarly t d ht | @receivePass t d ht | @receiveEarly t d ht | @closeFirst t w ht
      | @closeAgain t w ht | @signal t w d f ht =>
      have := h t
      rw [ht] at this
      cases this
    | @sendSleep t w d ht | @sendClosed t w d ht | @receiveSleep t w d ht | @receiveSpecial t w d ht
      | @receiveClosed t w d ht | @sendCommit t w d f ht | @receiveCommit t w d f ht =>
      have := h t
      rcases ht with ht | ht <;> rw [ht] at this <;> cases this
  · intro h t
    have can : ∀ {a s'}, Effect s a s' → a.Inside → False := fun he ha => h _ _ ha (effect_step he)
    have send : ∀ {d}, (s.threads t).Sends d → False := by
      intro d hd
      cases ho : s.isopen
      · exact can (.sendClosed (w := none) hd ho) trivial
      · by_cases hfull : fifoAvailSize s.fifoQ ≤ getMsgSize d
        · exact can (.sendSleep (w := none) hd ho hfull) trivial
        · obtain ⟨w, f, hf⟩ := chconrec.signal_possible (update s.threads t (.idle (some (bufferSuccess, d.mem))))
          exact can (.sendCommit hd ho (Int.not_le.1 hfull) hf) trivial
    have receive : ∀ {d}, (s.threads t).Receives d → False := by
      intro d hd
      cases ho : s.isopen
      · exact can (.receiveClosed (w := none) hd ho) trivial
      · by_cases hempty : s.fifoQ.size ≤ s.fifoQ.avilSize
        · exact can (.receiveSleep (w := none) hd ho hempty) trivial
        · by_cases hm : cstr (bufferRemoveQ s.fifoQ d).2.1 = splmsg.bytes
          · exact can (.receiveSpecial (w := none) hd ho (Int.not_le.1 hempty) hm) trivial
          · obtain ⟨w, f, hf⟩ := chconsend.signal_possible
              (update s.threads t (.idle (some (bufferSuccess, (bufferRemoveQ s.fifoQ d).2.1))))
            exact can (.receiveCommit hd ho (Int.not_le.1 hempty) hm hf) trivial
    cases ht : s.threads t with
    | idle | sendAsleep | receiveAsleep => rfl
    | sendLock | sendWoken => exact (send (by first | exact .inl ht | exact .inr ht)).elim
    | receiveLock | receiveWoken => exact (receive (by first | exact .inl ht | exact .inr ht)).elim
    | sendStart =>
      cases ho : s.isopen
      · exact (can (.sendEarly ht ho) trivial).elim
      · exact (can (.sendPass ht ho) trivial).elim
    | receiveStart =>
      cases ho : s.isopen
      · exact (can (.receiveEarly ht ho) trivial).elim
      · exact (can (.receivePass ht ho) trivial).elim
    | closeLock =>
      cases ho : s.isopen
      · exact (can (.closeAgain (w := none) ht ho) trivial).elim
      · exact (can (.closeFirst (w := none) ht ho) trivial).elim
    | receiveSignal d =>
      obtain ⟨w, f, hf⟩ := chconsend.signal_possible (update s.threads t (.idle (some (bufferSpecialMessage, d))))
      exact (can (.signal ht hf) trivial).elim

omit [DecidableEq ι] in
/-- In a stuck state no wake-up is pending. -/
theorem Stuck.not_covered (h : Stuck s) {v : Condvar Local} (hv : ∀ l, l.blocked = true → v.pending l = false) {n : Nat}
    (hn : 0 < n) (hc : v.Covered s.threads n) (t : ι) : v.asleep (s.threads t) = false := by
  by_contra ha
  have h1 := hc ⟨t, by simpa using ha⟩
  rw [count_eq_zero fun i => hv _ (h i)] at h1
  omega

theorem blocked_pending (l : Local) (h : l.blocked = true) : chconsend.pending l = false ∧ chconrec.pending l = false := by
  cases l <;> cases h <;> exact ⟨rfl, rfl⟩

/-! ## No deadlock -/

/-- Along a run whose messages meet `G`, a queue of messages that meet `G`, and
wake-ups for each of its messages and for each slot that is left of `k`. -/
theorem covered_reach {G : CStr → Prop} {k : Nat} (hc : c ≤ intMax)
    (hk : ∀ q d, (∀ m ∈ q, G m) → G d → c - load q ≤ getMsgSize d → k ≤ q.length)
    (h : Reach step (Allowed G) (bufferCreate c) s) :
    (∀ t d, (s.threads t).sending = some d → G d) ∧
      ∃ q, Delivers c s.fifoQ s.log q ∧ Covered k s q ∧ ∀ m ∈ q, G m := by
  refine Reach.inv (fun s => (∀ t d, (s.threads t).sending = some d → G d) ∧
    ∃ q, Delivers c s.fifoQ s.log q ∧ Covered k s q ∧ ∀ m ∈ q, G m) ?_ h ?_
  · rintro s a s' ⟨hsend, q, hd, hcov, hq⟩ ⟨hp1, hp2⟩ hl
    have he := step_effect hl
    have hsleep : ∀ t d, (s.threads t).Sends d → fifoAvailSize s.fifoQ ≤ getMsgSize d → k ≤ q.length := by
      intro t d hs hfull
      rw [fifoAvailSize, hd.holds.avil_load, hd.size] at hfull
      exact hk q d hq (hsend t d hs.sending) hfull
    obtain ⟨q', hd', hcov', hq'⟩ := covered_step hc hd hcov hp1 hsleep he
    refine ⟨fun t d ht => ?_, q', hd', hcov', fun m hm => ?_⟩
    · rcases sending_step he ht with h | h
      · exact hsend t d h
      · exact hp2 t d h
    · rcases hq' m hm with h | ⟨t, h⟩
      · exact hq m h
      · exact hsend t m h.sending
  · have asleep : ∀ {v : Condvar Local} {n}, v.asleep (.idle none) = false →
        v.Covered (bufferCreate c : Chan ι).threads n := by
      rintro v n hv ⟨i, hi⟩
      cases hv.symm.trans hi
    exact ⟨fun t d ht => (by cases ht), [], delivers_init c, ⟨fun _ => asleep rfl, fun _ => asleep rfl⟩, by simp⟩

/-- In a stuck open channel with messages `q` queued, sleeping receivers mean
that there is none and sleeping senders that there is one. -/
def NoDeadlock (s : Chan ι) : Prop :=
  s.isopen = true → Stuck s →
    ∃ q : List CStr, s.fifoQ.stored = q.flatMap frame ∧ delivered s.log ++ q.map CStr.bytes = sent s.log ∧
      (∀ t, chconrec.asleep (s.threads t) = true → q = []) ∧
      (∀ t, chconsend.asleep (s.threads t) = true → q ≠ []) ∧
      ¬∃ t u, chconsend.asleep (s.threads t) = true ∧ chconrec.asleep (s.threads u) = true

/-- If each message has a size below the capacity, and the length of each that
passes the guard is an `int`, an open channel never deadlocks. -/
theorem no_deadlock (hc : c ≤ intMax) (h : Reach step (Allowed fun d => getMsgSize d < c) (bufferCreate c) s) :
    NoDeadlock s := by
  intro ho hs
  have hk : ∀ q d, (∀ m ∈ q, getMsgSize m < c) → getMsgSize d < c → c - load q ≤ getMsgSize d → 1 ≤ q.length := by
    intro q d _ hd hfull
    rcases q with _ | ⟨m, q⟩
    · simp at hfull; omega
    · simp
  obtain ⟨-, q, hd, hcov, -⟩ := covered_reach hc hk h
  have hrec : ∀ t, chconrec.asleep (s.threads t) = true → q = [] := by
    intro t ht
    by_contra hne
    have := hs.not_covered (fun l hl => (blocked_pending l hl).2) (List.length_pos_iff.2 hne) (hcov.receivers ho) t
    rw [this] at ht
    cases ht
  have hsend : ∀ t, chconsend.asleep (s.threads t) = true → q ≠ [] := by
    rintro t ht rfl
    have := hs.not_covered (fun l hl => (blocked_pending l hl).1) Nat.one_pos (hcov.senders ho) t
    rw [this] at ht
    cases ht
  exact ⟨q, hd.holds.stored, hd.order, hrec, hsend, fun ⟨t, u, ht, hu⟩ => hsend t ht (hrec u hu)⟩

/-- `no_deadlock` where the thread that sent `"hi"` twice sleeps. -/
theorem no_deadlock_hi : ∃ s : Chan (Fin 2), exec step (bufferCreate 12) (sendReceive.take 6) = some s ∧
    s.threads 0 = .sendAsleep hi ∧ NoDeadlock s := by
  obtain ⟨s, hs, hd⟩ := (Option.any_eq_true _ _).1
    (show (exec step (bufferCreate 12) (sendReceive.take 6)).any (·.threads 0 = .sendAsleep hi) = true by decide)
  have hr := allowed_of_calls hi_sized (exec_reach (P := CallsMeet (· = hi)) hs (sendReceive_hi 6))
  refine ⟨s, hs, by simpa using hd, no_deadlock (by decide) (Reach.mono (fun _ => True) (fun _ _ _ _ _ _ => trivial) ?_ hr
    trivial)⟩
  intro s a _ h
  exact ⟨h.1, fun t d ha => by rw [h.2 t d ha]; decide⟩

/-- A negative count writes nothing and gives cells back. -/
theorem fifoWrite_neg (f : Fifo) (buf : List UInt8) {n : Int} (hn : n ≤ 0) :
    fifoWrite f buf n = ({ f with avilSize := f.avilSize - n }, n) := by
  simp [fifoWrite, Int.toNat_of_nonpos hn, fifoWriteLoop]

/-- A string of `2^32 - 5` bytes has size 0 as an `int`. `buffer_add_Q` writes
its length, `-4`, and then takes the four cells off its count again: the thread
that sent it sleeps in its receive, with the message in the ring. -/
theorem no_deadlock_fails_long : ∃ d : CStr, d.strlen = 4294967291 ∧ ∃ s : Chan (Fin 1),
    Reach step (CallsMeet fun d => getMsgSize d < 100) (bufferCreate 100) s ∧
    s.log = [.send 0 d bufferSuccess (some bufferSuccess)] ∧ s.threads 0 = .receiveAsleep [] ∧ ¬NoDeadlock s := by
  obtain ⟨d, hd⟩ : ∃ d : CStr, d.strlen = 4294967291 := ⟨letters 4294967291, strlen_letters _⟩
  have hmsg : getMsgSize d = 0 := by rw [getMsgSize, hd]; decide
  have hadd : (bufferAddQ (fifoInit 100) d).1.avilSize = 100 ∧ (bufferAddQ (fifoInit 100) d).1.size = 100 ∧
      (bufferAddQ (fifoInit 100) d).2 = bufferSuccess := by
    have hsize : toInt (toSize (d.strlen + 1)) = -4 := by rw [hd]; decide
    have hguard : toSize (fifoInit 100).avilSize > toSize (4 + toSize (-4)) := by decide
    simp only [bufferAddQ, hsize, hguard, if_true, fifoWrite_neg _ _ (show (-4 : Int) ≤ 0 by decide)]
    decide
  have hG : ∀ (s : Chan (Fin 1)) a, (∀ t e, a = .call t (.send e) → e = d) →
      CallsMeet (fun d => getMsgSize d < 100) s a := by
    intro s a ha t e he
    rw [ha t e he, hmsg]
    decide
  obtain ⟨s, hs, ⟨r, ht⟩, ho, hq, hlog⟩ := send_alone (c := 100) (d := d) (by rw [hmsg]; decide) hG
  -- the thread receives, and finds the ring empty
  obtain ⟨s', h1, h2, h3, hsleep, ho', hlog'⟩ : ∃ s', step s (.call 0 (.receive [])) = some (s.goto 0 (.receiveStart [])) ∧
      step (s.goto 0 (.receiveStart [])) (.test 0) = some ((s.goto 0 (.receiveStart [])).goto 0 (.receiveLock [])) ∧
      step ((s.goto 0 (.receiveStart [])).goto 0 (.receiveLock [])) (.lock 0 none) = some s' ∧
      s'.threads 0 = .receiveAsleep [] ∧ s'.isopen = s.isopen ∧ s'.log = s.log :=
    ⟨_, effect_step (.call ht), effect_step (.receivePass rfl ho),
      effect_step (.receiveSleep (.inl rfl) ho (by show s.fifoQ.size ≤ s.fifoQ.avilSize; rw [hq, hadd.1, hadd.2.1])),
      rfl, rfl, rfl⟩
  have hreach : Reach step (CallsMeet fun d => getMsgSize d < 100) (bufferCreate 100) s' :=
    Reach.tail (Reach.tail (Reach.tail hs (hG _ _ (by rintro _ _ ⟨⟩)) h1) (hG _ _ (by rintro _ _ ⟨⟩)) h2)
      (hG _ _ (by rintro _ _ ⟨⟩)) h3
  have hstuck : Stuck s' := fun i => by rw [Subsingleton.elim i 0, hsleep]; rfl
  rw [hlog, hadd.2.2] at hlog'
  refine ⟨d, hd, s', hreach, hlog', hsleep, fun hno => ?_⟩
  obtain ⟨q, -, horder, hrec, -⟩ := hno (by rw [ho', ho]) hstuck
  rw [hrec 0 (by rw [hsleep]; rfl), hlog'] at horder
  simp [sent, delivered] at horder

/-! ## Lost wake-ups -/

/-- Every thread inside a call sleeps for good in an open channel, and the
message of a sleeping sender fits. -/
def LostWakeup (s : Chan ι) : Prop :=
  s.isopen = true ∧ Stuck s ∧ ∃ t d, s.threads t = .sendAsleep d ∧ fifoAvailSize s.fifoQ > getMsgSize d

/-- How many messages like `d` fit in an empty channel. -/
def slots (c : Int) (d : CStr) : Nat := (c - 1).toNat / frameSize d

theorem frameSize_pos (d : CStr) : 0 < frameSize d := by simp [frameSize]

theorem slots_le (d : CStr) : slots c d * frameSize d ≤ (c - 1).toNat := Nat.div_mul_le_self _ _

theorem lt_slots (d : CStr) : (c - 1).toNat + 1 ≤ (slots c d + 1) * frameSize d := by
  rw [Nat.mul_comm]
  exact Nat.lt_mul_div_succ _ (frameSize_pos d)

/-- With `k` slots for each message, one more fits exactly if fewer than `k` are queued. -/
theorem fits_iff {k : Nat} {q : List CStr} {d : CStr} (hq : ∀ m ∈ q, slots c m = k) (hd : slots c d = k) :
    (load q : Int) + frameSize d < c ↔ q.length < k := by
  have hall : ∀ m ∈ d :: q, slots c m = k := by simpa using ⟨hd, hq⟩
  have hpos := frameSize_pos d
  constructor
  · intro hroom
    by_contra hlen
    have h1 := le_load (a := k + 1) fun m hm => hall m hm ▸ lt_slots m
    have h2 : (k + 1) * ((c - 1).toNat + 1) ≤ (d :: q).length * ((c - 1).toNat + 1) :=
      Nat.mul_le_mul_right _ (by rw [List.length_cons]; omega)
    have h3 := Nat.le_of_mul_le_mul_left (h2.trans h1) (by omega)
    rw [load_cons] at h3
    omega
  · intro hlen
    have h1 := load_le (a := k) fun m hm => hall m hm ▸ slots_le m
    have h2 : (d :: q).length * (c - 1).toNat ≤ k * (c - 1).toNat := Nat.mul_le_mul_right _ hlen
    have h3 := Nat.le_of_mul_le_mul_left (h1.trans h2) (by omega)
    rw [load_cons] at h3
    omega

/-- If all messages have the same number of slots, no sender whose message fits
sleeps for good. -/
theorem no_lost_wakeup (hc : c ≤ intMax) (k : Nat)
    (h : Reach step (CallsMeet fun d => Sized d ∧ slots c d = k) (bufferCreate c) s) : ¬LostWakeup s := by
  rintro ⟨ho, hs, t, d, ht, hfits⟩
  have hk : ∀ q d, (∀ m ∈ q, Sized m ∧ slots c m = k) → Sized d ∧ slots c d = k → c - load q ≤ getMsgSize d →
      k ≤ q.length := by
    intro q d hq hd hfull
    rw [getMsgSize_eq hd.1] at hfull
    have := fits_iff (fun m hm => (hq m hm).2) hd.2
    omega
  obtain ⟨hsend, q, hd, hcov, hq⟩ := covered_reach hc hk (allowed_of_calls (fun _ h => h.1) h)
  have hdk := hsend t d (by rw [ht]; rfl)
  rw [fifoAvailSize, hd.holds.avil_load, hd.size, getMsgSize_eq hdk.1] at hfits
  have hfew := (fits_iff (fun m hm => (hq m hm).2) hdk.2).1 (by omega)
  have hawake := hs.not_covered (fun l hl => (blocked_pending l hl).1) (Nat.sub_pos_of_lt hfew) (hcov.senders ho) t
  rw [ht] at hawake
  cases hawake

/-- `no_lost_wakeup` where the thread that sent `"hi"` twice sleeps. -/
theorem no_lost_wakeup_hi : ∃ s : Chan (Fin 2), exec step (bufferCreate 12) (sendReceive.take 6) = some s ∧
    s.threads 0 = .sendAsleep hi ∧ ¬LostWakeup s := by
  obtain ⟨s, hs, hd⟩ := (Option.any_eq_true _ _).1
    (show (exec step (bufferCreate 12) (sendReceive.take 6)).any (·.threads 0 = .sendAsleep hi) = true by decide)
  refine ⟨s, hs, by simpa using hd, no_lost_wakeup (by decide) 1 (exec_reach hs fun a ha s t d hc => ?_)⟩
  rw [sendReceive_hi 6 a ha s t d hc]
  exact ⟨hi_sized hi rfl, by decide⟩

/-- Fifteen bytes. -/
def long : CStr := ⟨List.replicate 15 97, by decide⟩

/-- Thread 0 fills the channel with `long`; threads 1 and 2 go to sleep with
`"hi"`; thread 3 receives and wakes thread 1 only, which leaves room for the
message of thread 2. -/
def wakeOne : List (Act (Fin 4)) :=
  [.call 0 (.send long), .test 0, .lock 0 none, .call 1 (.send hi), .test 1, .lock 1 none, .call 2 (.send hi), .test 2,
    .lock 2 none, .call 3 (.receive []), .test 3, .lock 3 (some 1), .lock 1 none]

theorem no_lost_wakeup_fails_mixed : ∃ s : Chan (Fin 4), exec step (bufferCreate 21) wakeOne = some s ∧
    s.threads 2 = .sendAsleep hi ∧ fifoAvailSize s.fifoQ = 14 ∧ getMsgSize hi = 7 ∧ LostWakeup s := by
  obtain ⟨s, hs, hd⟩ := (Option.any_eq_true _ _).1
    (show (exec step (bufferCreate 21) wakeOne).any (fun s => s.isopen && decide (∀ t, (s.threads t).blocked = true) &&
      decide (s.threads 2 = .sendAsleep hi) && decide (fifoAvailSize s.fifoQ = 14)) = true by decide)
  simp only [Bool.and_eq_true, decide_eq_true_eq] at hd
  obtain ⟨⟨⟨hopen, hstuck⟩, hsleep⟩, havail⟩ := hd
  have hsize : getMsgSize hi = 7 := by decide
  exact ⟨s, hs, hsleep, havail, hsize, hopen, hstuck, 2, hi, hsleep, by rw [havail, hsize]; decide⟩

/-! ## Close -/

/-- The first close to take the mutex succeeds and every other one is refused.
In a closed channel nobody sleeps, every call decided after the close was
refused, and no step touches the ring again. -/
structure CloseFinal (s : Chan ι) : Prop where
  first : closes s.log = [] ∨ ∃ n, closes s.log = bufferSuccess :: List.replicate n closedError
  awake : s.isopen = false → ∀ t, chconsend.asleep (s.threads t) = false ∧ chconrec.asleep (s.threads t) = false
  after : s.isopen = false → ∃ pre t post, s.log = pre ++ .close t bufferSuccess :: post ∧ closes pre = [] ∧
    ∀ e ∈ post, e.ret = closedError
  frozen : s.isopen = false → ∀ s', Reach step Any s s' → s'.isopen = false ∧ s'.fifoQ = s.fifoQ

theorem closeInv_reach (h : Reach step Any (bufferCreate c) s) : CloseInv s :=
  Reach.inv CloseInv (fun _ _ _ hs _ hl => closeInv_step hs (step_effect hl)) h (.inl ⟨rfl, rfl⟩)

omit [Fintype ι] [DecidableEq ι] in
theorem closes_refused {post : List (Event ι)} (h : ∀ e ∈ post, e.ret = closedError) :
    closes post = List.replicate (closes post).length closedError := by
  refine List.eq_replicate_iff.2 ⟨rfl, fun r hr => ?_⟩
  obtain ⟨e, he, her⟩ := List.mem_filterMap.1 hr
  have hret := h e he
  cases e with
  | close t r' => cases her; exact hret
  | send | receive => cases her

/-- Close is final and wakes everybody. -/
theorem close_final (h : Reach step Any (bufferCreate c) s) : CloseFinal s := by
  rcases closeInv_reach h with ⟨ho, hl⟩ | hcl
  · have notShut : ∀ {p : Prop}, s.isopen = false → p := fun hn => absurd (ho.symm.trans hn) (by decide)
    exact ⟨.inl hl, notShut, notShut, notShut⟩
  · refine ⟨.inr ?_, fun _ => hcl.awake, fun _ => hcl.log, fun _ s' hr => ?_⟩
    · obtain ⟨pre, t, post, hlog, hpre, hpost⟩ := hcl.log
      refine ⟨(closes post).length, ?_⟩
      rw [hlog, closes_append, hpre, ← closes_refused hpost]
      rfl
    · have hinv := Reach.inv (fun s' => Closed s' ∧ s'.fifoQ = s.fifoQ) (fun _ _ _ hs _ hl => by
        obtain ⟨h1, h2⟩ := closed_step hs.1 (step_effect hl)
        exact ⟨h1, h2.trans hs.2⟩) hr ⟨hcl, rfl⟩
      exact ⟨hinv.1.shut, hinv.2⟩

/-- A receiver sleeps, the channel is closed around it and once more, and a send comes too late. -/
def closeTwice : List (Act (Fin 2)) :=
  [.call 0 (.receive []), .test 0, .lock 0 none, .call 1 .close, .lock 1 none, .lock 0 none, .call 0 .close, .lock 0 none,
    .call 1 (.send hi), .test 1]

/-- `close_final` on that run. -/
theorem close_final_twice : ∃ s : Chan (Fin 2), exec step (bufferCreate 12) closeTwice = some s ∧
    s.log.map Event.ret = [bufferSuccess, closedError, closedError, closedError] ∧ CloseFinal s := by
  obtain ⟨s, hs, hd⟩ := (Option.any_eq_true _ _).1
    (show (exec step (bufferCreate 12) closeTwice).any
      (·.log.map Event.ret = [bufferSuccess, closedError, closedError, closedError]) = true by decide)
  exact ⟨s, hs, by simpa using hd, close_final (exec_reach hs fun _ _ _ => trivial)⟩

end Cmpsc473.Channel
