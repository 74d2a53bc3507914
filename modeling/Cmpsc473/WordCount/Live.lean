import Cmpsc473.WordCount.Invariants
import Cmpsc473.Channel.Theorems
/-!
# No run of `custom_eval` gets stuck

If every message is smaller than the channel, some step is possible until the
main thread has returned. While `Reducer` is in its loop (`Live`), a channel in
which everybody sleeps has either no message, and then the senders are idle, or
one that `Reducer` can take. After the loop (`Ended`) the main thread goes on
alone.
-/

namespace Cmpsc473.WordCount

open Channel Function BufferStatus

variable {n : Nat} {text : List UInt8} {c : Int} {s s' : Sys n} {a : Turn n}

/-! ## The invariants -/

/-- Each message is smaller than the channel. -/
structure Fits (c : Int) (text : List UInt8) : Prop where
  words : ∀ x ∈ tokens text, getMsgSize (wordKV x) < c
  special : getMsgSize splmsg < c

/-- `Reducer` is in its loop. Wake-ups are on their way for what the sleepers
wait for, and `"splmsg"`, once delivered, is what `Reducer` holds. -/
structure Live (c : Int) (text : List UInt8) (s : Sys n) : Prop extends Running c text s where
  covered : ∃ q, Delivers c s.chan.fifoQ s.chan.log q ∧ Covered 1 s.chan q
  last : splmsg.bytes ∈ delivered s.chan.log → held (s.chan.roles .reducer) = [splmsg.bytes]

/-- `Reducer` is through, and so are all threads but the main one. -/
structure Ended (s : Sys n) : Prop where
  walked : s.reducefile.isSome = true
  returned : ∀ i, s.returned i = true
  idle : ∀ t, t ≠ .main → ∃ r, s.chan.threads t = .idle r
  main : (s.main = .sending ∧ ∃ r, s.chan.threads .main = .idle r) ∨
    (s.main = .closing ∧ (s.chan.threads .main = .closeLock ∨ ∃ r, s.chan.threads .main = .idle r)) ∨
    (s.main = .returned ∧ ∃ r, s.chan.threads .main = .idle r)

variable {roles : Tid n → Role} {log : List (Event (Tid n))} {tmp : Fin n → List UInt8} {returned : Fin n → Bool}
  {main : MainPc} {root : Std.TreeMap CStr Int compar}

/-- Once `"splmsg"` is sent, everything is. -/
theorem Counting.finished (h : Counting text roles log tmp returned main root) (hm : splmsg.bytes ∈ Channel.sent log) :
    main = .sending ∧ (∀ i, returned i = true) ∧ inFlight roles = 0 := by
  obtain ⟨l, hl, hall⟩ := h.special hm
  have hb := h.balance
  rw [hl, ← Multiset.coe_add, hall, Multiset.coe_singleton, add_assoc, add_assoc] at hb
  have hrest := add_left_cancel hb
  rcases h.pc with hpc | ⟨hpc, hret⟩
  · rw [if_pos hpc] at hrest
    have hcard := congrArg Multiset.card hrest
    simp at hcard
  · rw [if_neg (by rw [hpc]; decide)] at hrest
    have hzero : inFlight roles + unread tmp = 0 := add_left_cancel (hrest.trans (add_zero _).symm)
    exact ⟨hpc, hret, (add_eq_zero.1 hzero).1⟩

/-- A thread other than `Reducer` is idle if nothing is in flight. -/
theorem Counting.idle (h : Counting text roles log tmp returned main root) (hfl : inFlight roles = 0) {t : Tid n}
    (ht : t ≠ .reducer) : ∃ r, roles t = .idle r := by
  have hzero : flight (roles t) = 0 := Finset.sum_eq_zero_iff.1 hfl t (Finset.mem_univ t)
  have hplays := h.plays t
  cases hrole : roles t with
  | idle r => exact ⟨r, rfl⟩
  | sending d =>
    rw [hrole, flight_sending] at hzero
    exact absurd hzero (Multiset.singleton_ne_zero _)
  | receiving | signalling | closing =>
    rw [hrole] at hplays
    cases t with
    | reducer => exact absurd rfl ht
    | mapper | main => cases hplays

theorem idle_of_role {l : Local} {r : Option (BufferStatus × List UInt8)} (h : l.role = .idle r) : l = .idle r := by
  cases l <;> cases h
  rfl

theorem Running.sending_fits (h : Running c text s) (hf : Fits c text) {t : Tid n} {d : CStr}
    (ht : s.chan.roles t = .sending d) : getMsgSize d < c := by
  have hplays := h.counting.plays t
  rw [ht] at hplays
  cases t with
  | mapper i =>
    obtain ⟨-, x, hx, rfl⟩ := hplays
    exact hf.words x hx
  | reducer => cases hplays
  | main =>
    obtain ⟨-, rfl⟩ := hplays
    exact hf.special

theorem Running.not_closing (h : Running c text s) (t : Tid n) : s.chan.roles t ≠ .closing := by
  intro ht
  have hplays := h.counting.plays t
  rw [ht] at hplays
  cases t <;> cases hplays

/-- A sender that goes to sleep finds a message in the ring. -/
theorem Running.sleeps (h : Running c text s) (hf : Fits c text) {q : List CStr}
    (hq : Delivers c s.chan.fifoQ s.chan.log q) {t : Tid n} {d : CStr} (ht : (s.chan.threads t).Sends d)
    (hfull : fifoAvailSize s.chan.fifoQ ≤ getMsgSize d) : 1 ≤ q.length := by
  have hfits := h.sending_fits hf (show s.chan.roles t = .sending d from ht.role)
  rw [fifoAvailSize, hq.holds.avil_load, hq.size] at hfull
  rcases q with _ | ⟨m, q⟩
  · simp at hfull
    omega
  · simp

/-- Every move of the channel keeps `"splmsg"` in the hands of `Reducer`. -/
theorem last_move {ch ch' : Chan (Tid n)} (hc : Counting text ch.roles ch.log tmp returned main root) (hm : Move ch ch')
    (h : splmsg.bytes ∈ delivered ch.log → held (ch.roles .reducer) = [splmsg.bytes]) :
    splmsg.bytes ∈ delivered ch'.log → held (ch'.roles .reducer) = [splmsg.bytes] := by
  cases hm with
  | stay hr hl => rw [hr, hl]; exact h
  | @sent t d q ht hr hl =>
    have hne : Tid.reducer ≠ t := by
      rintro rfl
      have hplays := hc.plays .reducer
      rw [ht] at hplays
      cases hplays
    rw [hr, hl, update_of_ne hne, delivered_append]
    exact fun hd => h (by simpa [delivered] using hd)
  | received ht hne hr hl =>
    obtain rfl := hc.receiver (.inl ht)
    rw [hl, delivered_append]
    intro hd
    rcases List.mem_append.1 hd with hd | hd
    · have hheld := h hd
      rw [ht] at hheld
      cases hheld
    · exact absurd (List.mem_singleton.1 hd).symm hne
  | special ht heq hr hl =>
    obtain rfl := hc.receiver (.inl ht)
    rw [hr, update_self, ← heq]
    exact fun _ => rfl
  | @signalled t data ht hr hl =>
    obtain rfl := hc.receiver (.inr ⟨_, ht⟩)
    rw [hr, hl, update_self]
    intro hd
    have hheld := h hd
    rw [ht] at hheld
    exact hheld

/-- When `Reducer` leaves its loop, the other threads are through. -/
theorem Live.ends (h : Live c text s) {r : BufferStatus} {out : List UInt8} {file : List UInt8}
    (ht : s.chan.threads .reducer = .idle (some (r, out))) (hr : r ≠ bufferSuccess) :
    Ended { s with reducefile := some file } := by
  have hrole : s.chan.roles .reducer = .idle (some (r, out)) := congrArg Local.role ht
  have hplays := h.counting.plays .reducer
  rw [hrole] at hplays
  obtain ⟨rfl, -⟩ | ⟨rfl, heq⟩ := hplays
  · exact absurd rfl hr
  obtain ⟨taken, hdel, -⟩ := h.counting.reduced
  rw [hrole, held, heq] at hdel
  obtain ⟨q, hq⟩ := h.queue
  have hsent : splmsg.bytes ∈ sent s.chan.log := by
    rw [← hq.order, hdel]
    simp
  obtain ⟨hmain, hret, hfl⟩ := h.counting.finished hsent
  have hidle : ∀ t, t ≠ .reducer → ∃ r, s.chan.threads t = .idle r := fun t hne =>
    (h.counting.idle hfl hne).imp fun _ => idle_of_role
  refine ⟨rfl, hret, fun t _ => ?_, .inl ⟨hmain, hidle .main (by simp)⟩⟩
  by_cases hne : t = .reducer
  · exact ⟨_, hne ▸ ht⟩
  · exact hidle t hne

/-- A step other than the last of `Reducer` stays in the loop. -/
theorem Running.stays (hc : c ≤ intMax) (hp : Plain text) (h : Running c text s) (he : Effect s a s')
    (hf : s'.reducefile = s.reducefile) : Running c text s' := by
  refine (running_step hc hp h he).resolve_right ?_
  rintro ⟨taken, -, hw⟩
  rw [hf, h.running] at hw
  cases hw

theorem live_keeps (hc : c ≤ intMax) (hp : Plain text) (hf : Fits c text) (h : Live c text s) (he : Effect s a s') :
    Live c text s' ∨ Ended s' := by
  obtain ⟨q, hq, hk⟩ := h.covered
  have stays := h.toRunning.stays hc hp he
  -- the step of an idle thread into a call
  have called : ∀ {t : Tid n} {r} (l : Local), s.chan.threads t = .idle r → chconrec.asleep l = false →
      chconsend.asleep l = false → Covered 1 (s.chan.goto t l) q := by
    intro t r l ht h1 h2
    exact hk.goto (by rw [ht]; rfl) (by rw [ht]; rfl) h1 h2
  -- `Reducer` lets go of what it holds, which is not `"splmsg"`
  have dropped : held (s.chan.roles .reducer) ≠ [splmsg.bytes] → ∀ {l : Role},
      splmsg.bytes ∈ delivered s.chan.log → held l = [splmsg.bytes] := fun hne _ hd => absurd (h.last hd) hne
  cases he with
  | word hr ht hs =>
    refine .inl ⟨stays rfl, ⟨q, hq, called _ ht rfl rfl⟩, ?_⟩
    show splmsg.bytes ∈ delivered s.chan.log → held ((s.chan.goto _ _).roles .reducer) = _
    rw [roles_goto, update_of_ne (by simp)]
    exact h.last
  | wordsEnd hr ht hs => exact .inl ⟨stays rfl, ⟨q, hq, hk⟩, h.last⟩
  | receive _ ht =>
    refine .inl ⟨stays rfl, ⟨q, hq, called _ ht rfl rfl⟩, dropped ?_⟩
    rw [show s.chan.roles .reducer = .idle none from congrArg Local.role ht]
    simp [held]
  | @reduce out e out' _ ht hparse =>
    refine .inl ⟨stays rfl, ⟨q, hq, called _ ht rfl rfl⟩, dropped ?_⟩
    have hrole : s.chan.roles .reducer = .idle (some (bufferSuccess, out)) := congrArg Local.role ht
    have hplays := h.counting.plays .reducer
    rw [hrole] at hplays ⊢
    obtain ⟨-, hne⟩ | ⟨heq, -⟩ := hplays
    · simpa [held] using hne
    · cases heq
  | walk _ ht hr => exact .inr (h.ends ht hr)
  | joined hm ht hall =>
    refine .inl ⟨stays rfl, ⟨q, hq, called _ ht rfl rfl⟩, ?_⟩
    show splmsg.bytes ∈ delivered s.chan.log → held ((s.chan.goto _ _).roles .reducer) = _
    rw [roles_goto, update_of_ne (by simp)]
    exact h.last
  | close _ _ hd =>
    rw [h.running] at hd
    cases hd
  | «return» hm =>
    rcases h.counting.pc with hpc | ⟨hpc, -⟩ <;> rw [hm] at hpc <;> cases hpc
  | chan hcall he =>
    obtain ⟨-, hmove⟩ := move_of_effect h.isopen h.not_closing hcall he
    obtain ⟨q', hq', hk', -⟩ := covered_step hc hq hk (h.commitsSized hp _) (fun _ _ => h.sleeps hf hq) he
    exact .inl ⟨stays rfl, ⟨q', hq', hk'⟩, last_move h.counting hmove h.last⟩

theorem live_start (hn : 1 ≤ n) : Live c text (customEval n c text) := by
  have asleep : ∀ {v : Condvar Local} {k}, v.asleep (.idle none) = false →
      v.Covered (customEval n c text).chan.threads k := by
    rintro v k hv ⟨i, hi⟩
    cases hv.symm.trans hi
  exact ⟨running_start text hn, ⟨[], delivers_init c, fun _ => asleep rfl, fun _ => asleep rfl⟩, fun hm => by cases hm⟩

/-! ## A step is always possible -/

/-- A wake-up without a signal. -/
def Turn.spurious : Turn n → Bool
  | .chan (.spurious _) => true
  | _ => false

/-- Some step that is no spurious wake-up. -/
def CanStep (s : Sys n) : Prop := ∃ a s', a.spurious = false ∧ step s a = some s'

theorem call_idle {t : Tid n} {r : Option (BufferStatus × List UInt8)} (ht : s.chan.threads t = .idle r) (cl : Call) :
    ∃ s', s.call t cl = some s' := by
  simp [Sys.call, Channel.step, ht]

theorem mapper_can {i : Fin n} {r : Option (BufferStatus × List UInt8)} (ht : s.chan.threads (.mapper i) = .idle r)
    (hr : s.returned i = false) : CanStep s := by
  have hstep : ∃ s', wordcountStep s i = some s' := by
    cases hs : scanWord 1023 (s.tmp i) with
    | none => simp [wordcountStep, hr, ht, hs]
    | some p =>
      simp only [wordcountStep, hr, ht, hs]
      exact call_idle (s := { s with tmp := update s.tmp i p.2 }) ht _
  exact hstep.elim fun s' h => ⟨.mapper i, s', rfl, h⟩

/-- What `Reducer` takes from the channel, it can parse. -/
theorem Running.parses (h : Running c text s) (hp : Plain text) {out : List UInt8}
    (ht : s.chan.threads .reducer = .idle (some (bufferSuccess, out))) : ∃ r, parseKV out = some r := by
  have hrole : s.chan.roles .reducer = .idle (some (bufferSuccess, out)) := congrArg Local.role ht
  have hplays := h.counting.plays .reducer
  rw [hrole] at hplays
  have hne : cstr out ≠ splmsg.bytes := by
    obtain ⟨-, hne⟩ | ⟨heq, -⟩ := hplays
    · exact hne
    · cases heq
  obtain ⟨taken, hdel, -⟩ := h.counting.reduced
  obtain ⟨q, hq⟩ := h.queue
  have hsent : cstr out ∈ (sent s.chan.log : Multiset (List UInt8)) := by
    rw [Multiset.mem_coe, ← hq.order, hdel, hrole]
    simp [held]
  -- every message sent is that of a word, or `"splmsg"`
  have hmem : cstr out ∈ messages text + if s.main = .joining then 0 else {splmsg.bytes} := by
    rw [← h.counting.balance, Multiset.mem_add, Multiset.mem_add]
    exact .inl (.inl hsent)
  have hword : cstr out ∈ messages text := by
    rcases Multiset.mem_add.1 hmem with hm | hm
    · exact hm
    · split at hm
      · exact absurd hm (Multiset.notMem_zero _)
      · exact absurd (Multiset.mem_singleton.1 hm) hne
  obtain ⟨x, hx, hbytes⟩ := List.mem_map.1 (Multiset.mem_coe.1 hword)
  have hdec := decode_wordKV hx (hp.notSpecial x hx)
  rw [hbytes, decode_cstr] at hdec
  obtain ⟨r, hr, -⟩ := Option.map_eq_some_iff.1 hdec
  exact ⟨r, hr⟩

theorem Running.reducer_can (h : Running c text s) (hp : Plain text) {r : Option (BufferStatus × List UInt8)}
    (ht : s.chan.threads .reducer = .idle r) : CanStep s := by
  have hstep : ∃ s', reducerStep s = some s' := by
    match r, ht with
    | none, ht =>
      simp only [reducerStep, h.running, ht]
      exact call_idle ht _
    | some (bufferSuccess, out), ht =>
      obtain ⟨⟨e, out'⟩, hparse⟩ := h.parses hp ht
      simp only [reducerStep, h.running, ht, hparse]
      exact call_idle (s := { s with root := _, reducefile := none }) ht _
    | some (closedError, out), ht | some (bufferError, out), ht | some (bufferSpecialMessage, out), ht =>
      simp [reducerStep, h.running, ht]
  exact hstep.elim fun s' h => ⟨.reducer, s', rfl, h⟩

/-- A thread other than `Reducer` is idle if it is blocked and does not sleep in `buffer_send`. -/
theorem Running.idle (h : Running c text s) {t : Tid n} (ht : t ≠ .reducer) (hb : (s.chan.threads t).blocked = true)
    (hs : chconsend.asleep (s.chan.threads t) = false) : ∃ r, s.chan.threads t = .idle r := by
  cases hl : s.chan.threads t with
  | idle r => exact ⟨r, rfl⟩
  | sendAsleep => rw [hl] at hs; cases hs
  | receiveAsleep => exact absurd (h.counting.receiver (.inl (congrArg Local.role hl))) ht
  | _ => rw [hl] at hb; cases hb

theorem Running.reducer_idle (h : Running c text s) (hb : (s.chan.threads .reducer).blocked = true)
    (hs : chconrec.asleep (s.chan.threads .reducer) = false) : ∃ r, s.chan.threads .reducer = .idle r := by
  have hplays := h.counting.plays .reducer
  cases hl : s.chan.threads .reducer with
  | idle r => exact ⟨r, rfl⟩
  | sendAsleep =>
    rw [show s.chan.roles .reducer = _ from congrArg Local.role hl] at hplays
    cases hplays
  | receiveAsleep => rw [hl] at hs; cases hs
  | _ => rw [hl] at hb; cases hb

/-- Once the main thread is back from its send, `"splmsg"` is sent. -/
theorem Counting.all_sent (h : Counting text roles log tmp returned main root) (hm : main = .sending)
    (hret : ∀ i, returned i = true) (hidle : ∀ t, t ≠ .reducer → ∃ r, roles t = .idle r) :
    splmsg.bytes ∈ Channel.sent log := by
  have hfl : inFlight roles = 0 := by
    refine Finset.sum_eq_zero fun t _ => ?_
    by_cases hne : t = .reducer
    · have hplays := h.plays t
      subst hne
      cases hrole : roles .reducer with
      | sending d => rw [hrole] at hplays; cases hplays
      | idle | receiving | signalling | closing => rfl
    · obtain ⟨r, hr⟩ := hidle t hne
      rw [hr, flight_idle]
  have hunread : unread tmp = 0 := Finset.sum_eq_zero fun i _ => by rw [messages, h.ended i (hret i)]; rfl
  have hb := h.balance
  rw [hfl, hunread, add_zero, add_zero, if_neg (by rw [hm]; decide)] at hb
  rw [← Multiset.mem_coe, hb, Multiset.mem_add]
  exact .inr (Multiset.mem_singleton_self _)

/-- `Reducer` does not sleep while it holds a message. -/
theorem held_awake {l : Local} {m : List UInt8} (h : held l.role = [m]) : chconrec.asleep l = false := by
  cases l with
  | receiveAsleep => cases h
  | _ => rfl

theorem live_progress (hp : Plain text) (h : Live c text s) : CanStep s := by
  by_cases hstuck : Stuck s.chan
  · obtain ⟨q, hq, hk⟩ := h.covered
    by_cases hnil : q = []
    -- no thread sleeps in a send, because its message would fit
    · have senders := hstuck.not_covered (fun l hl => (blocked_pending l hl).1) (by rw [hnil]; exact Nat.one_pos)
        (hk.senders h.isopen)
      have idle : ∀ t, t ≠ .reducer → ∃ r, s.chan.threads t = .idle r := fun t hne =>
        h.idle hne (hstuck t) (senders t)
      by_cases hret : ∀ i, s.returned i = true
      · rcases h.counting.pc with hpc | ⟨hpc, -⟩
        · obtain ⟨r, hr⟩ := idle .main (by simp)
          have hstep : ∃ s', mainStep s = some s' := by
            simp only [mainStep, hpc, hr, hret, implies_true, if_true]
            exact call_idle (s := { s with main := .sending }) hr _
          exact hstep.elim fun s' h => ⟨.main, s', rfl, h⟩
        -- `"splmsg"` is sent, and delivered, so `Reducer` holds it
        · have hroles : ∀ t, t ≠ .reducer → ∃ r, s.chan.roles t = .idle r := by
            intro t hne
            obtain ⟨r, hr⟩ := idle t hne
            exact ⟨r, congrArg Local.role hr⟩
          have hsent := h.counting.all_sent hpc hret hroles
          have horder := hq.order
          rw [hnil, List.map_nil, List.append_nil] at horder
          have hheld := h.last (horder ▸ hsent)
          obtain ⟨r, hr⟩ := h.reducer_idle (hstuck _) (held_awake hheld)
          exact h.reducer_can hp hr
      · obtain ⟨i, hi⟩ := not_forall.1 hret
        obtain ⟨r, hr⟩ := idle (.mapper i) (by simp)
        exact mapper_can hr (Bool.eq_false_iff.2 hi)
    -- `Reducer` does not sleep, because a message is there
    · have receivers := hstuck.not_covered (fun l hl => (blocked_pending l hl).2) (List.length_pos_iff.2 hnil)
        (hk.receivers h.isopen)
      obtain ⟨r, hr⟩ := h.reducer_idle (hstuck _) (receivers _)
      exact h.reducer_can hp hr
  · rw [stuck_iff] at hstuck
    push Not at hstuck
    obtain ⟨a, ch, hin, hstep⟩ := hstuck
    cases a with
    | call | spurious => exact hin.elim
    | test t => exact ⟨.chan (.test t), { s with chan := ch }, rfl, by simp [step, hstep]⟩
    | lock t w => exact ⟨.chan (.lock t w), { s with chan := ch }, rfl, by simp [step, hstep]⟩
    | signal t w => exact ⟨.chan (.signal t w), { s with chan := ch }, rfl, by simp [step, hstep]⟩

/-- After the loop only the main thread moves, until it has returned. -/
theorem ended_progress (h : Ended s) (hs : s.main ≠ .returned) : CanStep s := by
  rcases h.main with ⟨hm, r, hr⟩ | ⟨hm, hlock | ⟨r, hr⟩⟩ | ⟨hm, -⟩
  · have hstep : ∃ s', mainStep s = some s' := by
      simp only [mainStep, hm, hr, h.walked, if_true]
      exact call_idle (s := { s with main := .closing }) hr _
    exact hstep.elim fun s' h => ⟨.main, s', rfl, h⟩
  · exact ⟨.chan (.lock .main none), _, rfl, by simp only [step, Channel.step, hlock]; rfl⟩
  · exact ⟨.main, _, rfl, by simp only [step, mainStep, hm, hr]; rfl⟩
  · exact absurd hm hs

end Cmpsc473.WordCount
