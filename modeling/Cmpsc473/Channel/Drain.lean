import Cmpsc473.Channel.Theorems
/-!
# A closed channel drains

When the channel is closed, every call that is inside returns, and each of its
threads needs one step for it: nobody sleeps, and nobody goes to sleep. What a
call will return is fixed by where its thread is (`Local.refused`).
-/

namespace Cmpsc473.Channel

open BufferStatus Function Runs

variable {ι : Type} [Fintype ι] [DecidableEq ι] {c : Int} {s s' t : Chan ι} {a : Act ι}

/-- Where a thread ends up once the channel is closed, if it makes no other call. -/
def Local.refused : Local → Local
  | .idle ret => .idle ret
  | .sendStart d | .sendLock d | .sendAsleep d | .sendWoken d => .idle (some (closedError, d.mem))
  | .receiveStart d | .receiveLock d | .receiveAsleep d | .receiveWoken d => .idle (some (closedError, d))
  | .receiveSignal d => .idle (some (bufferSpecialMessage, d))
  | .closeLock => .idle (some (closedError, []))

/-- Inside a call. -/
def Local.inside : Local → Bool
  | .idle _ => false
  | _ => true

def Act.isCall : Act ι → Bool
  | .call _ _ => true
  | _ => false

theorem refused_of_outside {l : Local} (h : l.inside = false) : l.refused = l := by
  cases l <;> cases h
  rfl

/-- A step in a closed channel takes one thread out of its call. -/
theorem drain_step (h : Closed s) (he : Effect s a s') (ha : a.isCall = false) :
    ∃ u, (s.threads u).inside = true ∧ s'.threads = update s.threads u (s.threads u).refused := by
  have hshut := h.shut
  have hw := h.awake
  cases he with
  | call => cases ha
  | @sendEarly u d ht | @receiveEarly u d ht | @closeAgain u w ht =>
    exact ⟨u, by rw [ht]; rfl, by rw [ht]; rfl⟩
  | @sendClosed u w d hd | @receiveClosed u w d hd =>
    rcases hd with ht | ht <;> exact ⟨u, by rw [ht]; rfl, by rw [ht]; rfl⟩
  | @signal u w d f ht hf =>
    -- there is nobody to wake
    have hw' := hw.update u (l := .idle (some (bufferSpecialMessage, d))) rfl rfl
    rcases chconsend.signal_cases hf with ⟨v, hv, -⟩ | ⟨-, rfl⟩
    · rw [(hw' v).1] at hv
      cases hv
    · exact ⟨u, by rw [ht]; rfl, by rw [ht]; rfl⟩
  | @spuriousSend u d ht =>
    have := (hw u).1
    rw [ht] at this
    cases this
  | @spuriousReceive u d ht =>
    have := (hw u).2
    rw [ht] at this
    cases this
  | sendPass _ ho | receivePass _ ho | sendSleep _ ho | receiveSleep _ ho | receiveSpecial _ ho | closeFirst _ ho =>
    rw [hshut] at ho
    cases ho
  | sendCommit _ ho | receiveCommit _ ho =>
    rw [hshut] at ho
    cases ho

/-- A run in a closed channel: one step for each call that returns. -/
theorem drain_run (h : Closed s) {ls : List (Act ι)} (hls : ∀ a ∈ ls, a.isCall = false) (hr : exec step s ls = some t) :
    Closed t ∧ (∀ i, (t.threads i).refused = (s.threads i).refused) ∧
      count Local.inside t.threads + ls.length = count Local.inside s.threads := by
  induction ls generalizing s with
  | nil =>
    simp only [exec, Option.some.injEq] at hr
    subst hr
    exact ⟨h, fun _ => rfl, rfl⟩
  | cons a ls ih =>
    obtain ⟨s', hs', ht⟩ := Option.bind_eq_some_iff.1 hr
    have he := step_effect hs'
    obtain ⟨u, hin, hthreads⟩ := drain_step h he (hls a List.mem_cons_self)
    obtain ⟨hclosed, hrefused, hcount⟩ := ih (closed_step h he).1 (fun a ha => hls a (List.mem_cons_of_mem _ ha)) ht
    have hout : (s.threads u).refused.inside = false := by cases s.threads u <;> rfl
    refine ⟨hclosed, fun i => ?_, ?_⟩
    · rw [hrefused, hthreads]
      by_cases hi : i = u
      · rw [hi, update_self, refused_of_outside hout]
      · rw [update_of_ne hi]
    · have hsum := count_update Local.inside s.threads u (s.threads u).refused
      rw [← hthreads, hin, hout] at hsum
      simp only [Bool.toNat_true, Bool.toNat_false] at hsum
      rw [List.length_cons]
      omega

/-- Once a channel is closed, the calls inside it return: a run without new
calls has one step for each of them at most, and when it cannot go on, every
call has returned, with `CLOSED_ERROR` unless it had received `"splmsg"`. -/
theorem close_drains (h : Reach step Any (bufferCreate c) s) (ho : s.isopen = false) {ls : List (Act ι)}
    (hls : ∀ a ∈ ls, a.isCall = false) (hr : exec step s ls = some t) :
    ls.length ≤ count Local.inside s.threads ∧
      ((∃ a t', a.isCall = false ∧ step t a = some t') ∨ ∀ i, t.threads i = (s.threads i).refused) := by
  have hclosed : Closed s := (closeInv_reach h).resolve_left fun hopen => by
    rw [hopen.1] at ho
    cases ho
  obtain ⟨hclosed', hrefused, hcount⟩ := drain_run hclosed hls hr
  refine ⟨by omega, ?_⟩
  by_cases hstuck : Stuck t
  · right
    intro i
    have hout : (t.threads i).inside = false := by
      have hb := hstuck i
      have hw := hclosed'.awake i
      cases hl : t.threads i with
      | idle => rfl
      | sendAsleep => rw [hl] at hw; cases hw.1
      | receiveAsleep => rw [hl] at hw; cases hw.2
      | _ => rw [hl] at hb; cases hb
    rw [← hrefused i, refused_of_outside hout]
  · left
    rw [stuck_iff] at hstuck
    push Not at hstuck
    obtain ⟨a, t', hin, hstep⟩ := hstuck
    refine ⟨a, t', ?_, hstep⟩
    cases a with
    | call => exact hin.elim
    | _ => rfl

/-- The threads `some false` and `some true` receive and sleep, and the third closes the channel. -/
def closeOnTwo : List (Act (Option Bool)) :=
  [.call (some false) (.receive []), .test (some false), .lock (some false) none, .call (some true) (.receive []),
    .test (some true), .lock (some true) none, .call none .close, .lock none none]

/-- `close_drains` there: both receivers return `CLOSED_ERROR`. -/
theorem close_drains_two : ∃ s t : Chan (Option Bool), exec step (bufferCreate 12) closeOnTwo = some s ∧
    exec step s [.lock (some true) none, .lock (some false) none] = some t ∧ 2 ≤ count Local.inside s.threads ∧
    ((∃ a t', a.isCall = false ∧ step t a = some t') ∨ ∀ i, t.threads i = (s.threads i).refused) := by
  obtain ⟨s, hs, hd⟩ := (Option.any_eq_true _ _).1 (show (exec step (bufferCreate 12) closeOnTwo).any
    (fun s => decide (s.isopen = false) && (exec step s [.lock (some true) none, .lock (some false) none]).isSome) = true
    by decide)
  simp only [Bool.and_eq_true, decide_eq_true_eq] at hd
  obtain ⟨t, ht⟩ := Option.isSome_iff_exists.1 hd.2
  have hdrains := close_drains (exec_reach hs fun _ _ _ => trivial) hd.1 (by simp [Act.isCall]) ht
  exact ⟨s, t, hs, ht, hdrains.1, hdrains.2⟩

end Cmpsc473.Channel
