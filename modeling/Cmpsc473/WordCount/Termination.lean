import Cmpsc473.WordCount.Live
import Cmpsc473.WordCount.Theorems
/-!
# `custom_eval` ends

No run goes on for ever: each step but a spurious wake-up uses up some of what
is left to do (`cost`), and a spurious wake-up adds one to it. A run that goes
on as long as it can ends with the return of the main thread.
-/

namespace Cmpsc473.WordCount

open Channel Function BufferStatus Runs

variable {n : Nat} {text : List UInt8} {c : Int} {s s' : Sys n} {a : Turn n}

/-! ## What is left to do -/

/-- What a call still costs. A commit wakes a sleeper, and a send puts a message
into the ring, which costs `Reducer` something too. -/
def callCost : Local → Nat
  | .idle _ => 0
  | .sendStart _ => 7
  | .sendLock _ | .sendWoken _ => 6
  | .sendAsleep _ => 5
  | .receiveStart _ => 4
  | .receiveLock _ | .receiveWoken _ => 3
  | .receiveAsleep _ => 2
  | .receiveSignal _ => 3
  | .closeLock => 1

/-- What it costs `Reducer` to go on in its loop. -/
def loopCost : Role → Nat
  | .idle none => 5
  | .idle (some (bufferSuccess, _)) => 5
  | _ => 0

def mainCost : MainPc → Nat
  | .joining => 11
  | .sending => 3
  | .closing => 1
  | .returned => 0

/-- What the channel still costs: the calls, the loop of `Reducer` and the messages queued. -/
def chanCost (ch : Chan (Tid n)) : Nat :=
  ∑ t, callCost (ch.threads t) + loopCost (ch.roles .reducer) + 4 * ((sent ch.log).length - (delivered ch.log).length)

/-- What is left to do. A word costs its message and its send. -/
def cost (s : Sys n) : Nat :=
  ∑ i, 8 * (tokens (s.tmp i)).length + ∑ i, (!s.returned i).toNat + chanCost s.chan + s.reducefile.isNone.toNat +
    mainCost s.main

theorem wake_callCost (l : Local) : (chconsend.asleep l = true → callCost (chconsend.wake l) ≤ callCost l + 1) ∧
    (chconrec.asleep l = true → callCost (chconrec.wake l) ≤ callCost l + 1) := by
  cases l <;> simp [chconsend, chconrec, callCost]

@[simp] theorem callCost_idle (r : Option (BufferStatus × List UInt8)) : callCost (.idle r) = 0 := rfl

@[simp] theorem callCost_receiveSignal (d : List UInt8) : callCost (.receiveSignal d) = 3 := rfl

theorem callCost_sends {l : Local} {d : CStr} (h : l.Sends d) : callCost l = 6 := by
  rcases h with rfl | rfl <;> rfl

theorem callCost_receives {l : Local} {d : List UInt8} (h : l.Receives d) : callCost l = 3 := by
  rcases h with rfl | rfl <;> rfl

theorem delivered_le {f : Fifo} {log : List (Event (Tid n))} {q : List CStr} (h : Delivers c f log q) :
    (delivered log).length ≤ (sent log).length := by
  rw [← h.order, List.length_append]
  exact Nat.le_add_right _ _

/-- A thread that moves on within its call. -/
theorem chanCost_goto {ch : Chan (Tid n)} {t : Tid n} {l : Local} (h : l.role = (ch.threads t).role) :
    chanCost (ch.goto t l) + callCost (ch.threads t) = chanCost ch + callCost l := by
  have hsum := sum_update callCost ch.threads t l
  have hroles : (ch.goto t l).roles = ch.roles := by
    rw [roles_goto, h]
    exact update_eq_self t ch.roles
  have hthreads : (ch.goto t l).threads = update ch.threads t l := rfl
  have hlog : (ch.goto t l).log = ch.log := rfl
  rw [chanCost, chanCost, hroles, hthreads, hlog]
  omega

/-- A thread that wakes a sleeper when it goes on to `l`. -/
theorem callCost_signal {v : Condvar Local} (hv : ∀ x, v.asleep x = true → callCost (v.wake x) ≤ callCost x + 1)
    {threads f : Tid n → Local} {t : Tid n} {l : Local} {w : Option (Tid n)}
    (h : v.signal (update threads t l) w = some f) :
    ∑ i, callCost (f i) + callCost (threads t) ≤ ∑ i, callCost (threads i) + callCost l + 1 := by
  have h1 := sum_update callCost threads t l
  have h2 := v.sum_signal_le callCost hv h
  omega

/-- Every step of an open channel whose receiver is `Reducer` and which nobody closes. -/
theorem chanCost_step {ch ch' : Chan (Tid n)} {a : Act (Tid n)} {q q' : List CStr} (ho : ch.isopen = true)
    (hclose : ∀ t, ch.roles t ≠ .closing) (hcall : ∀ t c, a ≠ .call t c)
    (hrec : ∀ t, (ch.roles t = .receiving ∨ ∃ out, ch.roles t = .signalling out) → t = .reducer)
    (hsend : ∀ d, ch.roles .reducer ≠ .sending d) (hq : Delivers c ch.fifoQ ch.log q)
    (hq' : Delivers c ch'.fifoQ ch'.log q') (he : Channel.Effect ch a ch') :
    chanCost ch' + (!Turn.spurious (.chan a)).toNat ≤ chanCost ch + (Turn.spurious (.chan a)).toNat := by
  have notShut : ∀ {p : Prop}, ch.isopen = false → p := fun h => absurd (ho.symm.trans h) (by decide)
  have hle := delivered_le hq
  have hle' := delivered_le hq'
  have within : ∀ {t : Tid n} {l : Local}, l.role = (ch.threads t).role → callCost l + 1 ≤ callCost (ch.threads t) →
      chanCost (ch.goto t l) + 1 ≤ chanCost ch + 0 := by
    intro t l hrole hcost
    have := chanCost_goto hrole
    omega
  have woken : ∀ {t : Tid n} {l : Local}, l.role = (ch.threads t).role → callCost l ≤ callCost (ch.threads t) + 1 →
      chanCost (ch.goto t l) + 0 ≤ chanCost ch + 1 := by
    intro t l hrole hcost
    have := chanCost_goto hrole
    omega
  cases he with
  | call => exact absurd rfl (hcall _ _)
  | closeFirst ht | closeAgain ht => exact absurd (congrArg Local.role ht) (hclose _)
  | sendEarly _ hn | receiveEarly _ hn | sendClosed _ hn | receiveClosed _ hn => exact notShut hn
  | sendPass ht | receivePass ht => exact within (by rw [ht]; rfl) (by rw [ht]; rfl)
  | spuriousSend ht | spuriousReceive ht => exact woken (by rw [ht]; rfl) (by rw [ht]; rfl)
  | sendSleep hd => exact within hd.role.symm (by rw [callCost_sends hd]; rfl)
  | receiveSleep hd => exact within hd.role.symm (by rw [callCost_receives hd]; rfl)
  | @sendCommit t w d f hd _ _ hf =>
    have hsum := callCost_signal (fun x => (wake_callCost x).2) hf
    have hne : Tid.reducer ≠ t := fun heq => hsend d (heq ▸ hd.role)
    have hrole : (f .reducer).role = ch.roles .reducer := by
      have hroles := congrFun (roles_signal (fun l => (wake_role l).2) hf) .reducer
      rwa [update_of_ne hne] at hroles
    have hsent : sent (ch.log ++ [.send t d bufferSuccess (some (bufferAddQ ch.fifoQ d).2)]) =
        sent ch.log ++ [d.bytes] := sent_append _ _
    have hdel : delivered (ch.log ++ [.send t d bufferSuccess (some (bufferAddQ ch.fifoQ d).2)]) = delivered ch.log :=
      (delivered_append _ _).trans (List.append_nil _)
    show ∑ i, callCost (f i) + loopCost (f .reducer).role + 4 * ((sent (ch.log ++ [_])).length -
      (delivered (ch.log ++ [_])).length) + 1 ≤ chanCost ch + 0
    rw [callCost_sends hd, callCost_idle] at hsum
    rw [chanCost, hrole, hsent, hdel, List.length_append, List.length_singleton]
    omega
  | @receiveCommit t w d f hd _ _ hm hf =>
    have hsum := callCost_signal (fun x => (wake_callCost x).1) hf
    obtain rfl := hrec t (.inl hd.role)
    have hrole : (f .reducer).role = .idle (some (bufferSuccess, (bufferRemoveQ ch.fifoQ d).2.1)) := by
      have hroles := congrFun (roles_signal (fun l => (wake_role l).1) hf) .reducer
      rwa [update_self] at hroles
    have hsent : sent (ch.log ++ [.receive .reducer (bufferRemoveQ ch.fifoQ d).2.1 bufferSuccess
        (some (bufferRemoveQ ch.fifoQ d).2.2)]) = sent ch.log := (sent_append _ _).trans (List.append_nil _)
    have hdel : delivered (ch.log ++ [.receive .reducer (bufferRemoveQ ch.fifoQ d).2.1 bufferSuccess
        (some (bufferRemoveQ ch.fifoQ d).2.2)]) = delivered ch.log ++ [_] := delivered_append _ _
    have hwas : ch.roles .reducer = .receiving := hd.role
    show ∑ i, callCost (f i) + loopCost (f .reducer).role + 4 * ((sent (ch.log ++ [_])).length -
      (delivered (ch.log ++ [_])).length) + 1 ≤ chanCost ch + 0
    rw [callCost_receives hd, callCost_idle] at hsum
    rw [hsent, hdel, List.length_append, List.length_singleton] at hle'
    rw [chanCost, hrole, hwas, hsent, hdel, List.length_append, List.length_singleton]
    simp only [loopCost]
    omega
  | @receiveSpecial t w d hd _ _ hm =>
    have hsum := sum_update callCost ch.threads t (.receiveSignal (bufferRemoveQ ch.fifoQ d).2.1)
    obtain rfl := hrec t (.inl hd.role)
    have hrole : (update ch.threads .reducer (.receiveSignal (bufferRemoveQ ch.fifoQ d).2.1) .reducer).role =
        .signalling (bufferRemoveQ ch.fifoQ d).2.1 := by rw [update_self]; rfl
    have hsent : sent (ch.log ++ [.receive .reducer (bufferRemoveQ ch.fifoQ d).2.1 bufferSpecialMessage
        (some (bufferRemoveQ ch.fifoQ d).2.2)]) = sent ch.log := (sent_append _ _).trans (List.append_nil _)
    have hdel : delivered (ch.log ++ [.receive .reducer (bufferRemoveQ ch.fifoQ d).2.1 bufferSpecialMessage
        (some (bufferRemoveQ ch.fifoQ d).2.2)]) = delivered ch.log ++ [_] := delivered_append _ _
    have hwas : ch.roles .reducer = .receiving := hd.role
    show ∑ i, callCost (update ch.threads .reducer (.receiveSignal (bufferRemoveQ ch.fifoQ d).2.1) i) +
      loopCost (update ch.threads .reducer (.receiveSignal (bufferRemoveQ ch.fifoQ d).2.1) .reducer).role +
      4 * ((sent (ch.log ++ [_])).length - (delivered (ch.log ++ [_])).length) + 1 ≤ chanCost ch + 0
    rw [callCost_receives hd, callCost_receiveSignal] at hsum
    rw [hsent, hdel, List.length_append, List.length_singleton] at hle'
    rw [chanCost, hrole, hwas, hsent, hdel, List.length_append, List.length_singleton]
    simp only [loopCost]
    omega
  | @signal t w d f ht hf =>
    have hsum := callCost_signal (fun x => (wake_callCost x).1) hf
    obtain rfl := hrec t (.inr ⟨d, congrArg Local.role ht⟩)
    have hrole : (f .reducer).role = .idle (some (bufferSpecialMessage, d)) := by
      have hroles := congrFun (roles_signal (fun l => (wake_role l).1) hf) .reducer
      rwa [update_self] at hroles
    show ∑ i, callCost (f i) + loopCost (f .reducer).role + 4 * ((sent ch.log).length - (delivered ch.log).length) + 1 ≤
      chanCost ch + 0
    rw [ht, callCost_receiveSignal, callCost_idle] at hsum
    rw [chanCost, hrole]
    simp only [loopCost]
    omega

/-- An idle thread that makes a call. -/
theorem chanCost_call {ch : Chan (Tid n)} {t : Tid n} {r : Option (BufferStatus × List UInt8)} {l : Local}
    (ht : ch.threads t = .idle r) :
    chanCost (ch.goto t l) + loopCost (ch.roles .reducer) =
      chanCost ch + callCost l + loopCost ((ch.goto t l).roles .reducer) := by
  have hsum := sum_update callCost ch.threads t l
  rw [ht, callCost_idle] at hsum
  have hthreads : (ch.goto t l).threads = update ch.threads t l := rfl
  have hlog : (ch.goto t l).log = ch.log := rfl
  rw [chanCost, chanCost, hthreads, hlog]
  omega

theorem live_cost (hc : c ≤ intMax) (hp : Plain text) (h : Live c text s) (he : Effect s a s') :
    cost s' + (!a.spurious).toNat ≤ cost s + a.spurious.toNat := by
  cases he with
  | @word i r x rest hr ht hs =>
    have hchan := chanCost_call (l := .sendStart (wordKV x)) ht
    rw [roles_goto, update_of_ne (by simp)] at hchan
    have hwords := sum_update (fun file => 8 * (tokens file).length) s.tmp i rest
    have htok : tokens (s.tmp i) = x :: tokens rest := words_some (by decide) hs
    rw [htok, List.length_cons] at hwords
    show ∑ j, 8 * (tokens (update s.tmp i rest j)).length + _ + chanCost (s.chan.goto _ _) + _ + _ + 1 ≤ cost s + 0
    simp only [callCost, cost] at hchan ⊢
    omega
  | @wordsEnd i r hr ht hs =>
    have hret := sum_update (fun b : Bool => (!b).toNat) s.returned i true
    rw [hr] at hret
    show _ + ∑ j, (!update s.returned i true j).toNat + _ + _ + _ + 1 ≤ cost s + 0
    simp only [Bool.not_false, Bool.not_true, Bool.toNat_true, Bool.toNat_false, cost] at hret ⊢
    omega
  | @receive out hn ht =>
    have hchan := chanCost_call (l := .receiveStart out) ht
    rw [roles_goto, update_self, show s.chan.roles .reducer = .idle none from congrArg Local.role ht] at hchan
    show _ + _ + chanCost (s.chan.goto _ _) + _ + _ + 1 ≤ cost s + 0
    simp only [callCost, loopCost, Local.role, cost] at hchan ⊢
    omega
  | @reduce out e out' hn ht hparse =>
    have hchan := chanCost_call (l := .receiveStart out') ht
    rw [roles_goto, update_self,
      show s.chan.roles .reducer = .idle (some (bufferSuccess, out)) from congrArg Local.role ht] at hchan
    show _ + _ + chanCost (s.chan.goto _ _) + _ + _ + 1 ≤ cost s + 0
    simp only [callCost, loopCost, Local.role, cost] at hchan ⊢
    omega
  | walk hn =>
    show _ + _ + _ + 0 + _ + 1 ≤ cost s + 0
    simp only [cost, hn, Option.isNone_none, Bool.toNat_true]
    omega
  | joined hm ht =>
    have hchan := chanCost_call (l := .sendStart splmsg) ht
    rw [roles_goto, update_of_ne (by simp)] at hchan
    show _ + _ + chanCost (s.chan.goto _ _) + _ + mainCost .sending + 1 ≤ cost s + 0
    simp only [callCost, cost, hm, mainCost] at hchan ⊢
    omega
  | close _ _ hd =>
    rw [h.running] at hd
    cases hd
  | «return» hm =>
    rcases h.counting.pc with hpc | ⟨hpc, -⟩ <;> rw [hm] at hpc <;> cases hpc
  | chan hcall he =>
    obtain ⟨q, hq⟩ := h.queue
    obtain ⟨q', hq'⟩ := delivers_step hc hq (h.commitsSized hp _) he
    have hsend : ∀ d, s.chan.roles .reducer ≠ .sending d := by
      intro d hd
      have hplays := h.counting.plays .reducer
      rw [hd] at hplays
      cases hplays
    have hchan := chanCost_step h.isopen h.not_closing hcall (fun t => h.counting.receiver) hsend hq hq' he
    show _ + _ + chanCost _ + _ + _ + _ ≤ cost s + _
    simp only [cost]
    omega

/-! ## After the loop -/

theorem broadcast_idle {v : Condvar Local} {threads : Tid n → Local} (h : ∀ t, v.asleep (threads t) = false) :
    v.broadcast threads = threads := by
  funext t
  rw [Condvar.broadcast, if_neg (by rw [h t]; decide)]

/-- The main thread leaves `buffer_close`. -/
theorem Ended.closed (h : Ended s) (hmain : s.main = .closing) (ht : s.chan.threads .main = .closeLock)
    {ch : Chan (Tid n)} {r : BufferStatus × List UInt8} {st : BufferStatus}
    (hthreads : ch.threads = update s.chan.threads .main (.idle (some r)))
    (hlog : ch.log = s.chan.log ++ [.close .main st]) :
    Ended { s with chan := ch } ∧ cost { s with chan := ch } + 1 ≤ cost s + 0 := by
  have hself : ch.threads .main = .idle (some r) := by rw [hthreads, update_self]
  have hother : ∀ t, t ≠ .main → ch.threads t = s.chan.threads t := fun t hne => by rw [hthreads, update_of_ne hne]
  refine ⟨⟨h.walked, h.returned, fun t hne => ?_, .inr (.inl ⟨hmain, .inr ⟨some r, hself⟩⟩)⟩, ?_⟩
  · obtain ⟨r', hr'⟩ := h.idle t hne
    exact ⟨r', (hother t hne).trans hr'⟩
  · have hsum := sum_update callCost s.chan.threads .main (.idle (some r))
    rw [ht, callCost_idle, ← hthreads] at hsum
    have hrole : ch.roles .reducer = s.chan.roles .reducer := congrArg Local.role (hother .reducer (by simp))
    have hsent : sent ch.log = sent s.chan.log := by
      rw [hlog, sent_append]
      exact List.append_nil _
    have hdel : delivered ch.log = delivered s.chan.log := by
      rw [hlog, delivered_append]
      exact List.append_nil _
    have hchan : chanCost ch + 1 = chanCost s.chan := by
      rw [chanCost, chanCost, hrole, hsent, hdel, ← show callCost .closeLock = 1 from rfl]
      omega
    simp only [cost]
    omega

theorem ended_step (h : Ended s) (he : Effect s a s') :
    Ended s' ∧ cost s' + (!a.spurious).toNat ≤ cost s + a.spurious.toNat := by
  have walked : ∀ {p : Prop}, s.reducefile = none → p := fun hn => by
    have := h.walked
    rw [hn] at this
    cases this
  have mapped : ∀ {p : Prop} {i}, s.returned i = false → p := fun {p i} hn => by
    rw [h.returned i] at hn
    cases hn
  cases he with
  | word hn | wordsEnd hn => exact mapped hn
  | receive hn | reduce hn | walk hn => exact walked hn
  | joined hm => rcases h.main with ⟨hmain, -⟩ | ⟨hmain, -⟩ | ⟨hmain, -⟩ <;> rw [hm] at hmain <;> cases hmain
  | close hm ht =>
    have hchan := chanCost_call (l := .closeLock) ht
    rw [roles_goto, update_of_ne (by simp)] at hchan
    constructor
    · refine ⟨h.walked, h.returned, fun t hne => ?_, .inr (.inl ⟨rfl, .inl (by simp [Chan.goto])⟩)⟩
      obtain ⟨r', hr'⟩ := h.idle t hne
      exact ⟨r', (update_of_ne hne _ _).trans hr'⟩
    · show _ + _ + chanCost (s.chan.goto _ _) + _ + mainCost .closing + 1 ≤ cost s + 0
      simp only [callCost, cost, hm, mainCost] at hchan ⊢
      omega
  | «return» hm ht =>
    refine ⟨⟨h.walked, h.returned, h.idle, .inr (.inr ⟨rfl, _, ht⟩)⟩, ?_⟩
    show _ + _ + _ + _ + mainCost .returned + 1 ≤ cost s + 0
    simp only [cost, hm, mainCost]
    omega
  | @chan a ch hcall he =>
    -- the main thread in `buffer_close` is the only one in a call
    have main : ∀ {p : Prop} {t l}, s.chan.threads t = l → (∀ r, l ≠ .idle r) →
        (t = .main → l = .closeLock → s.main = .closing → p) → p := by
      intro p t l ht hl hk
      by_cases hne : t = .main
      · subst hne
        rcases h.main with ⟨-, r, hr⟩ | ⟨hm, hlock | ⟨r, hr⟩⟩ | ⟨-, r, hr⟩
        · exact absurd (ht.symm.trans hr) (hl r)
        · exact hk rfl (ht.symm.trans hlock) hm
        · exact absurd (ht.symm.trans hr) (hl r)
        · exact absurd (ht.symm.trans hr) (hl r)
      · obtain ⟨r, hr⟩ := h.idle t hne
        exact absurd (ht.symm.trans hr) (hl r)
    have asleep : ∀ t, chconsend.asleep (s.chan.threads t) = false ∧ chconrec.asleep (s.chan.threads t) = false := by
      intro t
      by_contra hn
      cases ht : s.chan.threads t <;> rw [ht] at hn <;> simp only [chconsend, chconrec, and_self, not_true] at hn
      all_goals exact main ht (by simp) (by simp)
    cases he with
    | call => exact absurd rfl (hcall _ _)
    | sendPass ht | sendEarly ht | receivePass ht | receiveEarly ht | spuriousSend ht | spuriousReceive ht =>
      exact main ht (by simp) (by simp)
    | signal ht => exact main ht (by simp) (by simp)
    | sendSleep hd | sendClosed hd | sendCommit hd | receiveSleep hd | receiveClosed hd | receiveCommit hd
      | receiveSpecial hd => rcases hd with ht | ht <;> exact main ht (by simp) (by simp)
    | closeFirst ht ho =>
      refine main ht (by simp) fun htm _ hm => ?_
      subst htm
      refine h.closed (r := (bufferSuccess, [])) hm ht ?_ rfl
      rw [broadcast_idle fun t => (asleep t).1, broadcast_idle fun t => (asleep t).2]
    | closeAgain ht ho =>
      refine main ht (by simp) fun htm _ hm => ?_
      subst htm
      exact h.closed hm ht rfl rfl

/-! ## Every run ends -/

/-- At the start, a step or more for each word. -/
theorem cost_start (text : List UInt8) (hn : 1 ≤ n) : cost (customEval n c text) = 8 * (tokens text).length + n + 17 := by
  have hcard : ∀ file : List UInt8, Multiset.card (messages file) = (tokens file).length := fun file => by
    rw [messages, Multiset.coe_card, List.length_map]
  have hwords : ∑ i, (tokens ((customEval n c text).tmp i)).length = (tokens text).length := by
    rw [← hcard text, ← unread_dividefile text hn, unread, Multiset.card_sum]
    exact Finset.sum_congr rfl fun i _ => (hcard _).symm
  have hcalls : ∑ t, callCost ((customEval n c text).chan.threads t) = 0 := Finset.sum_eq_zero fun _ _ => rfl
  have hret : ∑ i, (!(customEval n c text).returned i).toNat = n := by
    show ∑ _i : Fin n, 1 = n
    simp
  rw [cost, ← Finset.mul_sum, hwords, hret, chanCost, hcalls]
  show 8 * (tokens text).length + n + (0 + 5 + 4 * (0 - 0)) + 1 + 11 = _
  omega

theorem ends_step (hc : c ≤ intMax) (hp : Plain text) (hf : Fits c text) (h : Live c text s ∨ Ended s)
    (hs : step s a = some s') :
    (Live c text s' ∨ Ended s') ∧ cost s' + (!a.spurious).toNat ≤ cost s + a.spurious.toNat := by
  rcases h with h | h
  · exact ⟨live_keeps hc hp hf h (step_effect hs), live_cost hc hp h (step_effect hs)⟩
  · exact (ended_step h (step_effect hs)).imp .inr id

/-- `custom_eval` ends: a run of it takes at most 8 steps for each word, one for
each mapper, 17 more, and one for each spurious wake-up, which do not count; and
as long as the main thread has not returned, some step is possible. -/
theorem custom_eval_ends (hc : c ≤ intMax) (hn : 1 ≤ n) (hp : Plain text) (hf : Fits c text) {ls : List (Turn n)}
    (h : exec step (customEval n c text) ls = some s) :
    ls.countP (fun a => !a.spurious) ≤ 8 * (tokens text).length + n + 17 + ls.countP Turn.spurious ∧
      (s.main ≠ .returned → ∃ a s', a.spurious = false ∧ step s a = some s') := by
  have hstep := fun (s : Sys n) a s' => @ends_step n text c s s' a hc hp hf
  have hcost := exec_cost (fun s => Live c text s ∨ Ended s) cost Turn.spurious hstep h (.inl (live_start hn))
  rw [cost_start text hn] at hcost
  refine ⟨Nat.le_of_add_right_le hcost, fun hs => ?_⟩
  have hinv := Reach.inv (fun s => Live c text s ∨ Ended s) (fun s a s' hI _ hl => (hstep s a s' hI hl).1)
    (exec_reach (P := Any) h fun _ _ _ => trivial) (.inl (live_start hn))
  rcases hinv with hlive | hend
  · exact live_progress hp hlive
  · exact ended_progress hend hs

/-- `custom_eval_ends` where the one mapper sleeps in its second send. -/
theorem custom_eval_ends_asleep : ∃ s : Sys 1, exec step (customEval 1 12 threeWords) (oneMapper.take 7) = some s ∧
    s.main ≠ .returned ∧ 7 ≤ 8 * (tokens threeWords).length + 1 + 17 + 0 ∧
    ∃ a s', a.spurious = false ∧ step s a = some s' := by
  obtain ⟨s, hr, hd⟩ := (Option.any_eq_true _ _).1 (show (exec step (customEval 1 12 threeWords) (oneMapper.take 7)).any
    (fun s => decide (s.main ≠ .returned)) = true by decide +kernel)
  have hwords : tokens threeWords = [[98], [97], [66]] := by decide
  have hplain : Plain threeWords := ⟨by rw [hwords]; decide, by rw [hwords]; decide⟩
  have hfits : Fits 12 threeWords := ⟨by rw [hwords]; decide, by decide⟩
  have hends := custom_eval_ends (by decide) (by decide) hplain hfits hr
  exact ⟨s, hr, of_decide_eq_true hd, hends.1, hends.2 (of_decide_eq_true hd)⟩

end Cmpsc473.WordCount
