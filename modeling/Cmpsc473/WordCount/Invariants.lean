import Cmpsc473.WordCount.System
/-!
# Invariants of `custom_eval`

Until `Reducer` leaves its loop, no message is lost or doubled: those sent, those
in flight and those of the words not read yet are the messages of the text
(`Counting.balance`). `"splmsg"` is the last message sent (`Counting.special`),
and the tree holds the counts of the messages taken (`Counting.reduced`).
`counted_step` has one case for each effect.
-/

namespace Cmpsc473.WordCount

open Channel Function BufferStatus

variable {n : Nat} {text : List UInt8} {c : Int} {s s' : Sys n} {a : Turn n}

/-! ## Messages -/

/-- The messages of the words of a file. -/
def messages (file : List UInt8) : Multiset (List UInt8) := ((tokens file).map fun x => (wordKV x).bytes : List (List UInt8))

/-- The messages of the words that are not read yet. -/
def unread (tmp : Fin n → List UInt8) : Multiset (List UInt8) := ∑ i, messages (tmp i)

/-- The message a thread is sending. -/
def flight : Role → Multiset (List UInt8)
  | .sending d => {d.bytes}
  | _ => 0

@[simp] theorem flight_idle (r : Option (BufferStatus × List UInt8)) : flight (.idle r) = 0 := rfl

@[simp] theorem flight_sending (d : CStr) : flight (.sending d) = {d.bytes} := rfl

@[simp] theorem flight_receiving : flight .receiving = 0 := rfl

/-- The messages being sent. -/
def inFlight (roles : Tid n → Role) : Multiset (List UInt8) := ∑ t, flight (roles t)

/-- The message that `Reducer` received and did not count yet. -/
def held : Role → List (List UInt8)
  | .idle (some (bufferSuccess, out)) | .idle (some (bufferSpecialMessage, out)) | .signalling out => [cstr out]
  | _ => []

theorem inFlight_update (roles : Tid n → Role) (t : Tid n) (r : Role) :
    inFlight (update roles t r) + flight (roles t) = inFlight roles + flight r :=
  sum_update flight roles t r

theorem unread_scan (tmp : Fin n → List UInt8) {i : Fin n} {x rest : List UInt8}
    (h : scanWord 1023 (tmp i) = some (x, rest)) : unread (update tmp i rest) + {(wordKV x).bytes} = unread tmp := by
  have hsum := sum_update messages tmp i rest
  have hcons : messages (tmp i) = {(wordKV x).bytes} + messages rest := by
    simp only [messages, tokens, words_some (by decide : 0 < 1023) h, List.map_cons]
    rfl
  rw [hcons, ← add_assoc] at hsum
  exact add_right_cancel hsum

theorem messages_parts (parts : List (List UInt8)) :
    (parts.map messages).sum = (((parts.flatMap tokens).map fun x => (wordKV x).bytes : List (List UInt8)) : Multiset _) := by
  induction parts with
  | nil => rfl
  | cons part parts ih =>
    rw [List.map_cons, List.sum_cons, ih, List.flatMap_cons, List.map_append, ← Multiset.coe_add]
    rfl

/-- The parts have the messages of the text. -/
theorem unread_dividefile (text : List UInt8) (hn : 1 ≤ n) :
    unread (fun i : Fin n => (dividefile text n).getD i []) = messages text := by
  have hlen := length_dividefile text hn
  have hparts := messages_parts (dividefile text n)
  rw [words_dividefile text hn] at hparts
  change _ = messages text at hparts
  rw [← hparts]
  generalize dividefile text n = parts at hlen
  subst hlen
  rw [unread, ← Fin.sum_univ_getElem, ← Fin.sum_congr' _ (List.length_map messages)]
  refine Finset.sum_congr rfl fun i _ => ?_
  have hi : (i : Nat) < parts.length := by simpa using i.2
  simp [List.getElem?_eq_getElem hi]

/-! ## The invariant -/

/-- A mapper is idle or sends the message of a word of the text. -/
def MapperPlays (text : List UInt8) (returned : Bool) : Role → Prop
  | .idle _ => True
  | .sending d => returned = false ∧ ∃ x ∈ tokens text, d = wordKV x
  | _ => False

/-- `Reducer` receives, and `"splmsg"` is what the special status goes with. -/
def ReducerPlays : Role → Prop
  | .idle none => True
  | .idle (some (r, out)) =>
    (r = bufferSuccess ∧ cstr out ≠ splmsg.bytes) ∨ (r = bufferSpecialMessage ∧ cstr out = splmsg.bytes)
  | .receiving => True
  | .signalling out => cstr out = splmsg.bytes
  | _ => False

/-- The main thread is idle or sends `"splmsg"`. -/
def MainPlays (main : MainPc) : Role → Prop
  | .idle _ => True
  | .sending d => main = .sending ∧ d = splmsg
  | _ => False

/-- The roles of the threads until `Reducer` is through. -/
def Plays (text : List UInt8) (returned : Fin n → Bool) (main : MainPc) : Tid n → Role → Prop
  | .mapper i => MapperPlays text (returned i)
  | .reducer => ReducerPlays
  | .main => MainPlays main

/-- Nothing is lost and nothing doubled: what the callers' view of the channel,
the files and the tree have to do with the text. -/
structure Counting (text : List UInt8) (roles : Tid n → Role) (log : List (Event (Tid n))) (tmp : Fin n → List UInt8)
    (returned : Fin n → Bool) (main : MainPc) (root : Std.TreeMap CStr Int compar) : Prop where
  plays : ∀ t, Plays text returned main t (roles t)
  unreadWords : ∀ i, ∀ x ∈ tokens (tmp i), x ∈ tokens text
  ended : ∀ i, returned i = true → tokens (tmp i) = []
  pc : main = .joining ∨ main = .sending ∧ ∀ i, returned i = true
  balance : (sent log : Multiset (List UInt8)) + inFlight roles + unread tmp =
    messages text + if main = .joining then 0 else {splmsg.bytes}
  special : splmsg.bytes ∈ sent log →
    ∃ l : List (List UInt8), sent log = l ++ [splmsg.bytes] ∧ (l : Multiset (List UInt8)) = messages text
  reduced : ∃ taken, delivered log = taken ++ held (roles .reducer) ∧
    root = Tally.tally compar addInt (taken.filterMap decode)

/-- `Reducer` is in its loop. -/
structure Running (c : Int) (text : List UInt8) (s : Sys n) : Prop where
  running : s.reducefile = none
  isopen : s.chan.isopen = true
  queue : ∃ q, Delivers c s.chan.fifoQ s.chan.log q
  counting : Counting text s.chan.roles s.chan.log s.tmp s.returned s.main s.root

/-- `Reducer` wrote the counts of the messages of the text, taken in some order. -/
def Counted (text : List UInt8) (s : Sys n) : Prop :=
  ∃ taken : List (List UInt8), (taken : Multiset (List UInt8)) = messages text ∧
    s.reducefile = some ((Tally.tally compar addInt (taken.filterMap decode)).toList.flatMap line)

/-- No word becomes `"splmsg"`, and every message fits the 64 bytes of `wordKV`. -/
structure Plain (text : List UInt8) : Prop where
  notSpecial : ∀ x ∈ tokens text, reformatString x ≠ splmsg.bytes
  fits : ∀ x ∈ tokens text, (wordKV x).strlen < 64

theorem Plain.not_mem (h : Plain text) : splmsg.bytes ∉ messages text := by
  intro hm
  obtain ⟨x, hx, hb⟩ := List.mem_map.1 (Multiset.mem_coe.1 hm)
  rw [wordKV_bytes (h.notSpecial x hx)] at hb
  have h32 : (32 : UInt8) ∈ splmsg.bytes := by
    rw [← hb]
    simp
  exact absurd h32 (by decide)

theorem Plain.sized (h : Plain text) {x : List UInt8} (hx : x ∈ tokens text) : Sized (wordKV x) := by
  have := h.fits x hx
  simp only [Sized, intMax]
  omega

variable {roles : Tid n → Role} {log : List (Event (Tid n))} {tmp : Fin n → List UInt8} {returned : Fin n → Bool}
  {main : MainPc} {root : Std.TreeMap CStr Int compar} {r : Option (BufferStatus × List UInt8)}

theorem Plays.update (h : ∀ t, Plays text returned main t (roles t)) {t : Tid n} {r : Role}
    (hr : Plays text returned main t r) : ∀ u, Plays text returned main u (update roles t r u) := by
  intro u
  by_cases hu : u = t
  · subst hu; rw [update_self]; exact hr
  · rw [update_of_ne hu]; exact h u

/-! ## The steps of the threads -/

/-- A mapper reads a word and sends its message. -/
theorem Counting.word (h : Counting text roles log tmp returned main root) {i : Fin n} {x rest : List UInt8}
    (hr : returned i = false) (ht : roles (.mapper i) = .idle r) (hs : scanWord 1023 (tmp i) = some (x, rest)) :
    Counting text (update roles (.mapper i) (.sending (wordKV x))) log (update tmp i rest) returned main root := by
  have htok : tokens (tmp i) = x :: tokens rest := words_some (by decide) hs
  have hx : x ∈ tokens text := h.unreadWords i x (by rw [htok]; exact List.mem_cons_self)
  refine { h with plays := ?_, unreadWords := ?_, ended := ?_, balance := ?_, reduced := ?_ }
  · exact Plays.update h.plays ⟨hr, x, hx, rfl⟩
  · intro j y hy
    by_cases hj : j = i
    · subst hj
      rw [update_self] at hy
      exact h.unreadWords j y (by rw [htok]; exact List.mem_cons_of_mem _ hy)
    · rw [update_of_ne hj] at hy
      exact h.unreadWords j y hy
  · intro j hj
    have hne : j ≠ i := by
      rintro rfl
      rw [hr] at hj
      cases hj
    rw [update_of_ne hne]
    exact h.ended j hj
  · have h1 := inFlight_update roles (.mapper i) (.sending (wordKV x))
    rw [ht, flight_idle, add_zero, flight_sending] at h1
    rw [h1, ← h.balance, ← unread_scan tmp hs]
    abel
  · rw [update_of_ne (by simp)]
    exact h.reduced

/-- A mapper finds the end of its file. -/
theorem Counting.wordsEnd (h : Counting text roles log tmp returned main root) {i : Fin n}
    (ht : roles (.mapper i) = .idle r) (hs : scanWord 1023 (tmp i) = none) :
    Counting text roles log tmp (update returned i true) main root := by
  refine { h with plays := ?_, ended := ?_, pc := ?_ }
  · intro t
    have hp := h.plays t
    cases t with
    | mapper j =>
      by_cases hj : j = i
      · subst hj; rw [ht]; trivial
      · change MapperPlays text (update returned i true j) _
        rwa [update_of_ne hj]
    | reducer | main => exact hp
  · intro j hj
    by_cases hji : j = i
    · subst hji; exact words_none hs
    · rw [update_of_ne hji] at hj
      exact h.ended j hj
  · rcases h.pc with hm | ⟨hm, hall⟩
    · exact .inl hm
    · refine .inr ⟨hm, fun j => ?_⟩
      by_cases hj : j = i
      · subst hj; rw [update_self]
      · rw [update_of_ne hj]; exact hall j

/-- `Reducer` goes to receive, and holds no message any more. -/
theorem Counting.receiving (h : Counting text roles log tmp returned main root) (ht : roles .reducer = .idle r)
    {taken : List (List UInt8)} (hdel : delivered log = taken) :
    Counting text (update roles .reducer .receiving) log tmp returned main
      (Tally.tally compar addInt (taken.filterMap decode)) := by
  refine { h with plays := Plays.update h.plays trivial, balance := ?_, reduced := ⟨taken, ?_, rfl⟩ }
  · have h1 := inFlight_update roles .reducer .receiving
    rw [ht, flight_idle, add_zero, flight_receiving, add_zero] at h1
    rw [h1]
    exact h.balance
  · rw [update_self, hdel]
    exact (List.append_nil taken).symm

theorem Counting.receive (h : Counting text roles log tmp returned main root) (ht : roles .reducer = .idle none) :
    Counting text (update roles .reducer .receiving) log tmp returned main root := by
  obtain ⟨taken, hdel, rfl⟩ := h.reduced
  rw [ht] at hdel
  exact h.receiving ht (hdel.trans (List.append_nil taken))

/-- `Reducer` counts a message. -/
theorem Counting.reduce (h : Counting text roles log tmp returned main root) {out out' : List UInt8} {e : CStr × Int}
    (ht : roles .reducer = .idle (some (bufferSuccess, out))) (hp : parseKV out = some (e, out')) :
    Counting text (update roles .reducer .receiving) log tmp returned main
      (Tally.accumulate addInt root e.1 e.2) := by
  have hdec : decode (cstr out) = some e := by rw [decode_cstr, decode, hp]; rfl
  obtain ⟨taken, hdel, rfl⟩ := h.reduced
  rw [ht] at hdel
  have hrec := h.receiving ht hdel
  rw [held, List.filterMap_append, List.filterMap_cons_some hdec, List.filterMap_nil, Tally.tally_concat] at hrec
  exact hrec

/-- The mappers are joined, and the main thread sends `"splmsg"`. -/
theorem Counting.joined (h : Counting text roles log tmp returned .joining root) (ht : roles .main = .idle r)
    (hall : ∀ i, returned i = true) :
    Counting text (update roles .main (.sending splmsg)) log tmp returned .sending root := by
  refine { h with plays := ?_, pc := .inr ⟨rfl, hall⟩, balance := ?_, reduced := ?_ }
  · refine Plays.update (fun t => ?_) ⟨rfl, rfl⟩
    have hp := h.plays t
    cases t with
    | mapper | reducer => exact hp
    | main => rw [ht]; trivial
  · have h1 := inFlight_update roles .main (.sending splmsg)
    rw [ht, flight_idle, add_zero, flight_sending] at h1
    have h2 := h.balance
    rw [if_pos rfl, add_zero] at h2
    rw [h1, if_neg (by decide), ← h2]
    abel
  · rw [update_of_ne (by simp)]
    exact h.reduced

/-! ## The moves of the channel -/

/-- Once all mappers have returned, the main thread's message is the only one in
flight and every word is read. -/
theorem Counting.all_returned (h : Counting text roles log tmp returned main root) {d : CStr}
    (ht : roles .main = .sending d) (hall : ∀ i, returned i = true) : inFlight roles = {d.bytes} ∧ unread tmp = 0 := by
  constructor
  · have hothers : ∀ t ∈ Finset.univ, t ≠ Tid.main → flight (roles t) = 0 := by
      intro t _ hne
      have hp := h.plays t
      cases t with
      | mapper i =>
        change MapperPlays text (returned i) _ at hp
        rw [hall i] at hp
        cases hrole : roles (.mapper i) with
        | sending d => rw [hrole] at hp; cases hp.1
        | idle | receiving | signalling | closing => rfl
      | reducer =>
        change ReducerPlays _ at hp
        cases hrole : roles .reducer with
        | sending d => rw [hrole] at hp; cases hp
        | idle | receiving | signalling | closing => rfl
      | main => exact absurd rfl hne
    rw [inFlight, Finset.sum_eq_single Tid.main hothers (fun hn => absurd (Finset.mem_univ _) hn), ht, flight_sending]
  · exact Finset.sum_eq_zero fun i _ => by rw [messages, h.ended i (hall i)]; rfl

/-- While a mapper is sending, `"splmsg"` is not sent. -/
theorem Counting.not_special (h : Counting text roles log tmp returned main root) (hp : splmsg.bytes ∉ messages text)
    {i : Fin n} (hr : returned i = false) : splmsg.bytes ∉ sent log := by
  intro hm
  rcases h.pc with hpc | ⟨-, hall⟩
  -- before the join, what is sent is part of the text
  · have hb := h.balance
    rw [if_pos hpc, add_zero] at hb
    apply hp
    rw [← hb, Multiset.mem_add, Multiset.mem_add]
    exact .inl (.inl hm)
  · rw [hall i] at hr
    cases hr

/-- A message is put into the ring. -/
theorem Counting.sent (h : Counting text roles log tmp returned main root) (hp : splmsg.bytes ∉ messages text)
    {t : Tid n} {d : CStr} {q : Option BufferStatus} (ht : roles t = .sending d) :
    Counting text (update roles t (.idle r)) (log ++ [.send t d bufferSuccess q]) tmp returned main root := by
  have hplays := h.plays t
  rw [ht] at hplays
  have hsent : Channel.sent (log ++ [.send t d bufferSuccess q]) = Channel.sent log ++ [d.bytes] := sent_append _ _
  have hdel : delivered (log ++ [.send t d bufferSuccess q]) = delivered log := by
    rw [delivered_append]
    exact List.append_nil _
  have hne : t ≠ .reducer := by
    rintro rfl
    exact hplays
  refine { h with plays := Plays.update h.plays ?_, balance := ?_, special := ?_, reduced := ?_ }
  · cases t with
    | mapper | main => trivial
    | reducer => exact absurd rfl hne
  · have h1 := inFlight_update roles t (.idle r)
    rw [ht, flight_sending, flight_idle, add_zero] at h1
    rw [← h.balance, ← h1, hsent, ← Multiset.coe_add, Multiset.coe_singleton]
    abel
  · rw [hsent]
    intro hm
    cases t with
    | mapper i =>
      -- neither an earlier message nor this one is `"splmsg"`
      obtain ⟨hr, x, hx, rfl⟩ := hplays
      rcases List.mem_append.1 hm with hm | hm
      · exact absurd hm (h.not_special hp hr)
      · rw [List.mem_singleton] at hm
        refine absurd ?_ hp
        rw [hm]
        exact Multiset.mem_coe.2 (List.mem_map.2 ⟨x, hx, rfl⟩)
    | reducer => exact absurd rfl hne
    | main =>
      obtain ⟨hmain, rfl⟩ := hplays
      have hall : ∀ i, returned i = true := by
        rcases h.pc with hpc | ⟨-, hall⟩
        · rw [hmain] at hpc; cases hpc
        · exact hall
      -- every message of the text is sent when the main thread sends its own
      obtain ⟨hfl, hun⟩ := h.all_returned ht hall
      have hb := h.balance
      rw [hfl, hun, add_zero, if_neg (by rw [hmain]; decide)] at hb
      exact ⟨Channel.sent log, rfl, add_right_cancel hb⟩
  · rw [hdel, update_of_ne hne.symm]
    exact h.reduced

/-- A receiving thread is `Reducer`. -/
theorem Counting.receiver (h : Counting text roles log tmp returned main root) {t : Tid n}
    (ht : roles t = .receiving ∨ ∃ out, roles t = .signalling out) : t = .reducer := by
  have hp := h.plays t
  cases t with
  | reducer => rfl
  | mapper | main => rcases ht with ht | ⟨out, ht⟩ <;> rw [ht] at hp <;> cases hp

/-- `Reducer` moves on within its call or out of it, and holds what was delivered to it. -/
theorem Counting.deliver (h : Counting text roles log tmp returned main root) {role : Role} {log' : List (Event (Tid n))}
    (hplays : ReducerPlays role) (hfl : flight (roles .reducer) = flight role)
    (hs : Channel.sent log' = Channel.sent log)
    (hd : ∀ taken, delivered log = taken ++ held (roles .reducer) → delivered log' = taken ++ held role) :
    Counting text (update roles .reducer role) log' tmp returned main root := by
  obtain ⟨taken, hdel, hroot⟩ := h.reduced
  refine { h with plays := Plays.update h.plays hplays, balance := ?_, special := ?_, reduced := ⟨taken, ?_, hroot⟩ }
  · have h1 := inFlight_update roles .reducer role
    rw [hfl] at h1
    rw [hs, add_right_cancel h1]
    exact h.balance
  · rw [hs]
    exact h.special
  · rw [update_self]
    exact hd taken hdel

/-- A message is taken out of the ring, `"splmsg"` or another. -/
theorem Counting.received (h : Counting text roles log tmp returned main root) (ht : roles .reducer = .receiving)
    {role : Role} {st : BufferStatus} {data : List UInt8} {q : Option BufferStatus} (hplays : ReducerPlays role)
    (hrole : held role = [cstr data]) (hfl : flight role = 0) (hst : st = bufferSuccess ∨ st = bufferSpecialMessage) :
    Counting text (update roles .reducer role) (log ++ [.receive .reducer data st q]) tmp returned main root := by
  refine h.deliver hplays (by rw [ht, hfl, flight_receiving]) ?_ fun taken hdel => ?_
  · rw [sent_append]
    exact List.append_nil _
  · have hnil : held .receiving = [] := rfl
    rw [ht, hnil, List.append_nil] at hdel
    rw [delivered_append, hdel, hrole]
    rcases hst with rfl | rfl <;> rfl

/-- Every move of the channel. -/
theorem Counting.move {ch ch' : Chan (Tid n)} (h : Counting text ch.roles ch.log tmp returned main root)
    (hp : splmsg.bytes ∉ messages text) (hm : Move ch ch') :
    Counting text ch'.roles ch'.log tmp returned main root := by
  cases hm with
  | stay hr hl => rw [hr, hl]; exact h
  | sent ht hr hl => rw [hr, hl]; exact h.sent hp ht
  | received ht hne hr hl =>
    obtain rfl := h.receiver (.inl ht)
    rw [hr, hl]
    exact h.received ht (.inl ⟨rfl, hne⟩) rfl rfl (.inl rfl)
  | special ht heq hr hl =>
    obtain rfl := h.receiver (.inl ht)
    rw [hr, hl]
    exact h.received ht heq rfl rfl (.inr rfl)
  | @signalled t data ht hr hl =>
    obtain rfl := h.receiver (.inr ⟨_, ht⟩)
    have hplays := h.plays .reducer
    rw [ht] at hplays
    rw [hr, hl]
    refine h.deliver (.inr ⟨rfl, hplays⟩) (by rw [ht]; rfl) rfl fun taken hdel => ?_
    rw [hdel, ht]
    rfl

/-- When `Reducer` leaves its loop, it has taken all messages of the text. -/
theorem Counting.all_taken (h : Counting text roles log tmp returned main root) (hp : splmsg.bytes ∉ messages text)
    {q : List (List UInt8)} (hq : delivered log ++ q = Channel.sent log) {st : BufferStatus} {out : List UInt8}
    (ht : roles .reducer = .idle (some (st, out))) (hst : st ≠ bufferSuccess) :
    ∃ taken : List (List UInt8), (taken : Multiset (List UInt8)) = messages text ∧
      root = Tally.tally compar addInt (taken.filterMap decode) := by
  obtain ⟨taken, hdel, hroot⟩ := h.reduced
  have hplays := h.plays .reducer
  rw [ht] at hplays hdel
  obtain ⟨rfl, -⟩ | ⟨rfl, heq⟩ := hplays
  · exact absurd rfl hst
  · rw [held, heq] at hdel
    rw [hdel, List.append_assoc] at hq
    obtain ⟨l, hl, hall⟩ := h.special (by rw [← hq]; simp)
    refine ⟨taken, ?_, hroot⟩
    -- `"splmsg"` is the last message sent, and the last one delivered
    have hnot : splmsg.bytes ∉ l := by
      rw [← Multiset.mem_coe, hall]
      exact hp
    rw [hl] at hq
    rw [← hall]
    rcases List.eq_nil_or_concat q with rfl | ⟨q', m, rfl⟩
    · rw [List.append_nil] at hq
      rw [List.append_cancel_right hq]
    · refine absurd ?_ hnot
      rw [List.concat_eq_append, ← List.append_assoc, ← List.append_assoc] at hq
      rw [← (List.append_inj' hq rfl).1]
      simp

/-! ## Every step -/

theorem Running.commitsSized (h : Running c text s) (hp : Plain text) (a : Act (Tid n)) : CommitsSized s.chan a := by
  cases a with
  | call | test | signal | spurious => trivial
  | lock t w =>
    intro d hd _ _
    have hplays := h.counting.plays t
    have hrole : s.chan.roles t = .sending d := hd.role
    rw [hrole] at hplays
    cases t with
    | mapper i =>
      obtain ⟨-, x, hx, rfl⟩ := hplays
      exact hp.sized hx
    | reducer => cases hplays
    | main =>
      obtain ⟨-, rfl⟩ := hplays
      unfold Sized
      decide

/-- Every step keeps the count, or ends the loop of `Reducer` with the right one. -/
theorem running_step (hc : c ≤ intMax) (hp : Plain text) (h : Running c text s) (he : Effect s a s') :
    Running c text s' ∨ Counted text s' := by
  have role : ∀ {t : Tid n} {l : Local}, s.chan.threads t = l → s.chan.roles t = l.role := fun ht => congrArg Local.role ht
  cases he with
  | word hr ht hs =>
    refine .inl ⟨h.running, h.isopen, h.queue, ?_⟩
    rw [roles_goto]
    exact h.counting.word hr (role ht) hs
  | wordsEnd _ ht hs => exact .inl ⟨h.running, h.isopen, h.queue, h.counting.wordsEnd (role ht) hs⟩
  | receive _ ht =>
    refine .inl ⟨h.running, h.isopen, h.queue, ?_⟩
    rw [roles_goto]
    exact h.counting.receive (role ht)
  | reduce _ ht hparse =>
    refine .inl ⟨h.running, h.isopen, h.queue, ?_⟩
    rw [roles_goto]
    exact h.counting.reduce (role ht) hparse
  | walk _ ht hst =>
    obtain ⟨q, hq⟩ := h.queue
    obtain ⟨taken, hall, hroot⟩ := h.counting.all_taken hp.not_mem hq.order (role ht) hst
    exact .inr ⟨taken, hall, by rw [hroot]⟩
  | joined hm ht hall =>
    refine .inl ⟨h.running, h.isopen, h.queue, ?_⟩
    have hcount := h.counting
    rw [hm] at hcount
    rw [roles_goto]
    exact hcount.joined (role ht) hall
  | close _ _ hf =>
    rw [h.running] at hf
    cases hf
  | «return» hm =>
    rcases h.counting.pc with hpc | ⟨hpc, -⟩ <;> rw [hm] at hpc <;> cases hpc
  | chan ha he =>
    obtain ⟨q, hq⟩ := h.queue
    have hclosing : ∀ t, s.chan.roles t ≠ .closing := by
      intro t ht
      have hplays := h.counting.plays t
      rw [ht] at hplays
      cases t <;> cases hplays
    obtain ⟨hopen, hmove⟩ := move_of_effect h.isopen hclosing ha he
    exact .inl ⟨h.running, hopen, delivers_step hc hq (h.commitsSized hp _) he, h.counting.move hp.not_mem hmove⟩

/-- What `Reducer` wrote stays. -/
theorem counted_step (h : Counted text s) (he : Effect s a s') : Counted text s' := by
  obtain ⟨taken, hall, hf⟩ := h
  have done : ∀ {p : Prop}, s.reducefile = none → p := fun hn => by rw [hn] at hf; cases hf
  cases he with
  | receive hn | reduce hn | walk hn => exact done hn
  | word | wordsEnd | joined | close | «return» | chan => exact ⟨taken, hall, hf⟩

theorem running_start (text : List UInt8) (hn : 1 ≤ n) : Running c text (customEval n c text) := by
  refine ⟨rfl, rfl, ⟨[], delivers_init c⟩, ?_⟩
  refine ⟨?_, ?_, ?_, .inl rfl, ?_, ?_, ⟨[], rfl, rfl⟩⟩
  · intro t
    cases t <;> trivial
  · intro i x hx
    rw [← words_dividefile text hn]
    have hi : (i : Nat) < (dividefile text n).length := by rw [length_dividefile text hn]; exact i.2
    change x ∈ tokens ((dividefile text n).getD i []) at hx
    rw [List.getD_eq_getElem _ _ hi] at hx
    exact List.mem_flatMap.2 ⟨_, List.getElem_mem hi, hx⟩
  · intro i hi
    cases hi
  · have hfl : inFlight (customEval n c text).chan.roles = 0 := Finset.sum_eq_zero fun _ _ => rfl
    have hpc : (customEval n c text).main = .joining := rfl
    rw [hfl, if_pos hpc, add_zero, add_zero]
    change 0 + unread (fun i : Fin n => (dividefile text n).getD i []) = messages text
    rw [zero_add, unread_dividefile text hn]
  · intro hm
    cases hm

/-- Along every run. -/
theorem counted_reach (hc : c ≤ intMax) (hn : 1 ≤ n) (hp : Plain text)
    (h : Runs.Reach step Runs.Any (customEval n c text) s) : Running c text s ∨ Counted text s := by
  refine Runs.Reach.inv (fun s => Running c text s ∨ Counted text s) ?_ h (.inl (running_start text hn))
  rintro s a s' (hs | hs) - hl
  · exact running_step hc hp hs (step_effect hl)
  · exact .inr (counted_step hs (step_effect hl))

end Cmpsc473.WordCount
