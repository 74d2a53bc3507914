import Cmpsc473.Channel.Theorems
/-!
# A signal for the wrong sleeper

`buffer_receive` signals one sender. If of one message more fit an empty channel
than of another, three threads can lose a wake-up: the room that a receive makes
is enough for the small message, and the signal goes to the sender of the
large one, who sleeps again.
-/

namespace Cmpsc473.Channel

open BufferStatus Function Runs

variable {ι : Type} [Fintype ι] [DecidableEq ι] {c : Int} {s : Chan ι} {q : List CStr} {a b d e : CStr} {t u v : ι}

/-! ## The messages to fill the channel with -/

/-- Of two sizes, the smaller of which fits `n + 1` times and the larger one not,
so many can be taken that one more of the smaller size fits, but neither two of
it nor one of the larger size. -/
theorem exists_counts {A B C n : Nat} (hA : 0 < A) (hfits : (n + 1) * A ≤ C) (hfull : C < (n + 1) * B) :
    ∃ x y, A + (x * A + y * B) ≤ C ∧ C < A + (A + (x * A + y * B)) ∧ C < B + (x * A + y * B) := by
  -- of `n + 1`, `y` can be of the larger size, and not one more
  obtain ⟨y, hy, hy1⟩ := Nat.exists_not_and_succ_of_not_zero_of_exists (p := fun y => n < y ∨ C < y * B + (n + 1 - y) * A)
    (by simpa using hfits) ⟨n + 1, .inl n.lt_succ_self⟩
  rw [not_or, Nat.not_lt, Nat.not_lt] at hy
  obtain ⟨hyn, hyfits⟩ := hy
  obtain ⟨k, rfl⟩ := Nat.exists_eq_add_of_le hyn
  have hyfull : C < (y + 1) * B + k * A := by
    rcases hy1 with hlast | hlast
    · obtain rfl : k = 0 := by omega
      simpa using hfull
    · rwa [show y + k + 1 - (y + 1) = k by omega] at hlast
  rw [show y + k + 1 - y = k + 1 by omega] at hyfits
  -- and then as many of the smaller size as fit, less one
  have hk : k + 1 ≤ (C - y * B) / A := (Nat.le_div_iff_mul_le hA).2 (by omega)
  obtain ⟨x, hx⟩ := Nat.exists_eq_add_of_le' (Nat.one_le_iff_ne_zero.2 (by omega) : 1 ≤ (C - y * B) / A)
  have hxfits := Nat.div_mul_le_self (C - y * B) A
  have hxfull := Nat.lt_mul_div_succ (C - y * B) hA
  have hkx : k * A ≤ x * A := Nat.mul_le_mul_right _ (by omega)
  rw [hx] at hxfits hxfull
  rw [Nat.add_mul, Nat.one_mul] at hxfits hyfull
  rw [Nat.mul_comm A, Nat.add_mul, Nat.add_mul, Nat.one_mul] at hxfull
  refine ⟨x, y, ?_, ?_, ?_⟩ <;> omega

/-- Messages that leave room for `a` once, but neither for `a` twice nor for `b`. -/
theorem exists_fill (hlt : slots c b < slots c a) : ∃ q : List CStr, (∀ m ∈ q, m = a ∨ m = b) ∧
    (frameSize a + load q : Int) < c ∧ c ≤ frameSize a + (frameSize a + load q) ∧ c ≤ frameSize b + load q := by
  have hfits : (slots c b + 1) * frameSize a ≤ (c - 1).toNat :=
    (Nat.mul_le_mul_right _ hlt).trans (slots_le a)
  obtain ⟨x, y, hx, hxfull, hyfull⟩ := exists_counts (frameSize_pos a) hfits (lt_slots b)
  have hload : load (List.replicate x a ++ List.replicate y b) = x * frameSize a + y * frameSize b := by
    simp [load]
  refine ⟨List.replicate x a ++ List.replicate y b, fun m hm => ?_, ?_⟩
  · rcases List.mem_append.1 hm with hm | hm
    · exact .inl (List.eq_of_mem_replicate hm)
    · exact .inr (List.eq_of_mem_replicate hm)
  · have ha := frameSize_pos a
    rw [hload]
    generalize x * frameSize a + y * frameSize b = l at hx hxfull hyfull
    omega

/-! ## What one thread does -/

/-- An open channel whose ring holds `q`, in which nobody waits for a message. -/
structure Serving (c : Int) (s : Chan ι) (q : List CStr) : Prop where
  isopen : s.isopen = true
  delivers : Delivers c s.fifoQ s.log q
  receivers : ∀ i, chconrec.asleep (s.threads i) = false

omit [Fintype ι] [DecidableEq ι] in
theorem Serving.avail (h : Serving c s q) : fifoAvailSize s.fifoQ = c - load q := by
  rw [fifoAvailSize, h.delivers.holds.avil_load, h.delivers.size]

omit [Fintype ι] in
theorem update_keeps {p : Local → Bool} {x : Bool} {f : ι → Local} (h : ∀ i, p (f i) = x) {l : Local} (hl : p l = x)
    (t i : ι) : p (update f t l i) = x :=
  (forall_update_iff f fun _ l => p l = x).2 ⟨hl, fun i _ => h i⟩ i

omit [Fintype ι] in
theorem Serving.goto (h : Serving c s q) (t : ι) {l : Local} (hl : chconrec.asleep l = false) : Serving c (s.goto t l) q :=
  ⟨h.isopen, h.delivers, update_keeps h.receivers hl t⟩

/-- The critical section of a send that finds room. -/
theorem lock_commits (hc : c ≤ intMax) (h : Serving c s q) (hd : Sized d) (ht : (s.threads t).Sends d)
    (hroom : (frameSize d + load q : Int) < c) :
    ∃ s' r, step s (.lock t none) = some s' ∧ Serving c s' (q ++ [d]) ∧ s'.threads = update s.threads t (.idle r) := by
  have hfree : getMsgSize d < fifoAvailSize s.fifoQ := by
    rw [h.avail, getMsgSize_eq hd]
    omega
  have hawake := update_keeps h.receivers (l := .idle (some (bufferSuccess, d.mem))) rfl t
  have hwake : chconrec.signal (update s.threads t (.idle (some (bufferSuccess, d.mem)))) none =
      some (update s.threads t (.idle (some (bufferSuccess, d.mem)))) := by
    rw [Condvar.signal, if_neg]
    rintro ⟨i, hi⟩
    rw [hawake] at hi
    cases hi
  exact ⟨_, _, effect_step (.sendCommit ht h.isopen hfree hwake),
    ⟨h.isopen, h.delivers.commit_send hc hd hfree t, hawake⟩, rfl⟩

/-- The critical section of a send that finds no room. -/
theorem lock_sleeps (h : Serving c s q) (hd : Sized d) (ht : (s.threads t).Sends d)
    (hfull : c ≤ (frameSize d + load q : Int)) :
    ∃ s', step s (.lock t none) = some s' ∧ Serving c s' q ∧ s'.threads = update s.threads t (.sendAsleep d) := by
  have hfree : fifoAvailSize s.fifoQ ≤ getMsgSize d := by
    rw [h.avail, getMsgSize_eq hd]
    omega
  exact ⟨_, effect_step (.sendSleep ht h.isopen hfree), h.goto t rfl, rfl⟩

variable {G : CStr → Prop}

/-- The critical section of a receive that finds a message, and its signal for the sender `u`. -/
theorem lock_wakes (h : Serving c s (d :: q)) {out : List UInt8} (ht : s.threads t = .receiveLock out)
    (hu : s.threads u = .sendAsleep e) : ∃ s' r, Reach step (CallsMeet G) s s' ∧ Serving c s' q ∧
      s'.threads = update (update s.threads t (.idle r)) u (.sendWoken e) := by
  have hne : u ≠ t := by
    rintro rfl
    cases hu.symm.trans ht
  have hfull := h.delivers.holds.nonempty_iff.2 (List.cons_ne_nil d q)
  obtain ⟨m, q', hq, hstr, hdelivers⟩ := h.delivers.remove hfull out
  obtain ⟨rfl, rfl⟩ := List.cons.inj hq
  have hwake : ∀ r, chconsend.signal (update s.threads t (.idle r)) (some u) =
      some (update (update s.threads t (.idle r)) u (.sendWoken e)) := by
    intro r
    rw [Condvar.signal, update_of_ne hne, hu]
    rfl
  have hawake := fun r => update_keeps (update_keeps h.receivers (l := .idle r) rfl t) (l := .sendWoken e) rfl u
  by_cases hm : d.bytes = splmsg.bytes
  · -- the signal comes after the unlock
    obtain ⟨s1, out', h1, hopen, hs1, hthreads⟩ : ∃ s1 out', step s (.lock t none) = some s1 ∧ s1.isopen = true ∧
        Delivers c s1.fifoQ s1.log q ∧ s1.threads = update s.threads t (.receiveSignal out') :=
      ⟨_, _, effect_step (.receiveSpecial (.inl ht) h.isopen hfull (hstr.trans hm)), h.isopen,
        hdelivers t _ (.inr ⟨rfl, hm⟩), rfl⟩
    have hsignal : chconsend.signal (update s1.threads t (.idle (some (bufferSpecialMessage, out')))) (some u) =
        some (update (update s.threads t (.idle (some (bufferSpecialMessage, out')))) u (.sendWoken e)) := by
      rw [hthreads, update_idem]
      exact hwake _
    have h2 := effect_step (.signal (by rw [hthreads, update_self]) hsignal)
    refine ⟨_, _, Reach.tail (Reach.tail .refl ?_ h1) ?_ h2, ⟨hopen, hs1, hawake _⟩, rfl⟩
    · rintro _ _ ⟨⟩
    · rintro _ _ ⟨⟩
  · have h1 := effect_step (.receiveCommit (.inl ht) h.isopen hfull (fun hs => hm (hstr.symm.trans hs)) (hwake _))
    refine ⟨_, _, Reach.tail .refl ?_ h1, ⟨h.isopen, hdelivers t _ (.inl ⟨rfl, hm⟩), hawake _⟩, rfl⟩
    rintro _ _ ⟨⟩

/-- A thread enters `buffer_send` and comes to the lock. -/
theorem send_enters (h : Serving c s q) (hd : G d) {r} (ht : s.threads t = .idle r) :
    Reach step (CallsMeet G) s (s.goto t (.sendLock d)) := by
  have h1 : step s (.call t (.send d)) = some (s.goto t (.sendStart d)) := effect_step (.call ht)
  have h2 : step (s.goto t (.sendStart d)) (.test t) = some ((s.goto t (.sendStart d)).goto t (.sendLock d)) :=
    effect_step (.sendPass (update_self ..) h.isopen)
  have hreach := Reach.tail (Reach.tail (P := CallsMeet G) .refl ?_ h1) ?_ h2
  · rwa [Chan.goto, Chan.goto, update_idem] at hreach
  · rintro _ _ ⟨⟩
    exact hd
  · rintro _ _ ⟨⟩

/-- A thread enters `buffer_receive` and comes to the lock. -/
theorem receive_enters (h : Serving c s q) (out : List UInt8) {r} (ht : s.threads t = .idle r) :
    Reach step (CallsMeet G) s (s.goto t (.receiveLock out)) := by
  have h1 : step s (.call t (.receive out)) = some (s.goto t (.receiveStart out)) := effect_step (.call ht)
  have h2 : step (s.goto t (.receiveStart out)) (.test t) =
      some ((s.goto t (.receiveStart out)).goto t (.receiveLock out)) :=
    effect_step (.receivePass (update_self ..) h.isopen)
  have hreach := Reach.tail (Reach.tail (P := CallsMeet G) .refl ?_ h1) ?_ h2
  · rwa [Chan.goto, Chan.goto, update_idem] at hreach
  · rintro _ _ ⟨⟩
  · rintro _ _ ⟨⟩

/-- A thread sends messages as long as there is room. -/
theorem sends_return (hc : c ≤ intMax) (hG : ∀ d, G d → Sized d) (ms : List CStr) (hms : ∀ m ∈ ms, G m)
    (h : Serving c s q) (hroom : (load q + load ms : Int) < c) {r} (ht : s.threads t = .idle r) :
    ∃ s' r', Reach step (CallsMeet G) s s' ∧ Serving c s' (q ++ ms) ∧ s'.threads = update s.threads t (.idle r') := by
  induction ms generalizing s q r with
  | nil => exact ⟨s, r, .refl, by simpa using h, by rw [← ht, update_eq_self]⟩
  | cons m ms ih =>
    rw [load_cons] at hroom
    have hm := hms m List.mem_cons_self
    obtain ⟨s1, r1, h1, hs1, ht1⟩ := lock_commits hc (h.goto t (l := .sendLock m) rfl) (hG m hm) (.inl (update_self ..))
      (by push_cast at hroom; omega)
    obtain ⟨s', r', h2, hs', ht'⟩ := ih (fun x hx => hms x (List.mem_cons_of_mem _ hx)) hs1
      (by rw [load_append, load_cons, load_nil]; push_cast at hroom ⊢; omega) (by rw [ht1, update_self])
    refine ⟨s', r', ((send_enters h hm ht).tail ?_ h1).trans h2, ?_, ?_⟩
    · rintro _ _ ⟨⟩
    · rwa [List.append_assoc] at hs'
    · rw [ht', ht1, Chan.goto, update_idem, update_idem]

/-- A thread goes to sleep in a send. -/
theorem send_sleeps (hG : ∀ d, G d → Sized d) (h : Serving c s q) (hd : G d) (hfull : c ≤ (frameSize d + load q : Int))
    {r} (ht : s.threads t = .idle r) : ∃ s', Reach step (CallsMeet G) s s' ∧ Serving c s' q ∧
      s'.threads = update s.threads t (.sendAsleep d) := by
  obtain ⟨s', h1, hs', ht'⟩ := lock_sleeps (h.goto t (l := .sendLock d) rfl) (hG d hd) (.inl (update_self ..)) hfull
  refine ⟨s', (send_enters h hd ht).tail ?_ h1, hs', ?_⟩
  · rintro _ _ ⟨⟩
  · rw [ht', Chan.goto, update_idem]

/-- A thread receives the first message, which wakes the sender `u`. -/
theorem receive_wakes (h : Serving c s (d :: q)) (out : List UInt8) {r} (ht : s.threads t = .idle r)
    (hu : s.threads u = .sendAsleep e) : ∃ s' r', Reach step (CallsMeet G) s s' ∧ Serving c s' q ∧
      s'.threads = update (update s.threads t (.idle r')) u (.sendWoken e) := by
  have hne : u ≠ t := by
    rintro rfl
    cases hu.symm.trans ht
  obtain ⟨s', r', h1, hs', ht'⟩ := lock_wakes (h.goto t (l := .receiveLock out) rfl) (update_self ..)
    ((update_of_ne hne _ _).trans hu)
  refine ⟨s', r', (receive_enters h out ht).trans h1, hs', ?_⟩
  rw [ht', Chan.goto, update_idem]

/-! ## The run -/

/-- Thread `t` fills the channel, `u` goes to sleep with `b` and `v` with `a`,
`t` receives an `a` and wakes `u`, and `u` goes to sleep again. -/
theorem lostWakeup_of_lt (hc : c ≤ intMax) (ha : Sized a) (hb : Sized b) (hlt : slots c b < slots c a) (htu : t ≠ u)
    (htv : t ≠ v) (huv : u ≠ v) :
    ∃ s : Chan ι, Reach step (CallsMeet fun d => d = a ∨ d = b) (bufferCreate c) s ∧ LostWakeup s := by
  have hG : ∀ d, d = a ∨ d = b → Sized d := by
    rintro d (rfl | rfl)
    · exact ha
    · exact hb
  obtain ⟨q, hq, hfits, hfulla, hfullb⟩ := exists_fill hlt
  have h0 : Serving c (bufferCreate c : Chan ι) [] := ⟨rfl, delivers_init c, fun _ => rfl⟩
  obtain ⟨s1, r1, h1, hs1, ht1⟩ := sends_return (t := t) hc hG (a :: q) (List.forall_mem_cons.2 ⟨.inl rfl, hq⟩) h0
    (by rw [load_cons]; push_cast; simpa using hfits) rfl
  obtain ⟨s2, h2, hs2, ht2⟩ := send_sleeps (t := u) hG hs1 (d := b) (.inr rfl)
    (by rw [List.nil_append, load_cons]; push_cast; omega) (by rw [ht1, update_of_ne htu.symm]; rfl)
  obtain ⟨s3, h3, hs3, ht3⟩ := send_sleeps (t := v) hG hs2 (d := a) (.inl rfl)
    (by rw [List.nil_append, load_cons]; push_cast; omega)
    (by rw [ht2, update_of_ne huv.symm, ht1, update_of_ne htv.symm]; rfl)
  have hidle : s3.threads t = .idle r1 := by
    rw [ht3, update_of_ne htv, ht2, update_of_ne htu, ht1, update_self]
  have hasleep : s3.threads u = .sendAsleep b := by
    rw [ht3, update_of_ne huv, ht2, update_self]
  obtain ⟨s4, r4, h4, hs4, ht4⟩ := receive_wakes (G := fun d => d = a ∨ d = b) hs3 (List.replicate a.mem.length 0) hidle
    hasleep
  obtain ⟨s5, h5, hs5, ht5⟩ := lock_sleeps hs4 hb (.inr (by rw [ht4, update_self])) hfullb
  rw [ht4, update_idem] at ht5
  have hav : s5.threads v = .sendAsleep a := by
    rw [ht5, update_of_ne huv.symm, update_of_ne htv.symm, ht3, update_self]
  refine ⟨s5, Reach.tail (((h1.trans h2).trans h3).trans h4) ?_ h5, hs5.isopen, ?_, v, a, hav, ?_⟩
  · rintro _ _ ⟨⟩
  · intro i
    rw [ht5, ht3, ht2, ht1]
    have hidle := update_keeps (p := Local.blocked) (f := (bufferCreate c).threads) (l := .idle r1) (fun _ => rfl) rfl t
    exact update_keeps (update_keeps (update_keeps (update_keeps hidle rfl u) rfl v) rfl t) rfl u i
  · rw [hs5.avail, getMsgSize_eq ha]
    omega

/-- Two messages of which not equally many fit an empty channel lose a wake-up in
some run of any three threads. -/
theorem lostWakeup_of_slots (hc : c ≤ intMax) (ha : Sized a) (hb : Sized b) (hne : slots c a ≠ slots c b) (htu : t ≠ u)
    (htv : t ≠ v) (huv : u ≠ v) :
    ∃ s : Chan ι, Reach step (CallsMeet fun d => d = a ∨ d = b) (bufferCreate c) s ∧ LostWakeup s := by
  rcases Nat.lt_or_gt_of_ne hne with hlt | hlt
  · simpa only [or_comm] using lostWakeup_of_lt hc hb ha hlt htu htv huv
  · exact lostWakeup_of_lt hc ha hb hlt htu htv huv

end Cmpsc473.Channel
