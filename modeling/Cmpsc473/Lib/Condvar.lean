import Mathlib
/-!
# Condition variables that wake one thread

Threads are a map `f : ι → α` from thread ids to local states. A `Condvar`
says which local states are asleep on it, what waking does to them, and which
states are *pending*: woken threads that have not run yet, and threads that
still owe the variable a signal.

Waking one thread for each unit of a resource is enough as long as no more
units are free than wake-ups are pending (`Covered`). The rules below say how
each kind of thread step moves the two sides.
-/

namespace Cmpsc473

open Function

variable {ι α : Type} [Fintype ι] [DecidableEq ι]

/-- A sum over the threads, after one of them moved. -/
theorem sum_update {M : Type} [AddCommMonoid M] (g : α → M) (f : ι → α) (t : ι) (v : α) :
    ∑ i, g (update f t v i) + g (f t) = ∑ i, g (f i) + g v := by
  have rest : ∑ i ∈ Finset.univ.erase t, g (update f t v i) = ∑ i ∈ Finset.univ.erase t, g (f i) :=
    Finset.sum_congr rfl fun i hi => by rw [update_of_ne (Finset.ne_of_mem_erase hi)]
  have split : ∀ h : ι → M, ∑ i, h i = ∑ i ∈ Finset.univ.erase t, h i + h t := fun h =>
    (Finset.sum_erase_add _ h (Finset.mem_univ t)).symm
  rw [split, split fun i => g (f i), rest, update_self, add_right_comm]

/-- How many threads are in a state that satisfies `p`. -/
def count (p : α → Bool) (f : ι → α) : Nat := (Finset.univ.filter fun i => p (f i) = true).card

theorem count_update (p : α → Bool) (f : ι → α) (t : ι) (v : α) :
    count p (update f t v) + (p (f t)).toNat = count p f + (p v).toNat := by
  have hcount : ∀ g : ι → α, count p g = ∑ i, (p (g i)).toNat := by
    intro g
    rw [count, Finset.card_filter]
    exact Finset.sum_congr rfl fun i _ => by cases p (g i) <;> rfl
  rw [hcount, hcount, sum_update fun x => (p x).toNat]

omit [DecidableEq ι] in
theorem count_eq_zero {p : α → Bool} {f : ι → α} (h : ∀ i, p (f i) = false) : count p f = 0 := by
  simp [count, h]

/-- A condition variable, seen from the local states of its threads. -/
structure Condvar (α : Type) where
  asleep : α → Bool
  pending : α → Bool
  wake : α → α
  wake_pending : ∀ x, asleep x = true → pending (wake x) = true
  wake_awake : ∀ x, asleep x = true → asleep (wake x) = false
  asleep_idle : ∀ x, asleep x = true → pending x = false

namespace Condvar

variable (c : Condvar α)

/-- Signal: wakes the sleeper `w`; with no sleeper it does nothing. -/
def signal (f : ι → α) : Option ι → Option (ι → α)
  | some u => if c.asleep (f u) then some (update f u (c.wake (f u))) else none
  | none => if ∃ i, c.asleep (f i) = true then none else some f

/-- Broadcast: wakes every sleeper. -/
def broadcast (f : ι → α) : ι → α := fun i => if c.asleep (f i) then c.wake (f i) else f i

theorem signal_cases {f g : ι → α} {w : Option ι} (h : c.signal f w = some g) :
    (∃ u, c.asleep (f u) = true ∧ g = update f u (c.wake (f u))) ∨ ((∀ i, c.asleep (f i) = false) ∧ g = f) := by
  cases w with
  | some u =>
    simp only [signal, Option.ite_none_right_eq_some, Option.some.injEq] at h
    exact .inl ⟨u, h.1, h.2.symm⟩
  | none =>
    simp only [signal, not_exists, Option.ite_none_left_eq_some, Option.some.injEq] at h
    exact .inr ⟨fun i => by simpa using h.1 i, h.2.symm⟩

/-- Some choice of the woken thread always exists. -/
theorem signal_possible (f : ι → α) : ∃ w g, c.signal f w = some g := by
  by_cases h : ∃ i, c.asleep (f i) = true
  · obtain ⟨i, hi⟩ := h
    exact ⟨some i, _, by simp [signal, hi]; rfl⟩
  · exact ⟨none, f, by simp [signal, h]⟩

omit [Fintype ι] [DecidableEq ι] in
theorem broadcast_awake (f : ι → α) (i : ι) : c.asleep (c.broadcast f i) = false := by
  unfold broadcast
  split
  · exact c.wake_awake _ ‹_›
  · rename_i h
    simpa using h

omit [Fintype ι] [DecidableEq ι] in
/-- What waking leaves alone, a broadcast leaves alone. -/
theorem broadcast_keeps {γ : Type} {obs : α → γ} (ho : ∀ x, obs (c.wake x) = obs x) (f : ι → α) (i : ι) :
    obs (c.broadcast f i) = obs (f i) := by
  unfold broadcast
  split
  · exact ho _
  · rfl

/-- What waking leaves alone, a signal leaves alone. -/
theorem signal_keeps {γ : Type} {obs : α → γ} (ho : ∀ x, obs (c.wake x) = obs x) {f g : ι → α} {w : Option ι}
    (h : c.signal f w = some g) (i : ι) : obs (g i) = obs (f i) := by
  rcases c.signal_cases h with ⟨u, -, rfl⟩ | ⟨-, rfl⟩
  · by_cases hi : i = u
    · subst hi; rw [update_self, ho]
    · rw [update_of_ne hi]
  · rfl

/-- If waking a thread costs no more than `k`, neither does a signal. -/
theorem sum_signal_le {k : Nat} (g : α → Nat) (hg : ∀ x, c.asleep x = true → g (c.wake x) ≤ g x + k) {f f' : ι → α}
    {w : Option ι} (h : c.signal f w = some f') : ∑ i, g (f' i) ≤ ∑ i, g (f i) + k := by
  rcases c.signal_cases h with ⟨u, hu, rfl⟩ | ⟨-, rfl⟩
  · have h1 := sum_update g f u (c.wake (f u))
    have h2 := hg _ hu
    omega
  · exact Nat.le_add_right _ _

/-- While somebody sleeps, at least `n` wake-ups are pending. -/
def Covered (f : ι → α) (n : Nat) : Prop := (∃ i, c.asleep (f i) = true) → n ≤ count c.pending f

variable {c} {f g : ι → α} {n : Nat} {t : ι} {v : α}

omit [DecidableEq ι] in
theorem Covered.mono {m : Nat} (h : c.Covered f n) (hm : m ≤ n) : c.Covered f m := fun hs => hm.trans (h hs)

omit [DecidableEq ι] in
theorem Covered.zero (f : ι → α) : c.Covered f 0 := fun _ => Nat.zero_le _

omit [Fintype ι] in
theorem sleeper_of_update (hv : c.asleep v = false) (h : ∃ i, c.asleep (update f t v i) = true) :
    ∃ i, c.asleep (f i) = true := by
  obtain ⟨i, hi⟩ := h
  by_cases hit : i = t
  · subst hit; rw [update_self, hv] at hi; cases hi
  · rw [update_of_ne hit] at hi; exact ⟨i, hi⟩

/-- A thread that owes no wake-up and does not fall asleep changes nothing. -/
theorem Covered.other (h : c.Covered f n) (ht : c.pending (f t) = false) (hv : c.asleep v = false) :
    c.Covered (update f t v) n := by
  intro hs
  have h1 := h (sleeper_of_update hv hs)
  have h2 := count_update c.pending f t v
  rw [ht] at h2
  simp only [Bool.toNat_false] at h2
  omega

/-- A thread that runs on uses up at most one pending wake-up. -/
theorem Covered.leave (h : c.Covered f n) (hv : c.asleep v = false) : c.Covered (update f t v) (n - 1) := by
  intro hs
  have h1 := h (sleeper_of_update hv hs)
  have h2 := count_update c.pending f t v
  have h3 := Bool.toNat_le (c.pending (f t))
  omega

/-- A thread that becomes pending covers one more unit. -/
theorem Covered.owe (h : c.Covered f n) (ht : c.pending (f t) = false) (hv : c.pending v = true)
    (ha : c.asleep v = false) : c.Covered (update f t v) (n + 1) := by
  intro hs
  have h1 := h (sleeper_of_update ha hs)
  have h2 := count_update c.pending f t v
  rw [ht, hv] at h2
  simp only [Bool.toNat_false, Bool.toNat_true] at h2
  omega

/-- A wake-up without a signal. -/
theorem Covered.spurious (h : c.Covered f n) (ht : c.asleep (f t) = true) :
    c.Covered (update f t (c.wake (f t))) n := by
  intro _
  have h1 := h ⟨t, ht⟩
  have h2 := count_update c.pending f t (c.wake (f t))
  rw [c.asleep_idle _ ht, c.wake_pending _ ht] at h2
  simp only [Bool.toNat_false, Bool.toNat_true] at h2
  omega

/-- A signal covers one more unit: either it wakes somebody or nobody sleeps. -/
theorem Covered.signal {w : Option ι} (h : c.Covered f n) (hg : c.signal f w = some g) : c.Covered g (n + 1) := by
  rcases c.signal_cases hg with ⟨u, hu, rfl⟩ | ⟨hn, rfl⟩
  · intro _
    have h1 := h ⟨u, hu⟩
    have h2 := count_update c.pending f u (c.wake (f u))
    rw [c.asleep_idle _ hu, c.wake_pending _ hu] at h2
    simp only [Bool.toNat_false, Bool.toNat_true] at h2
    omega
  · rintro ⟨i, hi⟩
    rw [hn i] at hi
    cases hi

/-- A signal on another variable, none of whose threads concern this one. -/
theorem Covered.frame {d : Condvar α} {w : Option ι} (h : c.Covered f n) (hg : d.signal f w = some g)
    (hd : ∀ x, d.asleep x = true → c.pending x = false ∧ c.asleep (d.wake x) = false) : c.Covered g n := by
  rcases d.signal_cases hg with ⟨u, hu, rfl⟩ | ⟨-, rfl⟩
  · exact h.other (hd _ hu).1 (hd _ hu).2
  · exact h

end Condvar

end Cmpsc473
