import Cmpsc473.Lib.KBest
import Mathlib.Tactic
/-!
# The sampler that times the allocator

`fsec` and `fcyc` time a function again and again, keep the `kbest` shortest times
in an array sorted by insertion, and stop when these agree or after `maxsamples`
times. A time is any value that compares as the `double`s above `0.0` do, and the
comparison within `epsilon` is a parameter.
-/

namespace Cmpsc473.Malloc

open KBest

variable {α : Type} [LinearOrder α] [Zero α]

/-- `values` and `samplecount`. -/
structure Sampler (α : Type) where
  values : List α
  samplecount : Nat
deriving DecidableEq, Repr

/-- `init_sampler`, where `calloc` leaves zeros. -/
def initSampler (kbest : Nat) : Sampler α := { values := List.replicate kbest 0, samplecount := 0 }

/-- `values[pos] = val`. -/
def assign (values : List α) (pos : Nat) (val : α) : Option (List α) :=
  if pos < values.length then some (values.set pos val) else none

/-- The insertion sort of `add_sample`, from `pos` down. -/
def insertionSort : Nat → List α → Option (List α)
  | 0, values => some values
  | pos + 1, values => do
    let temp ← values[pos]?
    let val ← values[pos + 1]?
    if val < temp then
      let values ← assign values pos val
      let values ← assign values (pos + 1) temp
      insertionSort pos values
    else
      return values

/-- `add_sample`. -/
def addSample (kbest : Nat) (val : α) (s : Sampler α) : Option (Sampler α) := do
  let (pos, values) ←
    if s.samplecount < kbest then do
      let values ← assign s.values s.samplecount val
      pure (s.samplecount, values)
    else do
      let last ← s.values[kbest - 1]?
      if val < last then
        let values ← assign s.values (kbest - 1) val
        pure (kbest - 1, values)
      else
        pure (0, s.values)
  let values ← insertionSort pos values
  return { values, samplecount := s.samplecount + 1 }

/-- `has_converged`; `near` is `(1 + epsilon) * values[0] >= values[kbest-1]`. -/
def hasConverged (near : α → α → Bool) (kbest : Nat) (s : Sampler α) : Option Bool :=
  if kbest ≤ s.samplecount then do
    let first ← s.values[0]?
    let last ← s.values[kbest - 1]?
    return near first last
  else
    some false

/-- `if (sec > 0.0) add_sample(sec);`. -/
def addPositive (kbest : Nat) (val : α) (s : Sampler α) : Option (Sampler α) :=
  if 0 < val then addSample kbest val s else some s

/-- The `do` loop of `fcyc` and `fsec`; `time i` is the time of a call in the `i`-th round. -/
def sampleLoop (near : α → α → Bool) (kbest maxsamples : Nat) (time : Nat → α) : Nat → Nat → Sampler α → Option (Sampler α)
  | 0, _, _ => none
  | fuel + 1, i, s => do
    let s ← addPositive kbest (time i) s
    let converged ← hasConverged near kbest s
    if !converged && s.samplecount < maxsamples then
      sampleLoop near kbest maxsamples time fuel (i + 1) s
    else
      return s

/-- What `fcyc` and `fsec` do once they know how often to call the function in a round. -/
def bestTime (near : α → α → Bool) (kbest maxsamples : Nat) (time : Nat → α) (fuel : Nat) : Option α := do
  let s ← sampleLoop near kbest maxsamples time fuel 0 (initSampler kbest)
  s.values[0]?

/-- `fcyc`. -/
def fcyc (near : α → α → Bool) (kbest maxsamples : Nat) (cyc : Nat → α) (fuel : Nat) : Option α :=
  bestTime near kbest maxsamples cyc fuel

/-- `fsec`. -/
def fsec (near : α → α → Bool) (kbest maxsamples : Nat) (sec : Nat → α) (fuel : Nat) : Option α :=
  bestTime near kbest maxsamples sec fuel

/-! ## What the sampler is for -/

/-- The samples of the first rounds, the latest one first. -/
def samples (time : Nat → α) : Nat → List α
  | 0 => []
  | i + 1 => if 0 < time i then time i :: samples time i else samples time i

/-- There are `kbest` samples, and the best of them is near the last of the `kbest` best. -/
def Converged (near : α → α → Bool) (kbest : Nat) (l : List α) : Prop :=
  ∃ first last, (kBest kbest l)[0]? = some first ∧ (kBest kbest l)[kbest - 1]? = some last ∧ near first last

/-- The loop ends at these samples. -/
def Enough (near : α → α → Bool) (kbest maxsamples : Nat) (l : List α) : Prop :=
  Converged near kbest l ∨ maxsamples ≤ l.length

/-- The array holds the best of the samples `l`, and zeros after them. -/
structure Best (kbest : Nat) (l : List α) (s : Sampler α) : Prop where
  values : s.values = kBest kbest l ++ List.replicate (kbest - l.length) 0
  samplecount : s.samplecount = l.length

variable {near : α → α → Bool} {kbest maxsamples fuel i m n : Nat} {time : Nat → α} {s : Sampler α} {l p r : List α}
  {x y : α}

/-! ## One sample -/

omit [LinearOrder α] [Zero α] in
theorem assign_append : assign (p ++ y :: r) p.length x = some (p ++ x :: r) := by
  simp [assign]

omit [Zero α] in
theorem insertionSort_succ : insertionSort (p.length + 1) (p ++ y :: x :: r) =
    if x < y then insertionSort p.length (p ++ x :: y :: r) else some (p ++ y :: x :: r) := by
  have htemp : (p ++ y :: x :: r)[p.length]? = some y := by simp
  have hval : (p ++ y :: x :: r)[p.length + 1]? = some x := by simp
  have hset : assign (p ++ x :: x :: r) (p.length + 1) y = some (p ++ x :: y :: r) := by
    simpa using assign_append (p := p ++ [x]) (x := y) (y := x) (r := r)
  rw [insertionSort, htemp, hval]
  by_cases hxy : x < y
  · simp [hxy, assign_append, hset]
  · simp [hxy]

omit [Zero α] in
/-- The loop inserts the value at `p.length` into the sorted values below it. -/
theorem insertionSort_append (hp : p.Pairwise (· ≤ ·)) :
    insertionSort p.length (p ++ x :: r) = some (p.orderedInsert (· ≤ ·) x ++ r) := by
  induction p using List.reverseRecOn generalizing r with
  | nil => rfl
  | append_singleton p y ih =>
    have hp' := (List.pairwise_append.1 hp).1
    rw [List.length_append, List.length_singleton, List.append_assoc, List.singleton_append, insertionSort_succ]
    by_cases hxy : x < y
    · rw [if_pos hxy, ih hp', orderedInsert_concat hxy.le, List.append_assoc, List.singleton_append]
    · rw [if_neg hxy, orderedInsert_last hp (not_lt.1 hxy)]
      simp

omit [Zero α] in
/-- A sample for which there is still room. -/
theorem addSample_room {c : Nat} (hp : p.Pairwise (· ≤ ·)) (hlen : p.length = c) (hc : c < kbest) :
    addSample kbest x ⟨p ++ y :: r, c⟩ = some ⟨p.orderedInsert (· ≤ ·) x ++ r, c + 1⟩ := by
  subst hlen
  simp [addSample, hc, assign_append, insertionSort_append hp]

omit [Zero α] in
/-- A sample when the array is full. -/
theorem addSample_full {c : Nat} (hp : (p ++ [y]).Pairwise (· ≤ ·)) (hc : p.length < c) :
    addSample (p.length + 1) x ⟨p ++ [y], c⟩ =
      some ⟨((p ++ [y]).orderedInsert (· ≤ ·) x).take (p.length + 1), c + 1⟩ := by
  have hp' := (List.pairwise_append.1 hp).1
  have hfull : ¬c < p.length + 1 := by omega
  have hlast : (p ++ [y])[p.length]? = some y := by simp
  by_cases hxy : x < y
  · have hkept : (p.orderedInsert (· ≤ ·) x).length = p.length + 1 := List.orderedInsert_length ..
    rw [orderedInsert_concat hxy.le, List.take_left' hkept]
    have hsort := insertionSort_append (x := x) (r := []) hp'
    rw [List.append_nil] at hsort
    simp [addSample, hfull, hxy, assign_append, hsort]
  · rw [orderedInsert_last hp (not_lt.1 hxy), List.take_left' (by simp)]
    simp [addSample, hfull, hxy, insertionSort]

theorem best_init : Best kbest [] (initSampler kbest : Sampler α) := ⟨by simp [initSampler], rfl⟩

/-- `add_sample` keeps the best of the samples. -/
theorem Best.add (hb : Best kbest l s) (hk : 0 < kbest) :
    ∃ s', addSample kbest x s = some s' ∧ Best kbest (x :: l) s' := by
  obtain ⟨values, c⟩ := s
  obtain ⟨rfl, rfl⟩ : values = _ ∧ c = _ := ⟨hb.values, hb.samplecount⟩
  have hsorted := pairwise_kBest (k := kbest) (l := l)
  by_cases hroom : l.length < kbest
  · have hlen : (kBest kbest l).length = l.length := by
      rw [length_kBest, min_eq_right hroom.le]
    have hzeros : List.replicate (kbest - l.length) (0 : α) = 0 :: List.replicate (kbest - (x :: l).length) 0 := by
      rw [← List.replicate_succ, List.length_cons]
      congr 1
      omega
    refine ⟨_, hzeros ▸ addSample_room hsorted hlen hroom, ?_, by simp⟩
    rw [kBest_cons, List.take_of_length_le]
    rw [List.orderedInsert_length, hlen]
    exact hroom
  · have hlen : (kBest kbest l).length = kbest := by
      rw [length_kBest, min_eq_left (not_lt.1 hroom)]
    obtain ⟨p, y, hp⟩ : ∃ p y, kBest kbest l = p ++ [y] := by
      rcases List.eq_nil_or_concat' (kBest kbest l) with hnil | hp
      · rw [hnil, List.length_nil] at hlen
        omega
      · exact hp
    obtain rfl : kbest = p.length + 1 := by
      rw [← hlen, hp, List.length_append, List.length_singleton]
    have hzeros : ∀ n, p.length < n → List.replicate (p.length + 1 - n) (0 : α) = [] := by
      intro n hn
      rw [Nat.sub_eq_zero_of_le hn, List.replicate_zero]
    rw [hzeros _ (not_lt.1 hroom), List.append_nil, hp]
    refine ⟨_, addSample_full (hp ▸ hsorted) (by omega), ?_, by simp⟩
    rw [hzeros _ (by simp; omega), List.append_nil, kBest_cons, hp]

/-! ## The loop -/

theorem Best.get (hb : Best kbest l s) (hi : i < kbest) (hl : i < l.length) : s.values[i]? = (kBest kbest l)[i]? := by
  rw [hb.values, List.getElem?_append_left]
  rw [length_kBest]
  omega

/-- What `has_converged` says. -/
theorem Best.hasConverged (hb : Best kbest l s) (hk : 0 < kbest) :
    ∃ b, hasConverged near kbest s = some b ∧ (b = true ↔ Converged near kbest l) := by
  rw [Malloc.hasConverged, hb.samplecount]
  by_cases hle : kbest ≤ l.length
  · have hlen : (kBest kbest l).length = kbest := by
      rw [length_kBest, min_eq_left hle]
    obtain ⟨first, hfirst⟩ : ∃ first, (kBest kbest l)[0]? = some first := ⟨_, List.getElem?_eq_getElem (by omega)⟩
    obtain ⟨last, hlast⟩ : ∃ last, (kBest kbest l)[kbest - 1]? = some last :=
      ⟨_, List.getElem?_eq_getElem (by omega)⟩
    rw [if_pos hle, hb.get hk (by omega), hb.get (by omega) (by omega), hfirst, hlast]
    refine ⟨near first last, rfl, fun hnear => ⟨first, last, hfirst, hlast, hnear⟩, ?_⟩
    rintro ⟨first', last', hfirst', hlast', hnear⟩
    rw [hfirst] at hfirst'
    rw [hlast] at hlast'
    cases hfirst'
    cases hlast'
    exact hnear
  · refine ⟨false, if_neg hle, Bool.noConfusion, ?_⟩
    rintro ⟨-, last, -, hlast, -⟩
    have hlt := (List.getElem?_eq_some_iff.1 hlast).1
    rw [length_kBest] at hlt
    omega

theorem Best.first (hb : Best kbest l s) (hk : 0 < kbest) (hl : 0 < l.length) :
    ∃ x, s.values[0]? = some x ∧ IsLeast {y | y ∈ l} x := by
  have hlen : 0 < (kBest kbest l).length := by
    rw [length_kBest]
    omega
  refine ⟨(kBest kbest l)[0], ?_, isLeast_kBest (List.getElem?_eq_getElem hlen)⟩
  rw [hb.get hk hl, List.getElem?_eq_getElem hlen]

/-- One round. -/
theorem Best.round (hb : Best kbest (samples time i) s) (hk : 0 < kbest) :
    ∃ s', addPositive kbest (time i) s = some s' ∧ Best kbest (samples time (i + 1)) s' := by
  by_cases hpos : 0 < time i
  · rw [addPositive, if_pos hpos, samples, if_pos hpos]
    exact hb.add hk
  · rw [addPositive, if_neg hpos, samples, if_neg hpos]
    exact ⟨s, rfl, hb⟩

/-- The loop returns after the first round that leaves enough samples. -/
theorem sampleLoop_returns (hb : Best kbest (samples time i) s) (hk : 0 < kbest) (him : i < m) (hm : m ≤ i + fuel)
    (hfirst : ∀ j, i < j → j < m → ¬Enough near kbest maxsamples (samples time j))
    (henough : Enough near kbest maxsamples (samples time m)) :
    ∃ s', sampleLoop near kbest maxsamples time fuel i s = some s' ∧ Best kbest (samples time m) s' := by
  induction fuel generalizing i s with
  | zero => omega
  | succ fuel ih =>
    obtain ⟨s1, hs1, hb1⟩ := hb.round hk
    obtain ⟨b, hconv, hiff⟩ : ∃ b, hasConverged near kbest s1 = some b ∧ _ := hb1.hasConverged hk
    have hround : sampleLoop near kbest maxsamples time (fuel + 1) i s =
        if !b && s1.samplecount < maxsamples then sampleLoop near kbest maxsamples time fuel (i + 1) s1
        else some s1 := by
      rw [sampleLoop, hs1, Option.bind_eq_bind, Option.bind_some, hconv]
      rfl
    have hends : (!b && decide (s1.samplecount < maxsamples)) = true ↔
        ¬Enough near kbest maxsamples (samples time (i + 1)) := by
      rw [Enough, ← hiff, hb1.samplecount]
      simp
    rw [hround]
    rcases Nat.lt_or_eq_of_le (show i + 1 ≤ m from him) with hlt | rfl
    · rw [if_pos (hends.2 (hfirst _ (Nat.lt_succ_self i) hlt))]
      exact ih hb1 hlt (by omega) fun j hj => hfirst j (by omega)
    · rw [if_neg (fun h => hends.1 h henough)]
      exact ⟨s1, rfl, hb1⟩

theorem length_samples_succ : (samples time (i + 1)).length ≤ (samples time i).length + 1 := by
  rw [samples]
  split <;> simp

omit [Zero α] in
theorem Enough.length_pos (he : Enough near kbest maxsamples l) (hk : 0 < kbest) (hmax : 0 < maxsamples) :
    0 < l.length := by
  rcases he with ⟨-, last, -, hlast, -⟩ | hle
  · have hlt := (List.getElem?_eq_some_iff.1 hlast).1
    rw [length_kBest] at hlt
    omega
  · omega

/-- `fsec` returns the shortest of the samples of the first rounds that leave enough of them. -/
theorem fsec_best (hk : 0 < kbest) (hmax : 0 < maxsamples) (hn : maxsamples ≤ (samples time n).length) :
    ∃ m ≤ n, Enough near kbest maxsamples (samples time m) ∧
      (∀ j, 0 < j → j < m → ¬Enough near kbest maxsamples (samples time j)) ∧
      (samples time m).length ≤ maxsamples ∧
      ∃ best, fsec near kbest maxsamples time n = some best ∧ IsLeast {y | y ∈ samples time m} best := by
  classical
  have hn0 : 0 < n := by
    apply Nat.pos_of_ne_zero
    rintro rfl
    rw [samples, List.length_nil] at hn
    omega
  have hex : ∃ m, 0 < m ∧ Enough near kbest maxsamples (samples time m) := ⟨n, hn0, .inr hn⟩
  have hle : Nat.find hex ≤ n := Nat.find_min' hex ⟨hn0, .inr hn⟩
  obtain ⟨hm0, henough⟩ := Nat.find_spec hex
  have hmin : ∀ j, 0 < j → j < Nat.find hex → ¬Enough near kbest maxsamples (samples time j) :=
    fun j hj hlt he => Nat.find_min hex hlt ⟨hj, he⟩
  generalize Nat.find hex = m at hle hm0 henough hmin
  have hlength : (samples time m).length ≤ maxsamples := by
    obtain ⟨j, rfl⟩ : ∃ j, m = j + 1 := ⟨m - 1, by omega⟩
    have hstep : (samples time (j + 1)).length ≤ (samples time j).length + 1 := length_samples_succ
    rcases j.eq_zero_or_pos with rfl | hj
    · rw [samples, List.length_nil] at hstep
      omega
    · have hbelow : ¬maxsamples ≤ (samples time j).length := fun h => hmin j hj (Nat.lt_succ_self j) (.inr h)
      omega
  have hinit : Best kbest (samples time 0) (initSampler kbest) := best_init
  have hfuel : m ≤ 0 + n := by omega
  obtain ⟨s, hs, hb⟩ := sampleLoop_returns hinit hk hm0 hfuel hmin henough
  obtain ⟨best, hbest, hleast⟩ := hb.first hk (henough.length_pos hk hmax)
  refine ⟨m, hle, henough, hmin, hlength, best, ?_, hleast⟩
  rw [fsec, bestTime, hs]
  exact hbest

/-- Times near `1000` that come closer to it, and every fourth one too short to be measured. -/
def settlingTimes (i : Nat) : Nat := if i % 4 = 1 then 0 else 1000 + 300 / (i + 1)

/-- `fsec_best` with the default values, where `epsilon` is `0.01`. -/
theorem fsec_best_settling : ∃ m ≤ 30,
    Enough (fun best worst => 100 * worst ≤ 101 * best) 3 20 (samples settlingTimes m) ∧
      (∀ j, 0 < j → j < m → ¬Enough (fun best worst => 100 * worst ≤ 101 * best) 3 20 (samples settlingTimes j)) ∧
      (samples settlingTimes m).length ≤ 20 ∧
      ∃ best, fsec (fun best worst => 100 * worst ≤ 101 * best) 3 20 settlingTimes 30 = some best ∧
        IsLeast {y | y ∈ samples settlingTimes m} best :=
  fsec_best (by decide) (by decide) (by decide)

end Cmpsc473.Malloc
