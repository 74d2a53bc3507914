import Mathlib.Logic.Relation
import Mathlib.Tactic
/-!
# Runs of a labelled step function

A system is a partial step function `step : S → L → Option S`; the label fixes
every choice of the scheduler. `Reach step P s t` says that `t` is reached from
`s` by steps that each meet `P`, so a theorem about every `Reach` holds for
every interleaving. `exec` runs a given list of labels.
-/

namespace Cmpsc473.Runs

variable {S L : Type}

/-- Some step that meets `P` leads from `s` to `t`. -/
def Next (step : S → L → Option S) (P : S → L → Prop) (s t : S) : Prop := ∃ l, P s l ∧ step s l = some t

/-- `t` is reached from `s` by steps that meet `P`. -/
abbrev Reach (step : S → L → Option S) (P : S → L → Prop) : S → S → Prop :=
  Relation.ReflTransGen (Next step P)

/-- Every step is allowed. -/
def Any : S → L → Prop := fun _ _ => True

variable {step : S → L → Option S} {P Q : S → L → Prop}

theorem Reach.tail {s t u : S} {l : L} (h : Reach step P s t) (hp : P t l) (hl : step t l = some u) :
    Reach step P s u :=
  Relation.ReflTransGen.tail h ⟨l, hp, hl⟩

/-- What every step keeps, every run keeps. -/
theorem Reach.inv (I : S → Prop) (hs : ∀ s l t, I s → P s l → step s l = some t → I t) {s t : S}
    (h : Reach step P s t) (h0 : I s) : I t := by
  induction h with
  | refl => exact h0
  | tail _ hn ih => obtain ⟨l, hp, hl⟩ := hn; exact hs _ l _ ih hp hl

/-- A run under `P` is a run under `Q` where an invariant `I` of the run turns
the one into the other. -/
theorem Reach.mono (I : S → Prop) (hs : ∀ s l t, I s → P s l → step s l = some t → I t)
    (hpq : ∀ s l, I s → P s l → Q s l) {s t : S} (h : Reach step P s t) (h0 : I s) : Reach step Q s t := by
  induction h with
  | refl => exact .refl
  | tail hr hn ih =>
    obtain ⟨l, hp, hl⟩ := hn
    exact Reach.tail ih (hpq _ _ (Reach.inv I hs hr h0) hp) hl

/-- The state after the steps of `ls`, if each of them is possible. -/
def exec (step : S → L → Option S) : S → List L → Option S
  | s, [] => some s
  | s, l :: ls => (step s l).bind fun t => exec step t ls

theorem exec_reach {s t : S} {ls : List L} (h : exec step s ls = some t) (hp : ∀ l ∈ ls, ∀ s, P s l) :
    Reach step P s t := by
  induction ls generalizing s with
  | nil => simp only [exec, Option.some.injEq] at h; subst h; exact .refl
  | cons l ls ih =>
    simp only [exec, Option.bind_eq_some_iff] at h
    obtain ⟨u, hu, ht⟩ := h
    exact Relation.ReflTransGen.head ⟨l, hp l List.mem_cons_self s, hu⟩
      (ih ht fun l' hl' => hp l' (List.mem_cons_of_mem _ hl'))

/-- `step` for the labels that meet `P`, and no step for the others. -/
def guarded (step : S → L → Option S) (P : S → L → Prop) [∀ s l, Decidable (P s l)] (s : S) (l : L) : Option S :=
  if P s l then step s l else none

theorem exec_guarded [∀ s l, Decidable (P s l)] {s t : S} {ls : List L} (h : exec (guarded step P) s ls = some t) :
    exec step s ls = some t ∧ Reach step P s t := by
  induction ls generalizing s with
  | nil =>
    simp only [exec, Option.some.injEq] at h
    subst h
    exact ⟨rfl, .refl⟩
  | cons l ls ih =>
    simp only [exec, guarded, Option.bind_eq_some_iff, Option.ite_none_right_eq_some] at h
    obtain ⟨u, ⟨hp, hu⟩, ht⟩ := h
    obtain ⟨h1, h2⟩ := ih ht
    exact ⟨by rw [exec, hu, Option.bind_some, h1], Relation.ReflTransGen.head ⟨l, hp, hu⟩ h2⟩

/-! ## Properties of the steps of a run -/

/-- The run of `ls` from `s` goes from `t` to `u` by the label `l`. -/
def Takes (step : S → L → Option S) (s : S) (ls : List L) (t : S) (l : L) (u : S) : Prop :=
  ∃ before after, ls = before ++ l :: after ∧ exec step s before = some t ∧ step t l = some u

theorem Takes.reach {s t u : S} {ls : List L} {l : L} (h : Takes step s ls t l u) : Reach step Any s t := by
  obtain ⟨before, -, -, hb, -⟩ := h
  exact exec_reach hb fun _ _ _ => trivial

/-- A run whose steps all meet `P`. -/
theorem reach_of_takes {s t : S} {ls : List L} (h : exec step s ls = some t)
    (hp : ∀ u l v, Takes step s ls u l v → P u l) : Reach step P s t := by
  induction ls generalizing s with
  | nil => simp only [exec, Option.some.injEq] at h; subst h; exact .refl
  | cons l ls ih =>
    obtain ⟨u, hu, ht⟩ := Option.bind_eq_some_iff.1 h
    refine Relation.ReflTransGen.head ⟨l, hp s l u ⟨[], ls, rfl, rfl, hu⟩, hu⟩ (ih ht fun v l' w hv => ?_)
    obtain ⟨before, after, rfl, hb, hl⟩ := hv
    exact hp v l' w ⟨l :: before, after, rfl, by rw [exec, hu, Option.bind_some, hb], hl⟩

/-- A step of a run is the last of a shorter run. -/
theorem Takes.prefix {s t u : S} {ls : List L} {l : L} (h : Takes step s ls t l u) :
    ∃ before, exec step s before = some t ∧ ∀ v l' w, Takes step s before v l' w → Takes step s ls v l' w := by
  obtain ⟨before, after, rfl, hb, -⟩ := h
  refine ⟨before, hb, ?_⟩
  rintro v l' w ⟨before', after', rfl, hv, hl⟩
  exact ⟨before', after' ++ l :: after, by simp, hv, hl⟩

theorem exec_append (s : S) (ls ls' : List L) :
    exec step s (ls ++ ls') = (exec step s ls).bind fun t => exec step t ls' := by
  induction ls generalizing s with
  | nil => rfl
  | cons l ls ih => simp only [List.cons_append, exec, ih, Option.bind_assoc]

/-- Each step of the run of `ls` from `s` meets `P`. -/
def along (step : S → L → Option S) (P : S → L → Prop) [∀ s l, Decidable (P s l)] : S → List L → Bool
  | _, [] => true
  | s, l :: ls => decide (P s l) && (step s l).all fun t => along step P t ls

theorem takes_along [∀ s l, Decidable (P s l)] {s : S} {ls : List L} (h : along step P s ls = true) :
    ∀ t l u, Takes step s ls t l u → P t l := by
  rintro t l u ⟨before, after, rfl, hb, hl⟩
  induction before generalizing s with
  | nil =>
    simp only [exec, Option.some.injEq] at hb
    subst hb
    exact of_decide_eq_true (Bool.and_eq_true_iff.1 h).1
  | cons a before ih =>
    obtain ⟨v, hv, hb⟩ := Option.bind_eq_some_iff.1 hb
    have hrest := (Bool.and_eq_true_iff.1 h).2
    rw [hv] at hrest
    exact ih hrest hb

/-- In a run that is possible, each label is that of a step. -/
theorem takes_of_exec {s t u : S} {l : L} {before after : List L} (h : exec step s (before ++ l :: after) = some t)
    (hb : exec step s before = some u) : ∃ v, Takes step s (before ++ l :: after) u l v := by
  rw [exec_append, hb, Option.bind_some, exec] at h
  obtain ⟨v, hv, -⟩ := Option.bind_eq_some_iff.1 h
  exact ⟨v, before, after, rfl, hb, hv⟩

/-- A run of one label goes on where a shorter one ends. -/
theorem takes_replicate {s t u : S} {l : L} {n k : Nat} (h : exec step s (List.replicate (n + 1) l) = some t) (hk : k ≤ n)
    (hb : exec step s (List.replicate k l) = some u) : ∃ v, Takes step s (List.replicate (n + 1) l) u l v := by
  have hsplit : List.replicate (n + 1) l = List.replicate k l ++ l :: List.replicate (n - k) l := by
    rw [← List.replicate_succ, List.replicate_append_replicate]
    congr 1
    omega
  rw [hsplit] at h ⊢
  exact takes_of_exec h hb

/-- A property of each step of a run that comes down to a condition on the
state before the step, where an invariant of the run holds. -/
theorem takes_iff (I : S → Prop) (hs : ∀ s l t, I s → step s l = some t → I t) {A : S → L → S → Prop}
    {B : S → L → Prop} {s : S} (h0 : I s) {ls : List L}
    (hab : ∀ t l u, I t → Takes step s ls t l u → (A t l u ↔ B t l)) :
    (∀ t l u, Takes step s ls t l u → A t l u) ↔ ∀ t l u, Takes step s ls t l u → B t l := by
  have hinv : ∀ {t l u}, Takes step s ls t l u → I t := fun h =>
    Reach.inv I (fun s l t hI _ hstep => hs s l t hI hstep) h.reach h0
  constructor
  · intro h t l u ht
    exact (hab t l u (hinv ht) ht).1 (h t l u ht)
  · intro h t l u ht
    exact (hab t l u (hinv ht) ht).2 (h t l u ht)

/-- A step of a run is its first step or a step of the rest. -/
theorem takes_cons {s t u : S} {a l : L} {ls : List L} : Takes step s (a :: ls) t l u ↔
    (t = s ∧ l = a ∧ step s a = some u) ∨ ∃ v, step s a = some v ∧ Takes step v ls t l u := by
  constructor
  · rintro ⟨before, after, he, hb, hl⟩
    cases before with
    | nil =>
      simp only [List.nil_append, List.cons.injEq] at he
      simp only [exec, Option.some.injEq] at hb
      obtain ⟨rfl, rfl⟩ := he
      subst hb
      exact .inl ⟨rfl, rfl, hl⟩
    | cons b before =>
      simp only [List.cons_append, List.cons.injEq] at he
      obtain ⟨rfl, rfl⟩ := he
      obtain ⟨v, hv, hb⟩ := Option.bind_eq_some_iff.1 hb
      exact .inr ⟨v, hv, before, after, rfl, hb, hl⟩
  · rintro (⟨rfl, rfl, hl⟩ | ⟨v, hv, before, after, rfl, hb, hl⟩)
    · exact ⟨[], ls, rfl, rfl, hl⟩
    · exact ⟨a :: before, after, rfl, by rw [exec, hv, Option.bind_some, hb], hl⟩

/-- A property of each step of a run that comes down to a condition on the
state before the step, where an invariant holds as long as the property does. -/
theorem takes_iff_while (I : S → Prop) {A : S → L → S → Prop} {B : S → L → Prop}
    (hab : ∀ t l u, I t → step t l = some u → (A t l u ↔ B t l))
    (hs : ∀ t l u, I t → step t l = some u → A t l u → I u) {s : S} (h0 : I s) (ls : List L) :
    (∀ t l u, Takes step s ls t l u → A t l u) ↔ ∀ t l u, Takes step s ls t l u → B t l := by
  induction ls generalizing s with
  | nil =>
    have hnil : ∀ t l u, ¬Takes step s [] t l u := by
      rintro t l u ⟨before, after, he, -⟩
      simp at he
    exact ⟨fun _ t l u ht => absurd ht (hnil t l u), fun _ t l u ht => absurd ht (hnil t l u)⟩
  | cons a ls ih =>
    simp only [takes_cons]
    constructor
    · rintro h t l u (⟨rfl, rfl, hl⟩ | ⟨v, hv, ht⟩)
      · exact (hab t l u h0 hl).1 (h t l u (.inl ⟨rfl, rfl, hl⟩))
      · have hv' := hs s a v h0 hv (h s a v (.inl ⟨rfl, rfl, hv⟩))
        exact (ih hv').1 (fun t l u ht => h t l u (.inr ⟨v, hv, ht⟩)) t l u ht
    · rintro h t l u (⟨rfl, rfl, hl⟩ | ⟨v, hv, ht⟩)
      · exact (hab t l u h0 hl).2 (h t l u (.inl ⟨rfl, rfl, hl⟩))
      · have hv' := hs s a v h0 hv ((hab s a v h0 hv).2 (h s a v (.inl ⟨rfl, rfl, hv⟩)))
        exact (ih hv').2 (fun t l u ht => h t l u (.inr ⟨v, hv, ht⟩)) t l u ht

/-- A system takes the steps of a model of it, where related states take the
model's steps and stay related. `ok` is what the environment promises. -/
theorem exec_refine {T : Type} {step' : T → L → Option T} (Rel : S → T → Prop) (ok : S → L → Prop)
    (hs : ∀ s t l t', Rel s t → ok s l → step' t l = some t' → ∃ s', step s l = some s' ∧ Rel s' t') {s : S} {t t' : T}
    {ls : List L} (h : Rel s t) (hr : exec step' t ls = some t')
    (hok : ∀ before l after u, ls = before ++ l :: after → exec step s before = some u → ok u l) :
    ∃ s', exec step s ls = some s' ∧ Rel s' t' := by
  induction ls generalizing s t with
  | nil =>
    simp only [exec, Option.some.injEq] at hr
    subst hr
    exact ⟨s, rfl, h⟩
  | cons l ls ih =>
    obtain ⟨u, hu, ht⟩ := Option.bind_eq_some_iff.1 hr
    obtain ⟨v, hv, hrel⟩ := hs s t l u h (hok [] l ls s rfl rfl) hu
    obtain ⟨s', hs', hrel'⟩ := ih hrel ht fun before l' after w he hw =>
      hok (l :: before) l' after w (by rw [he]; rfl) (by rw [exec, hv, Option.bind_some, hw])
    exact ⟨s', by rw [exec, hv, Option.bind_some, hs'], hrel'⟩

/-! ## Measures -/

/-- Where every costly step lowers `m` and a free one raises it by at most one,
a run has no more than `m` costly steps, and one more for each free step. -/
theorem exec_cost (I : S → Prop) (m : S → Nat) (free : L → Bool)
    (hs : ∀ s l t, I s → step s l = some t → I t ∧ m t + (!free l).toNat ≤ m s + (free l).toNat) {s t : S} {ls : List L}
    (h : exec step s ls = some t) (h0 : I s) : ls.countP (fun l => !free l) + m t ≤ m s + ls.countP free := by
  induction ls generalizing s with
  | nil =>
    simp only [exec, Option.some.injEq] at h
    subst h
    simp
  | cons l ls ih =>
    obtain ⟨u, hu, ht⟩ := Option.bind_eq_some_iff.1 h
    obtain ⟨hI, hm⟩ := hs s l u h0 hu
    have hrest := ih ht hI
    rw [List.countP_cons, List.countP_cons]
    cases hf : free l <;> simp [hf] at hm ⊢ <;> omega

/-- What a step raises by at most `b`, a run raises by at most `b` for each step. -/
theorem exec_grows (I : Nat → S → Prop) {b : Nat} (hs : ∀ k s l t, I k s → step s l = some t → I (k + b) t) {s t : S}
    {ls : List L} {k : Nat} (h : exec step s ls = some t) (h0 : I k s) : I (k + ls.length * b) t := by
  induction ls generalizing s k with
  | nil =>
    simp only [exec, Option.some.injEq] at h
    subst h
    simpa using h0
  | cons l ls ih =>
    obtain ⟨u, hu, ht⟩ := Option.bind_eq_some_iff.1 h
    have hrest := ih ht (hs k s l u h0 hu)
    rwa [List.length_cons, Nat.succ_mul, Nat.add_comm _ b, ← Nat.add_assoc]

/-- Where a step that meets `P` is possible short of a goal and lowers `m`, a run
within `m` steps reaches a goal, or a step that does not meet `P`. -/
theorem exists_end (I : S → Prop) (m : S → Nat) {G : S → Prop} (l : L)
    (hs : ∀ s, I s → P s l → ¬G s → ∃ t, step s l = some t ∧ I t ∧ m t < m s) {s : S} (h0 : I s) :
    ∃ k ≤ m s, ∃ t, exec step s (List.replicate k l) = some t ∧ Reach step P s t ∧ I t ∧ (G t ∨ ¬P t l) := by
  induction hm : m s using Nat.strong_induction_on generalizing s with
  | _ k ih =>
    by_cases hend : G s ∨ ¬P s l
    · exact ⟨0, Nat.zero_le k, s, rfl, .refl, h0, hend⟩
    · rw [not_or, not_not] at hend
      obtain ⟨t, ht, hI, hlt⟩ := hs s h0 hend.2 hend.1
      obtain ⟨j, hj, u, hu, hreach, hIu, hgoal⟩ := ih (m t) (hm ▸ hlt) hI rfl
      refine ⟨j + 1, by omega, u, ?_, Relation.ReflTransGen.head ⟨l, hend.2, ht⟩ hreach, hIu, hgoal⟩
      rw [List.replicate_succ, exec, ht, Option.bind_some, hu]

/-! ## Functions called in sequence -/

variable {T R : Type}

/-- Calls made one after the other: the last state and what each returned. -/
def calls (call : S → L → S × R) : S → List L → S × List R
  | s, [] => (s, [])
  | s, l :: ls =>
    let r := call s l
    let rs := calls call r.1 ls
    (rs.1, r.2 :: rs.2)

/-- Two systems whose related states return the same and stay related return
the same over whole sequences. -/
theorem calls_refine {f : S → L → S × R} {g : T → L → T × R} (Rel : S → T → Prop) (ok : L → Prop)
    (step : ∀ s t l, Rel s t → ok l → Rel (f s l).1 (g t l).1 ∧ (f s l).2 = (g t l).2)
    {s : S} {t : T} (h : Rel s t) (ls : List L) (hok : ∀ l ∈ ls, ok l) :
    Rel (calls f s ls).1 (calls g t ls).1 ∧ (calls f s ls).2 = (calls g t ls).2 := by
  induction ls generalizing s t with
  | nil => exact ⟨h, rfl⟩
  | cons l ls ih =>
    obtain ⟨h1, h2⟩ := step s t l h (hok l List.mem_cons_self)
    obtain ⟨h3, h4⟩ := ih h1 fun l' hl' => hok l' (List.mem_cons_of_mem _ hl')
    exact ⟨h3, by simp only [calls, h2, h4]⟩

end Cmpsc473.Runs
