import Mathlib.Tactic
/-!
# Filling and evicting by age

A table of slots with a time stamp. `PagedIn` says what a load by least recent
use does to it: it touches one slot, an empty one if there is one and else one
that is oldest. `pageIn` is a scan that rewrites every slot that is empty, or
every slot with the least time stamp up to a limit, and never marks one as used;
`pagedIn_iff` says when that comes to the same.
-/

namespace Cmpsc473.Lru

variable {α : Type}

/-- A slot of the table. -/
structure Slot (α : Type) where
  empty : Bool
  time : Int
  addr : α
  deriving DecidableEq

/-- A slot in use holds `a`. -/
def Resident (table : List (Slot α)) (a : α) : Prop := ∃ e ∈ table, e.empty = false ∧ e.addr = a

/-- No slot is empty. -/
def Full (table : List (Slot α)) : Prop := ∀ e ∈ table, e.empty = false

/-- The slot `i` changed. -/
def Changed (pre post : List (Slot α)) (i : Nat) : Prop := post[i]? ≠ pre[i]?

/-- A load of `a` by least recent use. -/
structure PagedIn (pre post : List (Slot α)) (a : α) : Prop where
  resident : Resident post a
  one : ∀ i j, Changed pre post i → Changed pre post j → i = j
  /-- Nothing is evicted while a slot is empty, and the slot filled is in use. -/
  fill : ¬Full pre → (∀ b, Resident pre b → Resident post b) ∧
    ∀ i e, Changed pre post i → post[i]? = some e → e.empty = false
  evict : Full pre → ∀ i e, Changed pre post i → pre[i]? = some e → ∀ x ∈ pre, e.time ≤ x.time

/-! ## The least time stamp -/

/-- The least of the times, or `limit` if it is less. -/
def least (limit : Int) (times : List Int) : Int := times.foldl (fun l t => if t < l then t else l) limit

theorem least_cons (limit t : Int) (times : List Int) :
    least limit (t :: times) = least (if t < limit then t else limit) times := rfl

theorem least_le_limit (times : List Int) : ∀ limit, least limit times ≤ limit := by
  induction times with
  | nil => exact fun limit => le_refl limit
  | cons t times ih =>
    intro limit
    rw [least_cons]
    refine (ih _).trans ?_
    split <;> omega

theorem least_le (times : List Int) : ∀ limit, ∀ t ∈ times, least limit times ≤ t := by
  induction times with
  | nil =>
    intro limit t ht
    cases ht
  | cons t times ih =>
    intro limit u hu
    rw [least_cons]
    rcases List.mem_cons.1 hu with rfl | hu
    · refine (least_le_limit times _).trans ?_
      split <;> omega
    · exact ih _ u hu

theorem least_attained (times : List Int) : ∀ limit, least limit times = limit ∨ least limit times ∈ times := by
  induction times with
  | nil => exact fun limit => .inl rfl
  | cons t times ih =>
    intro limit
    rw [least_cons]
    rcases ih (if t < limit then t else limit) with h | h
    · rw [h]
      split
      · exact .inr List.mem_cons_self
      · exact .inl rfl
    · exact .inr (List.mem_cons_of_mem t h)

/-- Some time is the least one if and only if some time is within the limit. -/
theorem least_mem_iff {limit : Int} {times : List Int} : least limit times ∈ times ↔ ∃ t ∈ times, t ≤ limit := by
  constructor
  · exact fun h => ⟨_, h, least_le_limit times limit⟩
  · rintro ⟨t, ht, hle⟩
    rcases least_attained times limit with h | h
    · have := least_le times limit t ht
      rw [show least limit times = t by omega]
      exact ht
    · exact h

/-! ## The scan -/

variable (limit now : Int) (a : α)

/-- The address and the time are written over the slot; the flag stays. -/
def Slot.put (e : Slot α) : Slot α := { e with addr := a, time := now }

instance (table : List (Slot α)) : Decidable (Full table) := inferInstanceAs (Decidable (∀ e ∈ table, e.empty = false))

/-- The scan rewrites the slot `e` of the table. -/
def Touched (table : List (Slot α)) (e : Slot α) : Prop :=
  if Full table then e.time = least limit (table.map Slot.time) else e.empty = true

instance (table : List (Slot α)) (e : Slot α) : Decidable (Touched limit table e) := by
  unfold Touched
  infer_instance

/-- The table after the scan. -/
def pageIn (table : List (Slot α)) : List (Slot α) :=
  table.map fun e => if Touched limit table e then e.put now a else e

/-- The scan changes the slot `e` of the table. -/
def Rewritten (table : List (Slot α)) (e : Slot α) : Prop := Touched limit table e ∧ ¬(e.addr = a ∧ e.time = now)

/-- When the scan is a load by least recent use: it brings the address into a
slot in use, unless it is in one, and rewrites at most one slot, and none while
one is empty. -/
structure Fits (table : List (Slot α)) : Prop where
  brings : Resident table a ∨ (Full table ∧ ∃ e ∈ table, e.time ≤ limit)
  one : Full table → ∀ (i j : Nat) (e e' : Slot α), table[i]? = some e → table[j]? = some e' → Rewritten limit now a table e →
    Rewritten limit now a table e' → i = j
  none : ¬Full table → ∀ e ∈ table, ¬Rewritten limit now a table e

variable {limit now a} {table : List (Slot α)}

theorem put_eq_self {e : Slot α} : e.put now a = e ↔ e.addr = a ∧ e.time = now := by
  cases e
  simp [Slot.put]
  tauto

theorem getElem?_pageIn (i : Nat) : (pageIn limit now a table)[i]? =
    table[i]?.map fun e => if Touched limit table e then e.put now a else e := by
  simp [pageIn]

/-- The scan sets no flag. -/
theorem map_empty_pageIn : (pageIn limit now a table).map Slot.empty = table.map Slot.empty := by
  rw [pageIn, List.map_map]
  refine List.map_congr_left fun e _ => ?_
  rw [Function.comp_apply, apply_ite Slot.empty]
  exact ite_self _

theorem touched_of_full (hf : Full table) (e : Slot α) :
    Touched limit table e ↔ e.time = least limit (table.map Slot.time) := by
  rw [Touched, if_pos hf]

theorem touched_of_not_full (hf : ¬Full table) (e : Slot α) : Touched limit table e ↔ e.empty = true := by
  rw [Touched, if_neg hf]

/-- The slots changed are those rewritten. -/
theorem changed_iff {i : Nat} : Changed table (pageIn limit now a table) i ↔
    ∃ e, table[i]? = some e ∧ Rewritten limit now a table e := by
  rw [Changed, getElem?_pageIn]
  cases h : table[i]? with
  | none => simp
  | some e =>
    simp only [Option.map_some, ne_eq, Option.some.injEq, exists_eq_left', Rewritten]
    by_cases ht : Touched limit table e
    · simp only [ht, if_true, put_eq_self, true_and]
    · simp only [ht, if_false, not_true_eq_false, false_and]

/-- While a slot is empty, the slots in use stay as they are. -/
theorem resident_of_not_full (hf : ¬Full table) (b : α) :
    Resident (pageIn limit now a table) b ↔ Resident table b := by
  simp only [Resident, pageIn, List.mem_map, exists_exists_and_eq_and, touched_of_not_full hf]
  constructor
  · rintro ⟨e, he, h1, h2⟩
    split at h1
    · rename_i hempty
      rw [Slot.put, hempty] at h1
      cases h1
    · rename_i hempty
      rw [if_neg hempty] at h2
      exact ⟨e, he, h1, h2⟩
  · rintro ⟨e, he, h1, h2⟩
    have hempty : ¬e.empty = true := by rw [h1]; exact Bool.false_ne_true
    refine ⟨e, he, ?_, ?_⟩
    · rw [if_neg hempty]
      exact h1
    · rw [if_neg hempty]
      exact h2

/-- In a full table the address comes in where a time is within the limit. -/
theorem resident_of_full (hf : Full table) :
    Resident (pageIn limit now a table) a ↔ Resident table a ∨ ∃ e ∈ table, e.time ≤ limit := by
  have hleast : (∃ e ∈ table, e.time ≤ limit) ↔ ∃ e ∈ table, Touched limit table e := by
    have h := @least_mem_iff limit (table.map Slot.time)
    simp only [List.mem_map, exists_exists_and_eq_and] at h
    simp only [touched_of_full hf]
    exact h.symm
  rw [hleast]
  simp only [Resident, pageIn, List.mem_map, exists_exists_and_eq_and]
  constructor
  · rintro ⟨e, he, h1, h2⟩
    by_cases ht : Touched limit table e
    · exact .inr ⟨e, he, ht⟩
    · rw [if_neg ht] at h2
      exact .inl ⟨e, he, hf e he, h2⟩
  · intro h
    obtain ⟨e, he, hok⟩ : ∃ e ∈ table, e.addr = a ∨ Touched limit table e := by
      rcases h with ⟨e, he, -, h2⟩ | ⟨e, he, ht⟩
      · exact ⟨e, he, .inl h2⟩
      · exact ⟨e, he, .inr ht⟩
    refine ⟨e, he, ?_, ?_⟩
    · split
      · exact hf e he
      · exact hf e he
    · split
      · rfl
      · exact hok.resolve_right ‹_›

/-! ## Tables of other entries -/

section Entries

variable {β : Type} {es : List β} {slot : β → Slot α} {put : β → β}

/-- A scan for the least time over the entries of a full table. -/
theorem map_slot_of_full (hf : Full (es.map slot)) (hput : ∀ e, slot (put e) = (slot e).put now a) :
    (es.map fun e => if (slot e).time = least limit ((es.map slot).map Slot.time) then put e else e).map slot =
      pageIn limit now a (es.map slot) := by
  refine List.map_map.trans (Eq.trans (List.map_congr_left fun e _ => ?_) List.map_map.symm)
  rw [Function.comp_apply, Function.comp_apply, apply_ite slot, hput]
  exact if_congr (touched_of_full hf (slot e)).symm rfl rfl

/-- A scan for the empty entries of a table that is not full. -/
theorem map_slot_of_not_full (hf : ¬Full (es.map slot)) (hput : ∀ e, slot (put e) = (slot e).put now a) :
    (es.map fun e => if (slot e).empty then put e else e).map slot = pageIn limit now a (es.map slot) := by
  refine List.map_map.trans (Eq.trans (List.map_congr_left fun e _ => ?_) List.map_map.symm)
  rw [Function.comp_apply, Function.comp_apply, apply_ite slot, hput]
  exact if_congr (touched_of_not_full hf (slot e)).symm rfl rfl

/-- In a full table there is no empty entry to scan for. -/
theorem map_empty_of_full (hf : Full (es.map slot)) :
    (es.map fun e => if (slot e).empty then put e else e) = es := by
  refine (List.map_congr_left fun e he => ?_).trans (List.map_id es)
  rw [hf (slot e) (List.mem_map_of_mem he)]
  rfl

/-- The entries are counted as in use if and only if the table is full. -/
theorem length_filter_iff : (es.filter fun e => !(slot e).empty).length = es.length ↔ Full (es.map slot) := by
  rw [List.length_filter_eq_length_iff]
  simp [Full]

end Entries

/-- The scan is a load by least recent use if and only if it fits the table. -/
theorem pagedIn_iff : PagedIn table (pageIn limit now a table) a ↔ Fits limit now a table := by
  by_cases hf : Full table
  · constructor
    · rintro ⟨h1, h2, -, -⟩
      refine ⟨?_, fun _ i j e e' he he' hr hr' => ?_, fun hn => absurd hf hn⟩
      · rcases (resident_of_full hf).1 h1 with h | h
        · exact .inl h
        · exact .inr ⟨hf, h⟩
      · exact h2 i j (changed_iff.2 ⟨e, he, hr⟩) (changed_iff.2 ⟨e', he', hr'⟩)
    · rintro ⟨h1, h2, -⟩
      refine ⟨(resident_of_full hf).2 ?_, ?_, fun hn => absurd hf hn, ?_⟩
      · exact h1.imp_right And.right
      · intro i j hi hj
        obtain ⟨e, he, hr⟩ := changed_iff.1 hi
        obtain ⟨e', he', hr'⟩ := changed_iff.1 hj
        exact h2 hf i j e e' he he' hr hr'
      · intro _ i e hi he x hx
        obtain ⟨e', he', ht, -⟩ := changed_iff.1 hi
        cases he.symm.trans he'
        rw [(touched_of_full hf e).1 ht]
        exact least_le _ _ _ (List.mem_map_of_mem hx)
  · constructor
    · rintro ⟨h1, -, h3, -⟩
      refine ⟨.inl ((resident_of_not_full hf a).1 h1), fun hf' => absurd hf' hf, fun _ e he hr => ?_⟩
      obtain ⟨i, hi⟩ := List.mem_iff_getElem?.1 he
      -- a slot that was filled is still marked as empty
      have ht := hr.1
      have hempty := (h3 hf).2 i (e.put now a) (changed_iff.2 ⟨e, hi, hr⟩) (by
        rw [getElem?_pageIn, hi, Option.map_some, if_pos ht])
      rw [Slot.put, (touched_of_not_full hf e).1 ht] at hempty
      cases hempty
    · rintro ⟨h1, -, h3⟩
      have hsame : ∀ i, ¬Changed table (pageIn limit now a table) i := by
        intro i hi
        obtain ⟨e, he, hr⟩ := changed_iff.1 hi
        exact h3 hf e (List.mem_of_getElem? he) hr
      refine ⟨(resident_of_not_full hf a).2 (h1.resolve_right fun h => hf h.1), fun i j hi => absurd hi (hsame i), ?_,
        fun hf' => absurd hf' hf⟩
      exact fun _ => ⟨fun b hb => (resident_of_not_full hf b).2 hb, fun i e hi => absurd hi (hsame i)⟩

/-- A full table whose times differ, with one of them within the limit. -/
theorem fits_of_nodup (hf : Full table) (hd : (table.map Slot.time).Nodup) (h : ∃ e ∈ table, e.time ≤ limit) :
    Fits limit now a table := by
  refine ⟨.inr ⟨hf, h⟩, ?_, fun hn => absurd hf hn⟩
  intro _ i j e e' he he' hr hr'
  have hi := (@List.getElem?_map _ _ Slot.time table i).trans (congrArg (Option.map Slot.time) he)
  have hj := (@List.getElem?_map _ _ Slot.time table j).trans (congrArg (Option.map Slot.time) he')
  rw [Option.map_some, (touched_of_full hf e).1 hr.1] at hi
  rw [Option.map_some, (touched_of_full hf e').1 hr'.1] at hj
  exact (List.getElem?_inj (List.getElem?_eq_some_iff.1 hi).1 hd).1 (hi.trans hj.symm)

end Cmpsc473.Lru
