import Cmpsc473.WordCount.Theorems
/-!
# The counts `custom_eval` writes

The output in terms of the text alone: one line for each normal form of a word,
with the number of words that have it. The words of punctuation alone leave
nothing but their count in the message, which `Reducer` takes for the key
`"1"`: they all count -1 for that key.
-/

namespace Cmpsc473.WordCount

open Channel Runs

variable {n : Nat} {text : List UInt8} {c : Int} {s : Sys n}

/-- `"1"`. -/
def one : CStr := ⟨[49], by decide⟩

/-- What `Reducer` counts for a word. -/
def wordEntry (x : List UInt8) : CStr × Int :=
  if reformatString x = [] then (one, -1) else (⟨reformatString x, reformatString_noNul x⟩, 1)

/-- How many words have the normal form `key`. -/
def occurrences (key : List UInt8) (words : List (List UInt8)) : Nat := words.countP fun x => reformatString x = key

theorem entries_eq (hp : Plain text) : entries text = (tokens text).map wordEntry := by
  rw [entries, ← List.filterMap_eq_map]
  refine List.filterMap_congr fun x hx => ?_
  exact decode_wordKV hx (hp.notSpecial x hx)

theorem occurrences_cons (key x : List UInt8) (words : List (List UInt8)) :
    occurrences key (x :: words) = occurrences key words + if reformatString x = key then 1 else 0 := by
  simp [occurrences, List.countP_cons]

/-- The sum of a key: its words, and the words of punctuation for `"1"`. -/
theorem total_entries (k : CStr) (words : List (List UInt8)) :
    Tally.total k (words.map wordEntry) = (if k.bytes = [] then 0 else (occurrences k.bytes words : Int)) -
      if k = one then (occurrences [] words : Int) else 0 := by
  induction words with
  | nil => simp [occurrences]
  | cons x words ih =>
    rw [List.map_cons, Tally.total_cons, ih, occurrences_cons, occurrences_cons]
    by_cases hx : reformatString x = []
    · have hne : k.bytes ≠ [] → reformatString x ≠ k.bytes := fun hk heq => hk (heq ▸ hx)
      rw [wordEntry, if_pos hx, if_pos hx]
      by_cases hk : k = one
      · subst hk
        rw [if_pos rfl, if_pos rfl, if_pos rfl, if_neg (by decide), if_neg (by decide), if_neg (hne (by decide))]
        push_cast
        ring
      · rw [if_neg (Ne.symm hk), if_neg hk, if_neg hk, zero_add]
        split
        · rfl
        · rename_i hnil
          rw [if_neg (hne hnil)]
          rfl
    · have hkey : (⟨reformatString x, reformatString_noNul x⟩ : CStr) = k ↔ reformatString x = k.bytes :=
        ⟨fun h => congrArg CStr.bytes h, fun h => CStr.ext_bytes h⟩
      simp only [wordEntry, hx, if_false, hkey, add_zero]
      by_cases hk : reformatString x = k.bytes
      · have hnil : k.bytes ≠ [] := fun h => hx (hk.trans h)
        rw [if_pos hk, if_pos hk, if_neg hnil, if_neg hnil]
        push_cast
        ring
      · rw [if_neg hk, if_neg hk, zero_add, add_zero]

/-- The keys of the output. -/
theorem key_entries (k : CStr) (words : List (List UInt8)) : k ∈ (words.map wordEntry).map Prod.fst ↔
    (k.bytes ≠ [] ∧ 0 < occurrences k.bytes words) ∨ (k = one ∧ 0 < occurrences [] words) := by
  simp only [List.mem_map, exists_exists_and_eq_and, occurrences, List.countP_pos_iff, decide_eq_true_eq]
  constructor
  · rintro ⟨x, hx, rfl⟩
    unfold wordEntry
    split
    · exact .inr ⟨rfl, x, hx, ‹_›⟩
    · exact .inl ⟨‹_›, x, hx, rfl⟩
  · rintro (⟨hk, x, hx, heq⟩ | ⟨rfl, x, hx, heq⟩)
    · refine ⟨x, hx, ?_⟩
      rw [wordEntry, if_neg (heq ▸ hk)]
      exact CStr.ext_bytes heq
    · exact ⟨x, hx, by rw [wordEntry, if_pos heq]⟩

/-- The output of a run of `custom_eval` that ends: a line for each normal form
of a word, in ascending order, with the number of words that have it. The words
of punctuation alone are taken off the count of `"1"`. -/
theorem word_histogram (hc : c ≤ intMax) (hn : 1 ≤ n) (hp : Plain text) (hlen : (tokens text).length ≤ 2147483647)
    (h : Reach step Any (customEval n c text) s) (hs : s.main = .returned) :
    ∃ l : List (CStr × Int), s.reducefile = some (l.flatMap line) ∧
      (l.Pairwise fun a b => compar a.1 b.1 = .lt) ∧
      ∀ k v, (k, v) ∈ l ↔
        ((k.bytes ≠ [] ∧ 0 < occurrences k.bytes (tokens text)) ∨ (k = one ∧ 0 < occurrences [] (tokens text))) ∧
          v = occurrences k.bytes (tokens text) - if k = one then occurrences [] (tokens text) else 0 := by
  have hle : ∀ key, occurrences key (tokens text) ≤ (tokens text).length := fun key => List.countP_le_length
  have hwrap : ∀ k, toInt (Tally.total k (entries text)) = Tally.total k (entries text) := by
    intro k
    have h1 := hle k.bytes
    have h2 := hle []
    rw [entries_eq hp, total_entries]
    apply toInt_of_range
    · split_ifs <;> omega
    · unfold intMax
      split_ifs <;> omega
  obtain ⟨l, hl, hf⟩ := (counted_of_returned hc hn hp h hs).isTally hwrap
  refine ⟨l, hf, hl.ascending, fun k v => ?_⟩
  rw [hl.sums, entries_eq hp, key_entries, total_entries]
  refine and_congr_right fun hk => ?_
  have hnil : k.bytes ≠ [] := by
    rcases hk with ⟨hk, -⟩ | ⟨rfl, -⟩
    · exact hk
    · decide
  rw [if_neg hnil]
  split_ifs <;> simp

/-- `word_histogram` on the run of one mapper: `"b a\nB"` has one `"a"` and two `"b"`. -/
theorem word_histogram_three : ∃ s : Sys 1, exec step (customEval 1 12 threeWords) oneMapper = some s ∧
    ∃ l : List (CStr × Int), s.reducefile = some (l.flatMap line) ∧
      (l.Pairwise fun a b => compar a.1 b.1 = .lt) ∧ (⟨[98], by decide⟩, 2) ∈ l := by
  obtain ⟨s, hr, hd⟩ := (Option.any_eq_true _ _).1 (show (exec step (customEval 1 12 threeWords) oneMapper).any
    (fun s => decide (s.main = .returned)) = true by decide +kernel)
  have hwords : tokens threeWords = [[98], [97], [66]] := by decide
  have hplain : Plain threeWords := ⟨by rw [hwords]; decide, by rw [hwords]; decide⟩
  obtain ⟨l, hf, hasc, hl⟩ := word_histogram (by decide) (by decide) hplain (by rw [hwords]; decide)
    (exec_reach hr fun _ _ _ => trivial) (of_decide_eq_true hd)
  refine ⟨s, hr, l, hf, hasc, (hl _ _).2 ?_⟩
  rw [hwords]
  decide

end Cmpsc473.WordCount
