import Cmpsc473.WordCount.Invariants
/-!
# The output of `custom_eval`

Every run of `custom_eval` that ends has written the tally of the text: each
decoded key once, in the order of `strcmp`, with the sum of its values. The
number of mappers, the capacity and the schedule do not show.
-/

namespace Cmpsc473.WordCount

open Channel Runs

variable {n : Nat} {text : List UInt8} {c : Int} {s : Sys n}

/-- A run that ends has counted the messages of the text. -/
theorem counted_of_returned (hc : c ≤ intMax) (hn : 1 ≤ n) (hp : Plain text) (h : Reach step Any (customEval n c text) s)
    (hs : s.main = .returned) : Counted text s := by
  rcases counted_reach hc hn hp h with hrun | hdone
  · rcases hrun.counting.pc with hpc | ⟨hpc, -⟩ <;> rw [hs] at hpc <;> cases hpc
  · exact hdone

/-- The values of messages are `int`s. -/
theorem toInt_of_decode {m : List UInt8} {e : CStr × Int} (h : decode m = some e) : toInt e.2 = e.2 := by
  obtain ⟨r, hp, rfl⟩ := Option.map_eq_some_iff.1 h
  simp only [parseKV] at hp
  split at hp
  · cases hp
  · cases hp
    dsimp only
    split
    · exact toInt_atoi _
    · rfl

/-- What `Reducer` walks is the tally of the text, if no sum leaves the range of
`int`. -/
theorem Counted.isTally (h : Counted text s) (hint : ∀ k, toInt (Tally.total k (entries text)) = Tally.total k (entries text)) :
    ∃ l, Tally.IsTally compar (entries text) l ∧ s.reducefile = some (l.flatMap line) := by
  obtain ⟨taken, hall, hf⟩ := h
  have hentries : entries text = ((tokens text).map fun x => (wordKV x).bytes).filterMap decode := by
    rw [entries, List.filterMap_map]
    rfl
  have hperm : (taken.filterMap decode).Perm (entries text) := by
    rw [hentries]
    exact (Multiset.coe_eq_coe.1 hall).filterMap decode
  refine ⟨_, (Tally.isTally_toList toInt_add_toInt ?_ ?_).perm hperm, hf⟩
  · intro e he
    obtain ⟨m, -, hm⟩ := List.mem_filterMap.1 he
    exact toInt_of_decode hm
  · intro k
    rw [Tally.total_perm hperm]
    exact hint k

/-- Two runs of `custom_eval` on a text write the same output, whatever the
numbers of mappers, the capacities and the schedules: each decoded key once, in
ascending order, with the sum of its decoded values. -/
theorem wordcount_deterministic {n₁ n₂ : Nat} {c₁ c₂ : Int} {s₁ : Sys n₁} {s₂ : Sys n₂} (hn₁ : 1 ≤ n₁) (hn₂ : 1 ≤ n₂)
    (hc₁ : c₁ ≤ intMax) (hc₂ : c₂ ≤ intMax) (hp : Plain text)
    (hint : ∀ k, -2147483648 ≤ Tally.total k (entries text) ∧ Tally.total k (entries text) ≤ intMax)
    (h₁ : Reach step Any (customEval n₁ c₁ text) s₁) (h₂ : Reach step Any (customEval n₂ c₂ text) s₂)
    (hs₁ : s₁.main = .returned) (hs₂ : s₂.main = .returned) :
    ∃ l, Tally.IsTally compar (entries text) l ∧ s₁.reducefile = some (l.flatMap line) ∧
      s₂.reducefile = some (l.flatMap line) := by
  have hwrap : ∀ k, toInt (Tally.total k (entries text)) = Tally.total k (entries text) := fun k =>
    toInt_of_range (hint k).1 (hint k).2
  obtain ⟨l₁, hl₁, hf₁⟩ := (counted_of_returned hc₁ hn₁ hp h₁ hs₁).isTally hwrap
  obtain ⟨l₂, hl₂, hf₂⟩ := (counted_of_returned hc₂ hn₂ hp h₂ hs₂).isTally hwrap
  obtain rfl := hl₁.unique hl₂
  exact ⟨l₁, hl₁, hf₁, hf₂⟩

/-- `"b a\nB"`. -/
def threeWords : List UInt8 := [98, 32, 97, 10, 66]

/-- One mapper, and a channel that holds one message: the mapper sleeps twice. -/
def oneMapper : List (Turn 1) :=
  [.mapper 0, .reducer, .chan (.test (.mapper 0)), .chan (.lock (.mapper 0) none), .mapper 0,
    .chan (.test (.mapper 0)), .chan (.lock (.mapper 0) none), .chan (.test .reducer),
    .chan (.lock .reducer (some (.mapper 0))), .reducer, .chan (.lock (.mapper 0) none), .mapper 0,
    .chan (.test (.mapper 0)), .chan (.lock (.mapper 0) none), .chan (.test .reducer),
    .chan (.lock .reducer (some (.mapper 0))), .reducer, .chan (.lock (.mapper 0) none), .mapper 0, .main,
    .chan (.test .reducer), .chan (.lock .reducer none), .reducer, .chan (.test .reducer),
    .chan (.lock .reducer none), .chan (.test .main), .chan (.lock .main (some .reducer)),
    .chan (.lock .reducer none), .chan (.signal .reducer none), .reducer, .main, .chan (.lock .main none), .main]

/-- Three mappers, each with one word, which they send in the reverse order. -/
def threeMappers : List (Turn 3) :=
  [.mapper 2, .mapper 1, .mapper 0, .reducer, .chan (.test (.mapper 2)), .chan (.lock (.mapper 2) none), .mapper 2,
    .chan (.test (.mapper 1)), .chan (.lock (.mapper 1) none), .mapper 1, .chan (.test (.mapper 0)),
    .chan (.lock (.mapper 0) none), .chan (.test .reducer), .chan (.lock .reducer (some (.mapper 0))), .reducer,
    .chan (.lock (.mapper 0) none), .mapper 0, .main, .chan (.test .reducer), .chan (.lock .reducer none), .reducer,
    .chan (.test .reducer), .chan (.lock .reducer none), .reducer, .chan (.test .reducer),
    .chan (.lock .reducer none), .chan (.test .main), .chan (.lock .main (some .reducer)),
    .chan (.lock .reducer none), .chan (.signal .reducer none), .reducer, .main, .chan (.lock .main none), .main]

/-- `wordcount_deterministic` on these two runs: both write `"a 1\nb 2\n"`. -/
theorem wordcount_deterministic_three : ∃ (s₁ : Sys 1) (s₂ : Sys 3),
    exec step (customEval 1 12 threeWords) oneMapper = some s₁ ∧
      exec step (customEval 3 18 threeWords) threeMappers = some s₂ ∧
      s₁.reducefile = some [97, 32, 49, 10, 98, 32, 50, 10] ∧
      ∃ l, Tally.IsTally compar (entries threeWords) l ∧ s₁.reducefile = some (l.flatMap line) ∧
        s₂.reducefile = some (l.flatMap line) := by
  obtain ⟨s₁, hr₁, hd₁⟩ := (Option.any_eq_true _ _).1 (show (exec step (customEval 1 12 threeWords) oneMapper).any
    (fun s => decide (s.main = .returned) && decide (s.reducefile = some [97, 32, 49, 10, 98, 32, 50, 10])) = true by
      decide +kernel)
  obtain ⟨s₂, hr₂, hd₂⟩ := (Option.any_eq_true _ _).1 (show (exec step (customEval 3 18 threeWords) threeMappers).any
    (fun s => decide (s.main = .returned)) = true by decide +kernel)
  simp only [Bool.and_eq_true, decide_eq_true_eq] at hd₁ hd₂
  have hwords : tokens threeWords = [[98], [97], [66]] := by decide
  have hentries : entries threeWords = [(⟨[98], by decide⟩, 1), (⟨[97], by decide⟩, 1), (⟨[98], by decide⟩, 1)] := by
    decide +kernel
  refine ⟨s₁, s₂, hr₁, hr₂, hd₁.2, wordcount_deterministic (by decide) (by decide) (by decide) (by decide) ⟨?_, ?_⟩ ?_
    (exec_reach hr₁ fun _ _ _ => trivial) (exec_reach hr₂ fun _ _ _ => trivial) hd₁.1 hd₂⟩
  · rw [hwords]
    decide
  · rw [hwords]
    decide
  · intro k
    rw [hentries]
    simp only [Tally.total_cons, Tally.total_nil]
    constructor <;> split_ifs <;> decide

end Cmpsc473.WordCount
