import Cmpsc473.WordCount.Words
/-!
# A word on its way

What `reformat_string` leaves of a word, when `Reducer` reads that back from the
message of the word, and whether what is written for the word fits the buffers it
passes through.
-/

namespace Cmpsc473.WordCount

open Channel

variable {x file : List UInt8}

/-! ## What is left of a word -/

/-- `reformat_string` keeps what is not punctuation, up to the NUL. -/
theorem reformatString_eq (x : List UInt8) :
    reformatString x = ((cstr x).filter fun b => !ispunct b).map tolower := by
  induction x with
  | nil => rfl
  | cons b src ih =>
    rw [reformatString]
    by_cases hb : b = 0
    · simp [cstr, hb]
    · have hcstr : cstr (b :: src) = b :: cstr src := List.takeWhile_cons_of_pos (by simpa using hb)
      rw [if_neg hb, hcstr, ih]
      by_cases hp : ispunct b = true
      · simp [hp]
      · simp [hp]

theorem length_reformatString (x : List UInt8) : (reformatString x).length = (cstr x).countP fun b => !ispunct b := by
  rw [reformatString_eq, List.length_map, List.countP_eq_length_filter]

/-- Something is left of a word that is not all punctuation. -/
theorem reformatString_ne_nil : reformatString x ≠ [] ↔ ∃ b ∈ cstr x, ispunct b = false := by
  rw [← List.length_pos_iff, length_reformatString, List.countP_pos_iff]
  simp only [Bool.not_eq_true']

/-- It is no longer than the string. -/
theorem length_reformatString_le (x : List UInt8) : (reformatString x).length ≤ x.length := by
  rw [length_reformatString]
  exact (List.countP_le_length ..).trans (List.takeWhile_prefix _).length_le

/-! ## From the message back to the word -/

/-- Whatever lay in the buffer, `Reducer` makes the key and 1 of the message of a
word if and only if the word has a character that is not punctuation. -/
theorem decodes_iff (hx : x ∈ tokens file) (h : reformatString x ≠ splmsg.bytes) (out : List UInt8) :
    decode (overwrite out (wordKV x).mem) = some (⟨reformatString x, reformatString_noNul x⟩, 1) ↔
      ∃ b ∈ cstr x, ispunct b = false := by
  have hmem : decode (overwrite out (wordKV x).mem) = decode (wordKV x).bytes := by
    rw [← decode_cstr, overwrite, cstr_mem]
  rw [hmem, decode_wordKV hx h, ← reformatString_ne_nil]
  constructor
  · intro heq hnil
    rw [if_pos hnil] at heq
    have hvalue : (-1 : Int) = 1 := congrArg Prod.snd (Option.some.inj heq)
    cases hvalue
  · intro hne
    rw [if_neg hne]

/-- `decodes_iff` for `"It's"`, over what an earlier message left. -/
theorem decodes_iff_word : decode (overwrite [120, 120, 120, 0, 49, 0, 120, 120] (wordKV [73, 116, 39, 115]).mem) =
    some (⟨[105, 116, 115], by decide⟩, 1) :=
  (decodes_iff (show [73, 116, 39, 115] ∈ tokens [73, 116, 39, 115] by decide) (by decide) _).2
    ⟨73, by decide, by decide⟩

/-- The word `"-"` becomes the key `"1"` with the value -1. -/
theorem decodes_iff_fails : [45] ∈ tokens [45] ∧ reformatString [45] = [] ∧ (wordKV [45]).mem.length ≤ 64 ∧
    decode (wordKV [45]).mem = some (⟨[49], by decide⟩, -1) ∧
    decode (wordKV [45]).mem ≠ some (⟨reformatString [45], reformatString_noNul [45]⟩, 1) := by
  decide +kernel

/-! ## The buffers -/

/-- What is written for the word `x` fits: by `fscanf` into `x`, by
`reformat_string` into `y`, by `sprintf` into `wordKV`, and by `buffer_remove_Q`,
from any ring that holds the message next, into the buffer of `Reducer`. -/
structure BuffersSuffice (x : List UInt8) : Prop where
  scanned : x.length + 1 ≤ 1024
  reformatted : (reformatString x).length + 1 ≤ 1024
  printed : (wordKV x).mem.length ≤ 64
  received : ∀ f q out, Holds f (wordKV x :: q) → out.length = 1024 → (bufferRemoveQ f out).2.1.length = 1024

/-- The message of a word fits `wordKV` if at most 61 characters are left of the word. -/
theorem length_wordKV (x : List UInt8) : (wordKV x).mem.length ≤ 64 ↔ (reformatString x).length ≤ 61 := by
  rw [CStr.length_mem, CStr.strlen]
  by_cases h : reformatString x = splmsg.bytes
  · have hkey : (wordKV x).bytes = splmsg.bytes := by
      have hzero : strcmp (reformatString x) splmsg.bytes = 0 :=
        (strcmp_eq_zero (reformatString_noNul x) splmsg.noNul).2 h
      simp only [wordKV, hzero, if_true]
      exact h
    rw [hkey, h]
    decide
  · rw [wordKV_bytes h, List.length_append]
    simp
    omega

/-- What is written for a word fits its buffers if and only if the word has at
most 61 characters that are not punctuation. -/
theorem buffers_suffice_iff (hx : x ∈ tokens file) :
    BuffersSuffice x ↔ (cstr x).countP (fun b => !ispunct b) ≤ 61 := by
  rw [← length_reformatString, ← length_wordKV]
  have hlength : x.length ≤ 1023 := words_length (by decide) hx
  have hy := length_reformatString_le x
  refine ⟨fun h => h.printed, fun h => ⟨by omega, by omega, h, fun f q out hf hout => ?_⟩⟩
  obtain ⟨g, hg, -⟩ := bufferRemoveQ_cons hf out
  rw [hg, ← hout]
  exact length_overwrite (by omega)

/-- `buffers_suffice_iff` for `"It's"`. -/
theorem buffers_suffice_iff_word : BuffersSuffice [73, 116, 39, 115] :=
  (buffers_suffice_iff (show [73, 116, 39, 115] ∈ tokens [73, 116, 39, 115] by decide)).2 (by decide)

/-- A word of 62 letters overflows `wordKV`, one of 1023 the buffer of `Reducer` too. -/
theorem buffers_suffice_iff_fails : List.replicate 62 97 ∈ tokens (List.replicate 62 97) ∧
    (wordKV (List.replicate 62 97)).mem.length = 65 ∧ ¬BuffersSuffice (List.replicate 62 97) ∧
    List.replicate 1023 97 ∈ tokens (List.replicate 1023 97) ∧ 1024 < (wordKV (List.replicate 1023 97)).mem.length := by
  have hlength : (wordKV (List.replicate 62 97)).mem.length = 65 := by decide +kernel
  refine ⟨by decide +kernel, hlength, fun h => ?_, by decide +kernel, by decide +kernel⟩
  have hfits := h.printed
  rw [hlength] at hfits
  exact absurd hfits (by decide)

end Cmpsc473.WordCount
