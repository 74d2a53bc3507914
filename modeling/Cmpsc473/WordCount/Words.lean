import Cmpsc473.Lib.CText
import Cmpsc473.Lib.Tally
import Cmpsc473.Channel.Monitor
/-!
# Words, their messages and their counts (`driver.c`)

The sequential parts of `custom_eval`: `dividefile` cuts the text, `wordcount`
makes a message of each word, and `Reducer` makes a key and a value of each
message and adds them up. Cutting keeps the words (`words_dividefile`).

A file is the bytes it holds. The files `tmp<i>.txt` are all different, and the
text is none of them.
-/

namespace Cmpsc473.WordCount

open Channel

/-! ## Dividing the text -/

/-- One round of the loop over the parts: `number` characters, then up to a
blank or a newline. Returns the part, `ch`, and what is left of `fp`. -/
def nextPart (number : Nat) (fp : List UInt8) : List UInt8 × Option UInt8 × List UInt8 :=
  let head := fp.take number
  let fp := fp.drop number
  let word := fp.takeWhile fun ch => ch ≠ 32 && ch ≠ 10
  let fp := fp.dropWhile fun ch => ch ≠ 32 && ch ≠ 10
  (head ++ word, fp.head?, fp.tail)

/-- `k` such rounds, and the last part: `ch` and the rest, unless `ch` is -1. -/
def divideLoop (number : Nat) : Nat → Option UInt8 → List UInt8 → List (List UInt8)
  -- `while (ch != -1)` is not entered
  | 0, none, _ => [[]]
  | 0, some ch, fp => [ch :: fp]
  | k + 1, _, fp =>
    let r := nextPart number fp
    r.1 :: divideLoop number k r.2.1 r.2.2

/-- `dividefile`: what it leaves in `tmp0.txt`, `tmp1.txt`, ... -/
def dividefile (text : List UInt8) (num : Nat) : List (List UInt8) :=
  if num = 1 then [text]
  else
    let number := toInt (text.length / num)
    divideLoop number.toNat (num - 1) none text

/-! ## From words to messages -/

/-- `reformat_string`. -/
def reformatString : List UInt8 → List UInt8
  | [] => []
  | b :: src =>
    if b = 0 then []
    else if !ispunct b then tolower b :: reformatString src
    else reformatString src

/-- `tolower` makes lower-case letters only. -/
theorem tolower_ne {b c : UInt8} (hc : c.toNat < 97) (h : b ≠ c) : tolower b ≠ c := by
  unfold tolower
  split
  · rename_i hr
    simp only [Bool.and_eq_true, decide_eq_true_eq, UInt8.le_iff_toNat_le] at hr
    intro heq
    have htoNat := congrArg UInt8.toNat heq
    rw [UInt8.toNat_add] at htoNat
    simp at hr htoNat
    omega
  · exact h

theorem reformatString_noNul (x : List UInt8) : 0 ∉ reformatString x := by
  induction x with
  | nil => simp [reformatString]
  | cons b src ih =>
    unfold reformatString
    split
    · simp
    · rename_i hb
      split
      · rw [List.mem_cons, not_or]
        exact ⟨(tolower_ne (by decide) hb).symm, ih⟩
      · exact ih

/-- `"%s %d"`. -/
def printKV (key : List UInt8) (value : Int) : List UInt8 := key ++ 32 :: formatInt value

/-- The message `wordcount` makes of the word `x`, whose count is 1. -/
def wordKV (x : List UInt8) : CStr :=
  let key : CStr := ⟨reformatString x, reformatString_noNul x⟩
  if strcmp key.bytes splmsg.bytes = 0 then key
  else ⟨printKV key.bytes 1, by
    have h1 : formatInt 1 = [49] := rfl
    simp [printKV, h1, key.noNul]⟩

/-- The words of a file, as `wordcount` reads them. -/
def tokens (file : List UInt8) : List (List UInt8) := words 1023 file

/-! ## From messages to counts -/

/-- The body of the loop of `Reducer`, up to the tree: the key, the value and
what the calls of `strtok` leave at `out`. `strdup(NULL)` gives `none`. -/
def parseKV (out : List UInt8) : Option ((CStr × Int) × List UInt8) :=
  let r := strtok 32 out
  match r.token with
  | none => none
  | some key =>
    let r' := strtok 32 r.rest
    let value :=
      match r'.token with
      | some val => atoi val.bytes
      | none => -1
    some ((key, value), r.passed ++ r'.passed ++ r'.rest)

/-- `compar`: the order of `strcmp` on the keys. -/
abbrev compar : CStr → CStr → Ordering := strOrder

/-- `(*tmp)->value += value`. -/
def addInt (a b : Int) : Int := toInt (a + b)

/-- The line `actionReduce` writes for a node. -/
def line (e : CStr × Int) : List UInt8 := printKV e.1.bytes e.2 ++ [10]

/-- The key and the value of a message. -/
def decode (m : List UInt8) : Option (CStr × Int) := (parseKV m).map Prod.fst

/-- The key and the value of each word of a text. -/
def entries (text : List UInt8) : List (CStr × Int) := (tokens text).filterMap fun x => decode (wordKV x).bytes

/-! ## What is counted -/

theorem reformatString_noBlank {x : List UInt8} (h : ∀ b ∈ x, isspace b = false) : ∀ c ∈ reformatString x, c ≠ 32 := by
  induction x with
  | nil => simp [reformatString]
  | cons b src ih =>
    have ih := ih fun c hc => h c (List.mem_cons_of_mem _ hc)
    have hb : b ≠ 32 := by
      rintro rfl
      exact absurd (h 32 List.mem_cons_self) (by decide)
    unfold reformatString
    split
    · simp
    · split
      · exact List.forall_mem_cons.2 ⟨tolower_ne (by decide) hb, ih⟩
      · exact ih

/-- The message of a word that is not `"splmsg"`. -/
theorem wordKV_bytes {x : List UInt8} (h : reformatString x ≠ splmsg.bytes) :
    (wordKV x).bytes = reformatString x ++ [32, 49] := by
  have hne : ¬strcmp (reformatString x) splmsg.bytes = 0 :=
    mt (strcmp_eq_zero (reformatString_noNul x) splmsg.noNul).1 h
  simp only [wordKV, hne, if_false]
  rfl

/-- A word counts 1 for what `reformat_string` leaves of it. A word of
punctuation alone leaves nothing: `Reducer` takes its count for the key, and
finds no value. -/
theorem decode_wordKV {x file : List UInt8} (hx : x ∈ tokens file) (h : reformatString x ≠ splmsg.bytes) :
    decode (wordKV x).bytes =
      some (if reformatString x = [] then (⟨[49], by decide⟩, -1) else (⟨reformatString x, reformatString_noNul x⟩, 1)) := by
  rw [wordKV_bytes h]
  split
  · rename_i hnil
    rw [hnil]
    decide +kernel
  · rename_i hne
    have hm : ∀ c ∈ reformatString x, c ≠ 32 ∧ c ≠ 0 := fun c hc =>
      ⟨reformatString_noBlank (words_noSpace (by decide) hx) c hc, fun h0 => reformatString_noNul x (h0 ▸ hc)⟩
    obtain ⟨htok, hrest⟩ := strtok_word hne hm [49]
    obtain ⟨key, hkey, hbytes⟩ := Option.map_eq_some_iff.1 htok
    have hk : key = ⟨reformatString x, reformatString_noNul x⟩ := CStr.ext_bytes hbytes
    have hval : (strtok 32 [49]).token = some ⟨[49], by decide⟩ := by decide
    have hone : atoi [49] = 1 := by decide +kernel
    simp only [decode, parseKV, hkey, hrest, hk, hval, hone, Option.map_some]

/-- `Reducer` reads the string at `out`, whatever lies behind it. -/
theorem decode_cstr (out : List UInt8) : decode (cstr out) = decode out := by
  have hsplit : out = cstr out ++ out.dropWhile (· ≠ 0) := List.takeWhile_append_dropWhile.symm
  have hj : ∀ b ∈ (out.dropWhile (· ≠ 0)).head?, b = 0 := by
    intro b hb
    have := List.head?_dropWhile_not (fun b : UInt8 => decide (b ≠ 0)) out
    rw [Option.mem_def.1 hb] at this
    simpa using this
  obtain ⟨h1, h2⟩ := strtok_append (show (32 : UInt8) ≠ 0 by decide) (cstr out) hj
  obtain ⟨h3, -⟩ := strtok_append (show (32 : UInt8) ≠ 0 by decide) (strtok 32 (cstr out)).rest hj
  rw [← hsplit] at h1 h2
  rw [← h2] at h3
  simp only [decode, parseKV, h1, h3]
  cases (strtok 32 (cstr out)).token <;> rfl

/-! ## Dividing keeps the words -/

theorem tokens_append {d : UInt8} (hd : isspace d = true) (a b : List UInt8) :
    tokens (a ++ d :: b) = tokens a ++ tokens b :=
  words_append (by decide) hd a b

theorem tokens_space {d : UInt8} (hd : isspace d = true) (b : List UInt8) : tokens (d :: b) = tokens b :=
  tokens_append hd [] b

/-- A part ends at the end of the text, or before a blank or a newline. -/
theorem nextPart_cases (number : Nat) (fp : List UInt8) :
    (nextPart number fp).2 = (none, []) ∧ (nextPart number fp).1 = fp ∨
      ∃ ch rest, (nextPart number fp).2 = (some ch, rest) ∧ isspace ch = true ∧
        (nextPart number fp).1 ++ ch :: rest = fp := by
  unfold nextPart
  extract_lets head fp' word fp''
  have happ : head ++ (word ++ fp'') = fp := by
    rw [List.takeWhile_append_dropWhile, List.take_append_drop]
  have hstop := List.head?_dropWhile_not (fun ch : UInt8 => ch ≠ 32 && ch ≠ 10) fp'
  cases hr : fp'' with
  | nil =>
    left
    rw [hr, List.append_nil] at happ
    exact ⟨rfl, happ⟩
  | cons ch rest =>
    right
    refine ⟨ch, rest, rfl, ?_, by rw [← happ, hr, List.append_assoc]⟩
    have hdrop : fp'.dropWhile (fun ch : UInt8 => ch ≠ 32 && ch ≠ 10) = ch :: rest := hr
    rw [hdrop, List.head?_cons] at hstop
    simp only [Bool.and_eq_false_iff, decide_eq_false_iff_not, not_not] at hstop
    rcases hstop with rfl | rfl <;> rfl

theorem words_divideLoop (number k : Nat) (ch : Option UInt8) (fp : List UInt8)
    (h : (ch = none ∧ fp = []) ∨ (∃ d, ch = some d ∧ isspace d = true) ∨ k ≠ 0) :
    (divideLoop number k ch fp).flatMap tokens = tokens fp := by
  induction k generalizing ch fp with
  | zero =>
    rcases h with ⟨rfl, rfl⟩ | ⟨d, rfl, hd⟩ | hk
    · rfl
    · rw [divideLoop, List.flatMap_singleton, tokens_space hd]
    · exact absurd rfl hk
  | succ k ih =>
    rw [divideLoop, List.flatMap_cons]
    rcases nextPart_cases number fp with ⟨h2, h1⟩ | ⟨d, rest, h2, hd, happ⟩
    · rw [h2, h1, ih none [] (.inl ⟨rfl, rfl⟩)]
      simp [tokens, words, scanLoop]
    · rw [h2, ih (some d) rest (.inr (.inl ⟨d, rfl, hd⟩)), ← tokens_append hd, happ]

/-- The parts have the words of the text, however many there are. -/
theorem words_dividefile (text : List UInt8) {num : Nat} (h : 1 ≤ num) :
    (dividefile text num).flatMap tokens = tokens text := by
  unfold dividefile
  split
  · rw [List.flatMap_singleton]
  · exact words_divideLoop _ _ _ _ (.inr (.inr (by omega)))

theorem length_divideLoop (number k : Nat) (ch : Option UInt8) (fp : List UInt8) :
    (divideLoop number k ch fp).length = k + 1 := by
  induction k generalizing ch fp with
  | zero => cases ch <;> rfl
  | succ k ih => rw [divideLoop, List.length_cons, ih]

theorem length_dividefile (text : List UInt8) {num : Nat} (h : 1 ≤ num) : (dividefile text num).length = num := by
  unfold dividefile
  split
  · rename_i h1
    rw [h1]
    rfl
  · rw [length_divideLoop]
    omega

end Cmpsc473.WordCount
