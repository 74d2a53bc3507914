import Cmpsc473.WordCount.Words
/-!
# `dividefile`, call by call

The loops of `dividefile` with their calls of `fgetc` and `fputc`. They write
what `dividefile` says (`filesWritten_eq`), so the words that `wordcount` reads
from the parts are those it reads from the whole file (`divide_keeps_words`).
-/

namespace Cmpsc473.WordCount

/-- What is left of `fp`, what was written to `fpa[i]`, and `ch`, which is
`none` for -1. -/
structure Copy where
  fp : List UInt8
  out : List UInt8
  ch : Option UInt8

/-- `ch = fgetc(fp)`. -/
def Copy.fgetc (s : Copy) : Copy := { s with ch := s.fp.head?, fp := s.fp.tail }

/-- `fputc(ch,fpa[i])`, for a `ch` that was read. -/
def Copy.fputc (s : Copy) (ch : UInt8) : Copy := { s with out := s.out ++ [ch] }

/-- `for(int j = 0;j<number;j++)`. -/
def numberLoop : Nat → Copy → Copy
  | 0, s => s
  | j + 1, s =>
    match s.fgetc.ch with
    | none => s.fgetc
    | some ch => numberLoop j (s.fgetc.fputc ch)

/-- The loops read on while `ch` was read and not all of `fp`. -/
def Copy.left (s : Copy) : Nat := s.fp.length + s.ch.toList.length

theorem left_lt {s : Copy} {ch : UInt8} (h : s.ch = some ch) : (s.fputc ch).fgetc.left < s.left := by
  cases hfp : s.fp <;> simp [Copy.left, Copy.fgetc, Copy.fputc, h, hfp]

/-- `while(ch!=' ' && ch!='\n' && ch!=-1)`. -/
def wordLoop (s : Copy) : Copy :=
  match _h : s.ch with
  | none => s
  | some ch => if ch ≠ 32 && ch ≠ 10 then wordLoop (s.fputc ch).fgetc else s
termination_by s.left
decreasing_by exact left_lt _h

/-- `while (ch != -1)`. -/
def restLoop (s : Copy) : Copy :=
  match _h : s.ch with
  | none => s
  | some ch => restLoop (s.fputc ch).fgetc
termination_by s.left
decreasing_by exact left_lt _h

/-- A round of the loop over the parts, with a new file. -/
def partLoop (number : Nat) (s : Copy) : Copy := wordLoop (numberLoop number { s with out := [] }).fgetc

/-- What `k` rounds leave in their files, and what follows them in the last. -/
def filesLoop (number : Nat) : Nat → Copy → List (List UInt8)
  | 0, s => [(restLoop { s with out := [] }).out]
  | k + 1, s => (partLoop number s).out :: filesLoop number k (partLoop number s)

/-- What `dividefile` leaves in `tmp0.txt`, `tmp1.txt`, ... -/
def filesWritten (text : List UInt8) (num : Nat) : List (List UInt8) :=
  if num = 1 then [text]
  else
    let number := toInt (text.length / num)
    filesLoop number.toNat (num - 1) { fp := text, out := [], ch := none }

/-! ## What the loops copy -/

theorem numberLoop_spec (number : Nat) (s : Copy) :
    (numberLoop number s).fp = s.fp.drop number ∧ (numberLoop number s).out = s.out ++ s.fp.take number := by
  induction number generalizing s with
  | zero => exact ⟨rfl, by rw [List.take_zero, List.append_nil]; rfl⟩
  | succ j ih =>
    cases hfp : s.fp with
    | nil => simp [numberLoop, Copy.fgetc, hfp]
    | cons ch fp =>
      obtain ⟨h1, h2⟩ := ih (s.fgetc.fputc ch)
      have hread : numberLoop (j + 1) s = numberLoop j (s.fgetc.fputc ch) := by simp [numberLoop, Copy.fgetc, hfp]
      rw [hread, h1, h2]
      simp [Copy.fgetc, Copy.fputc, hfp]

theorem wordLoop_spec (s : Copy) : wordLoop s.fgetc =
    { fp := (s.fp.dropWhile fun ch => ch ≠ 32 && ch ≠ 10).tail
      out := s.out ++ s.fp.takeWhile fun ch => ch ≠ 32 && ch ≠ 10
      ch := (s.fp.dropWhile fun ch => ch ≠ 32 && ch ≠ 10).head? } := by
  obtain ⟨fp, out, ch⟩ := s
  induction fp generalizing out ch with
  | nil =>
    rw [wordLoop]
    simp [Copy.fgetc]
  | cons b fp ih =>
    rw [wordLoop]
    by_cases hb : (b ≠ 32 && b ≠ 10) = true
    · have h := ih (out ++ [b]) (some b)
      simp only [Copy.fgetc, Copy.fputc, List.head?_cons, List.tail_cons] at h ⊢
      rw [if_pos hb, h, List.dropWhile_cons, if_pos hb, List.takeWhile_cons, if_pos hb, List.append_assoc]
      rfl
    · simp only [Copy.fgetc, List.head?_cons, List.tail_cons]
      rw [if_neg hb, List.dropWhile_cons, if_neg hb, List.takeWhile_cons, if_neg hb, List.append_nil]
      rfl

theorem restLoop_none {s : Copy} (h : s.ch = none) : restLoop s = s := by
  rw [restLoop]
  split
  · rfl
  · rename_i ch hch
    rw [h] at hch
    cases hch

theorem restLoop_some {s : Copy} {ch : UInt8} (h : s.ch = some ch) : restLoop s = restLoop (s.fputc ch).fgetc := by
  rw [restLoop]
  split
  · rename_i hch
    rw [h] at hch
    cases hch
  · rename_i ch' hch
    rw [h] at hch
    cases hch
    rfl

theorem restLoop_spec (s : Copy) : (restLoop s).out = s.out ++ s.ch.elim [] (· :: s.fp) := by
  obtain ⟨fp, out, ch⟩ := s
  cases ch with
  | none =>
    rw [restLoop_none rfl]
    exact (List.append_nil out).symm
  | some b =>
    induction fp generalizing out b with
    | nil =>
      rw [restLoop_some rfl, restLoop_none rfl]
      rfl
    | cons c fp ih =>
      rw [restLoop_some rfl]
      exact (ih (out ++ [b]) c).trans (List.append_assoc out [b] (c :: fp))

theorem partLoop_spec (number : Nat) (s : Copy) : partLoop number s =
    { fp := (nextPart number s.fp).2.2, out := (nextPart number s.fp).1, ch := (nextPart number s.fp).2.1 } := by
  obtain ⟨h1, h2⟩ := numberLoop_spec number { s with out := [] }
  rw [partLoop, wordLoop_spec, h1, h2, List.nil_append]
  rfl

theorem filesLoop_eq (number k : Nat) (s : Copy) : filesLoop number k s = divideLoop number k s.ch s.fp := by
  induction k generalizing s with
  | zero =>
    rw [filesLoop, restLoop_spec, List.nil_append]
    cases hch : s.ch with
    | none => rfl
    | some b => rfl
  | succ k ih => rw [filesLoop, divideLoop, ih, partLoop_spec]

theorem filesWritten_eq (text : List UInt8) (num : Nat) : filesWritten text num = dividefile text num := by
  unfold filesWritten dividefile
  split
  · rfl
  · exact filesLoop_eq _ _ _

/-- `dividefile` writes `num` files, and the words read from them, one after the
other, are the words of the whole file. -/
theorem divide_keeps_words (text : List UInt8) {num : Nat} (h : 1 ≤ num) :
    (filesWritten text num).length = num ∧ (filesWritten text num).flatMap tokens = tokens text := by
  rw [filesWritten_eq]
  exact ⟨length_dividefile text h, words_dividefile text h⟩

/-- `divide_keeps_words` for `"ab\tc d\n"` in three parts. -/
theorem divide_keeps_words_three :
    (filesWritten [97, 98, 9, 99, 32, 100, 10] 3).flatMap tokens = [[97, 98], [99], [100]] :=
  (divide_keeps_words [97, 98, 9, 99, 32, 100, 10] (by decide)).2.trans (by decide)

end Cmpsc473.WordCount
