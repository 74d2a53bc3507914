import Cmpsc473.Lib.CText
/-!
# Numbers of a file

`fscanf` with the conversions for integers. What `printf` writes for a number is
read back, with what follows it left in the file (`scanNumber_formatInt`).
-/

namespace Cmpsc473

/-- The sign and the digits that a conversion takes, as a number, and what is
left of the file. Without a digit nothing is converted, and only white space and
the sign are taken. -/
def scanNumber (fp : List UInt8) : Option Int × List UInt8 :=
  let fp := fp.dropWhile isspace
  let neg := fp.head? = some 45
  let fp := if fp.head? = some 45 ∨ fp.head? = some 43 then fp.tail else fp
  let digits := fp.takeWhile isdigit
  if digits = [] then (none, fp)
  else
    let v : Int := digitsValue digits
    (some (if neg then -v else v), fp.drop digits.length)

/-- What `strtol` returns: the nearest `long`. -/
def strtol (v : Int) : Int := max (min v 9223372036854775807) (-9223372036854775808)

/-- What `strtoul` returns: the number modulo 2⁶⁴, or `ULONG_MAX`. -/
def strtoul (v : Int) : UInt64 := if 18446744073709551616 ≤ v.natAbs then 18446744073709551615 else UInt64.ofInt v

/-- `%d`. What is not converted keeps its value. -/
def scanInt (fp : List UInt8) (x : Int) : Int × List UInt8 :=
  let (v, fp) := scanNumber fp
  ((v.map fun v => toInt (strtol v)).getD x, fp)

/-- `%zd`, into a `size_t`. -/
def scanSsize (fp : List UInt8) (x : UInt64) : UInt64 × List UInt8 :=
  let (v, fp) := scanNumber fp
  ((v.map fun v => UInt64.ofInt (strtol v)).getD x, fp)

/-- `%u`, into an `int`. -/
def scanUnsigned (fp : List UInt8) (x : Int) : Int × List UInt8 :=
  let (v, fp) := scanNumber fp
  ((v.map fun v => toInt (strtoul v).toNat).getD x, fp)

/-- `%u %lu`. The second number is not read where the first one is missing. -/
def scanUnsignedPair (fp : List UInt8) (x : Int) (y : UInt64) : (Int × UInt64) × List UInt8 :=
  match scanNumber fp with
  | (none, fp) => ((x, y), fp)
  | (some v, fp) =>
    let (w, fp) := scanNumber fp
    ((toInt (strtoul v).toNat, (w.map strtoul).getD y), fp)

/-! ## What was printed -/

variable {n : Nat} {v : Int} {rest lead : List UInt8}

/-- The digits of a number. -/
def digits (n : Nat) : List UInt8 := (Nat.toDigits 10 n).map fun c => UInt8.ofNat c.toNat

theorem formatInt_nat (n : Nat) : formatInt n = digits n := by
  simp [formatInt, digits, Int.not_lt.2 (Int.natCast_nonneg n)]

theorem formatInt_neg (h : v < 0) : formatInt v = 45 :: digits v.natAbs := by
  simp [formatInt, digits, h]

theorem toDigits_range {c : Char} (hc : c ∈ Nat.toDigits 10 n) : 48 ≤ c.toNat ∧ c.toNat ≤ 57 := by
  have := Nat.isDigit_of_mem_toDigits (by decide) (by decide) hc
  simpa [Char.isDigit, UInt32.le_iff_toNat_le] using this

theorem toNat_digit {c : Char} (hc : c ∈ Nat.toDigits 10 n) : (UInt8.ofNat c.toNat).toNat = c.toNat := by
  have := toDigits_range hc
  rw [UInt8.toNat_ofNat']
  omega

theorem isdigit_digits {b : UInt8} (hb : b ∈ digits n) : isdigit b = true := by
  obtain ⟨c, hc, rfl⟩ := List.mem_map.1 hb
  have := toDigits_range hc
  simpa [isdigit, UInt8.le_iff_toNat_le, toNat_digit hc] using this

theorem digits_ne_nil : digits n ≠ [] := by simp [digits]

theorem takeWhile_digits (hrest : ∀ b ∈ rest.head?, isdigit b = false) :
    (digits n ++ rest).takeWhile isdigit = digits n := by
  rw [takeWhile_append_stop _ hrest, List.takeWhile_eq_self_iff]
  exact fun b hb => isdigit_digits hb

/-- The digits of a number spell it. -/
theorem digitsValue_digits : digitsValue (digits n) = n := by
  have hfold : ∀ (cs : List Char) (m : Nat), (∀ c ∈ cs, c ∈ Nat.toDigits 10 n) →
      (cs.map fun c => UInt8.ofNat c.toNat).foldl (fun m b => 10 * m + (b.toNat - 48)) m =
        Nat.ofDigitChars 10 cs m := by
    intro cs
    induction cs with
    | nil => exact fun m _ => rfl
    | cons c cs ih =>
      intro m hcs
      rw [List.map_cons, List.foldl_cons, ih _ fun c hc => hcs c (List.mem_cons_of_mem _ hc),
        toNat_digit (hcs c List.mem_cons_self), Nat.ofDigitChars_cons]
      rfl
  have hall : (digits n).takeWhile isdigit = digits n := List.takeWhile_eq_self_iff.2 fun b hb => isdigit_digits hb
  rw [digitsValue, hall, digits, hfold _ _ fun _ hc => hc, Nat.ofDigitChars_ten_toDigits]

/-- A digit is no white space and no sign. -/
theorem isdigit_only {b : UInt8} (hb : isdigit b = true) : isspace b = false ∧ b ≠ 45 ∧ b ≠ 43 := by
  simp only [isdigit, Bool.and_eq_true, decide_eq_true_eq, UInt8.le_iff_toNat_le, UInt8.reduceToNat] at hb
  refine ⟨?_, ?_, ?_⟩
  · simp only [isspace, Bool.or_eq_false_iff, Bool.and_eq_false_iff, decide_eq_false_iff_not, UInt8.le_iff_toNat_le,
      ← UInt8.toNat_inj, UInt8.reduceToNat]
    omega
  · rintro rfl
    exact absurd hb.1 (by decide)
  · rintro rfl
    exact absurd hb.1 (by decide)

theorem dropWhile_lead (hlead : ∀ b ∈ lead, isspace b = true) (hrest : ∀ b ∈ rest.head?, isspace b = false) :
    (lead ++ rest).dropWhile isspace = rest := by
  rw [dropWhile_append_stop _ hrest, List.dropWhile_eq_nil_iff.2 hlead, List.nil_append]

/-- A number is read as it was printed. -/
theorem scanNumber_formatInt (hlead : ∀ b ∈ lead, isspace b = true) (hrest : ∀ b ∈ rest.head?, isdigit b = false) :
    scanNumber (lead ++ (formatInt v ++ rest)) = (some v, rest) := by
  obtain ⟨b, bs, hb⟩ := List.exists_cons_of_ne_nil (digits_ne_nil (n := v.natAbs))
  obtain ⟨hspace, hminus, hplus⟩ := isdigit_only (isdigit_digits (n := v.natAbs) (hb ▸ List.mem_cons_self))
  have htake := takeWhile_digits (n := v.natAbs) hrest
  have hdrop : (digits v.natAbs ++ rest).drop (digits v.natAbs).length = rest := List.drop_left
  by_cases hneg : v < 0
  · have hfirst : (lead ++ (formatInt v ++ rest)).dropWhile isspace = 45 :: (digits v.natAbs ++ rest) := by
      rw [formatInt_neg hneg]
      exact dropWhile_lead hlead (by simp; decide)
    simp only [scanNumber, hfirst, List.head?_cons, if_true, true_or, List.tail_cons, htake, digits_ne_nil, if_false,
      hdrop, digitsValue_digits]
    rw [Int.ofNat_natAbs_of_nonpos hneg.le, neg_neg]
  · have hfirst : (lead ++ (formatInt v ++ rest)).dropWhile isspace = digits v.natAbs ++ rest := by
      obtain ⟨n, rfl⟩ := Int.eq_ofNat_of_zero_le (Int.not_lt.1 hneg)
      rw [formatInt_nat]
      refine dropWhile_lead hlead ?_
      rw [Int.natAbs_natCast] at hb
      simpa [hb] using hspace
    have hhead : (digits v.natAbs ++ rest).head? = some b := by
      rw [hb]
      rfl
    simp only [scanNumber, hfirst, hhead, Option.some.injEq, hminus, hplus, or_self, if_false, htake, digits_ne_nil,
      hdrop, digitsValue_digits]
    rw [Int.natAbs_of_nonneg (Int.not_lt.1 hneg)]

/-- A number behind one character of white space, and before another one. -/
theorem scanNumber_between {b c : UInt8} (hb : isspace b = true) (hc : isspace c = true) :
    scanNumber (b :: (formatInt v ++ c :: rest)) = (some v, c :: rest) := by
  have hlead : ∀ x ∈ [b], isspace x = true := by simpa using hb
  have hrest : ∀ x ∈ (c :: rest).head?, isdigit x = false := by
    rintro x hx
    cases hx
    by_contra hdigit
    rw [(isdigit_only (by simpa using hdigit)).1] at hc
    cases hc
  exact scanNumber_formatInt hlead hrest

/-- A word of one character, behind white space. -/
theorem scanWord_char {width : Nat} {b c : UInt8} (hw : 0 < width) (hlead : ∀ b ∈ lead, isspace b = true)
    (hb : isspace b = false) (hc : isspace c = true) :
    scanWord width (lead ++ b :: c :: rest) = some ([b], c :: rest) := by
  have hdrop : (lead ++ b :: c :: rest).dropWhile isspace = b :: c :: rest := dropWhile_lead hlead (by simpa using hb)
  have htake : (b :: c :: rest).takeWhile (fun b => !isspace b) = [b] := by simp [hb, hc]
  obtain ⟨n, rfl⟩ := Nat.exists_eq_succ_of_ne_zero hw.ne'
  simp [scanWord, hdrop, htake]

/-- Nothing but white space is left. -/
theorem scanWord_end {width : Nat} (hlead : ∀ b ∈ lead, isspace b = true) : scanWord width lead = none := by
  rw [scanWord, if_pos (List.dropWhile_eq_nil_iff.2 hlead)]

/-! ## Conversions -/

theorem toInt_strtol (h1 : -2147483648 ≤ v) (h2 : v ≤ intMax) : toInt (strtol v) = v := by
  simp only [toInt, strtol, intMax] at *
  omega

theorem toNat_ofInt (v : Int) : ((UInt64.ofInt v).toNat : Int) = v % 18446744073709551616 := by
  rw [UInt64.ofInt, UInt64.toNat_ofNat']
  omega

/-- A negative `int` is read by `%u` as `%d` prints it. -/
theorem toInt_strtoul (h1 : -2147483648 ≤ v) (h2 : v ≤ intMax) : toInt (strtoul v).toNat = v := by
  simp only [intMax] at h2
  rw [strtoul, if_neg (by omega), toNat_ofInt, toInt]
  omega

theorem strtoul_toNat (x : UInt64) : strtoul x.toNat = x := by
  have hx := x.toNat_lt
  rw [strtoul, if_neg (by omega), UInt64.ofInt]
  apply UInt64.toNat_inj.1
  rw [UInt64.toNat_ofNat']
  omega

/-- `atoi` converts as `%d` does. -/
theorem atoi_eq (s : List UInt8) : atoi s = (scanInt s 0).1 := by
  have hvalue : ∀ t, digitsValue (t.takeWhile isdigit) = digitsValue t := by
    intro t
    rw [digitsValue, digitsValue, List.takeWhile_idem]
  have hnone : ∀ t, t.takeWhile isdigit = [] → digitsValue t = 0 := by
    intro t ht
    rw [digitsValue, ht]
    rfl
  unfold atoi scanInt scanNumber
  dsimp only
  generalize List.dropWhile isspace s = t
  generalize (if t.head? = some 45 ∨ t.head? = some 43 then t.tail else t) = u
  by_cases hu : u.takeWhile isdigit = []
  · rw [if_pos hu, hnone u hu]
    split <;> rfl
  · rw [if_neg hu, hvalue]
    simp only [Option.map_some, Option.getD_some, strtol]
    congr 1
    split <;> omega

/-- A number is converted as it was printed. -/
theorem atoi_formatInt (h1 : -2147483648 ≤ v) (h2 : v ≤ intMax) (hrest : ∀ b ∈ rest.head?, isdigit b = false) :
    atoi (formatInt v ++ rest) = v := by
  have hscan : scanNumber ([] ++ (formatInt v ++ rest)) = (some v, rest) :=
    scanNumber_formatInt (fun _ hb => absurd hb List.not_mem_nil) hrest
  rw [List.nil_append] at hscan
  rw [atoi_eq, scanInt, hscan]
  exact toInt_strtol h1 h2

theorem toInt_range (v : Int) : -2147483648 ≤ toInt v ∧ toInt v ≤ intMax := by
  simp only [toInt, intMax]
  omega

end Cmpsc473
