import Mathlib
import Cmpsc473.Lib.CData
/-!
# C text: characters, words, numbers

The functions of `<ctype.h>`, `<string.h>` and `<stdio.h>` in the C locale, on
the bytes of a string or of what is left of a file. A list that ends stands
for a string whose NUL follows.
-/

namespace Cmpsc473

/-! ## Characters -/

def isspace (b : UInt8) : Bool := b = 32 || (9 ≤ b && b ≤ 13)

def ispunct (b : UInt8) : Bool :=
  (33 ≤ b && b ≤ 47) || (58 ≤ b && b ≤ 64) || (91 ≤ b && b ≤ 96) || (123 ≤ b && b ≤ 126)

def isdigit (b : UInt8) : Bool := 48 ≤ b && b ≤ 57

def tolower (b : UInt8) : UInt8 := if 65 ≤ b && b ≤ 90 then b + 32 else b

/-! ## Order -/

/-- `strcmp`: the difference at the first byte that differs. -/
def strcmp : List UInt8 → List UInt8 → Int
  | [], [] => 0
  | [], b :: _ => -b.toNat
  | a :: _, [] => a.toNat
  | a :: s, b :: t => if a = b then strcmp s t else a.toNat - b.toNat

/-- The order that `strcmp` puts on strings. -/
def strOrder (s t : CStr) : Ordering := compare (strcmp s.bytes t.bytes) 0

theorem toNat_pos {b : UInt8} (h : b ≠ 0) : 0 < b.toNat := by
  by_contra hz
  exact h (UInt8.toNat_inj.1 (by rw [UInt8.toNat_zero]; omega))

/-- `strcmp` orders strings as lists of unsigned bytes. -/
theorem compare_strcmp {s t : List UInt8} (hs : 0 ∉ s) (ht : 0 ∉ t) : compare (strcmp s t) 0 = compare s t := by
  induction s generalizing t with
  | nil =>
    cases t with
    | nil => rfl
    | cons b t =>
      have := toNat_pos fun h : b = 0 => ht (h ▸ List.mem_cons_self)
      rw [strcmp, List.compare_nil_cons, Int.compare_eq_lt]
      omega
  | cons a s ih =>
    cases t with
    | nil =>
      have := toNat_pos fun h : a = 0 => hs (h ▸ List.mem_cons_self)
      rw [strcmp, List.compare_cons_nil, Int.compare_eq_gt]
      omega
    | cons b t =>
      rw [List.compare_cons_cons]
      by_cases hab : a = b
      · subst hab
        rw [strcmp, if_pos rfl, ih (fun h => hs (List.mem_cons_of_mem _ h)) (fun h => ht (List.mem_cons_of_mem _ h)),
          Std.ReflOrd.compare_self, Ordering.eq_then]
      · rw [strcmp, if_neg hab]
        have hne : a.toNat ≠ b.toNat := fun h => hab (UInt8.toNat_inj.1 h)
        rcases Nat.lt_or_gt_of_ne hne with hlt | hlt
        · have hc : compare a b = .lt := Std.compare_eq_lt.2 (UInt8.lt_iff_toNat_lt.2 hlt)
          rw [hc, Ordering.lt_then, Int.compare_eq_lt]
          omega
        · have hc : compare a b = .gt := Std.compare_eq_gt.2 (UInt8.lt_iff_toNat_lt.2 hlt)
          rw [hc, Ordering.gt_then, Int.compare_eq_gt]
          omega

theorem strOrder_eq (s t : CStr) : strOrder s t = compare s.bytes t.bytes := compare_strcmp s.noNul t.noNul

theorem strcmp_eq_zero {s t : List UInt8} (hs : 0 ∉ s) (ht : 0 ∉ t) : strcmp s t = 0 ↔ s = t := by
  rw [← Int.compare_eq_eq, compare_strcmp hs ht, Std.LawfulEqCmp.compare_eq_iff_eq]

instance : Std.TransCmp strOrder where
  eq_swap {s t} := by
    rw [strOrder_eq, strOrder_eq]
    exact Std.OrientedCmp.eq_swap
  isLE_trans {s t u} h1 h2 := by
    rw [strOrder_eq] at *
    exact Std.TransCmp.isLE_trans h1 h2

instance : Std.LawfulEqCmp strOrder where
  compare_self {s} := by rw [strOrder_eq]; exact Std.ReflCmp.compare_self
  eq_of_compare {s t} h := by
    rw [strOrder_eq] at h
    exact CStr.ext_bytes (Std.LawfulEqCmp.eq_of_compare h)

/-! ## Words of a file -/

/-- `fscanf(fp, " %<width>s", x)`: the word read and what is left, or `none` at
the end of the file. -/
def scanWord (width : Nat) (fp : List UInt8) : Option (List UInt8 × List UInt8) :=
  let fp := fp.dropWhile isspace
  if fp = [] then none
  else
    let x := (fp.takeWhile fun b => !isspace b).take width
    some (x, fp.drop x.length)

/-- At most `n` calls of `fscanf`. -/
def scanLoop (width : Nat) : Nat → List UInt8 → List (List UInt8)
  | 0, _ => []
  | n + 1, fp =>
    match scanWord width fp with
    | none => []
    | some (x, rest) => x :: scanLoop width n rest

/-- The words that `fscanf` reads up to the end of the file. -/
def words (width : Nat) (fp : List UInt8) : List (List UInt8) := scanLoop width fp.length fp

variable {width : Nat} {fp rest x : List UInt8}

/-- A word is not empty, has no white space, and is read off the file. -/
theorem scanWord_some (hw : 0 < width) (h : scanWord width fp = some (x, rest)) :
    x ≠ [] ∧ (∀ b ∈ x, isspace b = false) ∧ fp.dropWhile isspace = x ++ rest := by
  simp only [scanWord, Option.ite_none_left_eq_some, Option.some.injEq, Prod.mk.injEq] at h
  obtain ⟨hne, rfl, rfl⟩ := h
  refine ⟨?_, fun b hb => ?_, ?_⟩
  · obtain ⟨b, bs, hb⟩ := List.exists_cons_of_ne_nil hne
    have hsp := List.head?_dropWhile_not isspace fp
    rw [hb, List.head?_cons] at hsp
    obtain ⟨n, rfl⟩ := Nat.exists_eq_succ_of_ne_zero hw.ne'
    simp [hb, hsp]
  · have := List.mem_takeWhile_imp (List.mem_of_mem_take hb)
    simpa using this
  · have hx := (List.take_prefix width _).trans (List.takeWhile_prefix (fun b => !isspace b) (l := fp.dropWhile isspace))
    exact (List.prefix_iff_eq_append.1 hx).symm

theorem length_scanWord (hw : 0 < width) (h : scanWord width fp = some (x, rest)) : rest.length < fp.length := by
  obtain ⟨hne, -, happ⟩ := scanWord_some hw h
  have h1 := congrArg List.length happ
  have h2 := (List.dropWhile_suffix isspace (l := fp)).length_le
  have h3 := List.length_pos_iff.2 hne
  rw [List.length_append] at h1
  omega

theorem scanLoop_some (h : scanWord width fp = some (x, rest)) (n : Nat) :
    scanLoop width (n + 1) fp = x :: scanLoop width n rest := by
  simp only [scanLoop, h]

theorem scanLoop_none (h : scanWord width fp = none) (n : Nat) : scanLoop width n fp = [] := by
  cases n with
  | zero => rfl
  | succ n => simp only [scanLoop, h]

/-- Enough calls reach the end of the file. -/
theorem scanLoop_eq (hw : 0 < width) {n : Nat} (hn : fp.length ≤ n) : scanLoop width n fp = words width fp := by
  have key : ∀ m (fp : List UInt8), fp.length ≤ m → ∀ n, fp.length ≤ n → scanLoop width n fp = scanLoop width m fp := by
    intro m
    induction m with
    | zero =>
      intro fp hm n _
      obtain rfl := List.length_eq_zero_iff.1 (Nat.le_zero.1 hm)
      cases n <;> rfl
    | succ m ih =>
      intro fp hm n hn
      cases n with
      | zero =>
        obtain rfl := List.length_eq_zero_iff.1 (Nat.le_zero.1 hn)
        rfl
      | succ n =>
        cases hs : scanWord width fp with
        | none => rw [scanLoop_none hs, scanLoop_none hs]
        | some r =>
          obtain ⟨x, rest⟩ := r
          have := length_scanWord hw hs
          rw [scanLoop_some hs, scanLoop_some hs, ih rest (by omega) n (by omega)]
  exact key _ _ le_rfl n hn

theorem words_some (hw : 0 < width) (h : scanWord width fp = some (x, rest)) :
    words width fp = x :: words width rest := by
  have hlt := length_scanWord hw h
  obtain ⟨n, hn⟩ := Nat.exists_eq_succ_of_ne_zero (Nat.ne_of_gt (Nat.zero_lt_of_lt hlt))
  rw [words, hn, Nat.succ_eq_add_one, scanLoop_some h, scanLoop_eq hw (by omega)]

theorem words_none (h : scanWord width fp = none) : words width fp = [] := scanLoop_none h _

/-- What every scan returns holds of all words. -/
theorem words_forall {P : List UInt8 → Prop} (hw : 0 < width)
    (hP : ∀ {fp rest x}, scanWord width fp = some (x, rest) → P x) (hx : x ∈ words width fp) : P x := by
  induction hn : fp.length using Nat.strong_induction_on generalizing fp with
  | _ n ih =>
    cases hs : scanWord width fp with
    | none =>
      rw [words_none hs] at hx
      cases hx
    | some r =>
      obtain ⟨y, rest⟩ := r
      rw [words_some hw hs] at hx
      rcases List.mem_cons.1 hx with rfl | hx
      · exact hP hs
      · exact ih _ (by rw [← hn]; exact length_scanWord hw hs) hx rfl

/-- No word has white space. -/
theorem words_noSpace (hw : 0 < width) (hx : x ∈ words width fp) : ∀ b ∈ x, isspace b = false :=
  words_forall (P := fun x => ∀ b ∈ x, isspace b = false) hw (fun hs => (scanWord_some hw hs).2.1) hx

theorem length_scanWord_le (h : scanWord width fp = some (x, rest)) : x.length ≤ width := by
  simp only [scanWord, Option.ite_none_left_eq_some, Option.some.injEq, Prod.mk.injEq] at h
  rw [← h.2.1]
  exact List.length_take_le ..

/-- No word is longer than the width. -/
theorem words_length (hw : 0 < width) (hx : x ∈ words width fp) : x.length ≤ width :=
  words_forall (P := fun x => x.length ≤ width) hw length_scanWord_le hx

/-- Leading white space is skipped. -/
theorem words_skip (hw : 0 < width) {gp : List UInt8} (h : fp.dropWhile isspace = gp.dropWhile isspace) :
    words width fp = words width gp := by
  have hs : scanWord width fp = scanWord width gp := by simp only [scanWord, h]
  cases hg : scanWord width gp with
  | none => rw [words_none hg, words_none (hs.trans hg)]
  | some r => rw [words_some hw hg, words_some hw (hs.trans hg)]

/-- A file may be cut at any white space. -/
theorem words_append (hw : 0 < width) {d : UInt8} (hd : isspace d = true) (fp gp : List UInt8) :
    words width (fp ++ d :: gp) = words width fp ++ words width gp := by
  induction hn : fp.length using Nat.strong_induction_on generalizing fp with
  | _ n ih =>
    have hdrop : (fp ++ d :: gp).dropWhile isspace =
        if fp.dropWhile isspace = [] then gp.dropWhile isspace else fp.dropWhile isspace ++ d :: gp := by
      rw [List.dropWhile_append, List.dropWhile_cons_of_pos hd]
      simp only [List.isEmpty_iff]
    by_cases hfp : fp.dropWhile isspace = []
    · rw [if_pos hfp] at hdrop
      rw [words_skip hw hdrop, words_none (show scanWord width fp = none by simp only [scanWord, hfp, if_true]),
        List.nil_append]
    · rw [if_neg hfp] at hdrop
      obtain ⟨⟨x, rest⟩, hr⟩ : ∃ r, scanWord width fp = some r := ⟨_, by simp only [scanWord, hfp, if_false]; rfl⟩
      -- the word ends before `d` in both files
      have hs : scanWord width (fp ++ d :: gp) = some (x, rest ++ d :: gp) := by
        have htake : (fp.dropWhile isspace ++ d :: gp).takeWhile (fun b => !isspace b) =
            (fp.dropWhile isspace).takeWhile fun b => !isspace b := by
          rw [List.takeWhile_append]
          split
          · rename_i hall
            rw [List.takeWhile_cons_of_neg (by simp [hd]), List.append_nil]
            exact ((List.takeWhile_prefix _).eq_of_length hall).symm
          · rfl
        simp only [scanWord, hfp, if_false, Option.some.injEq, Prod.mk.injEq] at hr
        obtain ⟨rfl, rfl⟩ := hr
        simp only [scanWord, hdrop, List.append_eq_nil_iff, hfp, false_and, if_false, htake, Option.some.injEq,
          Prod.mk.injEq, true_and]
        apply List.drop_append_of_le_length
        exact ((List.take_prefix width _).trans (List.takeWhile_prefix _)).length_le
      have hlt := length_scanWord hw hr
      rw [words_some hw hs, words_some hw hr, ih _ (by omega) _ rfl, List.cons_append]

/-! ## `strtok` -/

theorem cstr_noNul (m : List UInt8) : 0 ∉ cstr m := fun h => by simpa using List.mem_takeWhile_imp h

/-- A call of `strtok`: the memory up to the saved pointer, with the delimiter
overwritten, the token, and the memory from the saved pointer on. -/
structure Strtok where
  passed : List UInt8
  token : Option CStr
  rest : List UInt8

/-- The token at the front of `m`. -/
def tokenPrefix (delim : UInt8) (m : List UInt8) : CStr where
  bytes := m.takeWhile fun b => b ≠ delim && b ≠ 0
  noNul h := by simpa using List.mem_takeWhile_imp h

/-- `strtok(m, delim)`, and `strtok(NULL, delim)` where `m` is the memory at the
saved pointer. -/
def strtok (delim : UInt8) (m : List UInt8) : Strtok :=
  let lead := m.takeWhile (· = delim)
  let m := m.dropWhile (· = delim)
  let token := tokenPrefix delim m
  let rest := m.dropWhile fun b => b ≠ delim && b ≠ 0
  if token.bytes = [] then { passed := lead, token := none, rest := m }
  else if rest.head? = some delim then { passed := lead ++ token.bytes ++ [0], token := some token, rest := rest.tail }
  else { passed := lead ++ token.bytes, token := some token, rest := rest }

theorem takeWhile_append_stop {p : UInt8 → Bool} (s : List UInt8) {j : List UInt8} (hj : ∀ b ∈ j.head?, p b = false) :
    (s ++ j).takeWhile p = s.takeWhile p := by
  induction s with
  | nil =>
    cases j with
    | nil => rfl
    | cons b j => simpa using hj b rfl
  | cons a s ih =>
    rw [List.cons_append, List.takeWhile_cons, List.takeWhile_cons, ih]

theorem dropWhile_append_stop {p : UInt8 → Bool} (s : List UInt8) {j : List UInt8} (hj : ∀ b ∈ j.head?, p b = false) :
    (s ++ j).dropWhile p = s.dropWhile p ++ j := by
  induction s with
  | nil =>
    cases j with
    | nil => rfl
    | cons b j => simpa using hj b rfl
  | cons a s ih =>
    rw [List.cons_append, List.dropWhile_cons, List.dropWhile_cons, ih]
    split <;> rfl

/-- What follows the NUL of a string is no business of `strtok`. -/
theorem strtok_append {delim : UInt8} (hd : delim ≠ 0) (s : List UInt8) {j : List UInt8} (hj : ∀ b ∈ j.head?, b = 0) :
    (strtok delim (s ++ j)).token = (strtok delim s).token ∧
      (strtok delim (s ++ j)).rest = (strtok delim s).rest ++ j := by
  have hlead : ∀ b ∈ j.head?, decide (b = delim) = false := fun b hb => by
    rw [hj b hb]
    exact decide_eq_false hd.symm
  have hstop : ∀ b ∈ j.head?, (decide (b ≠ delim) && decide (b ≠ 0)) = false := fun b hb => by simp [hj b hb]
  have htoken : ∀ m, tokenPrefix delim (m ++ j) = tokenPrefix delim m := fun m =>
    CStr.ext_bytes (takeWhile_append_stop m hstop)
  simp only [strtok, dropWhile_append_stop s hlead, htoken, dropWhile_append_stop _ hstop]
  by_cases hnil : (tokenPrefix delim (s.dropWhile fun b => decide (b = delim))).bytes = []
  · rw [if_pos hnil, if_pos hnil]
    exact ⟨rfl, rfl⟩
  · rw [if_neg hnil, if_neg hnil]
    cases (s.dropWhile fun b => decide (b = delim)).dropWhile fun b => decide (b ≠ delim) && decide (b ≠ 0) with
    | nil =>
      -- the token ends with the string: the delimiter does not follow
      have hne : j.head? ≠ some delim := fun h => hd (hj delim h)
      rw [List.nil_append, if_neg hne, List.head?_nil, if_neg (by simp)]
      exact ⟨rfl, rfl⟩
    | cons b bs =>
      rw [List.cons_append, List.head?_cons, List.head?_cons]
      split <;> exact ⟨rfl, rfl⟩

/-- A word is the token up to the delimiter that follows it. -/
theorem strtok_word {delim : UInt8} {w : List UInt8} (hw : w ≠ []) (hm : ∀ c ∈ w, c ≠ delim ∧ c ≠ 0) (m : List UInt8) :
    (strtok delim (w ++ delim :: m)).token.map CStr.bytes = some w ∧ (strtok delim (w ++ delim :: m)).rest = m := by
  have hdrop : (w ++ delim :: m).dropWhile (fun c => decide (c = delim)) = w ++ delim :: m := by
    obtain ⟨c, w, rfl⟩ := List.exists_cons_of_ne_nil hw
    have := (hm c List.mem_cons_self).1
    rw [List.cons_append, List.dropWhile_cons_of_neg (by simpa using this)]
  have hstop : ∀ c ∈ (delim :: m).head?, (decide (c ≠ delim) && decide (c ≠ 0)) = false := by simp
  have hall : ∀ c ∈ w, (decide (c ≠ delim) && decide (c ≠ 0)) = true := fun c hc => by simpa using hm c hc
  have htake : (w ++ delim :: m).takeWhile (fun c => decide (c ≠ delim) && decide (c ≠ 0)) = w := by
    rw [takeWhile_append_stop _ hstop, List.takeWhile_eq_self_iff.2 hall]
  have hrest : (w ++ delim :: m).dropWhile (fun c => decide (c ≠ delim) && decide (c ≠ 0)) = delim :: m := by
    rw [dropWhile_append_stop _ hstop, List.dropWhile_eq_nil_iff.2 hall, List.nil_append]
  simp only [strtok, tokenPrefix, hdrop, htake, hrest, hw, if_false, List.head?_cons, if_true, List.tail_cons,
    Option.map_some, and_true]

/-- A word at the end of a string is the last token. -/
theorem strtok_last {delim : UInt8} {w : List UInt8} (hw : w ≠ []) (hm : ∀ c ∈ w, c ≠ delim ∧ c ≠ 0) :
    (strtok delim w).token.map CStr.bytes = some w := by
  have hdrop : w.dropWhile (fun c => decide (c = delim)) = w := by
    obtain ⟨c, w, rfl⟩ := List.exists_cons_of_ne_nil hw
    have := (hm c List.mem_cons_self).1
    rw [List.dropWhile_cons_of_neg (by simpa using this)]
  have hall : ∀ c ∈ w, (decide (c ≠ delim) && decide (c ≠ 0)) = true := fun c hc => by simpa using hm c hc
  have htake := List.takeWhile_eq_self_iff.2 hall
  have hrest := List.dropWhile_eq_nil_iff.2 hall
  simp only [strtok, tokenPrefix, hdrop, htake, hrest, hw, if_false, List.head?_nil, reduceCtorEq, Option.map_some]

/-- Where the token of `strtok(m, delim)` starts. -/
def tokenAt (delim : UInt8) (m : List UInt8) : Nat := (m.takeWhile (· = delim)).length

/-- A token is passed with the delimiter behind it overwritten, or it is the last
of the string. -/
theorem strtok_passed {delim : UInt8} {m : List UInt8} {t : CStr} (h : (strtok delim m).token = some t) :
    (strtok delim m).passed = m.takeWhile (· = delim) ++ t.mem ∨
      (strtok delim m).passed = m.takeWhile (· = delim) ++ t.bytes ∧ ∀ b ∈ (strtok delim m).rest.head?, b = 0 := by
  unfold strtok at h ⊢
  dsimp only at h ⊢
  split at h
  · cases h
  · rename_i hne
    rw [if_neg hne]
    split at h
    · rename_i hdelim
      cases h
      rw [if_pos hdelim]
      exact .inl (List.append_assoc ..)
    · rename_i hdelim
      cases h
      rw [if_neg hdelim]
      refine .inr ⟨rfl, fun b hb => ?_⟩
      have hstop := List.head?_dropWhile_not (fun b : UInt8 => decide (b ≠ delim) && decide (b ≠ 0))
        (m.dropWhile (· = delim))
      have hneq : b ≠ delim := fun he => hdelim (he ▸ hb)
      rw [Option.mem_def.1 hb] at hstop
      simpa [hneq] using hstop

/-- The string at the token of a call is the token, also in the memory that
later calls leave behind it, if they do not write over the end of the string. -/
theorem cstr_token {delim : UInt8} {m : List UInt8} {t : CStr} (h : (strtok delim m).token = some t) {j : List UInt8}
    (hj : (∀ b ∈ (strtok delim m).rest.head?, b = 0) → ∀ b ∈ j.head?, b = 0) :
    cstr (((strtok delim m).passed ++ j).drop (tokenAt delim m)) = t.bytes := by
  rcases strtok_passed h with hp | ⟨hp, hend⟩
  · have hdrop : (m.takeWhile (· = delim) ++ (t.mem ++ j)).drop (tokenAt delim m) = t.mem ++ j := List.drop_left
    rw [hp, List.append_assoc, hdrop, cstr_mem]
  · have hdrop : (m.takeWhile (· = delim) ++ (t.bytes ++ j)).drop (tokenAt delim m) = t.bytes ++ j := List.drop_left
    have hzero : ∀ b ∈ j.head?, decide (b ≠ 0) = false := fun b hb => by simpa using hj hend b hb
    rw [hp, List.append_assoc, hdrop, cstr, takeWhile_append_stop _ hzero, List.takeWhile_eq_self_iff]
    rintro b hb
    rw [decide_eq_true_eq]
    rintro rfl
    exact t.noNul hb

/-- A call of `strtok` moves the saved pointer within the memory. -/
theorem length_strtok (delim : UInt8) (m : List UInt8) :
    (strtok delim m).passed.length + (strtok delim m).rest.length = m.length := by
  have hlead := congrArg List.length (List.takeWhile_append_dropWhile (p := (· = delim)) (l := m))
  have htoken := congrArg List.length (List.takeWhile_append_dropWhile (p := fun b => decide (b ≠ delim) && decide (b ≠ 0))
    (l := m.dropWhile (· = delim)))
  rw [List.length_append] at hlead htoken
  unfold strtok
  dsimp only
  split
  · exact hlead
  · split
    · rename_i hhead
      have hpos := List.length_pos_iff.2 (List.ne_nil_of_mem (List.mem_of_mem_head? (Option.mem_def.2 hhead)))
      simp only [List.length_append, List.length_tail, List.length_singleton, tokenPrefix]
      omega
    · simp only [List.length_append, tokenPrefix]
      omega

/-- At the end of a string `strtok` writes nothing. -/
theorem strtok_end {delim : UInt8} (hd : delim ≠ 0) {m : List UInt8} (hm : ∀ b ∈ m.head?, b = 0) :
    (strtok delim m).passed = [] ∧ (strtok delim m).rest = m := by
  cases m with
  | nil => exact ⟨rfl, rfl⟩
  | cons b m =>
    obtain rfl : b = 0 := hm b rfl
    simp [strtok, tokenPrefix, hd.symm]

/-! ## Numbers -/

/-- The number that the leading digits spell. -/
def digitsValue (s : List UInt8) : Nat := (s.takeWhile isdigit).foldl (fun n b => 10 * n + (b.toNat - 48)) 0

/-- `atoi`: `strtol` in base 10, which returns the nearest `long`, converted to `int`. -/
def atoi (s : List UInt8) : Int :=
  let s := s.dropWhile isspace
  let neg := s.head? = some 45
  let s := if s.head? = some 45 ∨ s.head? = some 43 then s.tail else s
  let v : Int := digitsValue s
  toInt (if neg then max (-v) (-9223372036854775808) else min v 9223372036854775807)

@[simp] theorem toInt_atoi (s : List UInt8) : toInt (atoi s) = atoi s := toInt_toInt _

/-- What `%d` prints. -/
def formatInt (n : Int) : List UInt8 :=
  (if n < 0 then [45] else []) ++ (Nat.toDigits 10 n.natAbs).map fun c => UInt8.ofNat c.toNat

end Cmpsc473
