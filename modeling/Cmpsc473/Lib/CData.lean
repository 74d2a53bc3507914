import Mathlib.Tactic
/-!
# C integers, byte order and strings

Conversions between the integer types of x86-64 C, little-endian words, and
NUL-terminated strings as they lie in memory.
-/

namespace Cmpsc473

/-! ## Integers -/

/-- `INT_MAX`. -/
def intMax : Int := 2147483647

/-- A value converted to `int`: its low 32 bits, signed. -/
def toInt (n : Int) : Int := (n + 2147483648) % 4294967296 - 2147483648

/-- A value converted to `size_t`: its low 64 bits. -/
def toSize (n : Int) : Int := n % 18446744073709551616

theorem toInt_of_range {n : Int} (h1 : -2147483648 ≤ n) (h2 : n ≤ intMax) : toInt n = n := by
  simp only [toInt, intMax] at *
  omega

theorem toSize_of_range {n : Int} (h1 : 0 ≤ n) (h2 : n < 18446744073709551616) : toSize n = n := by
  simp only [toSize]
  omega

@[simp] theorem toInt_toInt (n : Int) : toInt (toInt n) = toInt n := by
  simp only [toInt]
  omega

theorem toInt_add_toInt (m n : Int) : toInt (toInt m + toInt n) = toInt (m + n) := by
  simp only [toInt]
  omega

/-! ## Little-endian words -/

/-- The low `k` bytes of `n`, lowest first. -/
def leBytes : Nat → Nat → List UInt8
  | 0, _ => []
  | k + 1, n => UInt8.ofNat n :: leBytes k (n / 256)

/-- The number whose bytes, lowest first, are `bs`. -/
def ofLe : List UInt8 → Nat
  | [] => 0
  | b :: bs => b.toNat + 256 * ofLe bs

@[simp] theorem length_leBytes (k n : Nat) : (leBytes k n).length = k := by
  induction k generalizing n with
  | zero => rfl
  | succ k ih => simp [leBytes, ih]

theorem take_leBytes {j k : Nat} (h : j ≤ k) (n : Nat) : (leBytes k n).take j = leBytes j n := by
  induction j generalizing k n with
  | zero => rfl
  | succ j ih =>
    obtain ⟨k, rfl⟩ := Nat.exists_eq_add_of_le' (Nat.one_le_of_lt h)
    rw [leBytes, leBytes, List.take_succ_cons, ih (Nat.le_of_succ_le_succ h)]

theorem ofLe_leBytes (k n : Nat) : ofLe (leBytes k n) = n % 256 ^ k := by
  induction k generalizing n with
  | zero => simp [leBytes, ofLe, Nat.mod_one]
  | succ k ih =>
    have hb : (UInt8.ofNat n).toNat = n % 256 := by simp
    rw [leBytes, ofLe, ih, hb, pow_succ, Nat.mul_comm (256 ^ k), Nat.mod_mul]

/-- The bytes of a number are those it was made of. -/
theorem leBytes_ofLe {k : Nat} {bs : List UInt8} (hk : k ≤ bs.length) : leBytes k (ofLe bs) = bs.take k := by
  induction bs generalizing k with
  | nil =>
    rw [Nat.le_zero.1 hk]
    rfl
  | cons b bs ih =>
    cases k with
    | zero => rfl
    | succ k =>
      have hb := b.toNat_lt
      have hdiv : (b.toNat + 256 * ofLe bs) / 256 = ofLe bs := by omega
      have hmod : UInt8.ofNat (b.toNat + 256 * ofLe bs) = b := by
        apply UInt8.toNat_inj.1
        rw [UInt8.toNat_ofNat']
        omega
      rw [ofLe, leBytes, hdiv, hmod, ih (Nat.succ_le_succ_iff.1 hk), List.take_succ_cons]

/-- Low bytes do not depend on the rest of the number. -/
theorem leBytes_mod (k n : Nat) : leBytes k (n % 256 ^ k) = leBytes k n := by
  induction k generalizing n with
  | zero => rfl
  | succ k ih =>
    have hdiv : n % 256 ^ (k + 1) / 256 = n / 256 % 256 ^ k := by
      rw [pow_succ, Nat.mul_comm, Nat.mod_mul_right_div_self]
    have hmod : UInt8.ofNat (n % 256 ^ (k + 1)) = UInt8.ofNat n := by
      apply UInt8.toNat_inj.1
      rw [UInt8.toNat_ofNat', UInt8.toNat_ofNat', pow_succ]
      exact Nat.mod_mul_left_mod n (256 ^ k) 256
    rw [leBytes, leBytes, hdiv, hmod, ih]

/-- The mask of the low bytes. -/
theorem and_lowMask (k n : Nat) : n &&& (1 <<< (8 * k) - 1) = n % 256 ^ k := by
  rw [Nat.one_shiftLeft, Nat.and_two_pow_sub_one_eq_mod, pow_mul, show 2 ^ 8 = 256 from rfl]

/-- The four bytes of an `int`. -/
def intBytes (n : Int) : List UInt8 := leBytes 4 (n % 4294967296).toNat

/-- The `int` held by four bytes. -/
def bytesInt (bs : List UInt8) : Int := toInt (ofLe bs)

@[simp] theorem length_intBytes (n : Int) : (intBytes n).length = 4 := length_leBytes _ _

theorem bytesInt_intBytes {n : Int} (h1 : -2147483648 ≤ n) (h2 : n ≤ intMax) : bytesInt (intBytes n) = n := by
  have h : ofLe (intBytes n) = (n % 4294967296).toNat := by
    rw [intBytes, ofLe_leBytes, Nat.mod_eq_of_lt]
    omega
  simp only [bytesInt, h, toInt, intMax] at *
  omega

/-! ## Strings -/

/-- A NUL-terminated string: the bytes before its NUL. -/
structure CStr where
  bytes : List UInt8
  noNul : 0 ∉ bytes
  deriving DecidableEq

namespace CStr

/-- `strlen`. -/
def strlen (s : CStr) : Nat := s.bytes.length

/-- The string as it lies in memory, its NUL included. -/
def mem (s : CStr) : List UInt8 := s.bytes ++ [0]

@[simp] theorem length_mem (s : CStr) : s.mem.length = s.strlen + 1 := by simp [mem, strlen]

theorem ext_bytes {s t : CStr} (h : s.bytes = t.bytes) : s = t := by
  cases s; cases t; cases h; rfl

end CStr

/-- The string that starts at the front of `m`: what the string functions read. -/
def cstr (m : List UInt8) : List UInt8 := m.takeWhile (· ≠ 0)

@[simp] theorem cstr_mem (s : CStr) (m : List UInt8) : cstr (s.mem ++ m) = s.bytes := by
  have h : ∀ b ∈ s.bytes, (decide (b ≠ 0)) = true := by
    intro b hb
    simp only [decide_eq_true_eq]
    rintro rfl
    exact s.noNul hb
  simp only [cstr, CStr.mem, List.append_assoc, List.cons_append, List.nil_append]
  rw [List.takeWhile_append_of_pos h]
  simp

/-- `bs` stored over the front of `m`. -/
def overwrite (m bs : List UInt8) : List UInt8 := bs ++ m.drop bs.length

theorem length_overwrite {m bs : List UInt8} (h : bs.length ≤ m.length) : (overwrite m bs).length = m.length := by
  rw [overwrite, List.length_append, List.length_drop]
  omega

end Cmpsc473
