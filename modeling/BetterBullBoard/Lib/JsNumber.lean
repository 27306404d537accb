import Mathlib.Algebra.Order.Ring.Int

/-! # Integers as JavaScript numbers

`Number` of an integer is the nearest double, and up to 2^53 that is the integer
itself.
-/

namespace JsNumber

/-- The nearest quotient, half to even. -/
def roundEven (n d : Nat) : Nat :=
  if 2 * (n % d) < d ∨ (2 * (n % d) = d ∧ n / d % 2 = 0) then n / d else n / d + 1

/-- The nearest number with 53 significant bits. -/
def roundNat (n : Nat) : Nat := roundEven n (2 ^ (n.log2 - 52)) * 2 ^ (n.log2 - 52)

def number (n : Int) : Int := if n < 0 then -roundNat n.natAbs else roundNat n.natAbs

/-- The integers among which every one is a number. -/
abbrev SafeInt : Type := { n : Int // n.natAbs ≤ 2 ^ 53 }

theorem roundEven_dvd {n d : Nat} (positive : 0 < d) (divides : d ∣ n) : roundEven n d = n / d := by
  rw [roundEven, Nat.mod_eq_zero_of_dvd divides, if_pos (.inl (by omega))]

theorem roundNat_dvd {n : Nat} (divides : 2 ^ (n.log2 - 52) ∣ n) : roundNat n = n := by
  rw [roundNat, roundEven_dvd (Nat.two_pow_pos _) divides, Nat.div_mul_cancel divides]

theorem roundNat_safe {n : Nat} (safe : n ≤ 2 ^ 53) : roundNat n = n := by
  apply roundNat_dvd
  cases Nat.lt_or_eq_of_le safe with
  | inr edge =>
      rw [edge, Nat.log2_two_pow]
      decide
  | inl less =>
      cases Nat.eq_zero_or_pos n with
      | inl zero => simp [zero]
      | inr positive =>
          have bits := (Nat.log2_lt (Nat.ne_of_gt positive)).mpr less
          rw [Nat.sub_eq_zero_of_le (by omega)]
          exact Nat.one_dvd n

@[simp] theorem number_safe (n : SafeInt) : number n.val = n.val := by
  rw [number, roundNat_safe n.property]
  split <;> omega

end JsNumber
