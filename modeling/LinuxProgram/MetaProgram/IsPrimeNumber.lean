import Mathlib

/-!
# The primality test of IsPrimeNumber.cpp

`IsPrimeNumber` divides its number by all numbers from one more than a half down to 2.  From
3 on these are below the number itself, and the proper divisors are among them.  The range
of 2 contains 2, and those of 0 and 1 are empty.

* `isPrimeNumberImpl`, `isPrimeNumber` — the templates.
* `isPrimeNumber_iff` — the answer is right exactly from 3 on.
* `isPrimeNumber_two` — the number 2.
-/

namespace LinuxProgram.MetaProgram

/-- **`IsPrimeNumberImpl`**.  There is no instance for `Current = 0`. -/
def isPrimeNumberImpl (Number : ℕ) : ℕ → Bool
  | 0 => false
  | 1 => true
  | Current + 2 => Number % (Current + 2) != 0 && isPrimeNumberImpl Number (Current + 1)

/-- **`IsPrimeNumber`**. -/
def isPrimeNumber (Number : ℕ) : Bool := isPrimeNumberImpl Number ((Number >>> 1) + 1)

variable {Number : ℕ}

/-- **What is tried**: the numbers from 2 to `Current`. -/
theorem isPrimeNumberImpl_iff (Number n : ℕ) :
    isPrimeNumberImpl Number (n + 1) = true ↔ ∀ d, 2 ≤ d → d ≤ n + 1 → ¬ d ∣ Number := by
  induction n with
  | zero =>
      refine iff_of_true rfl ?_
      intro d hd hle
      omega
  | succ n ih =>
      rw [isPrimeNumberImpl, Bool.and_eq_true, ih, bne_iff_ne, ne_eq, ← Nat.dvd_iff_mod_eq_zero]
      constructor
      · rintro ⟨hlast, hall⟩ d hd hle
        rcases hle.lt_or_eq with hlt | rfl
        · exact hall d hd (Nat.le_of_lt_succ hlt)
        · exact hlast
      · intro h
        exact ⟨h (n + 2) (by omega) le_rfl, fun d hd hle => h d hd (by omega)⟩

theorem isPrimeNumber_iff_forall :
    isPrimeNumber Number = true ↔ ∀ d, 2 ≤ d → d ≤ Number / 2 + 1 → ¬ d ∣ Number := by
  rw [isPrimeNumber, isPrimeNumberImpl_iff, Nat.shiftRight_one]

/-- The proper divisors are up to a half, and from 3 on one more than a half is less than
the whole. -/
theorem prime_iff_forall (h : 3 ≤ Number) :
    Number.Prime ↔ ∀ d, 2 ≤ d → d ≤ Number / 2 + 1 → ¬ d ∣ Number := by
  rw [Nat.prime_def_lt', and_iff_right (by omega)]
  constructor
  · intro hlt d hd hle
    exact hlt d hd (by omega)
  · intro hhalf d hd hlt hdvd
    have hle : d ≤ Number / 2 := by
      obtain ⟨k, rfl⟩ := hdvd
      -- the other factor is at least 2
      have hk : 1 < k := by
        by_contra hk
        have hmul : d * k ≤ d * 1 := Nat.mul_le_mul_left d (not_lt.mp hk)
        omega
      have hmul : d * 2 ≤ d * k := Nat.mul_le_mul_left d hk
      omega
    exact hhalf d hd (by omega) hdvd

/-- **The test is right** exactly from 3 on.  It goes down from one more than a half of the number,
which for 0, 1 and 2 is not yet below the number itself. -/
theorem isPrimeNumber_iff (Number : ℕ) :
    (isPrimeNumber Number = true ↔ Number.Prime) ↔ 3 ≤ Number := by
  constructor
  · intro h
    by_contra hsmall
    have hcases : Number = 0 ∨ Number = 1 ∨ Number = 2 := by omega
    rcases hcases with rfl | rfl | rfl
    · exact Nat.not_prime_zero (h.mp rfl)
    · exact Nat.not_prime_one (h.mp rfl)
    · exact absurd (h.mpr Nat.prime_two) (by decide)
  · intro h
    rw [isPrimeNumber_iff_forall, prime_iff_forall h]

/-- **The number 2** is divided by 2. -/
theorem isPrimeNumber_two : ¬ ∀ Number : ℕ, isPrimeNumber Number = true ↔ Number.Prime := by
  intro h
  have htwo : isPrimeNumber 2 = true := (h 2).mpr Nat.prime_two
  exact absurd htwo (by decide)

end LinuxProgram.MetaProgram
