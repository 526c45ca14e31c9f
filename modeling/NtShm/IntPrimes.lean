import NtShm.ByteMemory
import NtShm.Primes

/-!
# Primes in `int`

`is_prime` and `next_prime` as they compute in 32-bit integers, without a result
where an operation overflows.  Far enough below the largest `int` they agree with
the computation in unbounded integers.
-/

namespace NtShm

/-- The loop of `is_prime`. -/
def noOddDivisorInt (n : Int) : Nat → Int → Option Bool
  | 0, _ => none
  | fuel + 1, i => do
      let square ← intResult (i * i)
      if square ≤ n then
        if n.tmod i = 0 then some false
        else
          let i ← intResult (i + 2)
          noOddDivisorInt n fuel i
      else some true

/-- `is_prime`. -/
def isPrimeInt (n : Int) : Option Bool :=
  if n ≤ 1 then some false
  else if n = 2 then some true
  else if n.tmod 2 = 0 then some false
  else noOddDivisorInt n n.toNat 3

/-- The loop of `next_prime`. -/
def nextPrimeIntLoop : Nat → Int → Option Int
  | 0, _ => none
  | fuel + 1, n => do
      let found ← isPrimeInt n
      if found then some n
      else
        let n ← intResult (n + 1)
        nextPrimeIntLoop fuel n

/-- `next_prime`. -/
def nextPrimeInt (n : Int) : Option Int := nextPrimeIntLoop (2 * n.natAbs + 3) n

/-- Up to here no divisor is tried whose square is too large. -/
def intPrimeBound : Nat := 46339 * 46339

/-- An answer about a number, if it can be given: all divisors are tried for a prime. -/
def primeAnswer (n : Int) (found : Bool) : Option Bool :=
  if found = true ∧ (intPrimeBound : Int) ≤ n then none else some found

@[simp] theorem primeAnswer_false (n : Int) : primeAnswer n false = some false :=
  if_neg fun found => Bool.false_ne_true found.1

theorem primeAnswer_of_lt {n : Int} (small : n < intPrimeBound) (found : Bool) :
    primeAnswer n found = some found :=
  if_neg fun large => absurd large.2 (not_le.mpr small)

theorem primeAnswer_of_le {n : Int} (large : (intPrimeBound : Int) ≤ n) :
    primeAnswer n true = none := if_pos ⟨rfl, large⟩

/-- The first divisor whose square is too large. -/
theorem noOddDivisorInt_overflows (n : Int) (fuel : Nat) :
    noOddDivisorInt n (fuel + 1) 46341 = none := by
  have tooLarge : intResult (46341 * 46341) = none := by decide
  rw [noOddDivisorInt, tooLarge]
  rfl

/-- The loop overflows if and only if it tries all the divisors up to 46339. -/
theorem noOddDivisorInt_eq {n fuel i : Nat} (isInt : n < 2 ^ 31) (odd : i % 2 = 1)
    (within : i ≤ 46339) (enough : n < (i + 2 * (fuel - 1)) * (i + 2 * (fuel - 1)))
    (fueled : 0 < fuel) :
    noOddDivisorInt n fuel i = primeAnswer n (noOddDivisor n fuel i) := by
  induction fuel generalizing i with
  | zero => omega
  | succ fuel ih =>
      have square : i * i ≤ intPrimeBound := Nat.mul_le_mul within within
      have bounded : intPrimeBound < 2 ^ 31 := by decide
      have isSquare : intResult ((i : Int) * i) = some ((i * i : Nat) : Int) := by
        rw [← Int.natCast_mul]
        exact intResult_eq_some (by omega) (by omega)
      simp only [noOddDivisorInt, noOddDivisor, isSquare, Option.bind_eq_bind, Option.bind_some,
        Nat.cast_le]
      by_cases low : i * i ≤ n
      · rw [if_pos low, if_pos low]
        have divides : (n : Int).tmod i = 0 ↔ n % i = 0 := by
          rw [Int.tmod_eq_emod_of_nonneg (Int.natCast_nonneg n), ← Int.natCast_mod,
            Int.natCast_eq_zero]
        by_cases divisor : n % i = 0
        · rw [if_pos divisor, if_pos (divides.mpr divisor), primeAnswer_false]
        · have next : intResult ((i : Int) + 2) = some ((i + 2 : Nat) : Int) :=
            intResult_eq_some (by omega) (by omega)
          have moreFuel : 0 < fuel := by
            by_contra empty
            have zero : fuel = 0 := by omega
            subst zero
            simp only [Nat.zero_add, Nat.sub_self, Nat.mul_zero, Nat.add_zero] at enough
            omega
          have shift : i + 2 + 2 * (fuel - 1) = i + 2 * (fuel + 1 - 1) := by omega
          rw [if_neg divisor, if_neg (mt divides.mp divisor), next, Option.bind_some]
          by_cases last : i = 46339
          · -- no divisor was found, and the next one is too large
            subst last
            have reached : intPrimeBound ≤ n := low
            obtain ⟨fuel, rfl⟩ := Nat.exists_eq_succ_of_ne_zero (Nat.ne_of_gt moreFuel)
            have ended : noOddDivisor n (fuel + 1) (46339 + 2) = true := by
              rw [noOddDivisor, if_neg (by omega)]
            rw [ended, primeAnswer_of_le (by exact_mod_cast reached)]
            exact noOddDivisorInt_overflows n fuel
          · exact ih (by omega) (by omega) (by rwa [shift]) moreFuel
      · rw [if_neg low, if_neg low, primeAnswer_of_lt (by omega)]

/-- `is_prime` overflows if and only if it is given a prime that is too large. -/
theorem isPrimeInt_eq {n : Int} (isInt : n < 2 ^ 31) :
    isPrimeInt n = primeAnswer n (isPrime n) := by
  have bounded : (2 : Int) < intPrimeBound := by decide
  unfold isPrimeInt isPrime
  by_cases one : n ≤ 1
  · rw [if_pos one, if_pos one, primeAnswer_false]
  · rw [if_neg one, if_neg one]
    by_cases two : n = 2
    · rw [if_pos two, if_pos two, primeAnswer_of_lt (by omega)]
    · rw [if_neg two, if_neg two]
      rw [Int.tmod_eq_emod_of_nonneg (by omega)]
      by_cases even : n % 2 = 0
      · rw [if_pos even, if_pos even, primeAnswer_false]
      · rw [if_neg even, if_neg even]
        obtain ⟨number, rfl⟩ : ∃ number : Nat, n = number := ⟨n.toNat, by omega⟩
        have enough : number < (3 + 2 * (number - 1)) * (3 + 2 * (number - 1)) := by
          nlinarith [Nat.sub_add_cancel (by omega : 1 ≤ number)]
        rw [Int.toNat_natCast]
        exact noOddDivisorInt_eq (i := 3) (by exact_mod_cast isInt) (by decide) (by decide)
          enough (by omega)

theorem isPrimeInt_of_lt {n : Int} (small : n < intPrimeBound) :
    isPrimeInt n = some (isPrime n) := by
  have bounded : intPrimeBound < 2 ^ 31 := by decide
  rw [isPrimeInt_eq (by omega), primeAnswer_of_lt small]

theorem nextPrimeIntLoop_eq {fuel : Nat} {n : Int} {next : Nat} (low : -2 ^ 31 ≤ n)
    (isNext : nextPrimeLoop fuel n = some next) (small : next < intPrimeBound) :
    n ≤ next ∧ nextPrimeIntLoop fuel n = some (next : Int) := by
  induction fuel generalizing n with
  | zero => cases isNext
  | succ fuel ih =>
      rw [nextPrimeLoop] at isNext
      by_cases found : isPrime n = true
      · rw [if_pos found] at isNext
        cases isNext
        have isPrime := (isPrime_iff n).mp found
        have two := isPrime.two_le
        have isNat : (n.toNat : Int) = n := by omega
        have below : n < intPrimeBound := by omega
        refine ⟨by omega, ?_⟩
        simp only [nextPrimeIntLoop, isPrimeInt_of_lt below, found, Option.bind_eq_bind,
          Option.bind_some, if_true, isNat]
      · rw [if_neg found] at isNext
        obtain ⟨above, continues⟩ := ih (by omega) isNext
        have below : n < intPrimeBound := by omega
        have bounded : intPrimeBound < 2 ^ 31 := by decide
        have isResult : intResult (n + 1) = some (n + 1) :=
          intResult_eq_some (by omega) (by omega)
        have notFound : isPrime n = false := Bool.not_eq_true _ |>.mp found
        refine ⟨by omega, ?_⟩
        simp only [nextPrimeIntLoop, isPrimeInt_of_lt below, notFound, Option.bind_eq_bind,
          Option.bind_some, Bool.false_eq_true, if_false, isResult, continues]

/-- `next_prime` does not overflow on the way to a prime that is not too large. -/
theorem nextPrimeInt_eq {n : Int} {next : Nat} (low : -2 ^ 31 ≤ n)
    (isNext : nextPrime n = some next) (small : next < intPrimeBound) :
    nextPrimeInt n = some (next : Int) :=
  (nextPrimeIntLoop_eq low isNext small).2

end NtShm
