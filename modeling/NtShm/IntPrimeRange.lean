import NtShm.IntPrimes
import Mathlib.NumberTheory.LucasLehmer
import Mathlib.NumberTheory.LucasPrimality
import Mathlib.Tactic.IntervalCases
import Mathlib.Tactic.NormNum.Prime
import Mathlib.Tactic.ReduceModChar

/-!
# Where the primes of `int` are found

`is_prime` tries divisors until the square of one exceeds the number.  For the
primes from 46339 * 46339 on, the square of the last one it tries is no `int`.
-/

namespace NtShm

/-- `is_prime` does not overflow, and tells whether the number is prime. -/
def IsPrimeRight (n : Int) : Prop :=
  ∃ found, isPrimeInt n = some found ∧ (found = true ↔ n.toNat.Prime)

/-- `next_prime` ends without an overflow at the least prime from the number on. -/
def NextPrimeRight (n : Int) : Prop :=
  ∃ next : Nat, nextPrimeInt n = some (next : Int) ∧ next.Prime ∧ n ≤ next ∧
    ∀ other : Nat, other.Prime → n ≤ other → next ≤ other

/-- The largest prime for which `is_prime` does not overflow. -/
def largestIntPrime : Nat := 2147302891

section Largest

theorem natCast_ne_one {m number : Nat} (large : 1 < number) (small : number < m) :
    (number : ZMod m) ≠ 1 := by
  rw [← Nat.cast_one, Ne, ZMod.natCast_eq_natCast_iff', Nat.mod_eq_of_lt small,
    Nat.mod_eq_of_lt (large.trans small)]
  exact large.ne'

theorem largestIntPrime_prime : largestIntPrime.Prime := by
  have lastFactor : Nat.Prime 23858921 := by norm_num
  apply lucas_primality 2147302891 10
  · reduce_mod_char
  · intro q prime divides
    have parts : 2147302891 - 1 = 2 * (3 * (3 * (5 * 23858921))) := by norm_num
    rw [parts] at divides ⊢
    have isFactor : q = 2 ∨ q = 3 ∨ q = 3 ∨ q = 5 ∨ q = 23858921 := by
      rwa [prime.dvd_mul, prime.dvd_mul, prime.dvd_mul, prime.dvd_mul,
        Nat.prime_dvd_prime_iff_eq prime Nat.prime_two,
        Nat.prime_dvd_prime_iff_eq prime Nat.prime_three,
        Nat.prime_dvd_prime_iff_eq prime Nat.prime_five,
        Nat.prime_dvd_prime_iff_eq prime lastFactor] at divides
    rcases isFactor with rfl | rfl | rfl | rfl | rfl
    all_goals
      norm_num only
      reduce_mod_char
      exact_mod_cast natCast_ne_one (by norm_num) (by norm_num)

/-- There is no prime between the largest one and the bound. -/
theorem prime_lt_bound_iff {p : Nat} (prime : p.Prime) :
    p < intPrimeBound ↔ p ≤ largestIntPrime := by
  unfold intPrimeBound largestIntPrime
  constructor
  · intro below
    by_contra above
    have low : 2147302891 < p := not_le.mp above
    have high : p < 2147302921 := below
    interval_cases p
    all_goals revert prime; norm_num
  · intro low
    omega

end Largest

section Range

variable {n q : Int}

theorem isPrimeRight_iff (isInt : n < 2 ^ 31) :
    IsPrimeRight n ↔ (n.toNat.Prime → n ≤ largestIntPrime) := by
  rw [IsPrimeRight, isPrimeInt_eq isInt]
  by_cases prime : n.toNat.Prime
  · have positive := prime.two_le
    have isNumber : (n.toNat : Int) = n := Int.toNat_of_nonneg (by omega)
    have below := prime_lt_bound_iff prime
    rw [(isPrime_iff n).mpr prime]
    by_cases small : n < intPrimeBound
    · rw [primeAnswer_of_lt small]
      exact iff_of_true ⟨true, rfl, iff_of_true rfl prime⟩ fun _ => by omega
    · rw [primeAnswer_of_le (not_lt.mp small)]
      refine iff_of_false ?_ fun within => small ?_
      · rintro ⟨found, ⟨⟩, -⟩
      · have := within prime
        omega
  · have notFound : isPrime n = false := Bool.not_eq_true _ |>.mp (mt (isPrime_iff n).mp prime)
    rw [notFound, primeAnswer_false]
    exact iff_of_true ⟨false, rfl, iff_of_false Bool.false_ne_true prime⟩ fun isPrime =>
      absurd isPrime prime

/-- `next_prime` ends where `is_prime` says so. -/
theorem nextPrimeIntLoop_found {fuel : Nat} (isInt : n < 2 ^ 31)
    (isNext : nextPrimeIntLoop fuel n = some q) :
    q < 2 ^ 31 ∧ isPrimeInt q = some true := by
  induction fuel generalizing n with
  | zero => cases isNext
  | succ fuel ih =>
      rw [nextPrimeIntLoop, Option.bind_eq_bind, Option.bind_eq_some_iff] at isNext
      obtain ⟨found, isFound, isNext⟩ := isNext
      cases found with
      | true =>
          cases isNext
          exact ⟨isInt, isFound⟩
      | false =>
          rw [if_neg Bool.false_ne_true, Option.bind_eq_bind, Option.bind_eq_some_iff] at isNext
          obtain ⟨next, isResult, isNext⟩ := isNext
          rw [intResult, Option.ite_none_right_eq_some] at isResult
          obtain ⟨⟨-, within⟩, same⟩ := isResult
          cases same
          exact ih within isNext

theorem nextPrimeRight_iff (low : -2 ^ 31 ≤ n) (isInt : n < 2 ^ 31) :
    NextPrimeRight n ↔ n ≤ largestIntPrime := by
  have largest := largestIntPrime_prime
  constructor
  · rintro ⟨next, isNext, prime, above, -⟩
    obtain ⟨within, found⟩ := nextPrimeIntLoop_found isInt isNext
    have right : IsPrimeRight next := ⟨true, found, iff_of_true rfl prime⟩
    exact above.trans ((isPrimeRight_iff within).mp right prime)
  · intro below
    obtain ⟨next, isNext, prime, above, least⟩ := nextPrime_spec n
    have small : next < intPrimeBound :=
      (prime_lt_bound_iff prime).mpr (least largestIntPrime largest below)
    exact ⟨next, nextPrimeInt_eq low isNext small, prime, above, least⟩

end Range

/-- `is_prime` is right unless it is given a prime that is too large, and `next_prime` is
right up to the largest prime that is not. -/
theorem intPrimes_right_iff (n : Int32) :
    (IsPrimeRight n.toInt ↔ (n.toInt.toNat.Prime → n.toInt ≤ largestIntPrime)) ∧
      (NextPrimeRight n.toInt ↔ n.toInt ≤ largestIntPrime) :=
  ⟨isPrimeRight_iff n.toInt_lt, nextPrimeRight_iff n.le_toInt n.toInt_lt⟩

/-- The largest `int` is a prime for which `is_prime` overflows. -/
theorem isPrimeInt_overflows :
    Nat.Prime 2147483647 ∧ isPrimeInt 2147483647 = none ∧ nextPrimeInt 2147483647 = none ∧
      ¬ IsPrimeRight 2147483647 ∧ ¬ NextPrimeRight 2147483647 := by
  have prime : Nat.Prime 2147483647 := lucas_lehmer_sufficiency 31 (by norm_num) (by norm_num)
  have overflows : isPrimeInt 2147483647 = none := by
    rw [isPrimeInt_eq (by norm_num), (isPrime_iff 2147483647).mpr prime]
    exact primeAnswer_of_le (by decide)
  have nextOverflows : nextPrimeInt 2147483647 = none := by
    rw [nextPrimeInt, nextPrimeIntLoop, overflows]
    rfl
  refine ⟨prime, overflows, nextOverflows, ?_, ?_⟩
  · rintro ⟨found, isFound, -⟩
    cases overflows.symm.trans isFound
  · rintro ⟨next, isNext, -⟩
    cases nextOverflows.symm.trans isNext

end NtShm
