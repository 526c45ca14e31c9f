import Mathlib.NumberTheory.Bertrand

/-!
# Primes for slot counts

`is_prime` tries odd divisors up to the square root, and `next_prime` counts up
until it finds a prime.  Integers are unbounded here.
-/

namespace NtShm

/-- The loop of `is_prime`, which gives up after `fuel` divisors. -/
def noOddDivisor (n : Nat) : Nat → Nat → Bool
  | 0, _ => false
  | fuel + 1, i =>
      if i * i ≤ n then
        if n % i = 0 then false else noOddDivisor n fuel (i + 2)
      else true

/-- `is_prime`. -/
def isPrime (n : Int) : Bool :=
  if n ≤ 1 then false
  else if n = 2 then true
  else if n % 2 = 0 then false
  else noOddDivisor n.toNat n.toNat 3

/-- The loop of `next_prime`, for at most `fuel` numbers. -/
def nextPrimeLoop : Nat → Int → Option Nat
  | 0, _ => none
  | fuel + 1, n => if isPrime n then some n.toNat else nextPrimeLoop fuel (n + 1)

/-- `next_prime`.  There is a prime below twice any positive number. -/
def nextPrime (n : Int) : Option Nat := nextPrimeLoop (2 * n.natAbs + 3) n

theorem noOddDivisor_iff {n fuel i : Nat} (positive : 0 < i)
    (enough : n < (i + 2 * (fuel - 1)) * (i + 2 * (fuel - 1))) (fueled : 0 < fuel) :
    noOddDivisor n fuel i = true ↔
      ∀ d, i ≤ d → d * d ≤ n → (d - i) % 2 = 0 → ¬d ∣ n := by
  induction fuel generalizing i with
  | zero => omega
  | succ fuel ih =>
      rw [noOddDivisor]
      by_cases within : i * i ≤ n
      · rw [if_pos within]
        by_cases divides : n % i = 0
        · rw [if_pos divides]
          simp only [Bool.false_eq_true, false_iff]
          intro none
          exact none i (le_refl i) within (by simp) (Nat.dvd_of_mod_eq_zero divides)
        · have moreFuel : 0 < fuel := by
            by_contra empty
            have zero : fuel = 0 := by omega
            subst zero
            simp at enough
            omega
          have shift : i + 2 + 2 * (fuel - 1) = i + 2 * (fuel + 1 - 1) := by omega
          rw [if_neg divides, ih (by omega) (by rwa [shift]) moreFuel]
          constructor
          · intro none d low square parity
            by_cases first : d = i
            · subst first
              exact fun dvd => divides (Nat.mod_eq_zero_of_dvd dvd)
            · exact none d (by omega) square (by omega)
          · intro none d low square parity
            exact none d (by omega) square (by omega)
      · rw [if_neg within]
        simp only [true_iff]
        intro d low square _
        exact absurd (le_trans (Nat.mul_le_mul low low) square) within

/-- An odd number above two is prime if no odd number up to its square root
divides it. -/
theorem prime_of_no_odd_divisor {n : Nat} (large : 2 < n) (odd : n % 2 = 1)
    (none : ∀ d, 3 ≤ d → d * d ≤ n → (d - 3) % 2 = 0 → ¬d ∣ n) : n.Prime := by
  by_contra composite
  have factor := Nat.minFac_prime (by omega : n ≠ 1)
  have divides := Nat.minFac_dvd n
  have square : n.minFac * n.minFac ≤ n := by
    have bound := Nat.minFac_sq_le_self (by omega : 0 < n) composite
    rwa [pow_two] at bound
  have oddFactor : n.minFac % 2 = 1 := by
    have notTwo : ¬2 ∣ n.minFac := fun even => by
      have twoDivides := even.trans divides
      omega
    omega
  have low := factor.two_le
  exact none _ (by omega) square (by omega) divides

/-- `is_prime` tells the primes. -/
theorem isPrime_iff (n : Int) : isPrime n = true ↔ n.toNat.Prime := by
  unfold isPrime
  split
  · next small =>
      have le : n.toNat ≤ 1 := by omega
      simp only [Bool.false_eq_true, false_iff]
      intro prime
      have two := prime.two_le
      omega
  · next large =>
      split
      · next isTwo =>
          subst isTwo
          simpa using Nat.prime_two
      · next notTwo =>
          split
          · next even =>
              simp only [Bool.false_eq_true, false_iff]
              intro prime
              have two := (Nat.prime_dvd_prime_iff_eq Nat.prime_two prime).mp
                (by omega)
              omega
          · next odd =>
              have enough : n.toNat < (3 + 2 * (n.toNat - 1)) *
                  (3 + 2 * (n.toNat - 1)) := by
                nlinarith [Nat.sub_add_cancel (by omega : 1 ≤ n.toNat)]
              rw [noOddDivisor_iff (by omega) enough (by omega)]
              constructor
              · exact prime_of_no_odd_divisor (by omega) (by omega)
              · intro prime d low square _ divides
                cases prime.eq_one_or_self_of_dvd d divides with
                | inl one => omega
                | inr self =>
                    subst self
                    nlinarith

theorem nextPrimeLoop_spec {fuel : Nat} {n : Int} {p : Nat} (prime : p.Prime)
    (above : n ≤ p) (reached : (p : Int) - n < fuel) :
    ∃ next, nextPrimeLoop fuel n = some next ∧ next.Prime ∧ n ≤ next ∧
      ∀ other : Nat, other.Prime → n ≤ other → next ≤ other := by
  induction fuel generalizing n with
  | zero => omega
  | succ fuel ih =>
      rw [nextPrimeLoop]
      by_cases found : isPrime n = true
      · rw [if_pos found]
        have isPrime := (isPrime_iff n).mp found
        exact ⟨n.toNat, rfl, isPrime, by omega, fun other _ low => by omega⟩
      · have notHere : ∀ other : Nat, other.Prime → n ≤ other → n + 1 ≤ other := by
          intro other otherPrime low
          have differs : (other : Int) ≠ n := by
            rintro rfl
            exact found ((isPrime_iff _).mpr (by simpa using otherPrime))
          omega
        obtain ⟨next, found, nextPrime, low, least⟩ :=
          ih (notHere p prime above) (by omega)
        rw [if_neg ‹_›]
        exact ⟨next, found, nextPrime, by omega,
          fun other otherPrime low => least other otherPrime
            (notHere other otherPrime low)⟩

/-- `next_prime` returns the least prime that is not below its argument. -/
theorem nextPrime_spec (n : Int) :
    ∃ next, nextPrime n = some next ∧ next.Prime ∧ n ≤ next ∧
      ∀ other : Nat, other.Prime → n ≤ other → next ≤ other := by
  by_cases positive : 0 < n
  · obtain ⟨p, prime, low, high⟩ :=
      Nat.exists_prime_lt_and_le_two_mul n.toNat (by omega)
    exact nextPrimeLoop_spec prime (by omega) (by omega)
  · exact nextPrimeLoop_spec Nat.prime_two (by omega) (by omega)

end NtShm
