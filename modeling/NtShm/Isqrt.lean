import Mathlib.Data.Nat.Sqrt
import Mathlib.Tactic.Ring
import Mathlib.Tactic.Linarith

/-!
# The integer square root

`nt_isqrt32` takes two bits of its argument in each of sixteen rounds.  The
rounds keep the root of the bits taken so far and its remainder, and nothing
that they compute is too large for 32 bits.
-/

namespace NtShm

/-! ## Square roots digit by digit

The binary digits of a square root come from the digits of the number to base
four: each digit of the number decides one digit of the root.  What is carried
along is the root so far and the remainder that it leaves. -/

/-- The square root of a number, and what its square leaves of the number. -/
structure RootOf (number root remainder : Nat) : Prop where
  parts : number = root * root + remainder
  small : remainder ≤ 2 * root

namespace RootOf

variable {number root remainder digit : Nat}

theorem zero : RootOf 0 0 0 := ⟨rfl, Nat.le_refl 0⟩

theorem bounds (isRoot : RootOf number root remainder) :
    root * root ≤ number ∧ number < (root + 1) * (root + 1) := by
  obtain ⟨rfl, small⟩ := isRoot
  have square : (root + 1) * (root + 1) = root * root + 2 * root + 1 := by ring
  omega

/-- The root has half as many binary digits as the number. -/
theorem lt_of_lt (isRoot : RootOf number root remainder) {bound : Nat}
    (below : number < bound * bound) : root < bound := by
  by_contra large
  have square : bound * bound ≤ root * root :=
    Nat.mul_le_mul (not_lt.mp large) (not_lt.mp large)
  exact absurd isRoot.bounds.1 (by omega)

theorem digit_one (isRoot : RootOf number root remainder) (isDigit : digit < 4)
    (taken : 4 * root + 1 ≤ 4 * remainder + digit) :
    RootOf (4 * number + digit) (2 * root + 1)
      (4 * remainder + digit - (4 * root + 1)) := by
  obtain ⟨rfl, small⟩ := isRoot
  have square : (2 * root + 1) * (2 * root + 1) = 4 * (root * root) + (4 * root + 1) := by
    ring
  exact ⟨by omega, by omega⟩

theorem digit_zero (isRoot : RootOf number root remainder)
    (left : 4 * remainder + digit < 4 * root + 1) :
    RootOf (4 * number + digit) (2 * root) (4 * remainder + digit) := by
  obtain ⟨rfl, small⟩ := isRoot
  have square : 2 * root * (2 * root) = 4 * (root * root) := by ring
  exact ⟨by omega, by omega⟩

end RootOf

/-! ## The rounds -/

/-- The variables of `nt_isqrt32`. -/
structure IsqrtState where
  value : UInt32
  remainder : UInt32
  result : UInt32
  deriving DecidableEq

def isqrtRound (s : IsqrtState) : IsqrtState :=
  let result := s.result <<< 1
  let remainder := (s.remainder <<< 2) + (s.value >>> 30)
  let value := s.value <<< 2
  let p := (result <<< 1) ||| 1
  if p ≤ remainder then ⟨value, remainder - p, result ||| 1⟩
  else ⟨value, remainder, result⟩

def isqrtRounds : Nat → IsqrtState → IsqrtState
  | 0, s => s
  | rounds + 1, s => isqrtRound (isqrtRounds rounds s)

/-- `nt_isqrt32`. -/
def ntIsqrt32 (value : UInt32) : UInt32 := (isqrtRounds 16 ⟨value, 0, 0⟩).result

/-- No shift, addition or subtraction of a round loses a bit, but for those of `value`
that were taken. -/
structure RoundExact (s : IsqrtState) : Prop where
  result : (s.result <<< 1).toNat = 2 * s.result.toNat
  resultOne : ((s.result <<< 1) ||| 1).toNat = 2 * s.result.toNat + 1
  shifted : (s.remainder <<< 2).toNat = 4 * s.remainder.toNat
  remainder : ((s.remainder <<< 2) + (s.value >>> 30)).toNat =
    4 * s.remainder.toNat + s.value.toNat / 2 ^ 30
  p : (((s.result <<< 1) <<< 1) ||| 1).toNat = 4 * s.result.toNat + 1
  taken : (((s.result <<< 1) <<< 1) ||| (1 : UInt32)) ≤ (s.remainder <<< 2) + (s.value >>> 30) →
    ((s.remainder <<< 2) + (s.value >>> 30) - (((s.result <<< 1) <<< 1) ||| 1)).toNat =
      4 * s.remainder.toNat + s.value.toNat / 2 ^ 30 - (4 * s.result.toNat + 1)

/-- What the rounds have come to when `left` pairs of bits are to be taken. -/
structure IsqrtHolds (value : UInt32) (left : Nat) (s : IsqrtState) : Prop where
  within : left ≤ 16
  root : RootOf (value.toNat / 4 ^ left) s.result.toNat s.remainder.toNat
  rest : s.value.toNat = value.toNat % 4 ^ left * 4 ^ (16 - left)

section Rounds

variable {value : UInt32} {left : Nat} {s : IsqrtState}

theorem shiftLeft_one_toNat {word : UInt32} (fits : 2 * word.toNat < 2 ^ 32) :
    (word <<< 1).toNat = 2 * word.toNat := by
  have shift : (1 : UInt32).toNat % 32 = 1 := rfl
  rw [UInt32.toNat_shiftLeft, shift, Nat.shiftLeft_eq, Nat.mod_eq_of_lt (by omega)]
  omega

theorem shiftLeft_two_toNat (word : UInt32) :
    (word <<< 2).toNat = 4 * word.toNat % 2 ^ 32 := by
  have shift : (2 : UInt32).toNat % 32 = 2 := rfl
  rw [UInt32.toNat_shiftLeft, shift, Nat.shiftLeft_eq]
  omega

theorem shiftRight_thirty_toNat (word : UInt32) :
    (word >>> 30).toNat = word.toNat / 2 ^ 30 := by
  have shift : (30 : UInt32).toNat % 32 = 30 := rfl
  rw [UInt32.toNat_shiftRight, shift, Nat.shiftRight_eq_div_pow]

theorem or_one_toNat {word : UInt32} {half : Nat} (even : word.toNat = 2 * half) :
    (word ||| 1).toNat = 2 * half + 1 := by
  have one : (1 : UInt32).toNat = 1 := rfl
  have added := Nat.two_pow_add_eq_or_of_lt (i := 1) (by decide : 1 < 2 ^ 1) half
  rw [pow_one] at added
  rw [UInt32.toNat_or, even, one, added]

theorem roundExact (root : s.result.toNat < 2 ^ 15)
    (small : s.remainder.toNat ≤ 2 * s.result.toNat) : RoundExact s := by
  have once : (s.result <<< 1).toNat = 2 * s.result.toNat := shiftLeft_one_toNat (by omega)
  have twice : ((s.result <<< 1) <<< 1).toNat = 2 * (2 * s.result.toNat) := by
    rw [shiftLeft_one_toNat (by omega), once]
  have shifted : (s.remainder <<< 2).toNat = 4 * s.remainder.toNat := by
    rw [shiftLeft_two_toNat, Nat.mod_eq_of_lt (by omega)]
  have digit := s.value.toNat_lt
  have remainder : ((s.remainder <<< 2) + (s.value >>> 30)).toNat =
      4 * s.remainder.toNat + s.value.toNat / 2 ^ 30 := by
    rw [UInt32.toNat_add, shifted, shiftRight_thirty_toNat, Nat.mod_eq_of_lt (by omega)]
  have p : (((s.result <<< 1) <<< 1) ||| 1).toNat = 4 * s.result.toNat + 1 := by
    rw [or_one_toNat twice]
    omega
  refine ⟨once, or_one_toNat once, shifted, remainder, p, fun taken => ?_⟩
  rw [UInt32.toNat_sub_of_le _ _ taken, remainder, p]

theorem IsqrtHolds.start (value : UInt32) : IsqrtHolds value 16 ⟨value, 0, 0⟩ := by
  have whole : value.toNat < 4 ^ 16 := value.toNat_lt
  refine ⟨le_refl 16, ?_, ?_⟩
  · rw [Nat.div_eq_of_lt whole]
    exact RootOf.zero
  · rw [Nat.mod_eq_of_lt whole, Nat.sub_self, pow_zero, Nat.mul_one]

/-- The root so far has at most fifteen bits while there are bits to be taken. -/
theorem IsqrtHolds.exact (holds : IsqrtHolds value (left + 1) s) : RoundExact s := by
  have whole : value.toNat < 2 ^ 15 * 2 ^ 15 * 4 := value.toNat_lt
  have few : value.toNat / 4 ^ (left + 1) < 2 ^ 15 * 2 ^ 15 := by
    apply Nat.div_lt_of_lt_mul
    have power : 4 ≤ 4 ^ (left + 1) := Nat.le_self_pow (Nat.succ_ne_zero left) 4
    nlinarith
  exact roundExact (holds.root.lt_of_lt few) holds.root.small

/-- A round takes two bits of the value. -/
theorem IsqrtHolds.round (holds : IsqrtHolds value (left + 1) s) :
    IsqrtHolds value left (isqrtRound s) := by
  obtain ⟨within, root, rest⟩ := id holds
  have exact := holds.exact
  -- the bits still to be taken are one digit and the others
  let digit := value.toNat / 4 ^ left % 4
  have isDigit : digit < 4 := Nat.mod_lt _ (by decide)
  have number : value.toNat / 4 ^ left = 4 * (value.toNat / 4 ^ (left + 1)) + digit := by
    rw [pow_succ, ← Nat.div_div_eq_div_mul]
    exact (Nat.div_add_mod _ 4).symm
  have others : value.toNat % 4 ^ (left + 1) = value.toNat % 4 ^ left + 4 ^ left * digit := by
    rw [pow_succ, Nat.mod_mul]
  have power : 4 ^ left * 4 ^ (16 - (left + 1)) = 2 ^ 30 := by
    rw [← pow_add, show left + (16 - (left + 1)) = 15 by omega]
    norm_num
  have power' : 4 ^ (16 - left) = 4 * 4 ^ (16 - (left + 1)) := by
    rw [← pow_succ', show 16 - (left + 1) + 1 = 16 - left by omega]
  have below : value.toNat % 4 ^ left * 4 ^ (16 - (left + 1)) < 2 ^ 30 := by
    rw [← power]
    exact Nat.mul_lt_mul_of_pos_right (Nat.mod_lt _ (by positivity)) (by positivity)
  have split : s.value.toNat =
      value.toNat % 4 ^ left * 4 ^ (16 - (left + 1)) + 2 ^ 30 * digit := by
    rw [rest, others, Nat.add_mul, ← power]
    ring
  have taken : s.value.toNat / 2 ^ 30 = digit := by omega
  have kept : (s.value <<< 2).toNat = value.toNat % 4 ^ left * 4 ^ (16 - left) := by
    rw [shiftLeft_two_toNat, power', split, Nat.mul_left_comm]
    omega
  have remainder := exact.remainder
  rw [taken] at remainder
  rw [isqrtRound]
  by_cases fits : (((s.result <<< 1) <<< 1) ||| (1 : UInt32)) ≤
      (s.remainder <<< 2) + (s.value >>> 30)
  · have large := UInt32.le_iff_toNat_le.mp fits
    rw [exact.p, remainder] at large
    rw [if_pos fits]
    refine ⟨by omega, ?_, kept⟩
    rw [exact.resultOne, exact.taken fits, taken, number]
    exact root.digit_one isDigit large
  · have small := mt UInt32.le_iff_toNat_le.mpr fits
    rw [exact.p, remainder] at small
    rw [if_neg fits]
    refine ⟨by omega, ?_, kept⟩
    rw [exact.result, remainder, number]
    exact root.digit_zero (by omega)

theorem isqrtRounds_holds (value : UInt32) {rounds : Nat} (within : rounds ≤ 16) :
    IsqrtHolds value (16 - rounds) (isqrtRounds rounds ⟨value, 0, 0⟩) := by
  induction rounds with
  | zero => exact IsqrtHolds.start value
  | succ rounds ih =>
      have holds := ih (by omega)
      rw [show 16 - rounds = 16 - (rounds + 1) + 1 by omega] at holds
      exact holds.round

end Rounds

/-- `nt_isqrt32` gives the integer part of the square root, and each of its rounds is
exact. -/
theorem ntIsqrt32_exact (value : UInt32) :
    (ntIsqrt32 value).toNat * (ntIsqrt32 value).toNat ≤ value.toNat ∧
      value.toNat < ((ntIsqrt32 value).toNat + 1) * ((ntIsqrt32 value).toNat + 1) ∧
      ∀ rounds, rounds < 16 → RoundExact (isqrtRounds rounds ⟨value, 0, 0⟩) := by
  have root := (isqrtRounds_holds value (le_refl 16)).root
  rw [Nat.sub_self, pow_zero, Nat.div_one] at root
  refine ⟨root.bounds.1, root.bounds.2, fun rounds more => ?_⟩
  have holds := isqrtRounds_holds value more.le
  rw [show 16 - rounds = 16 - (rounds + 1) + 1 by omega] at holds
  exact holds.exact

example : ntIsqrt32 4294967295 = 65535 := by decide +kernel

end NtShm
