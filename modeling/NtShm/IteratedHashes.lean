import Mathlib.Data.Nat.ModEq
import Mathlib.Data.Nat.Prime.Basic
import Mathlib.Data.List.Basic
import Mathlib.Logic.Function.Basic

/-!
# Hashes made of permutations

A hash that takes its input in pieces, by steps that are injective in the state and in the
piece, tells inputs apart that differ in one piece.  Multiplications by odd numbers and
exclusive ors with a shifted copy are such steps.
-/

namespace NtShm

section Groups

variable {Piece : Type*}

/-- Lists of the same length that differ, but only within one group of `size` pieces. -/
structure OneGroup (size : Nat) (first second : List Piece) : Prop where
  length : first.length = second.length
  apart : first ≠ second
  within : ∃ group, ∀ i, i / size ≠ group → first[i]? = second[i]?

/-- Lists that differ between whole groups before and anything after. -/
theorem OneGroup.between {size : Nat} {first second : List Piece}
    (length : first.length = second.length) (short : first.length ≤ size) (apart : first ≠ second)
    {before : List Piece} (whole : size ∣ before.length) (after : List Piece) :
    OneGroup size (before ++ (first ++ after)) (before ++ (second ++ after)) where
  length := by simp [length]
  apart := by
    intro same
    exact apart (List.append_inj_left (List.append_cancel_left same) length)
  within := by
    refine ⟨before.length / size, ?_⟩
    intro i elsewhere
    rcases Nat.lt_or_ge i before.length with early | late
    · rw [List.getElem?_append_left early, List.getElem?_append_left early]
    · have past : before.length + size ≤ i := by
        obtain ⟨groups, isLength⟩ := whole
        rw [isLength] at elsewhere late ⊢
        by_contra inGroup
        apply elsewhere
        have positive : 0 < size := by omega
        rw [Nat.mul_div_cancel_left _ positive]
        apply Nat.div_eq_of_lt_le
        · rwa [Nat.mul_comm]
        · rw [Nat.succ_mul, Nat.mul_comm]
          omega
      rw [List.getElem?_append_right late, List.getElem?_append_right late,
        List.getElem?_append_right (by omega), List.getElem?_append_right (by omega), length]

/-- The group is after whole groups that agree, or before a rest that agrees. -/
theorem OneGroup.split {size : Nat} {first second : List Piece} (positive : 0 < size)
    (oneGroup : OneGroup size first second) {place : Nat} (whole : size ∣ place) :
    (first.take place = second.take place ∧
        OneGroup size (first.drop place) (second.drop place)) ∨
      (OneGroup size (first.take place) (second.take place) ∧
        first.drop place = second.drop place) := by
  obtain ⟨group, agree⟩ := oneGroup.within
  obtain ⟨groups, rfl⟩ := whole
  have joined : first.take (size * groups) = second.take (size * groups) →
      first.drop (size * groups) ≠ second.drop (size * groups) := by
    intro sameTake sameDrop
    apply oneGroup.apart
    rw [← List.take_append_drop (size * groups) first, sameTake, sameDrop,
      List.take_append_drop]
  rcases Nat.lt_or_ge group groups with before | after
  · right
    have sameDrop : first.drop (size * groups) = second.drop (size * groups) := by
      apply List.ext_getElem?
      intro i
      rw [List.getElem?_drop, List.getElem?_drop]
      apply agree
      rw [Nat.mul_add_div positive]
      exact Nat.ne_of_gt (Nat.lt_of_lt_of_le before (Nat.le_add_right _ _))
    refine ⟨⟨?_, fun sameTake => joined sameTake sameDrop, group, ?_⟩, sameDrop⟩
    · rw [List.length_take, List.length_take, oneGroup.length]
    · intro i elsewhere
      rw [List.getElem?_take, List.getElem?_take, agree i elsewhere]
  · left
    have sameTake : first.take (size * groups) = second.take (size * groups) := by
      apply List.ext_getElem?
      intro i
      rw [List.getElem?_take, List.getElem?_take]
      split
      · next early =>
          apply agree
          have inGroups := Nat.div_lt_of_lt_mul early
          omega
      · rfl
    refine ⟨sameTake, ?_, joined sameTake, group - groups, ?_⟩
    · rw [List.length_drop, List.length_drop, oneGroup.length]
    · intro i elsewhere
      rw [List.getElem?_drop, List.getElem?_drop]
      apply agree
      rw [Nat.mul_add_div positive]
      omega

end Groups

section Iterations

variable {State Piece : Type*}

/-- A step that is injective in the state, and in the piece. -/
structure Permuting (step : State → Piece → State) : Prop where
  state : ∀ piece, Function.Injective fun state => step state piece
  piece : ∀ state, Function.Injective (step state)

namespace Permuting

variable {step : State → Piece → State} (permuting : Permuting step)
include permuting

theorem foldl_injective (pieces : List Piece) :
    Function.Injective fun state => pieces.foldl step state := by
  induction pieces with
  | nil => exact Function.injective_id
  | cons piece pieces ih => exact ih.comp (permuting.state piece)

theorem foldl_ne {first second : List Piece} (oneGroup : OneGroup 1 first second)
    (state : State) : first.foldl step state ≠ second.foldl step state := by
  induction first generalizing second state with
  | nil => exact absurd (List.length_eq_zero_iff.mp oneGroup.length.symm).symm oneGroup.apart
  | cons piece pieces ih =>
      cases second with
      | nil => cases oneGroup.length
      | cons other others =>
          rw [List.foldl_cons, List.foldl_cons]
          rcases oneGroup.split Nat.one_pos (Nat.dvd_refl 1) with
            ⟨sameTake, rest⟩ | ⟨differ, sameDrop⟩
          · cases sameTake
            exact ih rest _
          · change pieces = others at sameDrop
            subst sameDrop
            intro same
            have samePiece := permuting.piece _ (permuting.foldl_injective pieces same)
            exact differ.apart (congrArg (fun piece => [piece]) samePiece)

end Permuting

end Iterations

section Words

variable {width : Nat}

/-- Bits below a number that starts where they end. -/
theorem or_mul_two_pow {low bits : Nat} (inBits : low < 2 ^ bits) (high : Nat) :
    low ||| high * 2 ^ bits = low + high * 2 ^ bits := by
  rw [Nat.or_comm, Nat.mul_comm, ← Nat.two_pow_add_eq_or_of_lt inBits, Nat.add_comm]

theorem mul_injective_of_odd {factor : BitVec width} (odd : factor.toNat % 2 = 1) :
    Function.Injective fun word => word * factor := by
  intro first second same
  have coprime : Nat.gcd (2 ^ width) factor.toNat = 1 :=
    Nat.Coprime.pow_left width (Nat.coprime_two_left.mpr (Nat.odd_iff.mpr odd))
  have products := congrArg BitVec.toNat same
  dsimp only at products
  rw [BitVec.toNat_mul, BitVec.toNat_mul] at products
  have words : first.toNat ≡ second.toNat [MOD 2 ^ width] :=
    Nat.ModEq.cancel_right_of_coprime coprime products
  exact BitVec.eq_of_toNat_eq (Nat.ModEq.eq_of_lt_of_lt words first.isLt second.isLt)

theorem add_shiftLeft (word : BitVec width) (shift : Nat) :
    word + word <<< shift = word * (BitVec.ofNat width 1 + BitVec.twoPow width shift) := by
  rw [BitVec.shiftLeft_eq_mul_twoPow, BitVec.mul_add, BitVec.mul_one]

theorem xorShift_twice (shift : Nat) (word : BitVec width) :
    (word ^^^ word >>> shift) ^^^ (word ^^^ word >>> shift) >>> shift =
      word ^^^ word >>> (2 * shift) := by
  rw [BitVec.ushiftRight_xor_distrib, ← BitVec.shiftRight_add, ← Nat.two_mul, BitVec.xor_assoc,
    ← BitVec.xor_assoc (word >>> shift), BitVec.xor_self, BitVec.zero_xor]

/-- Exclusive or with a copy that is shifted to the right.  Doing it again doubles the
shift, until nothing of the copy is left. -/
theorem xorShift_injective {shift : Nat} (positive : 0 < shift) :
    Function.Injective fun word : BitVec width => word ^^^ word >>> shift := by
  intro first second same
  have doubled (n : Nat) :
      first ^^^ first >>> (2 ^ n * shift) = second ^^^ second >>> (2 ^ n * shift) := by
    induction n with
    | zero =>
        rw [Nat.pow_zero, Nat.one_mul]
        exact same
    | succ n ih =>
        rw [Nat.pow_succ', Nat.mul_assoc, ← xorShift_twice, ← xorShift_twice, ih]
  have gone : width ≤ 2 ^ width * shift :=
    Nat.le_trans (Nat.le_of_lt Nat.lt_two_pow_self) (Nat.le_mul_of_pos_right _ positive)
  have last := doubled width
  rwa [BitVec.ushiftRight_eq_zero gone, BitVec.ushiftRight_eq_zero gone, BitVec.xor_zero,
    BitVec.xor_zero] at last

end Words

end NtShm
