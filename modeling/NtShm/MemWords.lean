import NtShm.MemArena
import Mathlib.Data.Nat.Bitwise

/-!
# Size words of the allocator

Arithmetic facts about the size words, the rounding of requests and the bucket
index, in the form that the proofs about the arena use them.
-/

namespace NtShm

@[simp] theorem ntPtrSize_eq : ntPtrSize = 8 := rfl
@[simp] theorem memSizeField_eq : memSizeField = 8 := rfl
@[simp] theorem memMinAlloc_eq : memMinAlloc = 24 := rfl
@[simp] theorem memMinBucketSize_eq : memMinBucketSize = 24 := rfl
@[simp] theorem memMaxBucketSize_eq : memMaxBucketSize = 256 := rfl
@[simp] theorem memBucketCount_eq : memBucketCount = 30 := rfl
@[simp] theorem memMaxSize_eq : memMaxSize = 2 ^ 36 := rfl

theorem chunkSize_eq_mod (mem : Memory) (ptr : Nat) :
    chunkSize mem ptr = mem.load ptr 8 % 2 ^ 63 :=
  Nat.and_two_pow_sub_one_eq_mod (mem.load ptr 8) 63

theorem freeChunk_eq_true_iff (mem : Memory) (ptr : Nat) :
    freeChunk mem ptr = true ↔ mem.load ptr 8 < 2 ^ 63 := by
  have bound : mem.load ptr 8 < 2 ^ 64 := mem.load_lt ptr 8
  simp only [freeChunk, memFlgUsed, beq_iff_eq, Nat.and_two_pow,
    Nat.testBit_eq_decide_div_mod_eq]
  have topBit : mem.load ptr 8 / 2 ^ 63 % 2 = 0 ↔ mem.load ptr 8 < 2 ^ 63 := by
    omega
  simpa using topBit

theorem memFlgUsed_or {size : Nat} (small : size < 2 ^ 63) :
    memFlgUsed ||| size = 2 ^ 63 + size := by
  have sum := Nat.two_pow_add_eq_or_of_lt small 1
  simpa [memFlgUsed] using sum.symm

theorem chunkSize_of_free {mem : Memory} {ptr size : Nat}
    (small : size < 2 ^ 63) (word : mem.load ptr 8 = size) :
    chunkSize mem ptr = size ∧ freeChunk mem ptr = true := by
  rw [chunkSize_eq_mod, freeChunk_eq_true_iff, word]
  exact ⟨Nat.mod_eq_of_lt small, small⟩

theorem chunkSize_of_used {mem : Memory} {ptr size : Nat}
    (small : size < 2 ^ 63) (word : mem.load ptr 8 = memFlgUsed ||| size) :
    chunkSize mem ptr = size ∧ freeChunk mem ptr = false := by
  rw [memFlgUsed_or small] at word
  rw [chunkSize_eq_mod, ← Bool.not_eq_true, freeChunk_eq_true_iff, word]
  omega

theorem memBucketBySize_lt (size : Nat) : memBucketBySize size < 30 := by
  simp only [memBucketBySize, memMinBucketSize_eq, memMaxBucketSize_eq,
    memBucketCount_eq, Nat.shiftRight_eq_div_pow]
  split_ifs <;> omega

theorem memBucketBySize_mono {first second : Nat} (le : first ≤ second) :
    memBucketBySize first ≤ memBucketBySize second := by
  simp only [memBucketBySize, memMinBucketSize_eq, memMaxBucketSize_eq,
    memBucketCount_eq, Nat.shiftRight_eq_div_pow]
  split_ifs <;> omega

/-- Below the last bucket a chunk size determines the bucket exactly. -/
theorem le_of_memBucketBySize_le {first second : Nat}
    (aligned : first % 8 = 0) (aligned' : second % 8 = 0)
    (least : 24 ≤ first) (least' : 24 ≤ second)
    (le : memBucketBySize first ≤ memBucketBySize second)
    (special : memBucketBySize second < 29) : first ≤ second := by
  simp only [memBucketBySize, memMinBucketSize_eq, memMaxBucketSize_eq,
    memBucketCount_eq, Nat.shiftRight_eq_div_pow] at le special
  split_ifs at le special <;> omega

/-- What rounding a request gives. -/
structure IsProperSize (request size : Nat) : Prop where
  aligned : size % 8 = 0
  least : 24 ≤ size
  covers : request ≤ size
  small : size ≤ 2 ^ 36

theorem memProperAllocSize_spec {size : Nat} (bound : size ≤ 2 ^ 36) :
    IsProperSize size (memProperAllocSize size) := by
  have low : size &&& 7 = size % 8 := Nat.and_two_pow_sub_one_eq_mod size 3
  have high : (8 - size % 8) &&& 7 = (8 - size % 8) % 8 :=
    Nat.and_two_pow_sub_one_eq_mod (8 - size % 8) 3
  unfold memProperAllocSize
  rw [memMinAlloc_eq, low, high]
  split_ifs with large
  · rw [u64Add_of_lt (by omega)]
    constructor <;> omega
  · constructor <;> omega

theorem memProperAllocSize_of_proper {request size : Nat}
    (proper : IsProperSize request size) : memProperAllocSize size = size := by
  obtain ⟨aligned, least, _, small⟩ := proper
  have low : size &&& 7 = size % 8 := Nat.and_two_pow_sub_one_eq_mod size 3
  unfold memProperAllocSize
  rw [memMinAlloc_eq, low, aligned, if_pos least]
  exact u64Add_of_lt (by simp; omega)

end NtShm
