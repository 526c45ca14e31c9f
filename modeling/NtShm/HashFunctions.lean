import NtShm.IteratedHashes
import NtShm.Sha1
import NtShm.HashsetKv
import Mathlib.Data.Fintype.EquivFin

/-!
# The hash functions

Four of the hash functions take their input by steps that lose nothing, so that keys of
the same length that differ in one byte never have the same hash.
-/

namespace NtShm

/-! ## The functions -/

/-- A step of `nt_hash_modfnv`. -/
def modfnvStep (hash : UInt32) (byte : UInt8) : UInt32 := (hash ^^^ byte.toUInt32) * 16777619

/-- What `nt_hash_modfnv` does in the end. -/
def modfnvFinish (hash : UInt32) : UInt32 :=
  let hash := hash + (hash <<< 13)
  let hash := hash ^^^ (hash >>> 7)
  let hash := hash + (hash <<< 3)
  let hash := hash ^^^ (hash >>> 17)
  hash + (hash <<< 5)

theorem ntHashModfnv_eq (data : List UInt8) (len : Nat) (seed : UInt32) :
    ntHashModfnv data len seed =
      modfnvFinish ((data.take len).foldl modfnvStep (2166136261 ^^^ seed)) :=
  rfl

/-- A step of `nt_hash_sdbm`. -/
def sdbmStep (hash : UInt32) (byte : UInt8) : UInt32 :=
  byte.toUInt32 + (hash <<< 6) + (hash <<< 16) - hash

/-- `nt_hash_sdbm`. -/
def ntHashSdbm (data : List UInt8) (len : Nat) (seed : UInt32) : UInt32 :=
  (data.take len).foldl sdbmStep seed

/-- A step of `nt_hash_djb2`. -/
def djb2Step (hash : UInt32) (byte : UInt8) : UInt32 := ((hash <<< 5) + hash) + byte.toUInt32

/-- `nt_hash_djb2`. -/
def ntHashDjb2 (data : List UInt8) (len : Nat) (seed : UInt32) : UInt32 :=
  (data.take len).foldl djb2Step (5381 ^^^ seed)

/-- `m` of `nt_hash_murmur2`. -/
def murmur2Factor : UInt32 := 0x5bd1e995

/-- A round of `nt_hash_murmur2`, with the four bytes as `k`. -/
def murmur2Block (hash k : UInt32) : UInt32 :=
  let k := k * murmur2Factor
  let k := k ^^^ (k >>> 24)
  let k := k * murmur2Factor
  (hash * murmur2Factor) ^^^ k

/-- The loop and the switch of `nt_hash_murmur2`. -/
def murmur2Bytes : UInt32 → List UInt8 → UInt32
  | hash, p0 :: p1 :: p2 :: p3 :: rest =>
      murmur2Bytes (murmur2Block hash (littleEndian p0 p1 p2 p3)) rest
  | hash, [p0, p1, p2] =>
      (hash ^^^ (p2.toUInt32 <<< 16) ^^^ (p1.toUInt32 <<< 8) ^^^ p0.toUInt32) * murmur2Factor
  | hash, [p0, p1] => (hash ^^^ (p1.toUInt32 <<< 8) ^^^ p0.toUInt32) * murmur2Factor
  | hash, [p0] => (hash ^^^ p0.toUInt32) * murmur2Factor
  | hash, [] => hash

/-- What `nt_hash_murmur2` does in the end. -/
def murmur2Finish (hash : UInt32) : UInt32 :=
  let hash := (hash ^^^ (hash >>> 13)) * murmur2Factor
  hash ^^^ (hash >>> 15)

/-- `nt_hash_murmur2`. -/
def ntHashMurmur2 (data : List UInt8) (len : Nat) (seed : UInt32) : UInt32 :=
  murmur2Finish (murmur2Bytes (seed ^^^ UInt32.ofNat len) (data.take len))

/-- `nt_default_ptr_hash_func`. -/
def ntDefaultPtrHashFunc (data : List UInt8) : UInt32 := ntHashModfnv data 8 ntDefaultHashSeed

/-- `nt_default_string_hash_func`. -/
def ntDefaultStringHashFunc (data : CString) : UInt32 :=
  ntHashModfnv data.bytes data.length ntDefaultHashSeed

/-- `nt_default_uint64_pair_hash_func`, with the two numbers in 16 bytes. -/
def ntDefaultUint64PairHashFunc (pair : List UInt8) : UInt32 :=
  ntHashModfnv (pair.drop 8) 8 (ntDefaultUint64HashFunc pair)

/-! ## The steps lose nothing -/

theorem mul_injective32 {factor : UInt32} (odd : factor.toNat % 2 = 1) :
    Function.Injective fun word : UInt32 => word * factor := by
  intro first second same
  have words := congrArg UInt32.toBitVec same
  exact UInt32.toBitVec_inj.mp (@mul_injective_of_odd 32 factor.toBitVec odd _ _ words)

theorem xorShift_injective32 {shift : UInt32} (positive : 0 < shift.toNat % 32) :
    Function.Injective fun word : UInt32 => word ^^^ (word >>> shift) := by
  intro first second same
  have words := congrArg UInt32.toBitVec same
  exact UInt32.toBitVec_inj.mp (xorShift_injective positive words)

theorem shiftAdd_injective32 {shift : UInt32}
    (odd : (1#32 + BitVec.twoPow 32 (shift.toNat % 32)).toNat % 2 = 1) :
    Function.Injective fun word : UInt32 => word + (word <<< shift) := by
  intro first second same
  have words : first.toBitVec + first.toBitVec <<< (shift.toNat % 32) =
      second.toBitVec + second.toBitVec <<< (shift.toNat % 32) := congrArg UInt32.toBitVec same
  rw [add_shiftLeft, add_shiftLeft] at words
  exact UInt32.toBitVec_inj.mp (mul_injective_of_odd odd words)

theorem toUInt32_injective : Function.Injective UInt8.toUInt32 := by
  intro first second same
  have numbers := congrArg UInt32.toNat same
  rw [UInt8.toNat_toUInt32, UInt8.toNat_toUInt32] at numbers
  exact UInt8.toNat_inj.mp numbers

theorem modfnvStep_permuting : Permuting modfnvStep where
  state byte := by
    intro first second same
    have xored := mul_injective32 (by decide) same
    exact (UInt32.xor_left_inj _).mp xored
  piece hash := by
    intro first second same
    have xored := mul_injective32 (by decide) same
    exact toUInt32_injective ((UInt32.xor_right_inj _).mp xored)

theorem modfnvFinish_injective : Function.Injective modfnvFinish := by
  intro first second same
  have fifth := shiftAdd_injective32 (by decide) same
  have fourth := xorShift_injective32 (by decide) fifth
  have third := shiftAdd_injective32 (by decide) fourth
  have twice := xorShift_injective32 (by decide) third
  exact shiftAdd_injective32 (by decide) twice

theorem djb2Step_permuting : Permuting djb2Step where
  state byte := by
    intro first second same
    have added : first + (first <<< 5) = second + (second <<< 5) := by
      rw [UInt32.add_comm first, UInt32.add_comm second]
      exact (UInt32.add_left_inj _).mp same
    exact shiftAdd_injective32 (by decide) added
  piece hash := by
    intro first second same
    exact toUInt32_injective ((UInt32.add_right_inj _).mp same)

/-- A step as the comment in `nt_hash_sdbm` has it. -/
theorem sdbmStep_eq (hash : UInt32) (byte : UInt8) :
    sdbmStep hash byte = byte.toUInt32 + hash * 65599 := by
  have six : hash <<< 6 = hash * 64 := by
    apply UInt32.toBitVec_inj.mp
    exact BitVec.shiftLeft_eq_mul_twoPow hash.toBitVec 6
  have sixteen : hash <<< 16 = hash * 65536 := by
    apply UInt32.toBitVec_inj.mp
    exact BitVec.shiftLeft_eq_mul_twoPow hash.toBitVec 16
  rw [sdbmStep, six, sixteen]
  grind

theorem sdbmStep_permuting : Permuting sdbmStep where
  state byte := by
    intro first second same
    dsimp only at same
    rw [sdbmStep_eq, sdbmStep_eq] at same
    exact mul_injective32 (by decide) ((UInt32.add_right_inj _).mp same)
  piece hash := by
    intro first second same
    rw [sdbmStep_eq, sdbmStep_eq] at same
    exact toUInt32_injective ((UInt32.add_left_inj _).mp same)

/-! ## Four bytes at a time -/


theorem littleEndian_toNat (b0 b1 b2 b3 : UInt8) :
    (littleEndian b0 b1 b2 b3).toNat =
      b0.toNat + b1.toNat * 2 ^ 8 + b2.toNat * 2 ^ 16 + b3.toNat * 2 ^ 24 := by
  have inByte0 := b0.toNat_lt
  have inByte1 := b1.toNat_lt
  have inByte2 := b2.toNat_lt
  have inByte3 := b3.toNat_lt
  have word : (littleEndian b0 b1 b2 b3).toNat =
      b0.toNat ||| b1.toNat * 2 ^ 8 % 2 ^ 32 ||| b2.toNat * 2 ^ 16 % 2 ^ 32 |||
        b3.toNat * 2 ^ 24 % 2 ^ 32 := by
    simp [littleEndian, UInt32.toNat_shiftLeft, Nat.shiftLeft_eq]
  have two : b0.toNat + b1.toNat * 2 ^ 8 < 2 ^ 16 := by omega
  have three : b0.toNat + b1.toNat * 2 ^ 8 + b2.toNat * 2 ^ 16 < 2 ^ 24 := by omega
  rw [word, Nat.mod_eq_of_lt (by omega), Nat.mod_eq_of_lt (by omega),
    Nat.mod_eq_of_lt (by omega), or_mul_two_pow inByte0, or_mul_two_pow two,
    or_mul_two_pow three]

theorem littleEndian_injective {b0 b1 b2 b3 c0 c1 c2 c3 : UInt8}
    (same : littleEndian b0 b1 b2 b3 = littleEndian c0 c1 c2 c3) :
    b0 = c0 ∧ b1 = c1 ∧ b2 = c2 ∧ b3 = c3 := by
  have numbers := congrArg UInt32.toNat same
  rw [littleEndian_toNat, littleEndian_toNat] at numbers
  simp only [← UInt8.toNat_inj]
  have inByte0 := b0.toNat_lt
  have inByte1 := b1.toNat_lt
  have inByte2 := b2.toNat_lt
  have inByte0' := c0.toNat_lt
  have inByte1' := c1.toNat_lt
  have inByte2' := c2.toNat_lt
  omega

/-- Without the last byte, the bytes of a word may be joined by exclusive or. -/
theorem xor_littleEndian (hash : UInt32) (b0 b1 b2 : UInt8) :
    hash ^^^ (b2.toUInt32 <<< 16) ^^^ (b1.toUInt32 <<< 8) ^^^ b0.toUInt32 =
      hash ^^^ littleEndian b0 b1 b2 0 := by
  apply UInt32.toBitVec_inj.mp
  apply BitVec.eq_of_getLsbD_eq
  intro i inRange
  simp [littleEndian, inRange]
  interval_cases i <;> simp

theorem murmur2Block_permuting : Permuting murmur2Block where
  state k := by
    intro first second same
    have multiplied := (UInt32.xor_left_inj _).mp same
    exact mul_injective32 (by decide) multiplied
  piece hash := by
    intro first second same
    have multiplied := (UInt32.xor_right_inj _).mp same
    have shifted := mul_injective32 (by decide) multiplied
    have once := xorShift_injective32 (by decide) shifted
    exact mul_injective32 (by decide) once

/-- The bytes that the switch of `nt_hash_murmur2` is for, as a word. -/
def tailWord (bytes : List UInt8) : UInt32 :=
  littleEndian (bytes.getD 0 0) (bytes.getD 1 0) (bytes.getD 2 0) 0

theorem murmur2Bytes_tail (hash : UInt32) {bytes : List UInt8} (short : bytes.length < 4)
    (some : bytes ≠ []) :
    murmur2Bytes hash bytes = (hash ^^^ tailWord bytes) * murmur2Factor := by
  match bytes with
  | [] => exact absurd rfl some
  | [p0] =>
      have joined := xor_littleEndian hash p0 0 0
      rw [show (0 : UInt8).toUInt32 <<< 16 = 0 from rfl,
        show (0 : UInt8).toUInt32 <<< 8 = 0 from rfl, UInt32.xor_zero, UInt32.xor_zero] at joined
      exact congrArg (· * murmur2Factor) joined
  | [p0, p1] =>
      have joined := xor_littleEndian hash p0 p1 0
      rw [show (0 : UInt8).toUInt32 <<< 16 = 0 from rfl, UInt32.xor_zero] at joined
      exact congrArg (· * murmur2Factor) joined
  | [p0, p1, p2] => exact congrArg (· * murmur2Factor) (xor_littleEndian hash p0 p1 p2)
  | _ :: _ :: _ :: _ :: _ =>
      simp only [List.length_cons] at short
      omega

theorem tailWord_injective {first second : List UInt8} (short : first.length < 4)
    (length : first.length = second.length) (same : tailWord first = tailWord second) :
    first = second := by
  obtain ⟨same0, same1, same2, -⟩ := littleEndian_injective same
  apply List.ext_getElem length
  intro i inFirst inSecond
  have inShort : i < 3 := by omega
  rw [List.getElem_eq_getD 0, List.getElem_eq_getD 0]
  interval_cases i <;> assumption

theorem murmur2Bytes_injective (bytes : List UInt8) :
    Function.Injective fun hash => murmur2Bytes hash bytes := by
  have tail : ∀ bytes : List UInt8, bytes.length < 4 → bytes ≠ [] →
      Function.Injective fun hash => murmur2Bytes hash bytes := by
    intro bytes short some first second same
    dsimp only at same
    rw [murmur2Bytes_tail _ short some, murmur2Bytes_tail _ short some] at same
    exact (UInt32.xor_left_inj _).mp (mul_injective32 (by decide) same)
  intro first second same
  dsimp only at same
  fun_induction murmur2Bytes first bytes generalizing second with
  | case1 hash p0 p1 p2 p3 rest ih =>
      rw [murmur2Bytes] at same
      exact murmur2Block_permuting.state _ (ih same)
  | case2 hash p0 p1 p2 => exact tail [p0, p1, p2] (by simp) (by simp) same
  | case3 hash p0 p1 => exact tail [p0, p1] (by simp) (by simp) same
  | case4 hash p0 => exact tail [p0] (by simp) (by simp) same
  | case5 hash => exact same

theorem murmur2Bytes_ne {first second : List UInt8} (oneGroup : OneGroup 4 first second)
    (hash : UInt32) : murmur2Bytes hash first ≠ murmur2Bytes hash second := by
  have tail : ∀ {first second : List UInt8}, OneGroup 4 first second → first.length < 4 →
      ∀ hash, murmur2Bytes hash first ≠ murmur2Bytes hash second := by
    intro first second oneGroup short hash same
    have length := oneGroup.length
    have some : first ≠ [] := by
      rintro rfl
      exact oneGroup.apart (List.length_eq_zero_iff.mp length.symm).symm
    have someOther : second ≠ [] := by
      rintro rfl
      exact some (List.length_eq_zero_iff.mp length)
    rw [murmur2Bytes_tail _ short some, murmur2Bytes_tail _ (length ▸ short) someOther] at same
    have sameWord := (UInt32.xor_right_inj _).mp (mul_injective32 (by decide) same)
    exact oneGroup.apart (tailWord_injective short length sameWord)
  have length := oneGroup.length
  fun_induction murmur2Bytes hash first generalizing second with
  | case1 hash p0 p1 p2 p3 rest ih =>
      match second, length with
      | q0 :: q1 :: q2 :: q3 :: others, _ =>
          rw [murmur2Bytes]
          rcases oneGroup.split (by decide) (Nat.dvd_refl 4) with
            ⟨sameTake, restGroup⟩ | ⟨differ, sameDrop⟩
          · cases sameTake
            exact ih restGroup restGroup.length
          · change rest = others at sameDrop
            subst sameDrop
            intro same
            have sameWord := murmur2Block_permuting.piece _ (murmur2Bytes_injective rest same)
            obtain ⟨rfl, rfl, rfl, rfl⟩ := littleEndian_injective sameWord
            exact differ.apart rfl
  | case2 hash p0 p1 p2 => exact tail oneGroup (by simp) hash
  | case3 hash p0 p1 => exact tail oneGroup (by simp) hash
  | case4 hash p0 => exact tail oneGroup (by simp) hash
  | case5 hash => exact absurd (List.length_eq_zero_iff.mp length.symm).symm oneGroup.apart

theorem murmur2Finish_injective : Function.Injective murmur2Finish := by
  intro first second same
  have multiplied := xorShift_injective32 (by decide) same
  have shifted := mul_injective32 (by decide) multiplied
  exact xorShift_injective32 (by decide) shifted

/-! ## Keys that differ in one place -/

section Keys

variable {first second : List UInt8} {len : Nat}

theorem ntHashModfnv_injective (key : List UInt8) (len : Nat) :
    Function.Injective (ntHashModfnv key len) := by
  intro seed seed' same
  rw [ntHashModfnv_eq, ntHashModfnv_eq] at same
  have folded := modfnvStep_permuting.foldl_injective _ (modfnvFinish_injective same)
  exact (UInt32.xor_right_inj _).mp folded

theorem ntHashModfnv_ne (oneByte : OneGroup 1 (first.take len) (second.take len))
    (seed : UInt32) : ntHashModfnv first len seed ≠ ntHashModfnv second len seed := by
  rw [ntHashModfnv_eq, ntHashModfnv_eq]
  exact modfnvFinish_injective.ne (modfnvStep_permuting.foldl_ne oneByte _)

/-- Keys that differ in one byte never have the same hash. -/
theorem hashes_ne_of_oneByte (oneByte : OneGroup 1 (first.take len) (second.take len))
    (seed : UInt32) :
    ntHashModfnv first len seed ≠ ntHashModfnv second len seed ∧
      ntHashSdbm first len seed ≠ ntHashSdbm second len seed ∧
      ntHashDjb2 first len seed ≠ ntHashDjb2 second len seed :=
  ⟨ntHashModfnv_ne oneByte seed, sdbmStep_permuting.foldl_ne oneByte seed,
    djb2Step_permuting.foldl_ne oneByte _⟩

theorem hashes_ne_of_oneByte_lastByte :
    OneGroup 1 [97, 98] ([97, 99] : List UInt8) ∧
      ntHashModfnv [97, 98] 2 0 ≠ ntHashModfnv [97, 99] 2 0 ∧
      ntHashSdbm [97, 98] 2 0 ≠ ntHashSdbm [97, 99] 2 0 ∧
      ntHashDjb2 [97, 98] 2 0 ≠ ntHashDjb2 [97, 99] 2 0 := by
  have oneByte : OneGroup 1 [97, 98] ([97, 99] : List UInt8) :=
    @OneGroup.between _ 1 [98] [99] rfl (by decide) (by decide) [97] (by decide) []
  exact ⟨oneByte, @hashes_ne_of_oneByte [97, 98] [97, 99] 2 oneByte 0⟩

/-- The bytes that `nt_hash_murmur2` takes together may differ in any way. -/
theorem ntHashMurmur2_ne (fourBytes : OneGroup 4 (first.take len) (second.take len))
    (seed : UInt32) : ntHashMurmur2 first len seed ≠ ntHashMurmur2 second len seed :=
  murmur2Finish_injective.ne (murmur2Bytes_ne fourBytes _)

theorem ntHashMurmur2_ne_lastGroup :
    OneGroup 4 [0, 1, 2, 3, 4, 5] ([0, 1, 2, 3, 5, 4] : List UInt8) ∧
      ntHashMurmur2 [0, 1, 2, 3, 4, 5] 6 0 ≠ ntHashMurmur2 [0, 1, 2, 3, 5, 4] 6 0 := by
  have fourBytes : OneGroup 4 [0, 1, 2, 3, 4, 5] ([0, 1, 2, 3, 5, 4] : List UInt8) :=
    @OneGroup.between _ 4 [4, 5] [5, 4] rfl (by decide) (by decide) [0, 1, 2, 3] (by decide) []
  exact ⟨fourBytes,
    @ntHashMurmur2_ne [0, 1, 2, 3, 4, 5] [0, 1, 2, 3, 5, 4] 6 fourBytes 0⟩

theorem finite_uint32 : Finite UInt32 :=
  Finite.of_injective UInt32.toFin fun _ _ same => UInt32.toFin_inj.mp same

/-- Every number is the hash of a key for one seed. -/
theorem hashes_bijective (key : List UInt8) (len : Nat) :
    Function.Bijective (ntHashModfnv key len) ∧ Function.Bijective (ntHashMurmur2 key len) ∧
      Function.Bijective (ntHashSdbm key len) ∧ Function.Bijective (ntHashDjb2 key len) := by
  have := finite_uint32
  simp only [← Finite.injective_iff_bijective]
  refine ⟨ntHashModfnv_injective key len, ?_, ?_, ?_⟩
  · intro seed seed' same
    have folded := murmur2Bytes_injective _ (murmur2Finish_injective same)
    exact (UInt32.xor_left_inj _).mp folded
  · exact sdbmStep_permuting.foldl_injective _
  · intro seed seed' same
    have folded := djb2Step_permuting.foldl_injective _ same
    exact (UInt32.xor_right_inj _).mp folded

end Keys

/-! ## The default hash functions -/

section Pairs

variable {first second : List UInt8}

theorem ntDefaultUint64PairHashFunc_eq_iff
    (sameSecond : (first.drop 8).take 8 = (second.drop 8).take 8) :
    ntDefaultUint64PairHashFunc first = ntDefaultUint64PairHashFunc second ↔
      ntDefaultUint64HashFunc first = ntDefaultUint64HashFunc second := by
  have seeded (seed : UInt32) :
      ntHashModfnv (first.drop 8) 8 seed = ntHashModfnv (second.drop 8) 8 seed := by
    rw [ntHashModfnv_eq, ntHashModfnv_eq, sameSecond]
  rw [ntDefaultUint64PairHashFunc, ntDefaultUint64PairHashFunc, seeded]
  exact (ntHashModfnv_injective _ 8).eq_iff

theorem ntDefaultUint64PairHashFunc_ne
    (oneByte : OneGroup 1 (first.take 16) (second.take 16)) :
    ntDefaultUint64PairHashFunc first ≠ ntDefaultUint64PairHashFunc second := by
  have takeTake (pair : List UInt8) : (pair.take 16).take 8 = pair.take 8 :=
    List.take_take
  have dropTake (pair : List UInt8) : (pair.take 16).drop 8 = (pair.drop 8).take 8 :=
    List.drop_take
  rcases oneByte.split Nat.one_pos (Nat.one_dvd 8) with
    ⟨sameFirst, secondByte⟩ | ⟨firstByte, sameSecond⟩
  · rw [takeTake, takeTake] at sameFirst
    rw [dropTake, dropTake] at secondByte
    have sameHash : ntDefaultUint64HashFunc first = ntDefaultUint64HashFunc second := by
      rw [ntDefaultUint64HashFunc, ntDefaultUint64HashFunc, ntHashModfnv_eq, ntHashModfnv_eq,
        sameFirst]
    rw [ntDefaultUint64PairHashFunc, ntDefaultUint64PairHashFunc, sameHash]
    exact ntHashModfnv_ne secondByte _
  · rw [takeTake, takeTake] at firstByte
    rw [dropTake, dropTake] at sameSecond
    rw [Ne, ntDefaultUint64PairHashFunc_eq_iff sameSecond]
    exact ntHashModfnv_ne firstByte _

end Pairs

/-- The default hash functions tell keys apart that differ in one byte, and the one for
pairs loses no more than the one for their first numbers. -/
theorem defaultHashFuncs_ne :
    (∀ first second, OneGroup 1 (first.take 8) (second.take 8) →
      ntDefaultUint64HashFunc first ≠ ntDefaultUint64HashFunc second ∧
        ntDefaultPtrHashFunc first ≠ ntDefaultPtrHashFunc second) ∧
      (∀ first second : CString, OneGroup 1 first.bytes second.bytes →
        ntDefaultStringHashFunc first ≠ ntDefaultStringHashFunc second) ∧
      (∀ first second, OneGroup 1 (first.take 16) (second.take 16) →
        ntDefaultUint64PairHashFunc first ≠ ntDefaultUint64PairHashFunc second) ∧
      ∀ first second, (first.drop 8).take 8 = (second.drop 8).take 8 →
        (ntDefaultUint64PairHashFunc first = ntDefaultUint64PairHashFunc second ↔
          ntDefaultUint64HashFunc first = ntDefaultUint64HashFunc second) := by
  refine ⟨?_, ?_, fun _ _ => ntDefaultUint64PairHashFunc_ne,
    fun _ _ => ntDefaultUint64PairHashFunc_eq_iff⟩
  · intro first second oneByte
    exact ⟨ntHashModfnv_ne oneByte _, ntHashModfnv_ne oneByte _⟩
  · intro first second oneByte
    have length : first.length = second.length := oneByte.length
    rw [ntDefaultStringHashFunc, ntDefaultStringHashFunc, length]
    apply ntHashModfnv_ne
    rwa [← length, CString.length, List.take_length, ← CString.length, length, CString.length,
      List.take_length]

theorem defaultHashFuncs_ne_firstByte :
    ntDefaultUint64HashFunc [1, 0, 0, 0, 0, 0, 0, 0] ≠
        ntDefaultUint64HashFunc [2, 0, 0, 0, 0, 0, 0, 0] ∧
      ntDefaultStringHashFunc ⟨[97, 99], by decide⟩ ≠
        ntDefaultStringHashFunc ⟨[98, 99], by decide⟩ ∧
      ntDefaultUint64PairHashFunc [1, 0, 0, 0, 0, 0, 0, 0, 3, 0, 0, 0, 0, 0, 0, 0] ≠
        ntDefaultUint64PairHashFunc [2, 0, 0, 0, 0, 0, 0, 0, 3, 0, 0, 0, 0, 0, 0, 0] := by
  have firstByte {first second : UInt8} (differs : first ≠ second) (rest : List UInt8) :
      OneGroup 1 (first :: rest) (second :: rest) :=
    @OneGroup.between _ 1 [first] [second] rfl (by simp) (by simpa using differs) []
      (by simp) rest
  obtain ⟨numbers, strings, pairs, -⟩ := defaultHashFuncs_ne
  exact ⟨(numbers [1, 0, 0, 0, 0, 0, 0, 0] [2, 0, 0, 0, 0, 0, 0, 0]
      (firstByte (by decide) _)).1,
    strings ⟨[97, 99], by decide⟩ ⟨[98, 99], by decide⟩ (firstByte (by decide) _),
    pairs [1, 0, 0, 0, 0, 0, 0, 0, 3, 0, 0, 0, 0, 0, 0, 0]
      [2, 0, 0, 0, 0, 0, 0, 0, 3, 0, 0, 0, 0, 0, 0, 0] (firstByte (by decide) _)⟩

end NtShm
