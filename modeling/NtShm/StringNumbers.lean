import NtShm.HashmapStrings
import NtShm.IteratedHashes

/-!
# Strings that the hashmap tells apart

`MurmurHash64A` takes a string in groups of eight bytes, by steps that lose nothing.
Strings of the same length that differ within one group have different numbers, so that
under such keys the hashmap is a map from strings.
-/

namespace NtShm

/-! ## The steps lose nothing -/

theorem mul_injective64 {factor : UInt64} (odd : factor.toNat % 2 = 1) :
    Function.Injective fun word : UInt64 => word * factor := by
  intro first second same
  have words := congrArg UInt64.toBitVec same
  exact UInt64.toBitVec_inj.mp (@mul_injective_of_odd 64 factor.toBitVec odd _ _ words)

theorem xorShift_injective64 {shift : UInt64} (positive : 0 < shift.toNat % 64) :
    Function.Injective fun word : UInt64 => word ^^^ (word >>> shift) := by
  intro first second same
  have words := congrArg UInt64.toBitVec same
  exact UInt64.toBitVec_inj.mp (xorShift_injective positive words)

theorem mul_murmurFactor_injective : Function.Injective fun word => word * murmurFactor :=
  mul_injective64 (by decide)

theorem xor_murmurShift_injective :
    Function.Injective fun word => word ^^^ (word >>> murmurShift) :=
  xorShift_injective64 (by decide)

theorem murmurBlock_permuting : Permuting murmurBlock where
  state k := by
    intro first second same
    exact (UInt64.xor_left_inj _).mp (mul_murmurFactor_injective same)
  piece h := by
    intro first second same
    have multiplied := (UInt64.xor_right_inj _).mp (mul_murmurFactor_injective same)
    exact mul_murmurFactor_injective (xor_murmurShift_injective
      (mul_murmurFactor_injective multiplied))

/-! ## The bytes of a group -/

section Groups

variable {key key2 : CString}

theorem toUInt64_bit (byte : UInt8) {i : Nat} (inWord : i < 64) :
    byte.toUInt64.toBitVec.getLsbD i = byte.toBitVec.getLsbD i := by
  rw [UInt8.toBitVec_toUInt64, BitVec.getLsbD_setWidth]
  simp [inWord]

theorem shifted_bit (byte : UInt8) {bytes : Nat} (few : bytes < 8) {i : Nat} (inWord : i < 64) :
    (byte.toUInt64 <<< (8 * bytes).toUInt64).toBitVec.getLsbD i =
      (decide (8 * bytes ≤ i) && byte.toBitVec.getLsbD (i - 8 * bytes)) := by
  have shift : (8 * bytes).toUInt64.toNat % 64 = 8 * bytes := by
    rw [Nat.toUInt64, UInt64.toNat_ofNat']
    omega
  have moved : (byte.toUInt64 <<< (8 * bytes).toUInt64).toBitVec =
      byte.toUInt64.toBitVec <<< ((8 * bytes).toUInt64.toNat % 64) := rfl
  rw [moved, shift, BitVec.getLsbD_shiftLeft, toUInt64_bit _ (by omega)]
  rcases Nat.lt_or_ge i (8 * bytes) with below | above
  · simp [below, Nat.not_le.mpr below]
  · simp [inWord, above, Nat.not_lt.mpr above]

/-- A bit of a group comes from one byte. -/
theorem CString.blockAt_bit (key : CString) (offset bytes : Nat) {i : Nat} (inWord : i < 64) :
    (key.blockAt offset bytes).toBitVec.getLsbD i =
      (decide (i < 8 * bytes) && (key.byteAt (offset + i / 8)).toBitVec.getLsbD (i % 8)) := by
  induction bytes generalizing offset i with
  | zero => simp [CString.blockAt]
  | succ bytes ih =>
      have higher : (key.blockAt (offset + 1) bytes <<< 8).toBitVec =
          (key.blockAt (offset + 1) bytes).toBitVec <<< 8 := rfl
      rw [CString.blockAt, UInt64.toBitVec_or, BitVec.getLsbD_or, toUInt64_bit _ inWord, higher,
        BitVec.getLsbD_shiftLeft]
      rcases Nat.lt_or_ge i 8 with first | later
      · have inBytes : i < 8 * (bytes + 1) := by omega
        simp [first, inBytes, Nat.div_eq_of_lt first, Nat.mod_eq_of_lt first]
      · have place : offset + 1 + (i - 8) / 8 = offset + i / 8 := by omega
        have bit : (i - 8) % 8 = i % 8 := by omega
        have inBytes : i - 8 < 8 * bytes ↔ i < 8 * (bytes + 1) := by omega
        rw [ih (offset + 1) (by omega), place, bit, BitVec.getLsbD_of_ge _ _ later]
        simp [inWord, Nat.not_lt.mpr later, inBytes]

theorem CString.blockAt_succ (key : CString) (offset : Nat) {bytes : Nat} (few : bytes < 8) :
    key.blockAt offset (bytes + 1) =
      (key.byteAt (offset + bytes)).toUInt64 <<< (8 * bytes).toUInt64 ^^^
        key.blockAt offset bytes := by
  apply UInt64.toBitVec_inj.mp
  apply BitVec.eq_of_getLsbD_eq
  intro i inWord
  rw [UInt64.toBitVec_xor, BitVec.getLsbD_xor, shifted_bit _ few inWord, blockAt_bit _ _ _ inWord,
    blockAt_bit _ _ _ inWord]
  rcases Nat.lt_or_ge i (8 * bytes) with below | above
  · have inBytes : i < 8 * (bytes + 1) := by omega
    simp [below, inBytes, Nat.not_le.mpr below]
  · rcases Nat.lt_or_ge i (8 * (bytes + 1)) with inTop | past
    · have place : i / 8 = bytes := by omega
      have bit : i % 8 = i - 8 * bytes := by omega
      simp [above, inTop, Nat.not_lt.mpr above, place, bit]
    · rw [BitVec.getLsbD_of_ge _ (i - 8 * bytes) (by omega)]
      simp [Nat.not_lt.mpr above, Nat.not_lt.mpr past]

/-- The switch of `MurmurHash64A` takes the bytes that are left as one number. -/
theorem murmurTail_eq (key : CString) (offset : Nat) {left : Nat} (few : left ≤ 8) (h : UInt64) :
    murmurTail key offset left h = h ^^^ key.blockAt offset left := by
  induction left generalizing h with
  | zero => exact UInt64.xor_zero.symm
  | succ left ih =>
      rw [murmurTail, ih (by omega), key.blockAt_succ offset (by omega), UInt64.xor_assoc]

theorem CString.byteAt_eq_of_blockAt {offset bytes : Nat} (few : bytes ≤ 8)
    (same : key.blockAt offset bytes = key2.blockAt offset bytes) {place : Nat}
    (inGroup : place < bytes) : key.byteAt (offset + place) = key2.byteAt (offset + place) := by
  apply UInt8.toBitVec_inj.mp
  apply BitVec.eq_of_getLsbD_eq
  intro i inByte
  have bits := congrArg (fun word : UInt64 => word.toBitVec.getLsbD (8 * place + i)) same
  have here : 8 * place + i < 8 * bytes := by omega
  have isPlace : (8 * place + i) / 8 = place := by omega
  have isBit : (8 * place + i) % 8 = i := by omega
  rw [blockAt_bit _ _ _ (by omega), blockAt_bit _ _ _ (by omega), isPlace, isBit,
    decide_eq_true here, Bool.true_and, Bool.true_and] at bits
  exact bits

theorem CString.blockAt_congr {offset bytes : Nat}
    (agree : ∀ place < bytes, key.byteAt (offset + place) = key2.byteAt (offset + place)) :
    key.blockAt offset bytes = key2.blockAt offset bytes := by
  induction bytes generalizing offset with
  | zero => rfl
  | succ bytes ih =>
      have first := agree 0 (Nat.succ_pos _)
      rw [Nat.add_zero] at first
      rw [blockAt, blockAt, first, ih]
      intro place inGroup
      rw [Nat.add_assoc, Nat.add_comm 1]
      exact agree (place + 1) (Nat.succ_lt_succ inGroup)

/-! ## Strings that differ in one group -/

def CString.groups (key : CString) : Nat → Nat → List UInt64
  | 0, _ => []
  | left + 1, offset => key.blockAt offset 8 :: key.groups left (offset + 8)

theorem murmurBlocks_succ (key : CString) (left offset : Nat) (h : UInt64) :
    murmurBlocks key (left + 1) offset h =
      murmurBlocks key left (offset + 8) (murmurBlock h (key.blockAt offset 8)) := by
  -- Without this the kernel unfolds the arithmetic of the block first.
  delta murmurBlocks
  rfl

theorem murmurBlocks_eq (key : CString) (left offset : Nat) (h : UInt64) :
    murmurBlocks key left offset h = (key.groups left offset).foldl murmurBlock h := by
  induction left generalizing offset h with
  | zero => rfl
  | succ left ih => rw [murmurBlocks_succ, ih, CString.groups, List.foldl_cons]

@[simp] theorem CString.length_groups (key : CString) (left offset : Nat) :
    (key.groups left offset).length = left := by
  induction left generalizing offset with
  | zero => rfl
  | succ left ih => exact congrArg Nat.succ (ih _)

theorem CString.getElem?_groups (key : CString) (left offset i : Nat) :
    (key.groups left offset)[i]? =
      if i < left then some (key.blockAt (offset + 8 * i) 8) else none := by
  induction left generalizing offset i with
  | zero => rfl
  | succ left ih =>
      cases i with
      | zero => rfl
      | succ i =>
          rw [groups, List.getElem?_cons_succ, ih, Nat.mul_succ, Nat.add_comm (8 * i),
            ← Nat.add_assoc]
          simp only [Nat.succ_lt_succ_iff]

/-- What `MurmurHash64A` makes of the groups and of the rest. -/
def murmurFinish (h : UInt64) : UInt64 :=
  let h := (h ^^^ (h >>> murmurShift)) * murmurFactor
  h ^^^ (h >>> murmurShift)

theorem murmurFinish_injective : Function.Injective murmurFinish := by
  intro first second same
  exact xor_murmurShift_injective (mul_murmurFactor_injective (xor_murmurShift_injective same))

/-- The number of a string that is not too long. -/
theorem stringToUint64_eq (short : key.length < 2 ^ 31) :
    stringToUint64 key =
      let h := (key.groups (key.length / 8) 0).foldl murmurBlock
        (0x12345678 ^^^ (UInt64.ofInt key.length * murmurFactor))
      some (murmurFinish (if key.length % 8 = 0 then h
        else (h ^^^ key.blockAt (8 * (key.length / 8)) (key.length % 8)) * murmurFactor)) := by
  have len : asInt (key.length % 2 ^ 32) = key.length := by
    rw [Nat.mod_eq_of_lt (by omega), asInt, if_pos short]
  have blocks : (key.length : Int).tdiv 8 = (key.length / 8 : Nat) := by
    rw [Int.tdiv_eq_ediv_of_nonneg (by omega)]
    rfl
  have left : ((key.length : Int) % 8).toNat = key.length % 8 := by omega
  have tail := murmurTail_eq key (8 * (key.length / 8)) (by omega : key.length % 8 ≤ 8)
  rw [stringToUint64, murmurHash64A, len, blocks, if_neg (by omega), Int.toNat_natCast, left,
    murmurBlocks_eq]
  simp only [tail, murmurFinish]

theorem tail_injective (left : Nat) (word : UInt64) :
    Function.Injective fun h => if left = 0 then h else (h ^^^ word) * murmurFactor := by
  intro first second same
  by_cases none : left = 0
  · simpa only [if_pos none] using same
  · simp only [if_neg none] at same
    exact (UInt64.xor_left_inj _).mp (mul_murmurFactor_injective same)

section Within

variable {group : Nat} (agree : ∀ i, i / 8 ≠ group → key.bytes[i]? = key2.bytes[i]?)
include agree

theorem CString.byteAt_eq_of_within {place : Nat} (elsewhere : place / 8 ≠ group) :
    key.byteAt place = key2.byteAt place := by
  rw [byteAt, byteAt, List.getD_eq_getElem?_getD, List.getD_eq_getElem?_getD,
    agree place elsewhere]

theorem CString.blockAt_eq_of_within {other bytes : Nat} (elsewhere : other ≠ group)
    (few : bytes ≤ 8) : key.blockAt (8 * other) bytes = key2.blockAt (8 * other) bytes := by
  apply blockAt_congr
  intro place inGroup
  apply byteAt_eq_of_within agree
  omega

/-- Where the group agrees as far as the string goes, the strings are the same. -/
theorem CString.blockAt_ne_of_within (length : key.bytes.length = key2.bytes.length)
    (apart : key.bytes ≠ key2.bytes) {bytes : Nat} (few : bytes ≤ 8)
    (whole : ∀ place < key.length, place / 8 = group → place < 8 * group + bytes) :
    key.blockAt (8 * group) bytes ≠ key2.blockAt (8 * group) bytes := by
  intro same
  apply apart
  apply List.ext_getElem length
  intro i inFirst inSecond
  rw [← byteAt_of_lt inFirst, ← byteAt_of_lt inSecond]
  by_cases here : i / 8 = group
  · have bound := whole i inFirst here
    have isPlace : 8 * group + (i - 8 * group) = i := by omega
    rw [← isPlace]
    exact byteAt_eq_of_blockAt few same (by omega)
  · exact byteAt_eq_of_within agree here

theorem CString.groups_eq_of_within {left : Nat} (past : left ≤ group) :
    key.groups left 0 = key2.groups left 0 := by
  apply List.ext_getElem?
  intro i
  rw [getElem?_groups, getElem?_groups, Nat.zero_add]
  split
  · next inRange => rw [blockAt_eq_of_within agree (by omega) (Nat.le_refl 8)]
  · rfl

theorem CString.oneGroup_groups (length : key.bytes.length = key2.bytes.length)
    (apart : key.bytes ≠ key2.bytes) {left : Nat} (inGroups : group < left) :
    OneGroup 1 (key.groups left 0) (key2.groups left 0) where
  length := by rw [length_groups, length_groups]
  apart := by
    intro sameGroups
    have here := congrArg (fun groups => groups[group]?) sameGroups
    simp only [getElem?_groups, if_pos inGroups, Option.some.injEq, Nat.zero_add] at here
    exact blockAt_ne_of_within agree length apart (Nat.le_refl 8) (by omega) here
  within := by
    refine ⟨group, fun i elsewhere => ?_⟩
    rw [Nat.div_one] at elsewhere
    rw [getElem?_groups, getElem?_groups, Nat.zero_add,
      blockAt_eq_of_within agree elsewhere (Nat.le_refl 8)]

end Within

/-- Strings that differ within one group of eight bytes have different numbers. -/
theorem stringToUint64_ne_of_oneGroup (short : key.length < 2 ^ 31)
    (oneGroup : OneGroup 8 key.bytes key2.bytes) : stringToUint64 key ≠ stringToUint64 key2 := by
  have length : key.length = key2.length := oneGroup.length
  obtain ⟨group, agree⟩ := oneGroup.within
  rw [stringToUint64_eq short, stringToUint64_eq (length ▸ short), ← length]
  intro same
  have finished := murmurFinish_injective (Option.some.inj same)
  rcases Nat.lt_or_ge group (key.length / 8) with inGroups | past
  · have oneOfGroups := CString.oneGroup_groups agree oneGroup.length oneGroup.apart inGroups
    have sameTail := CString.blockAt_eq_of_within agree (Nat.ne_of_gt inGroups)
      (by omega : key.length % 8 ≤ 8)
    rw [sameTail] at finished
    exact murmurBlock_permuting.foldl_ne oneOfGroups _ (tail_injective _ _ finished)
  · have tailDiffers {bytes : Nat} :=
      @CString.blockAt_ne_of_within _ _ _ agree oneGroup.length oneGroup.apart bytes
    -- The group that differs has bytes of the string, so it is the last one.
    have last : group = key.length / 8 ∧ key.length % 8 ≠ 0 := by
      by_contra none
      exact tailDiffers (Nat.zero_le 8) (by omega) rfl
    obtain ⟨rfl, some⟩ := last
    rw [CString.groups_eq_of_within agree past, if_neg some, if_neg some] at finished
    have sameTail := (UInt64.xor_right_inj _).mp (mul_murmurFactor_injective finished)
    exact tailDiffers (by omega) (by omega) sameTail

end Groups

/-! ## Runs over such strings -/

theorem CString.eq_of_bytes {key key2 : CString} (same : key.bytes = key2.bytes) : key = key2 := by
  cases key
  cases key2
  cases same
  rfl

instance : DecidableEq CString := fun key key2 =>
  decidable_of_iff (key.bytes = key2.bytes) ⟨CString.eq_of_bytes, congrArg CString.bytes⟩

/-- Calls of `nt_hashmap_set_ext` one after another, if none of them goes wrong. -/
def runStrings (hm : NtHashmap) (calls : List (CString × UInt64)) : Option NtHashmap :=
  calls.foldlM (fun hm call => ntHashmapSetExt hm call.1 call.2) hm

def lastValue (calls : List (CString × UInt64)) : CString → Option UInt64 :=
  calls.foldl (fun map call => Function.update map call.1 (some call.2)) fun _ => none

/-- The strings with a common start, and a few bytes after it that number them. -/
def Numbered (start : List UInt8) (width : Nat) (key : CString) : Prop :=
  ∃ number, number.length = width ∧ key.bytes = start ++ number

section Runs

variable {start : List UInt8} {width : Nat}

theorem Numbered.length {key : CString} (numbered : Numbered start width key) :
    key.length = start.length + width := by
  obtain ⟨number, isWidth, isBytes⟩ := numbered
  rw [CString.length, isBytes, List.length_append, isWidth]

theorem Numbered.oneGroup (whole : 8 ∣ start.length) (few : width ≤ 8) {key key2 : CString}
    (numbered : Numbered start width key) (numbered2 : Numbered start width key2)
    (apart : key ≠ key2) : OneGroup 8 key.bytes key2.bytes := by
  obtain ⟨number, isWidth, isBytes⟩ := numbered
  obtain ⟨number2, isWidth2, isBytes2⟩ := numbered2
  have numbersApart : number ≠ number2 := by
    rintro rfl
    exact apart (CString.eq_of_bytes (isBytes.trans isBytes2.symm))
  have oneGroup := OneGroup.between (isWidth.trans isWidth2.symm) (isWidth.trans_le few)
    numbersApart whole []
  rwa [List.append_nil, List.append_nil, ← isBytes, ← isBytes2] at oneGroup

theorem Numbered.exists_key (short : start.length + width < 2 ^ 31) {key : CString}
    (numbered : Numbered start width key) : ∃ ntkey, stringToUint64 key = some ntkey := by
  apply CString.Hashable.exists_key
  rw [CString.Hashable, numbered.length, Nat.mod_eq_of_lt (by omega), asInt, if_pos short]
  omega

def HoldsNumbered (start : List UInt8) (width : Nat) (hm : NtHashmap)
    (values : CString → Option UInt64) : Prop :=
  ∃ map, Represents64 hm map ∧ ∀ key ntkey, Numbered start width key →
    stringToUint64 key = some ntkey → map ntkey = values key

theorem HoldsNumbered.set (whole : 8 ∣ start.length) (few : width ≤ 8)
    (short : start.length + width < 2 ^ 31) {hm : NtHashmap} {values : CString → Option UInt64}
    (holds : HoldsNumbered start width hm values) {key : CString}
    (numbered : Numbered start width key) (value : UInt64) :
    ∃ hm', ntHashmapSetExt hm key value = some hm' ∧
      HoldsNumbered start width hm' (Function.update values key (some value)) := by
  obtain ⟨map, represents, agree⟩ := holds
  obtain ⟨ntkey, isKey⟩ := numbered.exists_key short
  obtain ⟨hm', sets, represents'⟩ := ntHashmapSetExt_represents represents isKey value
  refine ⟨hm', sets, _, represents', ?_⟩
  intro key2 ntkey2 numbered2 isKey2
  by_cases same : key2 = key
  · subst same
    cases isKey.symm.trans isKey2
    rw [Function.update_self, Function.update_self]
  · have numbersApart : ntkey2 ≠ ntkey := by
      rintro rfl
      have oneGroup := numbered2.oneGroup whole few numbered same
      exact stringToUint64_ne_of_oneGroup (numbered2.length ▸ short) oneGroup
        (isKey2.trans isKey.symm)
    rw [Function.update_of_ne numbersApart, Function.update_of_ne same]
    exact agree key2 ntkey2 numbered2 isKey2

theorem HoldsNumbered.run (whole : 8 ∣ start.length) (few : width ≤ 8)
    (short : start.length + width < 2 ^ 31) {hm : NtHashmap}
    (holds : HoldsNumbered start width hm fun _ => none) {calls : List (CString × UInt64)}
    (numbered : ∀ call ∈ calls, Numbered start width call.1) :
    ∃ hm', runStrings hm calls = some hm' ∧
      HoldsNumbered start width hm' (lastValue calls) := by
  induction calls using List.reverseRecOn with
  | nil => exact ⟨hm, rfl, holds⟩
  | append_singleton calls call ih =>
      obtain ⟨hm₁, runs, holds₁⟩ :=
        ih fun call isCall => numbered call (List.mem_append_left _ isCall)
      obtain ⟨hm', sets, holds'⟩ := holds₁.set whole few short
        (numbered call (List.mem_append_right _ (List.mem_singleton_self call))) call.2
      refine ⟨hm', ?_, ?_⟩
      · rw [runStrings] at runs ⊢
        rw [List.foldlM_append, runs]
        simpa using sets
      · rw [lastValue, List.foldl_append]
        exact holds'

/-- Under strings with a common start of whole groups, and at most one group after it, the
hashmap gives back the value of the last call for each string. -/
theorem runStrings_exact (whole : 8 ∣ start.length) (few : width ≤ 8)
    (short : start.length + width < 2 ^ 31) (hashFunc : UInt64 → UInt32) (initSize : Nat)
    {calls : List (CString × UInt64)}
    (numbered : ∀ call ∈ calls, Numbered start width call.1) :
    ∃ created hm, ntHashmapCreateExt initSize hashFunc ntDefaultUint64CompareFunc
        [] = some created ∧
      runStrings created calls = some hm ∧
      ∀ key, Numbered start width key →
        ntHashmapGetExt hm key = some ((lastValue calls key).getD 0) := by
  obtain ⟨created, creates, represents, -⟩ := ntHashmapCreateExt_represents hashFunc initSize
  have holds : HoldsNumbered start width created fun _ => none :=
    ⟨_, represents, fun _ _ _ _ => rfl⟩
  obtain ⟨hm, runs, holds'⟩ := holds.run whole few short numbered
  refine ⟨created, hm, creates, runs, ?_⟩
  intro key isNumbered
  obtain ⟨map, represents', agree⟩ := holds'
  obtain ⟨ntkey, isKey⟩ := isNumbered.exists_key short
  rw [ntHashmapGetExt_represents represents' isKey, agree key ntkey isNumbered isKey]

end Runs

/-- `sensors:1` and `sensors:2`. -/
theorem runStrings_exact_sensors :
    ∃ created hm, ntHashmapCreateExt 10 UInt64.toUInt32 ntDefaultUint64CompareFunc
        [] = some created ∧
      runStrings created
        [(⟨[115, 101, 110, 115, 111, 114, 115, 58, 49], by decide⟩, 5),
          (⟨[115, 101, 110, 115, 111, 114, 115, 58, 50], by decide⟩, 6)] = some hm ∧
      ntHashmapGetExt hm ⟨[115, 101, 110, 115, 111, 114, 115, 58, 49], by decide⟩ = some 5 ∧
      ntHashmapGetExt hm ⟨[115, 101, 110, 115, 111, 114, 115, 58, 50], by decide⟩ = some 6 := by
  obtain ⟨created, hm, creates, runs, gets⟩ :=
    @runStrings_exact [115, 101, 110, 115, 111, 114, 115, 58] 1 (by decide) (by decide)
      (by decide) UInt64.toUInt32 10
      [(⟨[115, 101, 110, 115, 111, 114, 115, 58, 49], by decide⟩, 5),
        (⟨[115, 101, 110, 115, 111, 114, 115, 58, 50], by decide⟩, 6)]
      (by
        intro call isCall
        simp only [List.mem_cons, List.not_mem_nil, or_false] at isCall
        rcases isCall with rfl | rfl
        · exact ⟨[49], rfl, rfl⟩
        · exact ⟨[50], rfl, rfl⟩)
  exact ⟨created, hm, creates, runs, gets _ ⟨[49], rfl, rfl⟩, gets _ ⟨[50], rfl, rfl⟩⟩

end NtShm
