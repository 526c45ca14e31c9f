import NtShm.CStrings
import NtShm.HashmapMaps

/-!
# String keys of the hashmap

A string is reduced to a 64-bit number by `MurmurHash64A`, and that number is its
key.  The map cannot tell strings with the same number from each other.
-/

namespace NtShm

/-- `m`. -/
def murmurFactor : UInt64 := 0xc6a4a7935bd1e995

/-- `r`. -/
def murmurShift : UInt64 := 47

/-- `h` after one block `k`. -/
def murmurBlock (h k : UInt64) : UInt64 :=
  let k := k * murmurFactor
  let k := k ^^^ (k >>> murmurShift)
  let k := k * murmurFactor
  (h ^^^ k) * murmurFactor

/-- Eight bytes of the string as a number; the first byte is the lowest. -/
def CString.blockAt (key : CString) (offset : Nat) : Nat → UInt64
  | 0 => 0
  | bytes + 1 =>
      (key.byteAt offset).toUInt64 ||| (key.blockAt (offset + 1) bytes <<< 8)

/-- The loop over the blocks. -/
def murmurBlocks (key : CString) : Nat → Nat → UInt64 → UInt64
  | 0, _, h => h
  | left + 1, offset, h => murmurBlocks key left (offset + 8) (murmurBlock h (key.blockAt offset 8))

/-- The cases of the switch, from the highest of the bytes that are left down. -/
def murmurTail (key : CString) (offset : Nat) : Nat → UInt64 → UInt64
  | 0, h => h
  | left + 1, h =>
      murmurTail key offset left
        (h ^^^ ((key.byteAt (offset + left)).toUInt64 <<< (8 * left).toUInt64))

/-- `MurmurHash64A`.  With a negative number of blocks the loop never meets its end,
and leaves the string. -/
def murmurHash64A (key : CString) (len : Int) (seed : UInt64) : Option UInt64 :=
  let h := seed ^^^ (UInt64.ofInt len * murmurFactor)
  let blocks := len.tdiv 8
  if blocks < 0 then none
  else
    let h := murmurBlocks key blocks.toNat 0 h
    let left := (len % 8).toNat
    let h := if left = 0 then h else murmurTail key (8 * blocks.toNat) left h * murmurFactor
    let h := (h ^^^ (h >>> murmurShift)) * murmurFactor
    some (h ^^^ (h >>> murmurShift))

/-- `string_to_uint64`; `strlen` becomes an `int`. -/
def stringToUint64 (str : CString) : Option UInt64 :=
  murmurHash64A str (asInt (str.length % 2 ^ 32)) 0x12345678

/-- `nt_hashmap_get_ext`. -/
def ntHashmapGetExt (hm : NtHashmap) (key : CString) : Option UInt64 := do
  let ntkey ← stringToUint64 key
  ntHashmapGet hm ntkey

/-- `nt_hashmap_set_ext`. -/
def ntHashmapSetExt (hm : NtHashmap) (key : CString) (value : UInt64) : Option NtHashmap := do
  let ntkey ← stringToUint64 key
  ntHashmapSet hm ntkey value

/-- The length, as an `int`, is not so far below 0 that the loop leaves the string. -/
def CString.Hashable (key : CString) : Prop := -8 < asInt (key.length % 2 ^ 32)

theorem tdiv_neg_iff (len : Int) : len.tdiv 8 < 0 ↔ len ≤ -8 := by
  rcases Int.le_total 0 len with positive | negative
  · rw [Int.tdiv_eq_ediv_of_nonneg positive]
    omega
  · have opposite : len.tdiv 8 = -((-len) / 8) := by
      rw [← Int.tdiv_eq_ediv_of_nonneg (by omega), Int.neg_tdiv, Int.neg_neg]
    rw [opposite]
    omega

theorem murmurHash64A_isSome (key : CString) (len : Int) (seed : UInt64) :
    (murmurHash64A key len seed).isSome ↔ -8 < len := by
  unfold murmurHash64A
  by_cases blocks : len.tdiv 8 < 0
  · rw [if_pos blocks]
    rw [tdiv_neg_iff] at blocks
    exact iff_of_false (by simp) (by omega)
  · rw [if_neg blocks]
    rw [tdiv_neg_iff] at blocks
    exact iff_of_true rfl (by omega)

theorem CString.Hashable.exists_key {key : CString} (hashable : key.Hashable) :
    ∃ ntkey, stringToUint64 key = some ntkey :=
  Option.isSome_iff_exists.mp ((murmurHash64A_isSome _ _ _).mpr hashable)

section Strings

variable {hm : NtHashmap} {map : UInt64 → Option UInt64} {key : CString} {ntkey : UInt64}

theorem ntHashmapGetExt_represents (represents : Represents64 hm map)
    (isKey : stringToUint64 key = some ntkey) :
    ntHashmapGetExt hm key = some ((map ntkey).getD 0) := by
  rw [ntHashmapGetExt, isKey]
  exact ntHashmapGet_represents represents ntkey

theorem ntHashmapSetExt_represents (represents : Represents64 hm map)
    (isKey : stringToUint64 key = some ntkey) (value : UInt64) :
    ∃ hm', ntHashmapSetExt hm key value = some hm' ∧
      Represents64 hm' (Function.update map ntkey (some value)) := by
  obtain ⟨hm', sets, represents', -⟩ := ntHashmapSet_represents represents ntkey value
  refine ⟨hm', ?_, represents'⟩
  rw [ntHashmapSetExt, isKey]
  exact sets

/-- A string is found again, and other strings keep their values unless they have the
same number. -/
theorem ntHashmapSetExt_get (represents : Represents64 hm map) {key key2 : CString}
    (hashable : key.Hashable) (hashable2 : key2.Hashable) (value : UInt64) :
    ∃ hm' map' old, ntHashmapSetExt hm key value = some hm' ∧ Represents64 hm' map' ∧
      ntHashmapGetExt hm' key = some value ∧ ntHashmapGetExt hm key2 = some old ∧
      ntHashmapGetExt hm' key2 =
        some (if stringToUint64 key2 = stringToUint64 key then value else old) := by
  obtain ⟨ntkey, isKey⟩ := hashable.exists_key
  obtain ⟨ntkey2, isKey2⟩ := hashable2.exists_key
  obtain ⟨hm', sets, represents'⟩ := ntHashmapSetExt_represents represents isKey value
  have found := ntHashmapGetExt_represents represents' isKey
  have found2 := ntHashmapGetExt_represents represents' isKey2
  rw [Function.update_self, Option.getD_some] at found
  refine ⟨hm', _, _, sets, represents', found, ntHashmapGetExt_represents represents isKey2, ?_⟩
  rw [found2, isKey, isKey2]
  by_cases same : ntkey2 = ntkey
  · rw [same, if_pos rfl, Function.update_self, Option.getD_some]
  · rw [if_neg (by simpa using same), Function.update_of_ne same]

end Strings

/-- `365b41nibyu58vag`. -/
def firstOfCollision : CString where
  bytes := [51, 54, 53, 98, 52, 49, 110, 105, 98, 121, 117, 53, 56, 118, 97, 103]
  noNul := by decide

/-- `14juczzmf37oifsl`. -/
def secondOfCollision : CString where
  bytes := [49, 52, 106, 117, 99, 122, 122, 109, 102, 51, 55, 111, 105, 102, 115, 108]
  noNul := by decide

/-- In a new hashmap, the value set for one string is found for another. -/
theorem ntHashmapSetExt_collides :
    ∃ hm hm' : NtHashmap, Represents64 hm (fun _ => none) ∧
      firstOfCollision.bytes ≠ secondOfCollision.bytes ∧
      ntHashmapSetExt hm firstOfCollision 1 = some hm' ∧
      ntHashmapGetExt hm secondOfCollision = some 0 ∧
      ntHashmapGetExt hm' secondOfCollision = some 1 := by
  have isKey : stringToUint64 firstOfCollision = some 0x72bcc342451d350f := by decide
  have isKey2 : stringToUint64 secondOfCollision = some 0x72bcc342451d350f := by decide
  obtain ⟨hm, -, represents, -⟩ := ntHashmapCreateExt_represents (fun _ => 0) 0
  obtain ⟨hm', sets, represents'⟩ := ntHashmapSetExt_represents represents isKey 1
  refine ⟨hm, hm', represents, by decide, sets,
    ntHashmapGetExt_represents represents isKey2, ?_⟩
  rw [ntHashmapGetExt_represents represents' isKey2, Function.update_self]
  rfl

/-- The empty string and another one in a new hashmap. -/
theorem ntHashmapSetExt_get_twoStrings :
    ∃ hm hm' : NtHashmap, Represents64 hm (fun _ => none) ∧
      ntHashmapSetExt hm ⟨[], by decide⟩ 1 = some hm' ∧
      ntHashmapGetExt hm' ⟨[], by decide⟩ = some 1 ∧
      ntHashmapGetExt hm' firstOfCollision = ntHashmapGetExt hm firstOfCollision := by
  obtain ⟨hm, -, represents, -⟩ := ntHashmapCreateExt_represents (fun _ => 0) 0
  have hashable : CString.Hashable ⟨[], by decide⟩ := by
    show -8 < asInt _
    decide
  have hashable2 : firstOfCollision.Hashable := by
    show -8 < asInt _
    decide
  obtain ⟨hm', -, old, sets, -, found, isOld, isOld'⟩ :=
    ntHashmapSetExt_get represents hashable hashable2 1
  refine ⟨hm, hm', represents, sets, found, ?_⟩
  rw [isOld, isOld', if_neg (by decide)]

end NtShm
