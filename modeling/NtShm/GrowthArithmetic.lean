import NtShm.HashmapMaps
import NtShm.HashsetRuns
import NtShm.IntPrimes
import NtShm.MemArena

/-!
# The growth arithmetic of the hash tables

The load and growth factors of the tables are macros that multiply an `int` before
they divide it.  The products of a table are exact as long as the product of its
load factor is.
-/

namespace NtShm

/-- `num_slots * up/down`. -/
def timesFactor (numSlots up down : Int) : Option Int := do
  let product ← intResult (numSlots * up)
  some (product.tdiv down)

def reachesLoad (numSlots numData up down : Int) : Option Bool := do
  let num ← intResult (numData + 1)
  let load ← timesFactor numSlots up down
  some (decide (num ≥ load))

/-- `next_prime(num_slots * SLOT_GROWTH_FACTOR)`. -/
def incSlotsInt (numSlots : Int) : Option Int := do
  let size ← timesFactor numSlots 3 2
  nextPrimeInt size

/-- `num_data + 1 >= num_slots * CRIT_LOAD_FACTOR`. -/
def NtHashset.growsInt (hs : NtHashset) : Option Bool := reachesLoad hs.numSlots hs.numData 4 5

/-- `num_data >= num_slots * CRIT_LOAD_FACTOR`, after `num_data++`. -/
def NtHashmap.growsInt (hm : NtHashmap) : Option Bool := reachesLoad hm.numSlots hm.numData 5 1

/-- No product overflows, a table grows exactly when it has reached its load factor,
and then gets more slots. -/
structure GrowthExact (numSlots numData up down : Nat) (grows : Option Bool) : Prop where
  load : timesFactor numSlots up down = some ((numSlots * up / down : Nat) : Int)
  size : timesFactor numSlots 3 2 = some ((numSlots * 3 / 2 : Nat) : Int)
  grows : grows = some (decide (numData + 1 ≥ numSlots * up / down))
  larger : ∃ incSlots : Nat, nextPrime (numSlots * 3 / 2 : Nat) = some incSlots ∧
    incSlotsInt numSlots = some (incSlots : Int) ∧ numSlots < incSlots

section Growth

variable {numSlots numData up down : Nat}

theorem timesFactor_eq (small : numSlots * up < 2 ^ 31) :
    timesFactor numSlots up down = some ((numSlots * up / down : Nat) : Int) := by
  have isProduct : intResult ((numSlots : Int) * up) = some ((numSlots * up : Nat) : Int) := by
    rw [← Int.natCast_mul]
    exact intResult_eq_some (by omega) (by exact_mod_cast small)
  have quotient : ((numSlots * up : Nat) : Int).tdiv down = (numSlots * up / down : Nat) := by
    rw [Int.tdiv_eq_ediv_of_nonneg (Int.natCast_nonneg _), Int.natCast_ediv]
  rw [timesFactor, isProduct, Option.bind_eq_bind, Option.bind_some, quotient]

theorem timesFactor_isSome : (timesFactor numSlots up down).isSome ↔ numSlots * up < 2 ^ 31 := by
  constructor
  · intro result
    obtain ⟨value, isValue⟩ := Option.isSome_iff_exists.mp result
    rw [timesFactor, Option.bind_eq_bind] at isValue
    obtain ⟨product, isProduct, -⟩ := Option.bind_eq_some_iff.mp isValue
    have within := (intResult_isSome.mp (Option.isSome_of_eq_some isProduct)).2
    rw [← Int.natCast_mul] at within
    omega
  · intro small
    exact Option.isSome_of_eq_some (timesFactor_eq small)

theorem nextPrime_le {n next : Nat} (isNext : nextPrime n = some next) : next ≤ 2 * n + 2 := by
  obtain ⟨next', isNext', -, -, least⟩ := nextPrime_spec n
  cases isNext.symm.trans isNext'
  by_cases zero : n = 0
  · have two := least 2 Nat.prime_two (by omega)
    omega
  · obtain ⟨p, prime, above, below⟩ := Nat.exists_prime_lt_and_le_two_mul n zero
    have bound := least p prime (by omega)
    omega

/-- A prime that is not below half as much again is larger. -/
theorem incSlotsInt_eq (small : numSlots * 4 < 2 ^ 31) :
    ∃ incSlots : Nat, nextPrime (numSlots * 3 / 2 : Nat) = some incSlots ∧
      incSlotsInt numSlots = some (incSlots : Int) ∧ numSlots < incSlots := by
  obtain ⟨incSlots, isNext, prime, above, -⟩ := nextPrime_spec (numSlots * 3 / 2 : Nat)
  have bound := nextPrime_le isNext
  have below : incSlots < intPrimeBound := by
    unfold intPrimeBound
    omega
  have two := prime.two_le
  have size : timesFactor numSlots 3 2 = some ((numSlots * 3 / 2 : Nat) : Int) :=
      @timesFactor_eq numSlots 3 2 (by omega)
  refine ⟨incSlots, isNext, ?_, by omega⟩
  rw [incSlotsInt, size]
  exact nextPrimeInt_eq (by omega) isNext below

theorem reachesLoad_eq (small : numSlots * up < 2 ^ 31) (few : numData + 1 < 2 ^ 31) :
    reachesLoad numSlots numData up down =
      some (decide (numData + 1 ≥ numSlots * up / down)) := by
  have isNum : intResult ((numData : Int) + 1) = some ((numData + 1 : Nat) : Int) :=
    intResult_eq_some (by omega) (by omega)
  simp only [reachesLoad, isNum, timesFactor_eq small, Option.bind_eq_bind, Option.bind_some,
    ge_iff_le, Nat.cast_le]

theorem reachesLoad_none (large : 2 ^ 31 ≤ numSlots * up) :
    reachesLoad numSlots numData up down = none := by
  have noProduct : timesFactor numSlots up down = none := by
    rw [← Option.not_isSome_iff_eq_none, timesFactor_isSome]
    omega
  rw [reachesLoad, noProduct]
  cases intResult (numData + 1) <;> rfl

/-- The product of the load factor decides. -/
theorem growthExact_iff (large : 4 ≤ up)
    (roomy : numData < numSlots * up / down ∨ numData = 0) :
    GrowthExact numSlots numData up down (reachesLoad numSlots numData up down) ↔
      numSlots * up < 2 ^ 31 := by
  constructor
  · intro exact
    exact timesFactor_isSome.mp (Option.isSome_of_eq_some exact.load)
  · intro small
    have times4 : numSlots * 4 ≤ numSlots * up := Nat.mul_le_mul_left numSlots large
    have loaded : numSlots * up / down ≤ numSlots * up := Nat.div_le_self _ _
    have few : numData + 1 < 2 ^ 31 := by
      rcases roomy with below | none <;> omega
    exact ⟨timesFactor_eq small, @timesFactor_eq numSlots 3 2 (by omega),
      reachesLoad_eq small few, incSlotsInt_eq (by omega)⟩

end Growth

section Tables

variable {hs : NtHashset} {hm : NtHashmap} {initSize : Nat}

theorem HashsetShape.growthExact_iff {table : List (List Nat)} (shape : HashsetShape hs table) :
    GrowthExact hs.numSlots hs.numData 4 5 hs.growsInt ↔ hs.numSlots * 4 < 2 ^ 31 := by
  refine NtShm.growthExact_iff (by decide) ?_
  rcases Nat.eq_zero_or_pos hs.numSlots with noSlots | someSlots
  · right
    have noTable : table = [] := List.length_eq_zero_iff.mp (shape.size ▸ noSlots)
    rw [shape.num, noTable]
    rfl
  · exact Or.inl (shape.load someSlots)

theorem Represents64.growthExact_iff {map : UInt64 → Option UInt64}
    (represents : Represents64 hm map) :
    GrowthExact hm.numSlots hm.numData 5 1 hm.growsInt ↔ hm.numSlots * 5 < 2 ^ 31 := by
  obtain ⟨table, holds, -, load⟩ := represents
  refine NtShm.growthExact_iff (by decide) ?_
  rcases Nat.eq_zero_or_pos hm.numSlots with noSlots | someSlots
  · right
    have noTable : table = [] := List.length_eq_zero_iff.mp (holds.size ▸ noSlots)
    rw [holds.num, noTable]
    rfl
  · left
    have bound := load someSlots
    omega

/-- The growth of a hashset or hashmap is exact if and only if the product of its load
factor is in the range of `int`. -/
theorem tables_growthExact_iff {table : List (List Nat)} {map : UInt64 → Option UInt64}
    (shape : HashsetShape hs table) (represents : Represents64 hm map) :
    (GrowthExact hs.numSlots hs.numData 4 5 hs.growsInt ↔ hs.numSlots * 4 < 2 ^ 31) ∧
      (GrowthExact hm.numSlots hm.numData 5 1 hm.growsInt ↔ hm.numSlots * 5 < 2 ^ 31) :=
  ⟨shape.growthExact_iff, represents.growthExact_iff⟩

/-- A table gets at most twice as many slots as it was asked for, and two more. -/
theorem exists_nextPrime (fits : initSize < 2 ^ 31) :
    ∃ numSlots, nextPrime (asInt (initSize % 2 ^ 32)) = some numSlots ∧
      initSize ≤ numSlots ∧ numSlots ≤ 2 * initSize + 2 := by
  have isInt : asInt (initSize % 2 ^ 32) = initSize := by
    rw [Nat.mod_eq_of_lt (by omega), asInt, if_pos fits]
  obtain ⟨numSlots, isNext, -, above, -⟩ := nextPrime_spec initSize
  rw [isInt]
  exact ⟨numSlots, isNext, by omega, nextPrime_le isNext⟩

theorem ntHashsetCreateExt_numSlots {hashFunc : List UInt8 → UInt32}
    {compareFunc : List UInt8 → List UInt8 → Int} {cleanFunc : Bool} (someSize : 0 < initSize)
    (fits : initSize < 2 ^ 31)
    (creates : ntHashsetCreateExt initSize hashFunc compareFunc cleanFunc true = some hs) :
    initSize ≤ hs.numSlots ∧ hs.numSlots ≤ 2 * initSize + 2 := by
  obtain ⟨numSlots, isNext, bounds⟩ := exists_nextPrime fits
  rw [ntHashsetCreateExt, NtHashset.initSlots, if_pos someSize, isNext] at creates
  cases creates
  exact bounds

theorem ntHashmapCreateExt_numSlots {hashFunc : UInt64 → UInt32}
    {compareFunc : UInt64 → UInt64 → Int} (someSize : 0 < initSize) (fits : initSize < 2 ^ 31)
    (creates : ntHashmapCreateExt initSize hashFunc compareFunc [] = some hm) :
    initSize ≤ hm.numSlots ∧ hm.numSlots ≤ 2 * initSize + 2 := by
  obtain ⟨numSlots, isNext, bounds⟩ := exists_nextPrime fits
  rw [ntHashmapCreateExt, NtHashmap.initSlots, if_pos someSize, isNext] at creates
  cases creates
  exact bounds

end Tables

/-- New tables without entries that fit into an arena, a slot of 8 or of 16 bytes, but whose
growth test overflows. -/
theorem tables_growth_overflows :
    (∃ hs table, ntHashsetCreateExt 536870912 (fun _ => 0) compareBytes false true = some hs ∧
      HashsetShape hs table ∧ 8 * hs.numSlots ≤ memMaxSize ∧
      hs.growsInt = none ∧ ¬ GrowthExact hs.numSlots hs.numData 4 5 hs.growsInt) ∧
    ∃ hm, ntHashmapCreateExt 429496730 (fun _ => 0) ntDefaultUint64CompareFunc [] = some hm ∧
      Represents64 hm (fun _ => none) ∧ 16 * hm.numSlots ≤ memMaxSize ∧
      hm.growsInt = none ∧ ¬ GrowthExact hm.numSlots hm.numData 5 1 hm.growsInt := by
  have arena : memMaxSize = 68719476736 := rfl
  obtain ⟨hs, table, creates, shape, -⟩ :=
    ntHashsetCreateExt_spec 536870912 (fun _ => 0) compareBytes false true fun _ => rfl
  obtain ⟨hm, creates', represents, -⟩ := ntHashmapCreateExt_represents (fun _ => 0) 429496730
  have slots := ntHashsetCreateExt_numSlots (by decide) (by decide) creates
  have slots' := ntHashmapCreateExt_numSlots (by decide) (by decide) creates'
  have overflows : hs.growsInt = none := @reachesLoad_none hs.numSlots _ 4 5 (by omega)
  have overflows' : hm.growsInt = none := @reachesLoad_none hm.numSlots _ 5 1 (by omega)
  refine ⟨⟨hs, table, creates, shape, by omega, overflows, ?_⟩,
    ⟨hm, creates', represents, by omega, overflows', ?_⟩⟩
  · intro exact
    cases overflows.symm.trans exact.grows
  · intro exact
    cases overflows'.symm.trans exact.grows

/-- New tables with few slots. -/
theorem tables_growthExact_fewSlots :
    (∃ hs, ntHashsetCreateExt 10 (fun _ => 0) compareBytes false true = some hs ∧
      GrowthExact hs.numSlots hs.numData 4 5 hs.growsInt) ∧
    ∃ hm, ntHashmapCreateExt 10 (fun _ => 0) ntDefaultUint64CompareFunc [] = some hm ∧
      GrowthExact hm.numSlots hm.numData 5 1 hm.growsInt := by
  obtain ⟨hs, table, creates, shape, -⟩ :=
    ntHashsetCreateExt_spec 10 (fun _ => 0) compareBytes false true fun _ => rfl
  obtain ⟨hm, creates', represents, -⟩ := ntHashmapCreateExt_represents (fun _ => 0) 10
  have few := (ntHashsetCreateExt_numSlots (by decide) (by decide) creates).2
  have few' := (ntHashmapCreateExt_numSlots (by decide) (by decide) creates').2
  obtain ⟨exact_iff, exact_iff'⟩ := tables_growthExact_iff shape represents
  exact ⟨⟨hs, creates, exact_iff.mpr (by omega)⟩, ⟨hm, creates', exact_iff'.mpr (by omega)⟩⟩

end NtShm
