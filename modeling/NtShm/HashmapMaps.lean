import NtShm.Dictionaries
import NtShm.HashmapGrowth

/-!
# The hashmap represents a map

The invariant of the hashmap ties its slots to a table of entries in which each
key occurs once, in the slot its hash asks for.  The operations update the map
that the entries stand for.
-/

namespace NtShm

/-- The slots hold a table whose entries are where they belong. -/
structure HashmapHolds (hm : NtHashmap) (table : List (List NtHashmapEntry)) :
    Prop where
  compare : hm.compareFunc = ntDefaultUint64CompareFunc
  failures : hm.failures = []
  size : hm.numSlots = table.length
  slots : (hm.slots = none ∧ table = []) ∨
    ∃ slots, hm.slots = some slots ∧ TableHolds slots table ∧ 2 ≤ table.length
  placed : ∀ index, PlacedAt
    (fun entry => (hm.hashFunc entry.key).toNat % table.length) table index
  num : hm.numData = table.flatten.length

def Represents64 (hm : NtHashmap) (map : UInt64 → Option UInt64) : Prop :=
  ∃ table, HashmapHolds hm table ∧
    Dictionary NtHashmapEntry.key NtHashmapEntry.value table.flatten map ∧
    (0 < hm.numSlots → hm.numData < 5 * hm.numSlots)

namespace HashmapHolds

variable {hm : NtHashmap} {table : List (List NtHashmapEntry)}

theorem array (holds : HashmapHolds hm table) (hasSlots : hm.numSlots ≠ 0) :
    ∃ slots, hm.slots = some slots ∧ TableHolds slots table ∧ 2 ≤ table.length := by
  cases holds.slots with
  | inl empty =>
      rw [holds.size, empty.2] at hasSlots
      exact absurd rfl hasSlots
  | inr array => exact array

theorem locate (holds : HashmapHolds hm table) (hasSlots : hm.numSlots ≠ 0)
    (key : UInt64) :
    ∃ list slot found, table[hm.slotIndex key]? = some list ∧
      hm.slotAt (hm.slotIndex key) = some slot ∧ SlotHolds slot list ∧
      slot.find hm.compareFunc key = some found ∧
      ((∃ inRange : found < list.length, list[found].key = key) ∨
        (found = list.length ∧ ∀ entry ∈ table.flatten, entry.key ≠ key)) := by
  obtain ⟨slots, isSlots, tableHolds, two⟩ := holds.array hasSlots
  have inTable : hm.slotIndex key < table.length := by
    rw [NtHashmap.slotIndex, holds.size]
    exact Nat.mod_lt _ (by omega)
  have isList := List.getElem?_eq_getElem inTable
  obtain ⟨slot, isSlot, slotHolds⟩ := tableHolds.slot _ _ isList
  obtain ⟨found, stops, outcome⟩ := slotHolds.find key
  refine ⟨_, slot, found, isList, ?_, slotHolds, by rwa [holds.compare], ?_⟩
  · simp [NtHashmap.slotAt, isSlots, isSlot]
  · refine outcome.imp_right fun ⟨past, absent⟩ => ⟨past, ?_⟩
    intro entry isEntry isKey
    obtain ⟨list, inTable', isEntry'⟩ := List.mem_flatten.mp isEntry
    obtain ⟨index, bound, rfl⟩ := List.getElem_of_mem inTable'
    have here := holds.placed index _ (List.getElem?_eq_getElem bound) entry isEntry'
    simp only [isKey] at here
    have same : index = hm.slotIndex key := by
      rw [NtHashmap.slotIndex, holds.size, here]
    subst same
    exact absent entry isEntry' isKey

theorem setSlot (holds : HashmapHolds hm table) (hasSlots : hm.numSlots ≠ 0)
    {index : Nat} {slot : NtHashmapSlot} {list : List NtHashmapEntry}
    (slotHolds : SlotHolds slot list)
    (belong : ∀ entry ∈ list,
      (hm.hashFunc entry.key).toNat % table.length = index)
    {numData : Nat} (num : numData = (table.set index list).flatten.length) :
    HashmapHolds { hm.setSlot index slot with numData := numData }
      (table.set index list) := by
  obtain ⟨slots, isSlots, tableHolds, two⟩ := holds.array hasSlots
  constructor
  case compare => exact holds.compare
  case failures => exact holds.failures
  case size => simpa [NtHashmap.setSlot] using holds.size
  case slots =>
    refine Or.inr ⟨slots.set index slot, ?_, tableHolds.set index slotHolds, ?_⟩
    · simp [NtHashmap.setSlot, isSlots]
    · rwa [List.length_set]
  case placed =>
    intro other
    rw [List.length_set]
    by_cases here : index = other
    · subst here
      exact PlacedAt.set_self belong
    · exact (holds.placed other).set_ne here list
  case num => exact num

theorem growSlots (holds : HashmapHolds hm table) (hasSlots : hm.numSlots ≠ 0) :
    ∃ hm' table', hm.growSlots = some hm' ∧ HashmapHolds hm' table' ∧
      table'.flatten.Perm table.flatten ∧ hm.numSlots < hm'.numSlots ∧
      hm'.hashFunc = hm.hashFunc := by
  obtain ⟨slots, isSlots, tableHolds, two⟩ := holds.array hasSlots
  obtain ⟨incSlots, isNext, prime, low, -⟩ :=
    nextPrime_spec (hm.numSlots * 3 / 2 : Nat)
  have size := holds.size
  have more : hm.numSlots < incSlots := by omega
  have flatten_same : (table ++ List.replicate (incSlots - hm.numSlots) []).flatten =
      table.flatten := by
    simp
  have length_eq : (table ++ List.replicate (incSlots - hm.numSlots) []).length =
      incSlots := by
    rw [List.length_append, List.length_replicate]
    omega
  have placedNew : ∀ index, index < 0 ∨ 0 + hm.numSlots ≤ index →
      PlacedAt (fun entry => (hm.hashFunc entry.key).toNat % incSlots)
        (table ++ List.replicate (incSlots - hm.numSlots) []) index := by
    intro index outside list isList entry isEntry
    rw [List.getElem?_append_right (by omega)] at isList
    rw [List.eq_of_mem_replicate (List.mem_of_getElem? isList)] at isEntry
    cases isEntry
  obtain ⟨slots', table', runs, holds', length', perm, placed⟩ :=
    redistribute_spec (fun _ => rfl)
      (fun entry => by
        rw [length_eq]
        exact Nat.mod_lt _ (by omega))
      (tableHolds.append_zeroed (incSlots - hm.numSlots))
      (by omega : 0 + hm.numSlots ≤ _) placedNew
  rw [length_eq] at length'
  rw [flatten_same] at perm
  refine ⟨{ hm with slots := some slots', numSlots := incSlots, failures := [] },
    table', ?_, ?_, perm, more, rfl⟩
  · rw [NtHashmap.growSlots, isNext, isSlots]
    simp [holds.failures, allocated, runs]
  · constructor
    case compare => exact holds.compare
    case failures => rfl
    case size => exact length'.symm
    case slots => exact Or.inr ⟨slots', rfl, holds', by omega⟩
    case placed =>
      rw [length']
      exact placed
    case num => rw [perm.length_eq, ← holds.num]

end HashmapHolds

section Operations

variable {hm : NtHashmap} {map : UInt64 → Option UInt64}

theorem initSlots_represents (compare : hm.compareFunc = ntDefaultUint64CompareFunc)
    (failures : hm.failures = []) (initSize : Nat) :
    ∃ hm', hm.initSlots initSize = some hm' ∧
      Represents64 hm' (fun _ => none) ∧ hm'.hashFunc = hm.hashFunc ∧
      (0 < initSize → hm'.numSlots ≠ 0) := by
  by_cases positive : 0 < initSize
  · obtain ⟨numSlots, isNext, prime, -, -⟩ :=
      nextPrime_spec (asInt (initSize % 2 ^ 32))
    have two := prime.two_le
    have noEntry : (List.replicate numSlots ([] : List NtHashmapEntry)).flatten =
        [] := by simp
    refine ⟨{ hm with
        numData := 0
        numSlots := numSlots
        slots := some (List.replicate numSlots .zeroed)
        failures := [] },
      ?_, ⟨List.replicate numSlots [], ?_, ?_, ?_⟩, rfl, fun _ => by simp; omega⟩
    · rw [NtHashmap.initSlots, if_pos positive, isNext]
      simp [failures, allocated]
    · constructor
      case compare => exact compare
      case failures => rfl
      case size => simp
      case slots =>
        refine Or.inr ⟨_, rfl, ?_, by simpa using two⟩
        have noSlots : TableHolds [] [] := ⟨rfl, by simp⟩
        simpa using noSlots.append_zeroed numSlots
      case placed =>
        intro index list isList entry isEntry
        rw [List.eq_of_mem_replicate (List.mem_of_getElem? isList)] at isEntry
        cases isEntry
      case num => rw [noEntry]; rfl
    · rw [noEntry]
      exact Dictionary.empty
    · simp
  · refine ⟨{ hm with numData := 0, numSlots := 0, slots := none },
      ?_, ⟨[], ?_, Dictionary.empty, ?_⟩, rfl, fun more => absurd more positive⟩
    · simp [NtHashmap.initSlots, positive]
    · constructor
      case compare => exact compare
      case failures => exact failures
      case size => rfl
      case slots => exact Or.inl ⟨rfl, rfl⟩
      case placed =>
        intro index list isList
        simp at isList
      case num => rfl
    · simp

theorem ntHashmapCreateExt_represents (hashFunc : UInt64 → UInt32)
    (initSize : Nat) :
    ∃ hm', ntHashmapCreateExt initSize hashFunc ntDefaultUint64CompareFunc [] =
        some hm' ∧
      Represents64 hm' (fun _ => none) ∧ hm'.hashFunc = hashFunc ∧
      (0 < initSize → hm'.numSlots ≠ 0) :=
  initSlots_represents rfl rfl initSize

theorem Represents64.eq_none_of_no_slots (represents : Represents64 hm map)
    (noSlots : hm.numSlots = 0) (key : UInt64) : map key = none := by
  obtain ⟨table, holds, dictionary, -⟩ := represents
  have noTable : table = [] := List.length_eq_zero_iff.mp (holds.size ▸ noSlots)
  subst noTable
  exact dictionary.eq_none (by simp)

theorem ntHashmapGet_represents (represents : Represents64 hm map) (key : UInt64) :
    ntHashmapGet hm key = some ((map key).getD 0) := by
  obtain ⟨table, holds, dictionary, -⟩ := id represents
  by_cases none : hm.numSlots = 0
  · rw [ntHashmapGet, if_pos none, represents.eq_none_of_no_slots none]
    rfl
  · obtain ⟨list, slot, found, isList, isSlot, slotHolds, stops, outcome⟩ :=
      holds.locate none key
    rw [ntHashmapGet, if_neg none, isSlot]
    rcases outcome with ⟨inRange, isKey⟩ | ⟨past, absent⟩
    · have isEntry : list[found] ∈ table.flatten :=
        List.mem_flatten.mpr
          ⟨list, List.mem_of_getElem? isList, List.getElem_mem inRange⟩
      have isValue := dictionary.eq_some isEntry
      rw [isKey] at isValue
      simp [stops, slotHolds.num, inRange, slotHolds.read inRange, isValue]
    · rw [dictionary.eq_none absent]
      simp [stops, slotHolds.num, past]

theorem update_none_eq_self {key : UInt64} (absent : map key = none) :
    Function.update map key none = map := by
  have same := Function.update_eq_self key map
  rwa [absent] at same

theorem ntHashmapRemove_represents (represents : Represents64 hm map)
    (key : UInt64) :
    ∃ hm', ntHashmapRemove hm key = some hm' ∧
      Represents64 hm' (Function.update map key none) ∧
      hm'.hashFunc = hm.hashFunc := by
  obtain ⟨table, holds, dictionary, load⟩ := id represents
  by_cases noSlots : hm.numSlots = 0
  · refine ⟨hm, if_pos noSlots, ?_, rfl⟩
    rwa [update_none_eq_self (represents.eq_none_of_no_slots noSlots key)]
  · obtain ⟨list, slot, found, isList, isSlot, slotHolds, stops, outcome⟩ :=
      holds.locate noSlots key
    rw [ntHashmapRemove, if_neg noSlots, isSlot]
    rcases outcome with ⟨inRange, isKey⟩ | ⟨past, absent⟩
    · obtain ⟨slot', dropped, holedHolds⟩ := slotHolds.dropAt inRange
      have perm := flatten_set_fillHole isList inRange
      have length := perm.length_eq
      rw [List.length_cons] at length
      refine ⟨{ hm.setSlot (hm.slotIndex key) slot' with
          numData := hm.numData - 1 }, ?_,
        ⟨table.set (hm.slotIndex key) (fillHole list found), ?_, ?_, ?_⟩, rfl⟩
      · simp [stops, slotHolds.num, inRange, dropped]
      · apply holds.setSlot noSlots holedHolds
        · intro entry isEntry
          apply holds.placed _ list isList
          exact (perm_fillHole inRange).mem_iff.mpr
            (List.mem_cons_of_mem _ isEntry)
        · rw [holds.num]
          omega
      · have without := (dictionary.perm perm.symm).uncons
        rwa [isKey] at without
      · intro positive
        have before := load positive
        change hm.numData - 1 < 5 * hm.numSlots
        omega
    · refine ⟨hm, ?_, ?_, rfl⟩
      · simp [stops, slotHolds.num, past]
      · rwa [update_none_eq_self (dictionary.eq_none absent)]

theorem ntHashmapClear_represents (represents : Represents64 hm map) :
    ∃ hm', ntHashmapClear hm = some hm' ∧ Represents64 hm' (fun _ => none) ∧
      hm'.hashFunc = hm.hashFunc := by
  obtain ⟨table, holds, dictionary, load⟩ := represents
  by_cases noSlots : hm.numSlots = 0
  · have noTable : table = [] := List.length_eq_zero_iff.mp (holds.size ▸ noSlots)
    subst noTable
    refine ⟨{ hm with numData := 0 }, if_pos noSlots,
      ⟨[], ?_, Dictionary.empty, ?_⟩, rfl⟩
    · exact ⟨holds.compare, holds.failures, holds.size, holds.slots, holds.placed,
        rfl⟩
    · intro positive
      exact absurd noSlots (Nat.pos_iff_ne_zero.mp positive)
  · obtain ⟨slots, isSlots, tableHolds, two⟩ := holds.array noSlots
    have noEntry :
        (List.replicate table.length ([] : List NtHashmapEntry)).flatten = [] := by
      simp
    rw [ntHashmapClear, if_neg noSlots, isSlots]
    refine ⟨_, rfl, ⟨List.replicate table.length [], ?_, ?_, ?_⟩, rfl⟩
    · constructor
      case compare => exact holds.compare
      case failures => exact holds.failures
      case size => simpa using holds.size
      case slots =>
        refine Or.inr ⟨_, rfl, ?_, by simpa using two⟩
        constructor
        case size => simp [tableHolds.size]
        case slot =>
          intro index list isList
          obtain ⟨inRange, isEmpty⟩ := List.getElem?_eq_some_iff.mp isList
          rw [List.getElem_replicate] at isEmpty
          rw [List.length_replicate] at inRange
          subst isEmpty
          obtain ⟨slot, isSlot, slotHolds⟩ :=
            tableHolds.slot index _ (List.getElem?_eq_getElem inRange)
          refine ⟨if slot.entries.isSome then .zeroed else slot,
            by simp [isSlot], ?_⟩
          rcases slotHolds.array with ⟨isNull, noAlloc, noList⟩ | ⟨block, isBlock, -⟩
          · have num := slotHolds.num
            rw [noList] at num
            simp only [isNull, Option.isSome_none, Bool.false_eq_true, if_false]
            exact ⟨num, Or.inl ⟨isNull, noAlloc, rfl⟩⟩
          · simp only [isBlock, Option.isSome_some, if_true]
            exact slotHolds_zeroed
      case placed =>
        intro index list isList entry isEntry
        rw [List.eq_of_mem_replicate (List.mem_of_getElem? isList)] at isEntry
        cases isEntry
      case num =>
        rw [noEntry]
        rfl
    · rw [noEntry]
      exact Dictionary.empty
    · intro positive
      change 0 < 5 * hm.numSlots
      omega

theorem HashmapHolds.replaceEntry {table : List (List NtHashmapEntry)}
    {list : List NtHashmapEntry} {slot' : NtHashmapSlot} {found : Nat} {key value : UInt64}
    (holds : HashmapHolds hm table) (hasSlots : hm.numSlots ≠ 0)
    (dictionary : Dictionary NtHashmapEntry.key NtHashmapEntry.value table.flatten map)
    (isList : table[hm.slotIndex key]? = some list) (inRange : found < list.length)
    (isKey : list[found].key = key) (slotHolds : SlotHolds slot' (list.set found ⟨key, value⟩)) :
    HashmapHolds { hm.setSlot (hm.slotIndex key) slot' with numData := hm.numData }
        (table.set (hm.slotIndex key) (list.set found ⟨key, value⟩)) ∧
      Dictionary NtHashmapEntry.key NtHashmapEntry.value
        (table.set (hm.slotIndex key) (list.set found ⟨key, value⟩)).flatten
        (Function.update map key (some value)) := by
  have gained := flatten_set_set isList inRange ⟨key, value⟩
  have rest := flatten_set_fillHole isList inRange
  -- both contents are the remaining entries and one more
  have replaced : (table.set (hm.slotIndex key)
      (list.set found ⟨key, value⟩)).flatten.Perm
        (⟨key, value⟩ :: (table.set (hm.slotIndex key)
          (fillHole list found)).flatten) :=
    ((gained.symm.trans (rest.cons _)).trans (List.Perm.swap _ _ _)).cons_inv
  constructor
  · apply holds.setSlot hasSlots slotHolds
    · intro entry isEntry
      cases List.mem_or_eq_of_mem_set isEntry with
      | inl old => exact holds.placed _ list isList entry old
      | inr new => rw [new, NtHashmap.slotIndex, holds.size]
    · rw [holds.num, replaced.length_eq, rest.length_eq, List.length_cons,
        List.length_cons]
  · exact ((dictionary.perm rest.symm).replace isKey.symm).perm replaced

/-- A new key is added to the slot where it belongs. -/
theorem HashmapHolds.addEntry {table : List (List NtHashmapEntry)}
    {list : List NtHashmapEntry} {slot' : NtHashmapSlot} {key value : UInt64}
    (holds : HashmapHolds hm table) (hasSlots : hm.numSlots ≠ 0)
    (dictionary : Dictionary NtHashmapEntry.key NtHashmapEntry.value table.flatten map)
    (isList : table[hm.slotIndex key]? = some list)
    (absent : ∀ entry ∈ table.flatten, entry.key ≠ key)
    (slotHolds : SlotHolds slot' (list ++ [⟨key, value⟩])) :
    HashmapHolds { hm.setSlot (hm.slotIndex key) slot' with numData := hm.numData + 1 }
        (table.set (hm.slotIndex key) (list ++ [⟨key, value⟩])) ∧
      Dictionary NtHashmapEntry.key NtHashmapEntry.value
        (table.set (hm.slotIndex key) (list ++ [⟨key, value⟩])).flatten
        (Function.update map key (some value)) := by
  have added := flatten_set_concat isList (⟨key, value⟩ : NtHashmapEntry)
  constructor
  · apply holds.setSlot hasSlots slotHolds
    · intro entry isEntry
      rw [List.mem_append, List.mem_singleton] at isEntry
      cases isEntry with
      | inl old => exact holds.placed _ list isList entry old
      | inr new => rw [new, NtHashmap.slotIndex, holds.size]
    · rw [added.length_eq, List.length_cons, holds.num]
  · exact (dictionary.cons absent).perm added

/-- The slots grow when there are five entries for each of them. -/
theorem HashmapHolds.grownWhenCrowded {table : List (List NtHashmapEntry)}
    (holds : HashmapHolds hm table) (hasSlots : hm.numSlots ≠ 0)
    (dictionary : Dictionary NtHashmapEntry.key NtHashmapEntry.value table.flatten map)
    (load : hm.numData ≤ 5 * hm.numSlots) :
    ∃ hm', (if hm.numData ≥ hm.numSlots * 5 / 1 then hm.growSlots else some hm) = some hm' ∧
      Represents64 hm' map ∧ hm'.hashFunc = hm.hashFunc ∧ hm'.numSlots ≠ 0 := by
  by_cases crowded : hm.numData ≥ hm.numSlots * 5 / 1
  · rw [if_pos crowded]
    obtain ⟨hm', table', grows, holds', perm, more, sameHash⟩ := holds.growSlots hasSlots
    refine ⟨hm', grows, ⟨table', holds', dictionary.perm perm, fun _ => ?_⟩, sameHash, ?_⟩
    · rw [holds'.num, perm.length_eq, ← holds.num]
      omega
    · omega
  · rw [if_neg crowded]
    refine ⟨hm, rfl, ⟨table, holds, dictionary, fun _ => ?_⟩, rfl, hasSlots⟩
    omega

theorem ntHashmapSet_of_slots (represents : Represents64 hm map)
    (hasSlots : hm.numSlots ≠ 0) (key value : UInt64) :
    ∃ hm', ntHashmapSet hm key value = some hm' ∧
      Represents64 hm' (Function.update map key (some value)) ∧
      hm'.hashFunc = hm.hashFunc ∧ hm'.numSlots ≠ 0 := by
  obtain ⟨table, holds, dictionary, load⟩ := represents
  obtain ⟨list, slot, found, isList, isSlot, slotHolds, stops, outcome⟩ :=
    holds.locate hasSlots key
  rcases outcome with ⟨inRange, isKey⟩ | ⟨past, absent⟩
  · obtain ⟨slot', written, slotHolds'⟩ := slotHolds.write inRange ⟨key, value⟩
    obtain ⟨holds', dictionary'⟩ :=
      holds.replaceEntry hasSlots dictionary isList inRange isKey slotHolds'
    refine ⟨_, ?_, ⟨_, holds', dictionary', load⟩, rfl, hasSlots⟩
    have notPast : found ≠ list.length := by omega
    have sameKey : ({ list[found] with value := value } : NtHashmapEntry) =
        ⟨key, value⟩ := by simp only [isKey]
    rw [ntHashmapSet, if_neg hasSlots]
    simp only [Option.bind_eq_bind, Option.bind_some, isSlot, stops,
      slotHolds.num, if_neg notPast, slotHolds.read inRange, sameKey, written]
    rfl
  · obtain ⟨roomySlot, slot', ensured, pushed, slotHolds'⟩ :=
      slotHolds.ensurePush ⟨key, value⟩
    obtain ⟨holds', dictionary'⟩ :=
      holds.addEntry hasSlots dictionary isList absent slotHolds'
    obtain ⟨hm', grown, represents'⟩ := holds'.grownWhenCrowded hasSlots dictionary' (by
      have before := load (by omega)
      change hm.numData + 1 ≤ 5 * hm.numSlots
      omega)
    refine ⟨hm', ?_, represents'⟩
    have sameFailures : ({ hm.setSlot (hm.slotIndex key) slot' with
        failures := []
        numData := hm.numData + 1 } : NtHashmap) =
          { hm.setSlot (hm.slotIndex key) slot' with
            numData := hm.numData + 1 } := by
      simp [NtHashmap.setSlot, holds.failures]
    rw [← grown, ntHashmapSet, if_neg hasSlots]
    simp only [Option.bind_eq_bind, Option.bind_some, isSlot, stops,
      slotHolds.num, past, if_true, holds.failures, ensured, pushed]
    rw [sameFailures]

theorem ntHashmapSet_represents (represents : Represents64 hm map)
    (key value : UInt64) :
    ∃ hm', ntHashmapSet hm key value = some hm' ∧
      Represents64 hm' (Function.update map key (some value)) ∧
      hm'.hashFunc = hm.hashFunc ∧ hm'.numSlots ≠ 0 := by
  by_cases noSlots : hm.numSlots = 0
  · obtain ⟨table, holds, dictionary, -⟩ := id represents
    have noEntry : map = fun _ => none := by
      funext other
      exact represents.eq_none_of_no_slots noSlots other
    obtain ⟨hm₁, inits, represents₁, sameHash, hasSlots⟩ :=
      initSlots_represents holds.compare holds.failures ntHashmapDefaultSlots
    have hasSlots₁ := hasSlots (by decide)
    obtain ⟨hm', sets, represents', sameHash', some'⟩ :=
      ntHashmapSet_of_slots represents₁ hasSlots₁ key value
    refine ⟨hm', ?_, ?_, sameHash'.trans sameHash, some'⟩
    · rw [← sets, ntHashmapSet, ntHashmapSet, if_pos noSlots, if_neg hasSlots₁, inits]
    · rwa [noEntry]
  · exact ntHashmapSet_of_slots represents noSlots key value

end Operations

end NtShm
