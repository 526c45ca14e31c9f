import NtShm.HashsetInsertions
import NtShm.HashsetRemovals

/-!
# The hashset as a set

Where equality of records is an equivalence that the hash respects, the entries
of a hashset stand for classes of equal records.  Every operation changes the
set of classes, and the entry that stands for one, as it should.
-/

namespace NtShm

/-- `compare` gives 0 for equal records, and these have equal hashes. -/
structure RecordEquality (hashFunc : List UInt8 → UInt32)
    (compareFunc : List UInt8 → List UInt8 → Int) : Prop where
  equivalence : Equivalence fun first second => compareFunc first second = 0
  hashes : ∀ first second, compareFunc first second = 0 →
    hashFunc first = hashFunc second

/-- The hashset has one entry for each class of equal records that is present,
and gives out the pointer to its data. -/
structure RepresentsSet (hashFunc : List UInt8 → UInt32)
    (compareFunc : List UInt8 → List UInt8 → Int) (hs : NtHashset)
    (present : List UInt8 → Option Nat) : Prop where
  hash : hs.hashFunc = hashFunc
  compare : hs.compareFunc = compareFunc
  shape : ∃ table, HashsetShape hs table
  hashes : ∀ entry record, hs.records entry = some record →
    record.1 = hashFunc record.2
  maps : ∀ data pointer, present data = some pointer ↔
    ∃ entry record, pointer = entry + dataOffset ∧
      hs.records entry = some record ∧ compareFunc record.2 data = 0

section Sets

variable {hashFunc : List UInt8 → UInt32}
  {compareFunc : List UInt8 → List UInt8 → Int} {hs : NtHashset}
  {present : List UInt8 → Option Nat}

namespace RepresentsSet

theorem matches_iff (equality : RecordEquality hashFunc compareFunc)
    (represents : RepresentsSet hashFunc compareFunc hs present) {entry : Nat}
    {record : UInt32 × List UInt8} (isRecord : hs.records entry = some record)
    (data : List UInt8) :
    hs.Matches (hs.hashFunc data) data record ↔ compareFunc record.2 data = 0 := by
  rw [NtHashset.Matches, represents.hash, represents.compare,
    represents.hashes entry record isRecord]
  exact and_iff_right_of_imp (equality.hashes _ _)

theorem finds_iff (equality : RecordEquality hashFunc compareFunc)
    (represents : RepresentsSet hashFunc compareFunc hs present) {data : List UInt8}
    {found : Option Nat} (finds : hs.Finds data found) :
    present data = found.map (· + dataOffset) := by
  cases found with
  | some entry =>
      obtain ⟨record, isRecord, matches'⟩ := finds
      rw [represents.matches_iff equality isRecord] at matches'
      exact (represents.maps data _).mpr ⟨entry, record, rfl, isRecord, matches'⟩
  | none =>
      cases isPresent : present data with
      | none => rfl
      | some pointer =>
          obtain ⟨entry, record, -, isRecord, equal⟩ :=
            (represents.maps data pointer).mp isPresent
          have matches' := (represents.matches_iff equality isRecord data).mpr equal
          exact absurd matches' (finds entry record isRecord)

theorem present_congr (equality : RecordEquality hashFunc compareFunc)
    (represents : RepresentsSet hashFunc compareFunc hs present)
    {data other : List UInt8} (equal : compareFunc data other = 0) :
    present data = present other := by
  ext pointer
  rw [represents.maps, represents.maps]
  have sameClass : ∀ stored, compareFunc stored data = 0 ↔ compareFunc stored other = 0 :=
    fun _ => ⟨fun equal' => equality.equivalence.trans equal' equal,
      fun equal' => equality.equivalence.trans equal' (equality.equivalence.symm equal)⟩
  simp only [sameClass]

theorem distinct (equality : RecordEquality hashFunc compareFunc)
    (represents : RepresentsSet hashFunc compareFunc hs present)
    {entry other : Nat} {record record' : UInt32 × List UInt8}
    (isRecord : hs.records entry = some record)
    (isRecord' : hs.records other = some record')
    (equal : compareFunc record.2 record'.2 = 0) : entry = other := by
  have here := (represents.maps record'.2 _).mpr ⟨entry, record, rfl, isRecord, equal⟩
  have there := (represents.maps record'.2 _).mpr
    ⟨other, record', rfl, isRecord', equality.equivalence.refl _⟩
  exact Nat.add_right_cancel (Option.some.inj (here.symm.trans there))

theorem transfer (represents : RepresentsSet hashFunc compareFunc hs present)
    {hs' : NtHashset} {present' : List UInt8 → Option Nat}
    (functions : SameFunctions hs hs') (shape : ∃ table, HashsetShape hs' table)
    (hashes : ∀ entry record, hs'.records entry = some record →
      record.1 = hashFunc record.2)
    (maps : ∀ data pointer, present' data = some pointer ↔
      ∃ entry record, pointer = entry + dataOffset ∧
        hs'.records entry = some record ∧ compareFunc record.2 data = 0) :
    RepresentsSet hashFunc compareFunc hs' present' :=
  ⟨functions.hash.trans represents.hash, functions.compare.trans represents.compare,
    shape, hashes, maps⟩

theorem removed (equality : RecordEquality hashFunc compareFunc)
    (represents : RepresentsSet hashFunc compareFunc hs present) {entry : Nat}
    {hs' : NtHashset} (gone : Removed hs entry hs')
    {record : UInt32 × List UInt8} (isRecord : hs.records entry = some record)
    {present' : List UInt8 → Option Nat}
    (without : ∀ data, present' data =
      if compareFunc record.2 data = 0 then none else present data) :
    RepresentsSet hashFunc compareFunc hs' present' := by
  apply represents.transfer gone.functions gone.shape
  · intro other record' isRecord'
    rw [gone.records] at isRecord'
    by_cases isEntry : other = entry
    · rw [isEntry, Function.update_self] at isRecord'
      cases isRecord'
    · rw [Function.update_of_ne isEntry] at isRecord'
      exact represents.hashes other record' isRecord'
  · intro data pointer
    rw [without]
    by_cases equal : compareFunc record.2 data = 0
    · rw [if_pos equal]
      refine iff_of_false (by simp) ?_
      rintro ⟨other, record', -, isRecord', equal'⟩
      rw [gone.records] at isRecord'
      by_cases isEntry : other = entry
      · rw [isEntry, Function.update_self] at isRecord'
        cases isRecord'
      · rw [Function.update_of_ne isEntry] at isRecord'
        apply isEntry
        apply represents.distinct equality isRecord' isRecord
        exact equality.equivalence.trans equal' (equality.equivalence.symm equal)
    · rw [if_neg equal, represents.maps]
      constructor
      · rintro ⟨other, record', isPointer, isRecord', equal'⟩
        refine ⟨other, record', isPointer, ?_, equal'⟩
        rw [gone.records, Function.update_of_ne]
        · exact isRecord'
        · rintro rfl
          cases isRecord.symm.trans isRecord'
          exact equal equal'
      · rintro ⟨other, record', isPointer, isRecord', equal'⟩
        refine ⟨other, record', isPointer, ?_, equal'⟩
        rw [gone.records] at isRecord'
        by_cases isEntry : other = entry
        · rw [isEntry, Function.update_self] at isRecord'
          cases isRecord'
        · rwa [Function.update_of_ne isEntry] at isRecord'

theorem added (equality : RecordEquality hashFunc compareFunc)
    (represents : RepresentsSet hashFunc compareFunc hs present)
    {hs' : NtHashset} {data stored : List UInt8} {address : Nat}
    (functions : SameFunctions hs hs') (shape : ∃ table, HashsetShape hs' table)
    (fresh : hs.records address = none) (absent : present data = none)
    (copied : compareFunc stored data = 0)
    (records : hs'.records = Function.update hs.records address
      (some (hashFunc data, stored)))
    {present' : List UInt8 → Option Nat}
    (withNew : ∀ other, present' other =
      if compareFunc data other = 0 then some (address + dataOffset)
      else present other) :
    RepresentsSet hashFunc compareFunc hs' present' := by
  apply represents.transfer functions shape
  · intro entry record isRecord
    rw [records] at isRecord
    by_cases isNew : entry = address
    · rw [isNew, Function.update_self, Option.some.injEq] at isRecord
      rw [← isRecord]
      exact (equality.hashes _ _ copied).symm
    · rw [Function.update_of_ne isNew] at isRecord
      exact represents.hashes entry record isRecord
  · intro other pointer
    rw [withNew]
    have newRecord : hs'.records address = some (hashFunc data, stored) := by
      rw [records, Function.update_self]
    by_cases equal : compareFunc data other = 0
    · have newEqual : compareFunc stored other = 0 :=
        equality.equivalence.trans copied equal
      rw [if_pos equal]
      constructor
      · rintro ⟨⟩
        exact ⟨address, _, rfl, newRecord, newEqual⟩
      · rintro ⟨entry, record, isPointer, isRecord, equal'⟩
        rw [records] at isRecord
        by_cases isNew : entry = address
        · rw [isPointer, isNew]
        · rw [Function.update_of_ne isNew] at isRecord
          have known := (represents.maps other _).mpr ⟨entry, record, rfl, isRecord, equal'⟩
          rw [← represents.present_congr equality equal, absent] at known
          cases known
    · rw [if_neg equal, represents.maps]
      constructor
      · rintro ⟨entry, record, isPointer, isRecord, equal'⟩
        refine ⟨entry, record, isPointer, ?_, equal'⟩
        rw [records, Function.update_of_ne]
        · exact isRecord
        · rintro rfl
          rw [fresh] at isRecord
          cases isRecord
      · rintro ⟨entry, record, isPointer, isRecord, equal'⟩
        refine ⟨entry, record, isPointer, ?_, equal'⟩
        rw [records] at isRecord
        by_cases isNew : entry = address
        · rw [isNew, Function.update_self, Option.some.injEq] at isRecord
          rw [← isRecord] at equal'
          exact absurd (equality.equivalence.trans
            (equality.equivalence.symm copied) equal') equal
        · rwa [Function.update_of_ne isNew] at isRecord

end RepresentsSet

end Sets

end NtShm
