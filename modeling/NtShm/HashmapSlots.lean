import NtShm.Hashmap
import NtShm.Tables

/-!
# Slots of the hashmap

A slot holds a list of entries at the start of its array.  Its operations, when
no allocation fails, are operations on that list.
-/

namespace NtShm

structure SlotHolds (slot : NtHashmapSlot) (list : List NtHashmapEntry) :
    Prop where
  num : slot.entriesNum = list.length
  array : (slot.entries = none ∧ slot.entriesAlloc = 0 ∧ list = []) ∨
    ∃ block, slot.entries = some block ∧ block.length = slot.entriesAlloc ∧
      0 < slot.entriesAlloc ∧ block.StartsWith list

theorem slotHolds_zeroed : SlotHolds .zeroed [] :=
  ⟨rfl, Or.inl ⟨rfl, rfl, rfl⟩⟩

namespace SlotHolds

variable {slot : NtHashmapSlot} {list : List NtHashmapEntry}

theorem num_le_alloc (holds : SlotHolds slot list) :
    slot.entriesNum ≤ slot.entriesAlloc := by
  rw [holds.num]
  rcases holds.array with ⟨-, -, rfl⟩ | ⟨block, -, size, -, starts⟩
  · exact Nat.zero_le _
  · rw [← size]
    exact starts.length_le

theorem read (holds : SlotHolds slot list) {index : Nat}
    (inRange : index < list.length) : slot.read index = some list[index] := by
  rcases holds.array with ⟨-, -, rfl⟩ | ⟨block, isBlock, -, -, starts⟩
  · simp at inRange
  · rw [NtHashmapSlot.read, isBlock]
    exact starts index inRange

theorem ensure (holds : SlotHolds slot list) :
    ∃ slot', slot.ensureFreeEntry [] = (slot', []) ∧ SlotHolds slot' list ∧
      ∃ block, slot'.entries = some block ∧ list.length < block.length := by
  rcases holds.array with ⟨isNull, -, rfl⟩ | ⟨block, isBlock, size, positive, starts⟩
  · refine ⟨⟨some (Block.allocate 6), 0, 6⟩, ?_, ⟨rfl, Or.inr ?_⟩, ?_⟩
    · simp [NtHashmapSlot.ensureFreeEntry, isNull, allocated]
    · exact ⟨Block.allocate 6, rfl, rfl, by decide, Block.startsWith_nil _⟩
    · exact ⟨Block.allocate 6, rfl, by simp⟩
  · by_cases full : slot.entriesNum = slot.entriesAlloc
    · have larger : (block.grow (slot.entriesAlloc * 2)).length =
          slot.entriesAlloc * 2 := Block.length_grow (by omega)
      refine ⟨⟨some (block.grow (slot.entriesAlloc * 2)), slot.entriesNum,
        slot.entriesAlloc * 2⟩, ?_, ⟨holds.num, Or.inr ?_⟩, ?_⟩
      · simp [NtHashmapSlot.ensureFreeEntry, isBlock, full, allocated]
      · exact ⟨_, rfl, larger, by simpa using positive, starts.grow (by omega)⟩
      · refine ⟨_, rfl, ?_⟩
        rw [larger, ← holds.num]
        omega
    · refine ⟨slot, ?_, holds, block, isBlock, ?_⟩
      · simp [NtHashmapSlot.ensureFreeEntry, isBlock, full]
      · have bound := holds.num_le_alloc
        rw [size, ← holds.num]
        omega

theorem push {block : Block NtHashmapEntry} (holds : SlotHolds slot list)
    (isBlock : slot.entries = some block) (room : list.length < block.length)
    (entry : NtHashmapEntry) :
    ∃ slot', slot.push entry = some slot' ∧ SlotHolds slot' (list ++ [entry]) := by
  rcases holds.array with ⟨isNull, -, -⟩ | ⟨other, isOther, size, positive, starts⟩
  · cases isNull.symm.trans isBlock
  · cases isOther.symm.trans isBlock
    obtain ⟨block', written⟩ := Block.write_of_lt entry room
    refine ⟨⟨some block', slot.entriesNum + 1, slot.entriesAlloc⟩, ?_, ?_⟩
    · simp [NtHashmapSlot.push, NtHashmapSlot.write, isBlock, holds.num, written]
    · constructor
      · simp [holds.num]
      · exact Or.inr ⟨block', rfl, (Block.length_of_written written).trans size,
          positive, starts.push written⟩

theorem ensurePush (holds : SlotHolds slot list) (entry : NtHashmapEntry) :
    ∃ roomy slot', slot.ensureFreeEntry [] = (roomy, []) ∧ roomy.push entry = some slot' ∧
      SlotHolds slot' (list ++ [entry]) := by
  obtain ⟨roomy, ensured, roomyHolds, block, isBlock, room⟩ := holds.ensure
  obtain ⟨slot', pushed, holds'⟩ := roomyHolds.push isBlock room entry
  exact ⟨roomy, slot', ensured, pushed, holds'⟩

theorem write (holds : SlotHolds slot list) {index : Nat}
    (inRange : index < list.length) (entry : NtHashmapEntry) :
    ∃ slot', slot.write index entry = some slot' ∧
      SlotHolds slot' (list.set index entry) := by
  rcases holds.array with ⟨-, -, rfl⟩ | ⟨block, isBlock, size, positive, starts⟩
  · simp at inRange
  · have bound := starts.length_le
    obtain ⟨block', written⟩ :=
      Block.write_of_lt entry (by omega : index < block.length)
    refine ⟨{ slot with entries := some block' }, ?_, ?_⟩
    · simp [NtHashmapSlot.write, isBlock, written]
    · constructor
      · simp [holds.num]
      · exact Or.inr ⟨block', rfl, (Block.length_of_written written).trans size,
          positive, starts.set written⟩

theorem dropLast (holds : SlotHolds slot list) :
    SlotHolds { slot with entriesNum := slot.entriesNum - 1 } list.dropLast := by
  constructor
  · simp [holds.num]
  · obtain ⟨isNull, none, rfl⟩ | ⟨block, isBlock, size, positive, starts⟩ :=
      holds.array
    · exact Or.inl ⟨isNull, none, rfl⟩
    · refine Or.inr ⟨block, isBlock, size, positive, ?_⟩
      rw [List.dropLast_eq_take]
      exact starts.take _

theorem dropAt (holds : SlotHolds slot list) {index : Nat}
    (inRange : index < list.length) :
    ∃ slot', slot.dropAt index = some slot' ∧
      SlotHolds slot' (fillHole list index) := by
  have nonempty : list ≠ [] := by
    rintro rfl
    simp at inRange
  have lastRead : slot.read (slot.entriesNum - 1) = some (list.getLast nonempty) := by
    rw [holds.num, holds.read (by omega), List.getLast_eq_getElem]
  obtain ⟨slot', written, filled⟩ := holds.write inRange (list.getLast nonempty)
  have sameNum : slot'.entriesNum = slot.entriesNum := by
    rw [filled.num, holds.num, List.length_set]
  refine ⟨{ slot' with entriesNum := slot'.entriesNum - 1 }, ?_, ?_⟩
  · simp [NtHashmapSlot.dropAt, lastRead, written, sameNum]
  · rw [fillHole, List.getLast?_eq_some_getLast nonempty]
    exact filled.dropLast

theorem findFrom (holds : SlotHolds slot list) (key : UInt64) {left index : Nat}
    (rest : left + index = list.length) :
    ∃ found, slot.findFrom ntDefaultUint64CompareFunc key left index =
        some found ∧ index ≤ found ∧ found ≤ list.length ∧
      (∀ inRange : found < list.length, list[found].key = key) ∧
      ∀ other (inRange : other < list.length), index ≤ other → other < found →
        list[other].key ≠ key := by
  induction left generalizing index with
  | zero =>
      exact ⟨index, rfl, le_refl _, by omega, fun inRange => by omega,
        fun other _ low high => by omega⟩
  | succ left ih =>
      have inRange : index < list.length := by omega
      rw [NtHashmapSlot.findFrom, holds.read inRange]
      by_cases here : list[index].key = key
      · refine ⟨index, ?_, le_refl _, by omega, fun _ => here,
          fun other _ low high => by omega⟩
        simp [ntDefaultUint64CompareFunc, here]
      · have differs : ntDefaultUint64CompareFunc list[index].key key ≠ 0 := by
          unfold ntDefaultUint64CompareFunc
          split
          · decide
          · next notLess =>
              split
              · decide
              · next notMore =>
                  exact absurd (UInt64.le_antisymm (UInt64.not_lt.mp notMore)
                    (UInt64.not_lt.mp notLess)) here
        obtain ⟨found, stops, low, high, isKey, before⟩ :=
          ih (by omega : left + (index + 1) = list.length)
        refine ⟨found, ?_, by omega, high, isKey, fun other inRange' low' high' => ?_⟩
        · simpa [differs] using stops
        · by_cases same : other = index
          · subst same
            exact here
          · exact before other inRange' (by omega) high'

theorem find (holds : SlotHolds slot list) (key : UInt64) :
    ∃ found, slot.find ntDefaultUint64CompareFunc key = some found ∧
      ((∃ inRange : found < list.length, list[found].key = key) ∨
        (found = list.length ∧ ∀ entry ∈ list, entry.key ≠ key)) := by
  obtain ⟨found, stops, -, high, isKey, before⟩ :=
    holds.findFrom key (Nat.add_zero list.length)
  refine ⟨found, by rwa [NtHashmapSlot.find, holds.num], ?_⟩
  by_cases inRange : found < list.length
  · exact Or.inl ⟨inRange, isKey inRange⟩
  · have past : found = list.length := by omega
    refine Or.inr ⟨past, fun entry isEntry => ?_⟩
    obtain ⟨index, bound, rfl⟩ := List.getElem_of_mem isEntry
    exact before index bound (Nat.zero_le _) (by omega)

end SlotHolds

end NtShm
