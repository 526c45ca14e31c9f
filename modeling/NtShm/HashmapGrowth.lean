import NtShm.HashmapSlots

/-!
# Redistribution in place

Growing the hashmap moves entries between slots of one array while it walks
over them.  Entries that were looked at, and entries that were moved, are in
the slot that their hash asks for; the contents stay the same up to order.
-/

namespace NtShm

structure TableHolds (slots : List NtHashmapSlot)
    (table : List (List NtHashmapEntry)) : Prop where
  size : slots.length = table.length
  slot : ∀ (index : Nat) (list : List NtHashmapEntry), table[index]? = some list →
    ∃ slot, slots[index]? = some slot ∧ SlotHolds slot list

def PlacedAt (place : NtHashmapEntry → Nat) (table : List (List NtHashmapEntry))
    (index : Nat) : Prop :=
  ∀ list, table[index]? = some list → ∀ entry ∈ list, place entry = index

theorem PlacedAt.set_self {place : NtHashmapEntry → Nat}
    {table : List (List NtHashmapEntry)} {index : Nat}
    {list : List NtHashmapEntry} (placed : ∀ entry ∈ list, place entry = index) :
    PlacedAt place (table.set index list) index := by
  intro other isOther entry isEntry
  rw [List.getElem?_set_self'] at isOther
  cases known : table[index]? with
  | none => simp [known] at isOther
  | some old =>
      rw [known] at isOther
      cases isOther
      exact placed entry isEntry

theorem PlacedAt.set_ne {place : NtHashmapEntry → Nat}
    {table : List (List NtHashmapEntry)} {index changed : Nat}
    (placed : PlacedAt place table index) (apart : changed ≠ index)
    (list : List NtHashmapEntry) :
    PlacedAt place (table.set changed list) index := by
  intro other isOther
  rw [List.getElem?_set_ne apart] at isOther
  exact placed other isOther

namespace TableHolds

variable {slots : List NtHashmapSlot} {table : List (List NtHashmapEntry)}

theorem set (holds : TableHolds slots table) (index : Nat)
    {slot : NtHashmapSlot} {list : List NtHashmapEntry}
    (slotHolds : SlotHolds slot list) :
    TableHolds (slots.set index slot) (table.set index list) := by
  constructor
  case size => rw [List.length_set, List.length_set, holds.size]
  case slot =>
    intro other otherList isOther
    by_cases same : index = other
    · subst same
      have inTable : index < table.length := by
        have inRange := (List.getElem?_eq_some_iff.mp isOther).1
        rwa [List.length_set] at inRange
      rw [List.getElem?_set_self inTable] at isOther
      cases isOther
      exact ⟨slot, List.getElem?_set_self (holds.size ▸ inTable), slotHolds⟩
    · rw [List.getElem?_set_ne same] at isOther ⊢
      exact holds.slot other otherList isOther

theorem append_zeroed (holds : TableHolds slots table) (count : Nat) :
    TableHolds (slots ++ List.replicate count .zeroed)
      (table ++ List.replicate count []) := by
  constructor
  case size => simp [holds.size]
  case slot =>
    intro index list isList
    by_cases old : index < table.length
    · rw [List.getElem?_append_left old] at isList
      rw [List.getElem?_append_left (holds.size ▸ old)]
      exact holds.slot index list isList
    · rw [List.getElem?_append_right (by omega)] at isList
      rw [List.getElem?_append_right (by rw [holds.size]; omega), holds.size]
      obtain ⟨inRange, isEmpty⟩ := List.getElem?_eq_some_iff.mp isList
      rw [List.getElem_replicate] at isEmpty
      rw [List.length_replicate] at inRange
      subst isEmpty
      exact ⟨.zeroed, by simp [inRange], slotHolds_zeroed⟩

end TableHolds

section Redistribution

variable {hashFunc : UInt64 → UInt32} {place : NtHashmapEntry → Nat}

/-- The inner loop leaves every entry of its slot where it belongs, moves
entries only to where they belong, and keeps the contents. -/
theorem redistributeSlot_spec {incSlots s left index : Nat}
    {slots : List NtHashmapSlot} {table : List (List NtHashmapEntry)}
    {list : List NtHashmapEntry}
    (place_eq : ∀ entry, place entry = (hashFunc entry.key).toNat % incSlots)
    (inTable : ∀ entry, place entry < table.length)
    (holds : TableHolds slots table) (isList : table[s]? = some list)
    (rest : index + left = list.length)
    (looked : ∀ entry ∈ list.take index, place entry = s) :
    ∃ slots' table',
      redistributeSlot hashFunc incSlots s left index slots [] =
        some (slots', []) ∧
      TableHolds slots' table' ∧ table'.length = table.length ∧
      table'.flatten.Perm table.flatten ∧ PlacedAt place table' s ∧
      ∀ other, other ≠ s → PlacedAt place table other →
        PlacedAt place table' other := by
  induction left generalizing index slots table list with
  | zero =>
      obtain ⟨slot, isSlot, slotHolds⟩ := holds.slot s list isList
      refine ⟨slots, table, ?_, holds, rfl, List.Perm.refl _, ?_,
        fun _ _ placed => placed⟩
      · have stops : ¬index < slot.entriesNum := by
          rw [slotHolds.num]
          omega
        simp [redistributeSlot, isSlot, stops]
      · intro other isOther entry isEntry
        cases isList.symm.trans isOther
        apply looked
        rwa [List.take_of_length_le (by omega)]
  | succ left ih =>
      obtain ⟨slot, isSlot, slotHolds⟩ := holds.slot s list isList
      have inRange : index < list.length := by omega
      have goesOn : index < slot.entriesNum := by rwa [slotHolds.num]
      have entryRead := slotHolds.read inRange
      by_cases moves : s ≠ place list[index]
      · obtain ⟨newList, isNewList⟩ : ∃ newList,
            table[place list[index]]? = some newList :=
          ⟨_, List.getElem?_eq_getElem (inTable list[index])⟩
        obtain ⟨newSlot, isNewSlot, newHolds⟩ := holds.slot _ newList isNewList
        obtain ⟨roomySlot, pushedSlot, ensured, pushed, pushedHolds⟩ :=
          newHolds.ensurePush list[index]
        obtain ⟨holedSlot, dropped, holedHolds⟩ := slotHolds.dropAt inRange
        have isListStill :
            (table.set (place list[index]) (newList ++ [list[index]]))[s]? =
              some list := by
          rwa [List.getElem?_set_ne moves.symm]
        have isListNow : ((table.set (place list[index])
            (newList ++ [list[index]])).set s (fillHole list index))[s]? =
              some (fillHole list index) := by
          apply List.getElem?_set_self
          rw [List.length_set]
          exact (List.getElem?_eq_some_iff.mp isList).1
        have restNow : index + left = (fillHole list index).length := by
          rw [length_fillHole]
          omega
        obtain ⟨slots', table', runs, holds', length', perm, placed, others⟩ :=
          ih (by simpa using inTable)
            ((holds.set (place list[index]) pushedHolds).set s holedHolds)
            isListNow restNow (by rwa [take_fillHole inRange])
        refine ⟨slots', table', ?_, holds', by simpa using length', ?_, placed, ?_⟩
        · rw [redistributeSlot, isSlot]
          simp [goesOn, entryRead, ← place_eq, moves, isNewSlot, ensured, pushed,
            dropped, runs]
        · have gained := flatten_set_concat isNewList list[index]
          have lost := flatten_set_fillHole isListStill inRange
          exact perm.trans ((lost.symm.trans gained).cons_inv)
        · intro other notHere placedOther
          apply others other notHere
          apply PlacedAt.set_ne ?_ (Ne.symm notHere)
          by_cases isTarget : place list[index] = other
          · subst isTarget
            apply PlacedAt.set_self
            intro entry isEntry
            rw [List.mem_append, List.mem_singleton] at isEntry
            cases isEntry with
            | inl old => exact placedOther newList isNewList entry old
            | inr new => rw [new]
          · exact placedOther.set_ne isTarget _
      · rw [ne_eq, not_not] at moves
        have lookedNext : ∀ entry ∈ list.take (index + 1), place entry = s := by
          intro entry isEntry
          rw [List.take_succ_eq_append_getElem inRange, List.mem_append,
            List.mem_singleton] at isEntry
          cases isEntry with
          | inl old => exact looked entry old
          | inr new => rw [new, ← moves]
        obtain ⟨slots', table', runs, result⟩ :=
          ih inTable holds isList (by omega) lookedNext
        refine ⟨slots', table', ?_, result⟩
        rw [redistributeSlot, isSlot]
        simp [goesOn, entryRead, ← place_eq, ← moves, runs]

/-- The outer loop leaves every entry where it belongs. -/
theorem redistribute_spec {incSlots left s : Nat} {slots : List NtHashmapSlot}
    {table : List (List NtHashmapEntry)}
    (place_eq : ∀ entry, place entry = (hashFunc entry.key).toNat % incSlots)
    (inTable : ∀ entry, place entry < table.length)
    (holds : TableHolds slots table) (bound : s + left ≤ table.length)
    (placed : ∀ index, index < s ∨ s + left ≤ index → PlacedAt place table index) :
    ∃ slots' table',
      redistribute hashFunc incSlots left s slots [] = some (slots', []) ∧
      TableHolds slots' table' ∧ table'.length = table.length ∧
      table'.flatten.Perm table.flatten ∧
      ∀ index, PlacedAt place table' index := by
  induction left generalizing s slots table with
  | zero =>
      exact ⟨slots, table, rfl, holds, rfl, List.Perm.refl _,
        fun index => placed index (by omega)⟩
  | succ left ih =>
      have isList : table[s]? = some table[s] :=
        List.getElem?_eq_getElem (by omega)
      obtain ⟨slot, isSlot, slotHolds⟩ := holds.slot s _ isList
      obtain ⟨slots₁, table₁, inner, holds₁, length₁, perm₁, placedHere, others⟩ :=
        redistributeSlot_spec place_eq inTable holds isList
          (Nat.zero_add _) (by simp)
      have placed₁ : ∀ index, index < s + 1 ∨ s + 1 + left ≤ index →
          PlacedAt place table₁ index := by
        intro index outside
        by_cases here : index = s
        · rw [here]
          exact placedHere
        · exact others index here (placed index (by omega))
      obtain ⟨slots', table', outer, holds', length', perm', placed'⟩ :=
        ih (by rwa [length₁]) holds₁ (by omega : s + 1 + left ≤ table₁.length)
          placed₁
      refine ⟨slots', table', ?_, holds', length'.trans length₁,
        perm'.trans perm₁, placed'⟩
      simp [redistribute, isSlot, slotHolds.num, inner, outer]

end Redistribution

end NtShm
