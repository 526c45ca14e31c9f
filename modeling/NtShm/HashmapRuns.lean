import NtShm.HashmapMaps

/-!
# Histories of the hashmap

After any sequence of sets, removes and clears the hashmap is a map: it answers
from the last set of each key, and holds each key once, where its hash says.
-/

namespace NtShm

inductive HashmapOp
  | set (key value : UInt64)
  | remove (key : UInt64)
  | clear

def HashmapOp.run (hm : NtHashmap) : HashmapOp → Option NtHashmap
  | .set key value => ntHashmapSet hm key value
  | .remove key => ntHashmapRemove hm key
  | .clear => ntHashmapClear hm

/-- The value of the last set of a key that is not followed by a remove of the
key or by a clear. -/
def lastSet (history : List HashmapOp) : UInt64 → Option UInt64 :=
  history.foldl
    (fun map op =>
      match op with
      | .set key value => Function.update map key (some value)
      | .remove key => Function.update map key none
      | .clear => fun _ => none)
    fun _ => none

def NtHashmap.entryAt (hm : NtHashmap) (index position : Nat) :
    Option NtHashmapEntry := do
  let slot ← hm.slotAt index
  if position < slot.entriesNum then slot.read position else none

/-- The hashmap answers for a map, and its table is in order. -/
structure HashmapCorrect (hm : NtHashmap) (map : UInt64 → Option UInt64) :
    Prop where
  gets : ∀ key, ntHashmapGet hm key = some ((map key).getD 0)
  placed : ∀ index position entry, hm.entryAt index position = some entry →
    index = (hm.hashFunc entry.key).toNat % hm.numSlots
  once : ∀ index position entry index' position' entry',
    hm.entryAt index position = some entry →
    hm.entryAt index' position' = some entry' → entry.key = entry'.key →
    index = index' ∧ position = position'
  num : hm.numData = ((hm.slots.getD []).map NtHashmapSlot.entriesNum).sum
  alloc : ∀ slot ∈ hm.slots.getD [], slot.entriesNum ≤ slot.entriesAlloc

section Tables

variable {hm : NtHashmap} {table : List (List NtHashmapEntry)}

theorem HashmapHolds.entryAt_eq (holds : HashmapHolds hm table)
    {index position : Nat} {entry : NtHashmapEntry}
    (isEntry : hm.entryAt index position = some entry) :
    ∃ list, table[index]? = some list ∧
      ∃ inRange : position < list.length, list[position] = entry := by
  rcases holds.slots with ⟨isNull, -⟩ | ⟨slots, isSlots, tableHolds, -⟩
  · simp [NtHashmap.entryAt, NtHashmap.slotAt, isNull] at isEntry
  · simp only [NtHashmap.entryAt, NtHashmap.slotAt, isSlots, Option.bind_some,
      Option.bind_eq_bind, Option.bind_eq_some_iff] at isEntry
    obtain ⟨slot, isSlot, isEntry⟩ := isEntry
    have inSlots : index < table.length := by
      rw [← tableHolds.size]
      exact (List.getElem?_eq_some_iff.mp isSlot).1
    have isList := List.getElem?_eq_getElem inSlots
    obtain ⟨other, isOther, slotHolds⟩ := tableHolds.slot index _ isList
    cases isOther.symm.trans isSlot
    split at isEntry
    · next inRange =>
        rw [slotHolds.num] at inRange
        rw [slotHolds.read inRange] at isEntry
        exact ⟨_, isList, inRange, Option.some.inj isEntry⟩
    · cases isEntry

theorem TableHolds.map_entriesNum {slots : List NtHashmapSlot}
    (holds : TableHolds slots table) :
    slots.map NtHashmapSlot.entriesNum = table.map List.length := by
  apply List.ext_getElem
  · simp [holds.size]
  · intro index inSlots inTable
    rw [List.length_map] at inSlots inTable
    obtain ⟨slot, isSlot, slotHolds⟩ :=
      holds.slot index _ (List.getElem?_eq_getElem inTable)
    rw [List.getElem?_eq_getElem inSlots] at isSlot
    cases isSlot
    rw [List.getElem_map, List.getElem_map, slotHolds.num]

theorem Represents64.correct {map : UInt64 → Option UInt64}
    (represents : Represents64 hm map) : HashmapCorrect hm map := by
  obtain ⟨table, holds, dictionary, -⟩ := id represents
  have placed : ∀ index position entry, hm.entryAt index position = some entry →
      index = (hm.hashFunc entry.key).toNat % hm.numSlots := by
    intro index position entry isEntry
    obtain ⟨list, isList, inRange, rfl⟩ := holds.entryAt_eq isEntry
    rw [holds.size]
    exact (holds.placed index list isList _ (List.getElem_mem inRange)).symm
  constructor
  case gets => exact ntHashmapGet_represents represents
  case placed => exact placed
  case once =>
    intro index position entry index' position' entry' isEntry isEntry' same
    have sameSlot : index = index' := by
      rw [placed _ _ _ isEntry, placed _ _ _ isEntry', same]
    subst sameSlot
    obtain ⟨list, isList, inRange, rfl⟩ := holds.entryAt_eq isEntry
    obtain ⟨other, isOther, inRange', rfl⟩ := holds.entryAt_eq isEntry'
    cases isList.symm.trans isOther
    have keys : (list.map NtHashmapEntry.key).Nodup :=
      dictionary.keys.sublist
        ((List.sublist_flatten_of_mem (List.mem_of_getElem? isList)).map _)
    refine ⟨rfl, ?_⟩
    have inKeys : position < (list.map NtHashmapEntry.key).length := by simpa
    have inKeys' : position' < (list.map NtHashmapEntry.key).length := by simpa
    have sameKey : (list.map NtHashmapEntry.key)[position] =
        (list.map NtHashmapEntry.key)[position'] := by
      rw [List.getElem_map, List.getElem_map, same]
    exact keys.getElem_inj_iff.mp sameKey
  case num =>
    rw [holds.num, List.length_flatten]
    rcases holds.slots with ⟨isNull, rfl⟩ | ⟨slots, isSlots, tableHolds, -⟩
    · simp [isNull]
    · rw [isSlots, Option.getD_some, tableHolds.map_entriesNum]
  case alloc =>
    rcases holds.slots with ⟨isNull, rfl⟩ | ⟨slots, isSlots, tableHolds, -⟩
    · simp [isNull]
    · intro slot isSlot
      rw [isSlots, Option.getD_some] at isSlot
      obtain ⟨index, inRange, rfl⟩ := List.getElem_of_mem isSlot
      obtain ⟨slot, isSlot', slotHolds⟩ := tableHolds.slot index _
        (List.getElem?_eq_getElem (tableHolds.size ▸ inRange))
      rw [List.getElem?_eq_getElem inRange] at isSlot'
      cases isSlot'
      exact slotHolds.num_le_alloc

end Tables

theorem HashmapOp.run_represents {hm : NtHashmap} {history : List HashmapOp}
    (represents : Represents64 hm (lastSet history)) (op : HashmapOp) :
    ∃ hm', op.run hm = some hm' ∧
      Represents64 hm' (lastSet (history ++ [op])) ∧ hm'.hashFunc = hm.hashFunc ∧
      ∀ key value, op = .set key value → hm'.numData < 5 * hm'.numSlots := by
  rw [lastSet, List.foldl_append]
  cases op with
  | set key value =>
      obtain ⟨hm', sets, represents', sameHash, someSlots⟩ :=
        ntHashmapSet_represents represents key value
      obtain ⟨-, -, -, load⟩ := id represents'
      exact ⟨hm', sets, represents', sameHash, fun _ _ _ =>
        load (Nat.pos_of_ne_zero someSlots)⟩
  | remove key =>
      obtain ⟨hm', removes, represents', sameHash⟩ :=
        ntHashmapRemove_represents represents key
      exact ⟨hm', removes, represents', sameHash, by simp⟩
  | clear =>
      obtain ⟨hm', clears, represents', sameHash⟩ :=
        ntHashmapClear_represents represents
      exact ⟨hm', clears, represents', sameHash, by simp⟩

def runHashmap (hm : NtHashmap) (history : List HashmapOp) : Option NtHashmap :=
  history.foldlM HashmapOp.run hm

theorem runHashmap_represents {hm : NtHashmap}
    (represents : Represents64 hm fun _ => none) (history : List HashmapOp) :
    ∃ hm', runHashmap hm history = some hm' ∧
      Represents64 hm' (lastSet history) ∧ hm'.hashFunc = hm.hashFunc ∧
      ∀ before key value, history = before ++ [.set key value] →
        hm'.numData < 5 * hm'.numSlots := by
  induction history using List.reverseRecOn with
  | nil =>
      exact ⟨hm, rfl, represents, rfl, fun before key value empty => by
        simp at empty⟩
  | append_singleton history op ih =>
      obtain ⟨hm₁, runs, represents₁, sameHash₁, -⟩ := ih
      obtain ⟨hm', step, represents', sameHash', load⟩ :=
        op.run_represents represents₁
      refine ⟨hm', ?_, represents', sameHash'.trans sameHash₁, ?_⟩
      · rw [runHashmap] at runs ⊢
        rw [List.foldlM_append, runs]
        simpa using step
      · intro before key value isLast
        exact load key value (List.append_inj_right' isLast rfl |> List.singleton_inj.mp)

/-- The hashmap is a map over all histories, and never crowded after a set. -/
theorem runHashmap_correct (hashFunc : UInt64 → UInt32) (initSize : Nat)
    (history : List HashmapOp) :
    ∃ created hm, ntHashmapCreateExt initSize hashFunc ntDefaultUint64CompareFunc
        [] = some created ∧
      runHashmap created history = some hm ∧ hm.hashFunc = hashFunc ∧
      HashmapCorrect hm (lastSet history) ∧
      ∀ before key value, history = before ++ [.set key value] →
        hm.numData < 5 * hm.numSlots := by
  obtain ⟨created, creates, represents, sameHash, -⟩ :=
    ntHashmapCreateExt_represents hashFunc initSize
  obtain ⟨hm, runs, represents', sameHash', load⟩ :=
    runHashmap_represents represents history
  exact ⟨created, hm, creates, runs, sameHash'.trans sameHash,
    represents'.correct, load⟩

end NtShm
