import NtShm.HeapRuns

/-!
# Heaps with the direct option

A valid state has its elements in heap order, under distinct keys, and an index
that knows exactly those keys by their positions.  Updates and removals keep it
so.  The index answers 0 for a key it does not know, which is never `FAIL`, so
that only for stored keys the operations decide presence rightly.
-/

namespace NtShm

variable {compareFunc : NtBinaryHeapElem → NtBinaryHeapElem → Int}
  {heap : NtBinaryHeap} {list : List NtBinaryHeapElem}

/-- A heap with the direct option that holds these elements in heap order, and
maps exactly their keys to their positions.  The count is an `int`. -/
structure DirectValid
    (compareFunc : NtBinaryHeapElem → NtBinaryHeapElem → Int)
    (heap : NtBinaryHeap) (list : List NtBinaryHeapElem) : Prop where
  direct : heap.hasDirectOption = true
  small : list.length < 2 ^ 31
  ordered : HeapOrdered (Precedes compareFunc) list
  indexed : ∃ map, HeapHolds compareFunc heap.options heap list map ∧
    Indexed list map

theorem Indexed.nil : Indexed [] fun _ => none where
  keys := List.nodup_nil
  absent _ _ := rfl
  placed index elem isElem := by simp at isElem

theorem DirectValid.of_holds {options : Nat} {map : UInt64 → Option UInt64}
    (holds : HeapHolds compareFunc options heap list map)
    (direct : heap.hasDirectOption = true) (small : list.length < 2 ^ 31)
    (indexed : Indexed list map) (ordered : HeapOrdered (Precedes compareFunc) list) :
    DirectValid compareFunc heap list := by
  refine ⟨direct, small, ordered, map, ?_, indexed⟩
  rw [holds.options]
  exact holds

/-- The index with the keys of more elements, which stand from `index` on. -/
def NtBinaryHeap.indexFrom (heap : NtBinaryHeap) (index : Nat) :
    List NtBinaryHeapElem → Except HeapStop NtBinaryHeap
  | [] => .ok heap
  | elem :: list => do
      let heap ← heap.setIndex elem.key index
      heap.indexFrom (index + 1) list

theorem Indexed.concat {map : UInt64 → Option UInt64} (indexed : Indexed list map)
    {elem : NtBinaryHeapElem} (isNew : ∀ other ∈ list, other.key ≠ elem.key) :
    Indexed (list ++ [elem])
      (Function.update map elem.key (some (UInt64.ofNat list.length))) where
  keys := by
    rw [List.map_append, List.nodup_append]
    refine ⟨indexed.keys, List.nodup_singleton _, ?_⟩
    intro key isKey other isOther
    obtain ⟨stored, isStored, rfl⟩ := List.mem_map.mp isKey
    rw [List.mem_singleton.mp isOther]
    exact isNew stored isStored
  absent := by
    intro key missing
    rw [Function.update_of_ne (missing elem (by simp)).symm]
    exact indexed.absent key fun other isOther => missing other (by simp [isOther])
  placed := by
    intro index other isOther
    by_cases old : index < list.length
    · rw [List.getElem?_append_left old] at isOther
      rw [Function.update_of_ne (isNew other (List.mem_of_getElem? isOther))]
      exact indexed.placed index other isOther
    · rw [List.getElem?_append_right (Nat.not_lt.mp old)] at isOther
      have atEnd : index - list.length = 0 := by
        have inRange := (List.getElem?_eq_some_iff.mp isOther).1
        simpa using inRange
      rw [atEnd] at isOther
      cases isOther
      rw [Function.update_self, show index = list.length by omega]

theorem HeapHolds.indexFrom {options : Nat} {map : UInt64 → Option UInt64}
    {before : List NtBinaryHeapElem} (holds : HeapHolds compareFunc options heap [] map)
    (direct : heap.hasDirectOption = true) (indexed : Indexed before map)
    (keys : ((before ++ list).map NtBinaryHeapElem.key).Nodup) :
    ∃ heap' map', heap.indexFrom before.length list = .ok heap' ∧
      HeapHolds compareFunc options heap' [] map' ∧ heap'.hasDirectOption = true ∧
      Indexed (before ++ list) map' := by
  induction list generalizing heap map before with
  | nil => exact ⟨heap, map, rfl, holds, direct, by rwa [List.append_nil]⟩
  | cons elem list ih =>
      obtain ⟨heap₁, sets, holds₁⟩ := holds.setIndex direct elem.key before.length
      have isNew : ∀ other ∈ before, other.key ≠ elem.key := by
        intro other isOther
        rw [List.map_append, List.nodup_append] at keys
        exact keys.2.2 other.key (List.mem_map_of_mem isOther) elem.key (by simp)
      obtain ⟨heap', map', indexes, holds', direct', indexed'⟩ :=
        ih holds₁ ((holds₁.sameDirect holds).trans direct) (indexed.concat isNew)
          (by rwa [List.append_assoc])
      refine ⟨heap', map', ?_, holds', direct', by rwa [List.append_assoc] at indexed'⟩
      rw [List.length_append] at indexes
      rw [NtBinaryHeap.indexFrom, sets]
      exact indexes

end NtShm
