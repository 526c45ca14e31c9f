import NtShm.BinaryHeap
import NtShm.HashmapMaps
import NtShm.HeapOrder
import NtShm.Tables

/-!
# What a binary heap holds

The array starts with the elements of the heap, and with the direct option the
index represents a map from keys to positions.  Reads, writes and swaps act on
the two as on a list and a map.
-/

namespace NtShm

structure HeapHolds
    (compareFunc : NtBinaryHeapElem → NtBinaryHeapElem → Int) (options : Nat)
    (heap : NtBinaryHeap) (list : List NtBinaryHeapElem)
    (map : UInt64 → Option UInt64) : Prop where
  compare : heap.compareFunc = compareFunc
  options : heap.options = options
  num : heap.elemsNum = list.length
  elems : (heap.elems = none ∧ heap.elemsAlloc = 0 ∧ list = []) ∨
    ∃ block, heap.elems = some block ∧ block.StartsWith list ∧
      block.length = heap.elemsAlloc ∧ 0 < heap.elemsAlloc
  index : heap.hasDirectOption = true →
    ∃ hm, heap.keyIndex = some hm ∧ Represents64 hm map

/-- The map has the position of every element but that in the hole. -/
structure IndexedBut (list : List NtBinaryHeapElem)
    (map : UInt64 → Option UInt64) (hole : Nat) : Prop where
  keys : (list.map NtBinaryHeapElem.key).Nodup
  absent : ∀ key, (∀ elem ∈ list, elem.key ≠ key) → map key = none
  placed : ∀ index elem, list[index]? = some elem → index ≠ hole →
    map elem.key = some (UInt64.ofNat index)

/-- The map has the position of every element, and no other keys. -/
structure Indexed (list : List NtBinaryHeapElem)
    (map : UInt64 → Option UInt64) : Prop where
  keys : (list.map NtBinaryHeapElem.key).Nodup
  absent : ∀ key, (∀ elem ∈ list, elem.key ≠ key) → map key = none
  placed : ∀ index elem, list[index]? = some elem →
    map elem.key = some (UInt64.ofNat index)

/-- The order that a comparison function stands for. -/
def Precedes (compareFunc : NtBinaryHeapElem → NtBinaryHeapElem → Int)
    (first second : NtBinaryHeapElem) : Prop :=
  compareFunc first second ≤ 0

@[simp] theorem ok_bind {α β : Type} (value : α) (next : α → Except HeapStop β) :
    (Except.ok value >>= next) = next value := rfl

@[simp] theorem error_bind {α β : Type} (stop : HeapStop)
    (next : α → Except HeapStop β) :
    ((Except.error stop : Except HeapStop α) >>= next) = .error stop := rfl

theorem position_unique {list : List NtBinaryHeapElem}
    (keys : (list.map NtBinaryHeapElem.key).Nodup) {first second : Nat}
    {elem other : NtBinaryHeapElem} (isElem : list[first]? = some elem)
    (isOther : list[second]? = some other) (same : elem.key = other.key) :
    first = second := by
  obtain ⟨firstIn, rfl⟩ := List.getElem?_eq_some_iff.mp isElem
  obtain ⟨secondIn, rfl⟩ := List.getElem?_eq_some_iff.mp isOther
  have firstKey : first < (list.map NtBinaryHeapElem.key).length := by simpa
  have secondKey : second < (list.map NtBinaryHeapElem.key).length := by simpa
  have sameKey : (list.map NtBinaryHeapElem.key)[first] =
      (list.map NtBinaryHeapElem.key)[second] := by
    rw [List.getElem_map, List.getElem_map, same]
  exact keys.getElem_inj_iff.mp sameKey

section Index

variable {list : List NtBinaryHeapElem} {map : UInt64 → Option UInt64}

theorem Indexed.but (indexed : Indexed list map) (hole : Nat) :
    IndexedBut list map hole :=
  ⟨indexed.keys, indexed.absent, fun index elem isElem _ =>
    indexed.placed index elem isElem⟩

theorem IndexedBut.complete {hole : Nat} {elem : NtBinaryHeapElem}
    (indexed : IndexedBut list map hole) (isElem : list[hole]? = some elem) :
    Indexed list (Function.update map elem.key (some (UInt64.ofNat hole))) where
  keys := indexed.keys
  absent key missing := by
    have differs := missing elem (List.mem_of_getElem? isElem)
    rw [Function.update_of_ne differs.symm]
    exact indexed.absent key missing
  placed index other isOther := by
    by_cases atHole : index = hole
    · subst atHole
      cases isElem.symm.trans isOther
      rw [Function.update_self]
    · rw [Function.update_of_ne]
      · exact indexed.placed index other isOther atHole
      · intro same
        exact atHole (position_unique indexed.keys isOther isElem same)

/-- Without its hole the list is indexed when there is nothing at the hole. -/
theorem IndexedBut.of_outside {hole : Nat} (indexed : IndexedBut list map hole)
    (outside : list.length ≤ hole) : Indexed list map := by
  refine ⟨indexed.keys, indexed.absent, fun index elem isElem => ?_⟩
  apply indexed.placed index elem isElem
  have inRange := (List.getElem?_eq_some_iff.mp isElem).1
  omega

theorem Indexed.fillHole {hole : Nat} {elem : NtBinaryHeapElem}
    (indexed : Indexed list map) (isElem : list[hole]? = some elem) :
    IndexedBut (fillHole list hole) (Function.update map elem.key none) hole := by
  obtain ⟨inRange, rfl⟩ := List.getElem?_eq_some_iff.mp isElem
  have same := perm_fillHole inRange
  have keys := (same.map NtBinaryHeapElem.key).nodup_iff.mp indexed.keys
  rw [List.map_cons, List.nodup_cons] at keys
  constructor
  case keys => exact keys.2
  case absent =>
    intro key missing
    by_cases removed : key = list[hole].key
    · rw [removed, Function.update_self]
    · rw [Function.update_of_ne removed]
      apply indexed.absent
      intro stored isStored
      rw [same.mem_iff, List.mem_cons] at isStored
      cases isStored with
      | inl isRemoved => exact isRemoved ▸ Ne.symm removed
      | inr remains => exact missing stored remains
  case placed =>
    intro index stored isStored elsewhere
    have isStored' := getElem?_of_fillHole elsewhere isStored
    rw [Function.update_of_ne]
    · exact indexed.placed index stored isStored'
    · intro sameKey
      exact elsewhere (position_unique indexed.keys isStored' isElem sameKey)

theorem Indexed.set {hole : Nat} {elem : NtBinaryHeapElem}
    (indexed : Indexed list map) (isElem : list[hole]? = some elem)
    {elem' : NtBinaryHeapElem} (sameKey : elem'.key = elem.key) :
    Indexed (list.set hole elem') map := by
  obtain ⟨inRange, rfl⟩ := List.getElem?_eq_some_iff.mp isElem
  have sameKeys : (list.set hole elem').map NtBinaryHeapElem.key =
      list.map NtBinaryHeapElem.key := by
    rw [List.map_set, sameKey]
    apply List.ext_getElem?
    intro index
    rw [List.getElem?_set]
    split
    · next here => simp [← here, inRange]
    · rfl
  constructor
  case keys => exact sameKeys ▸ indexed.keys
  case absent =>
    intro key missing
    apply indexed.absent
    intro stored isStored atKey
    have isKey : key ∈ (list.set hole elem').map NtBinaryHeapElem.key := by
      rw [sameKeys, List.mem_map]
      exact ⟨stored, isStored, atKey⟩
    obtain ⟨stored', isStored', atKey'⟩ := List.mem_map.mp isKey
    exact missing stored' isStored' atKey'
  case placed =>
    intro index stored isStored
    by_cases here : index = hole
    · subst here
      rw [List.getElem?_set_self inRange, Option.some.injEq] at isStored
      rw [← isStored, sameKey]
      exact indexed.placed index _ isElem
    · rw [List.getElem?_set_ne (Ne.symm here)] at isStored
      exact indexed.placed index stored isStored

theorem IndexedBut.swap {first second : Nat} {elem other : NtBinaryHeapElem}
    (isElem : list[first]? = some elem) (isOther : list[second]? = some other)
    (distinct : first ≠ second) {hole : Nat}
    (indexed : IndexedBut list map hole) (swapped : hole = first ∨ hole = second) :
    Indexed (list.swap first second)
      (Function.update
        (Function.update map other.key (some (UInt64.ofNat first)))
        elem.key (some (UInt64.ofNat second))) := by
  have firstIn := (List.getElem?_eq_some_iff.mp isElem).1
  have secondIn := (List.getElem?_eq_some_iff.mp isOther).1
  have same := List.swap_perm list first second
  have keysDiffer : other.key ≠ elem.key := fun sameKey =>
    distinct (position_unique indexed.keys isElem isOther sameKey.symm)
  constructor
  case keys => exact (same.map _).nodup_iff.mpr indexed.keys
  case absent =>
    intro key missing
    have missing' : ∀ stored ∈ list, stored.key ≠ key := fun stored isStored =>
      missing stored (same.mem_iff.mpr isStored)
    rw [Function.update_of_ne (missing' elem (List.mem_of_getElem? isElem)).symm,
      Function.update_of_ne (missing' other (List.mem_of_getElem? isOther)).symm]
    exact indexed.absent key missing'
  case placed =>
    intro index stored isStored
    rw [getElem?_swap firstIn secondIn] at isStored
    by_cases atSecond : index = second
    · subst atSecond
      rw [Equiv.swap_apply_right] at isStored
      cases isElem.symm.trans isStored
      rw [Function.update_self]
    · by_cases atFirst : index = first
      · subst atFirst
        rw [Equiv.swap_apply_left] at isStored
        cases isOther.symm.trans isStored
        rw [Function.update_of_ne keysDiffer, Function.update_self]
      · rw [Equiv.swap_apply_of_ne_of_ne atFirst atSecond] at isStored
        rw [Function.update_of_ne, Function.update_of_ne]
        · apply indexed.placed index stored isStored
          cases swapped with
          | inl isFirst => exact isFirst ▸ atFirst
          | inr isSecond => exact isSecond ▸ atSecond
        · intro sameKey
          exact atSecond (position_unique indexed.keys isStored isOther sameKey)
        · intro sameKey
          exact atFirst (position_unique indexed.keys isStored isElem sameKey)

end Index

namespace HeapHolds

variable {compareFunc : NtBinaryHeapElem → NtBinaryHeapElem → Int}
  {options : Nat} {heap : NtBinaryHeap} {list : List NtBinaryHeapElem}
  {map : UInt64 → Option UInt64}

theorem read (holds : HeapHolds compareFunc options heap list map) {index : Nat}
    {elem : NtBinaryHeapElem} (isElem : list[index]? = some elem) :
    heap.read index = .ok elem := by
  obtain ⟨inRange, rfl⟩ := List.getElem?_eq_some_iff.mp isElem
  rcases holds.elems with ⟨-, -, rfl⟩ | ⟨block, isBlock, starts, -⟩
  · cases inRange
  · rw [NtBinaryHeap.read, isBlock, Option.bind_some, starts index inRange]
    rfl

theorem write (holds : HeapHolds compareFunc options heap list map) {index : Nat}
    (inRange : index < list.length) (elem : NtBinaryHeapElem) :
    ∃ heap', heap.write index elem = .ok heap' ∧
      HeapHolds compareFunc options heap' (list.set index elem) map := by
  rcases holds.elems with ⟨-, -, rfl⟩ | ⟨block, isBlock, starts, size, someRoom⟩
  · cases inRange
  · obtain ⟨block', written⟩ :=
      Block.write_of_lt elem (inRange.trans_le starts.length_le)
    refine ⟨{ heap with elems := some block' }, ?_, ?_⟩
    · rw [NtBinaryHeap.write, isBlock, Option.bind_some, written]
      rfl
    · constructor
      case compare => exact holds.compare
      case options => exact holds.options
      case num => rw [List.length_set, ← holds.num]
      case elems =>
        exact Or.inr ⟨block', rfl, starts.set written,
          (Block.length_of_written written).trans size, someRoom⟩
      case index => exact holds.index

theorem setIndex (holds : HeapHolds compareFunc options heap list map)
    (direct : heap.hasDirectOption = true) (key : UInt64) (index : Nat) :
    ∃ heap', heap.setIndex key index = .ok heap' ∧
      HeapHolds compareFunc options heap' list
        (Function.update map key (some (UInt64.ofNat index))) := by
  obtain ⟨hm, isIndex, represents⟩ := holds.index direct
  obtain ⟨hm', sets, represents', -⟩ :=
    ntHashmapSet_represents represents key (UInt64.ofNat index)
  refine ⟨{ heap with keyIndex := some hm' }, ?_, ?_⟩
  · rw [NtBinaryHeap.setIndex, isIndex, Option.bind_some, sets]
    rfl
  · exact ⟨holds.compare, holds.options, holds.num, holds.elems,
      fun _ => ⟨hm', rfl, represents'⟩⟩

theorem getIndex (holds : HeapHolds compareFunc options heap list map)
    (direct : heap.hasDirectOption = true) (key : UInt64) :
    heap.getIndex key = .ok ((map key).getD 0) := by
  obtain ⟨hm, isIndex, represents⟩ := holds.index direct
  rw [NtBinaryHeap.getIndex, isIndex, Option.bind_some,
    ntHashmapGet_represents represents]
  rfl

theorem removeIndex (holds : HeapHolds compareFunc options heap list map)
    (direct : heap.hasDirectOption = true) (key : UInt64) :
    ∃ heap', heap.removeIndex key = .ok heap' ∧
      HeapHolds compareFunc options heap' list
        (Function.update map key none) := by
  obtain ⟨hm, isIndex, represents⟩ := holds.index direct
  obtain ⟨hm', removes, represents', -⟩ := ntHashmapRemove_represents represents key
  refine ⟨{ heap with keyIndex := some hm' }, ?_, ?_⟩
  · rw [NtBinaryHeap.removeIndex, isIndex, Option.bind_some, removes]
    rfl
  · exact ⟨holds.compare, holds.options, holds.num, holds.elems,
      fun _ => ⟨hm', rfl, represents'⟩⟩

/-- Without the direct option the map is of no account. -/
theorem forget (holds : HeapHolds compareFunc options heap list map)
    (notDirect : heap.hasDirectOption = false) (other : UInt64 → Option UInt64) :
    HeapHolds compareFunc options heap list other :=
  ⟨holds.compare, holds.options, holds.num, holds.elems, fun direct =>
    absurd direct (by simp [notDirect])⟩

theorem shrink (holds : HeapHolds compareFunc options heap list map) {count : Nat}
    (fewer : count ≤ list.length) :
    HeapHolds compareFunc options { heap with elemsNum := count }
      (list.take count) map where
  compare := holds.compare
  options := holds.options
  num := (List.length_take_of_le fewer).symm
  elems := by
    rcases holds.elems with ⟨isNull, noRoom, rfl⟩ | ⟨block, isBlock, starts, rest⟩
    · exact Or.inl ⟨isNull, noRoom, List.take_nil⟩
    · exact Or.inr ⟨block, isBlock, starts.take count, rest⟩
  index := holds.index

theorem sameDirect {heap' : NtBinaryHeap} {list' : List NtBinaryHeapElem}
    {map' : UInt64 → Option UInt64}
    (holds' : HeapHolds compareFunc options heap' list' map')
    (holds : HeapHolds compareFunc options heap list map) :
    heap'.hasDirectOption = heap.hasDirectOption := by
  rw [NtBinaryHeap.hasDirectOption, NtBinaryHeap.hasDirectOption,
    holds.options, holds'.options]

theorem swap (holds : HeapHolds compareFunc options heap list map)
    {first second : Nat} (firstIn : first < list.length)
    (secondIn : second < list.length) (distinct : first ≠ second) :
    ∃ heap' map', heap.swap first second = .ok heap' ∧
      HeapHolds compareFunc options heap' (list.swap first second) map' ∧
      ∀ hole, (hole = first ∨ hole = second) → IndexedBut list map hole →
        Indexed (list.swap first second) map' := by
  have isElem := List.getElem?_eq_getElem firstIn
  have isOther := List.getElem?_eq_getElem secondIn
  have swaps := List.swap_eq_of_lt firstIn secondIn
  obtain ⟨heap₁, write₁, holds₁⟩ := holds.write firstIn list[second]
  have secondStays : second < (list.set first list[second]).length := by simpa
  obtain ⟨heap₂, write₂, holds₂⟩ := holds₁.write secondStays list[first]
  rw [← swaps] at holds₂
  have direct₂ := holds₂.sameDirect holds
  have atFirst : (list.swap first second)[first]? = some list[second] := by
    rw [getElem?_swap firstIn secondIn, Equiv.swap_apply_left, isOther]
  have atSecond : (list.swap first second)[second]? = some list[first] := by
    rw [getElem?_swap firstIn secondIn, Equiv.swap_apply_right, isElem]
  simp only [NtBinaryHeap.swap, holds.read isElem, holds.read isOther, ok_bind,
    write₁, write₂]
  by_cases direct : heap.hasDirectOption = true
  · obtain ⟨heap₃, set₃, holds₃⟩ :=
      holds₂.setIndex (direct₂.trans direct) list[second].key first
    obtain ⟨heap₄, set₄, holds₄⟩ := holds₃.setIndex
      ((holds₃.sameDirect holds).trans direct) list[first].key second
    refine ⟨heap₄, _, ?_, holds₄, ?_⟩
    · rw [if_pos (direct₂.trans direct)]
      simp only [holds₂.read atFirst, ok_bind, set₃, holds₃.read atSecond, set₄]
    · intro hole isHole indexed
      exact indexed.swap isElem isOther distinct isHole
  · rw [Bool.not_eq_true] at direct
    refine ⟨heap₂,
      Function.update
        (Function.update map list[second].key (some (UInt64.ofNat first)))
        list[first].key (some (UInt64.ofNat second)), ?_, ?_, ?_⟩
    · rw [if_neg (by simp [direct₂, direct])]
      rfl
    · exact holds₂.forget (direct₂.trans direct) _
    · intro hole isHole indexed
      exact indexed.swap isElem isOther distinct isHole

end HeapHolds

end NtShm
