import NtShm.HeapOperations
import Mathlib.Data.Multiset.AddSub

/-!
# Runs of the heap as a priority queue

A heap without the direct option, after any sequence of inserts, removals of the
minimum and clears.  Its contents are what was inserted less what was removed,
and draining it gives them in order.
-/

namespace NtShm

/-- The heaps that come from a sequence of calls, with the elements inserted
and not removed.  What a removal takes out is what the minimum was before. -/
inductive BinaryHeapRun
    (compareFunc : NtBinaryHeapElem → NtBinaryHeapElem → Int) (options : Nat)
    (ntDefaultUint64HashFunc : UInt64 → UInt32) :
    NtBinaryHeap → Multiset NtBinaryHeapElem → Prop
  | create {heap} :
      ntBinaryHeapCreateExt compareFunc options ntDefaultUint64HashFunc =
        .ok heap →
      BinaryHeapRun compareFunc options ntDefaultUint64HashFunc heap 0
  | insert {heap contents} (elem : NtBinaryHeapElem) {heap'} :
      BinaryHeapRun compareFunc options ntDefaultUint64HashFunc heap contents →
      ntBinaryHeapInsert heap elem = .ok heap' →
      BinaryHeapRun compareFunc options ntDefaultUint64HashFunc heap' (elem ::ₘ contents)
  | removeMin {heap contents least heap'} :
      BinaryHeapRun compareFunc options ntDefaultUint64HashFunc heap contents →
      ntBinaryHeapFindMin heap = .ok least →
      ntBinaryHeapRemoveMin heap = .ok heap' →
      BinaryHeapRun compareFunc options ntDefaultUint64HashFunc heap'
        (contents.erase least)
  | clear {heap contents heap'} :
      BinaryHeapRun compareFunc options ntDefaultUint64HashFunc heap contents →
      ntBinaryHeapClear heap = .ok heap' →
      BinaryHeapRun compareFunc options ntDefaultUint64HashFunc heap' 0

structure HeapCorrect
    (compareFunc : NtBinaryHeapElem → NtBinaryHeapElem → Int)
    (heap : NtBinaryHeap) (contents : Multiset NtBinaryHeapElem) : Prop where
  ordered : ∀ parent child, IsChild child parent → child < heap.elemsNum →
    ∃ above below, heap.read parent = .ok above ∧ heap.read child = .ok below ∧
      compareFunc above below ≤ 0
  num_le_alloc : heap.elemsNum ≤ heap.elemsAlloc
  stored : ∃ list : List NtBinaryHeapElem,
    (List.range heap.elemsNum).map heap.read = list.map .ok ∧ ↑list = contents
  findMin : heap.elemsNum ≠ 0 → ∃ least, ntBinaryHeapFindMin heap = .ok least ∧
    least ∈ contents ∧ ∀ elem ∈ contents, compareFunc least elem ≤ 0
  inserts : ∀ elem, ∃ heap', ntBinaryHeapInsert heap elem = .ok heap'
  removes : heap.elemsNum ≠ 0 → ∃ heap', ntBinaryHeapRemoveMin heap = .ok heap'
  clears : ∃ heap', ntBinaryHeapClear heap = .ok heap'

section Runs

variable {compareFunc : NtBinaryHeapElem → NtBinaryHeapElem → Int}
  {options : Nat} {ntDefaultUint64HashFunc : UInt64 → UInt32}
  {heap : NtBinaryHeap} {contents : Multiset NtBinaryHeapElem}
  {list : List NtBinaryHeapElem} {map : UInt64 → Option UInt64}

theorem HeapHolds.not_direct (holds : HeapHolds compareFunc options heap list map)
    (notDirect : options &&& ntBinaryHeapOptionDirect = 0) :
    heap.hasDirectOption = false := by
  simp [NtBinaryHeap.hasDirectOption, holds.options, notDirect]

theorem HeapHolds.num_le_alloc
    (holds : HeapHolds compareFunc options heap list map) :
    heap.elemsNum ≤ heap.elemsAlloc := by
  rw [holds.num]
  rcases holds.elems with ⟨-, -, rfl⟩ | ⟨block, -, starts, size, -⟩
  · exact Nat.zero_le _
  · exact size ▸ starts.length_le

theorem HeapHolds.reads (holds : HeapHolds compareFunc options heap list map) :
    (List.range heap.elemsNum).map heap.read = list.map .ok := by
  apply List.ext_getElem
  · simp [holds.num]
  · intro index inRange inList
    rw [List.length_map] at inList
    rw [List.getElem_map, List.getElem_map, List.getElem_range]
    exact holds.read (List.getElem?_eq_getElem inList)

theorem HeapOrdered.root_precedes
    (preorder : TotalPreorder (Precedes compareFunc))
    (ordered : HeapOrdered (Precedes compareFunc) list)
    (nonempty : 0 < list.length) {elem : NtBinaryHeapElem} (isElem : elem ∈ list) :
    compareFunc list[0] elem ≤ 0 := by
  obtain ⟨index, inRange, rfl⟩ := List.getElem_of_mem isElem
  exact ordered.root_le preorder index _ _ (List.getElem?_eq_getElem nonempty)
    (List.getElem?_eq_getElem inRange)

theorem BinaryHeapRun.holds (preorder : TotalPreorder (Precedes compareFunc))
    (notDirect : options &&& ntBinaryHeapOptionDirect = 0)
    (run : BinaryHeapRun compareFunc options ntDefaultUint64HashFunc heap contents) :
    ∃ list map, HeapHolds compareFunc options heap list map ∧
      HeapOrdered (Precedes compareFunc) list ∧ ↑list = contents := by
  have emptyOrdered : HeapOrdered (Precedes compareFunc) [] :=
    fun _ _ _ => InOrder.of_length_le_right (Nat.zero_le _)
  induction run with
  | create creates =>
      obtain ⟨heap, creates', holds⟩ := ntBinaryHeapCreateExt_spec compareFunc
        options ntDefaultUint64HashFunc
      cases creates.symm.trans creates'
      exact ⟨[], _, holds, emptyOrdered, rfl⟩
  | insert elem _ inserts ih =>
      obtain ⟨list, map, holds, ordered, rfl⟩ := ih
      obtain ⟨heap', list', map', inserts', holds', same, ordered'⟩ :=
        ntBinaryHeapInsert_spec holds (holds.not_direct notDirect) elem
      cases inserts.symm.trans inserts'
      exact ⟨list', map', holds', ordered' preorder ordered,
        Multiset.coe_eq_coe.mpr same⟩
  | removeMin _ finds removes ih =>
      obtain ⟨list, map, holds, ordered, rfl⟩ := ih
      have nonempty : 0 < list.length := by
        by_contra empty
        rw [ntBinaryHeapFindMin, if_pos (by rw [holds.num]; omega)] at finds
        cases finds
      cases finds.symm.trans (ntBinaryHeapFindMin_spec holds nonempty)
      obtain ⟨heap', list', map', removes', holds', -, same, ordered'⟩ :=
        ntBinaryHeapRemoveMin_spec holds
          (fun direct => absurd direct (by simp [holds.not_direct notDirect]))
          nonempty
      cases removes.symm.trans removes'
      refine ⟨list', map', holds', ordered' preorder ordered, ?_⟩
      rw [Multiset.coe_eq_coe.mpr same, ← Multiset.cons_coe,
        Multiset.erase_cons_head]
  | clear _ clears ih =>
      obtain ⟨list, map, holds, -, -⟩ := ih
      obtain ⟨heap', clears', holds'⟩ := ntBinaryHeapClear_spec holds
      cases clears.symm.trans clears'
      exact ⟨[], _, holds', emptyOrdered, rfl⟩

theorem BinaryHeapRun.correct (preorder : TotalPreorder (Precedes compareFunc))
    (notDirect : options &&& ntBinaryHeapOptionDirect = 0)
    (run : BinaryHeapRun compareFunc options ntDefaultUint64HashFunc heap contents) :
    HeapCorrect compareFunc heap contents := by
  obtain ⟨list, map, holds, ordered, rfl⟩ := run.holds preorder notDirect
  have plain := holds.not_direct notDirect
  constructor
  case ordered =>
    intro parent child isChild inHeap
    rw [holds.num] at inHeap
    have isAbove := List.getElem?_eq_getElem (isChild.lt.trans inHeap)
    have isBelow := List.getElem?_eq_getElem inHeap
    exact ⟨_, _, holds.read isAbove, holds.read isBelow,
      ordered parent child isChild _ _ isAbove isBelow⟩
  case num_le_alloc => exact holds.num_le_alloc
  case stored => exact ⟨list, holds.reads, rfl⟩
  case findMin =>
    intro nonempty
    rw [holds.num] at nonempty
    have someElem : 0 < list.length := Nat.pos_of_ne_zero nonempty
    refine ⟨list[0], ntBinaryHeapFindMin_spec holds someElem, ?_, ?_⟩
    · exact List.getElem_mem someElem
    · intro elem isElem
      exact ordered.root_precedes preorder someElem (Multiset.mem_coe.mp isElem)
  case inserts =>
    intro elem
    obtain ⟨heap', -, -, inserts, -⟩ := ntBinaryHeapInsert_spec holds plain elem
    exact ⟨heap', inserts⟩
  case removes =>
    intro nonempty
    rw [holds.num] at nonempty
    obtain ⟨heap', -, -, removes, -⟩ := ntBinaryHeapRemoveMin_spec holds
      (fun direct => absurd direct (by simp [plain])) (Nat.pos_of_ne_zero nonempty)
    exact ⟨heap', removes⟩
  case clears =>
    obtain ⟨heap', clears, -⟩ := ntBinaryHeapClear_spec holds
    exact ⟨heap', clears⟩

end Runs

end NtShm
