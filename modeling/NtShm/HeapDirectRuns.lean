import NtShm.HeapDirect

/-!
# Runs of a heap with the direct option

Updates of stored keys, removals of stored keys and removals of the minimum
take valid states to valid states, and change the elements by just that.
-/

namespace NtShm

def DirectState (compareFunc : NtBinaryHeapElem → NtBinaryHeapElem → Int)
    (heap : NtBinaryHeap) (contents : Multiset NtBinaryHeapElem) : Prop :=
  ∃ list, DirectValid compareFunc heap list ∧ ↑list = contents

section Steps

variable {compareFunc : NtBinaryHeapElem → NtBinaryHeapElem → Int}
  {heap : NtBinaryHeap} {contents : Multiset NtBinaryHeapElem}

theorem DirectState.update (preorder : TotalPreorder (Precedes compareFunc))
    (state : DirectState compareFunc heap contents) {stored : NtBinaryHeapElem}
    (isStored : stored ∈ contents) {elem : NtBinaryHeapElem}
    (sameKey : elem.key = stored.key) :
    ∃ heap', ntBinaryHeapUpdateDirect heap elem = .ok heap' ∧
      DirectState compareFunc heap' (elem ::ₘ contents.erase stored) := by
  obtain ⟨list, valid, rfl⟩ := state
  obtain ⟨map, holds, indexed⟩ := valid.indexed
  obtain ⟨index, inRange, rfl⟩ := List.getElem_of_mem (Multiset.mem_coe.mp isStored)
  have atIndex := List.getElem?_eq_getElem inRange
  obtain ⟨heap', list', map', updates, holds', indexed', same, ordered⟩ :=
    ntBinaryHeapUpdateDirect_spec holds valid.direct indexed valid.small.le atIndex
      sameKey
  refine ⟨heap', updates, list', ?_, ?_⟩
  · apply DirectValid.of_holds holds' ((holds'.sameDirect holds).trans valid.direct)
      _ indexed' (ordered preorder valid.ordered)
    rw [same.length_eq, List.length_set]
    exact valid.small
  · have replaced := List.getD_set_perm_cons list index elem
    rw [atIndex, Option.getD_some] at replaced
    have whole := Multiset.coe_eq_coe.mpr ((same.cons _).trans replaced)
    rw [← Multiset.cons_coe, ← Multiset.cons_coe, ← Multiset.cons_erase isStored,
      Multiset.cons_swap] at whole
    exact (Multiset.cons_inj_right _).mp whole

theorem DirectState.removeDirect (preorder : TotalPreorder (Precedes compareFunc))
    (state : DirectState compareFunc heap contents) {stored : NtBinaryHeapElem}
    (isStored : stored ∈ contents) :
    ∃ heap', ntBinaryHeapRemoveDirect heap stored.key = .ok heap' ∧
      DirectState compareFunc heap' (contents.erase stored) := by
  obtain ⟨list, valid, rfl⟩ := state
  obtain ⟨map, holds, indexed⟩ := valid.indexed
  obtain ⟨index, inRange, rfl⟩ := List.getElem_of_mem (Multiset.mem_coe.mp isStored)
  obtain ⟨heap', list', map', removes, holds', indexed', same, ordered⟩ :=
    ntBinaryHeapRemoveDirect_spec holds valid.direct indexed valid.small.le
      (List.getElem?_eq_getElem inRange)
  refine ⟨heap', removes, list', ?_, ?_⟩
  · apply DirectValid.of_holds holds' ((holds'.sameDirect holds).trans valid.direct)
      _ indexed' (ordered preorder valid.ordered)
    have fewer := same.length_eq
    have small := valid.small
    rw [List.length_cons] at fewer
    omega
  · rw [Multiset.coe_eq_coe.mpr same, ← Multiset.cons_coe,
      Multiset.erase_cons_head]

theorem DirectState.removeMin (preorder : TotalPreorder (Precedes compareFunc))
    (state : DirectState compareFunc heap contents) (nonempty : contents ≠ 0) :
    ∃ least heap', ntBinaryHeapFindMin heap = .ok least ∧ least ∈ contents ∧
      (∀ elem ∈ contents, compareFunc least elem ≤ 0) ∧
      ntBinaryHeapRemoveMin heap = .ok heap' ∧
      DirectState compareFunc heap' (contents.erase least) := by
  obtain ⟨list, valid, rfl⟩ := state
  obtain ⟨map, holds, indexed⟩ := valid.indexed
  have someElem : 0 < list.length := by
    rw [List.length_pos_iff]
    exact fun empty => nonempty ((Multiset.coe_eq_zero list).mpr empty)
  obtain ⟨heap', list', map', removes, holds', indexed', same, ordered⟩ :=
    ntBinaryHeapRemoveMin_spec holds (fun _ => indexed) someElem
  refine ⟨list[0], heap', ntBinaryHeapFindMin_spec holds someElem,
    List.getElem_mem someElem, ?_, removes, list', ?_, ?_⟩
  · intro elem isElem
    exact valid.ordered.root_precedes preorder someElem (Multiset.mem_coe.mp isElem)
  · apply DirectValid.of_holds holds' ((holds'.sameDirect holds).trans valid.direct)
      _ (indexed' valid.direct) (ordered preorder valid.ordered)
    have fewer := same.length_eq
    have small := valid.small
    rw [List.length_cons] at fewer
    omega
  · rw [Multiset.coe_eq_coe.mpr same, ← Multiset.cons_coe,
      Multiset.erase_cons_head]

end Steps

end NtShm
