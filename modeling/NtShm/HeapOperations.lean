import NtShm.HeapSifts

/-!
# What the heap operations do

Each operation on a heap with known elements and a known index ends as said
here, with the elements and index it should have then.  Where the comparison is
an order, heap order is kept.
-/

namespace NtShm

variable {compareFunc : NtBinaryHeapElem → NtBinaryHeapElem → Int}
  {options : Nat} {heap : NtBinaryHeap} {list : List NtBinaryHeapElem}
  {map : UInt64 → Option UInt64}

theorem ntBinaryHeapCreateExt_spec
    (compareFunc : NtBinaryHeapElem → NtBinaryHeapElem → Int) (options : Nat)
    (ntDefaultUint64HashFunc : UInt64 → UInt32) :
    ∃ heap, ntBinaryHeapCreateExt compareFunc options ntDefaultUint64HashFunc =
        .ok heap ∧
      HeapHolds compareFunc options heap [] fun _ => none := by
  rw [ntBinaryHeapCreateExt]
  split
  · obtain ⟨hm, creates, represents, -⟩ :=
      ntHashmapCreateExt_represents ntDefaultUint64HashFunc 512
    rw [creates, orFault_some, ok_bind]
    exact ⟨_, rfl, rfl, rfl, rfl, Or.inl ⟨rfl, rfl, rfl⟩,
      fun _ => ⟨hm, rfl, represents⟩⟩
  · next notDirect =>
      refine ⟨_, rfl, rfl, rfl, rfl, Or.inl ⟨rfl, rfl, rfl⟩, fun direct => ?_⟩
      exact absurd direct (by simpa [NtBinaryHeap.hasDirectOption] using notDirect)

theorem ntBinaryHeapFindMin_spec
    (holds : HeapHolds compareFunc options heap list map)
    (nonempty : 0 < list.length) : ntBinaryHeapFindMin heap = .ok list[0] := by
  rw [ntBinaryHeapFindMin, if_neg (by rw [holds.num]; omega)]
  exact holds.read (List.getElem?_eq_getElem nonempty)

theorem ntBinaryHeapClear_spec (holds : HeapHolds compareFunc options heap list map) :
    ∃ heap', ntBinaryHeapClear heap = .ok heap' ∧
      HeapHolds compareFunc options heap' [] fun _ => none := by
  have emptied : ∃ emptied : NtBinaryHeap,
      (if heap.elems.isSome then
        { heap with elems := none, elemsNum := 0, elemsAlloc := 0 }
      else heap) = emptied ∧ emptied.hasDirectOption = heap.hasDirectOption ∧
      HeapHolds compareFunc options emptied [] map := by
    rcases holds.elems with ⟨isNull, noRoom, rfl⟩ | ⟨block, isBlock, -⟩
    · exact ⟨heap, by simp [isNull], rfl, holds⟩
    · refine ⟨{ heap with elems := none, elemsNum := 0, elemsAlloc := 0 }, ?_, rfl,
        holds.compare, holds.options, rfl, Or.inl ⟨rfl, rfl, rfl⟩, holds.index⟩
      rw [isBlock, Option.isSome_some, if_pos rfl]
  obtain ⟨emptied, isEmptied, sameOption, holds'⟩ := emptied
  simp only [ntBinaryHeapClear, isEmptied]
  by_cases direct : emptied.hasDirectOption = true
  · obtain ⟨hm, isIndex, represents⟩ := holds'.index direct
    obtain ⟨hm', clears, represents', -⟩ := ntHashmapClear_represents represents
    rw [if_pos direct, isIndex, Option.bind_some, clears, orFault_some, ok_bind]
    exact ⟨_, rfl, holds'.compare, holds'.options, holds'.num, holds'.elems,
      fun _ => ⟨hm', rfl, represents'⟩⟩
  · rw [if_neg direct]
    exact ⟨emptied, rfl, holds'.forget (by simpa using direct) _⟩

/-! ## Insertion -/

theorem ensureFreeSpace_spec (holds : HeapHolds compareFunc options heap list map) :
    HeapHolds compareFunc options heap.ensureFreeSpace list map ∧
      ∃ block, heap.ensureFreeSpace.elems = some block ∧
        list.length < block.length := by
  obtain ⟨isNull, noRoom, rfl⟩ | ⟨block, isBlock, starts, size, someRoom⟩ :=
    holds.elems
  · have ensured : heap.ensureFreeSpace =
        { heap with
          elems := some (Block.grow [] 32), elemsNum := 0, elemsAlloc := 32 } := by
      simp [NtBinaryHeap.ensureFreeSpace, isNull]
    have grown : (Block.grow ([] : Block NtBinaryHeapElem) 32).length = 32 :=
      Block.length_grow (Nat.zero_le _)
    rw [ensured]
    refine ⟨⟨holds.compare, holds.options, rfl, Or.inr ⟨_, rfl, ?_, grown, ?_⟩,
      holds.index⟩, _, rfl, ?_⟩
    · exact Block.startsWith_nil _
    · simp
    · rw [grown]
      simp
  · have fits := starts.length_le
    have notNull : heap.elems.isNone = false := by rw [isBlock]; rfl
    have ensured : ∃ alloc, list.length < alloc ∧ block.length ≤ alloc ∧
        heap.ensureFreeSpace =
          { heap with
            elems := some (block.grow alloc), elemsAlloc := alloc } := by
      unfold NtBinaryHeap.ensureFreeSpace
      rw [notNull, isBlock]
      by_cases full : heap.elemsNum = heap.elemsAlloc
      · refine ⟨max (heap.elemsAlloc + 1) (heap.elemsAlloc * 3 / 2), ?_, ?_, ?_⟩
        · rw [← holds.num, full]
          exact lt_max_of_lt_left (Nat.lt_succ_self _)
        · rw [size]
          exact le_max_of_le_left (Nat.le_succ _)
        · simp only [Bool.false_eq_true, if_false, if_pos full, Option.getD_some]
          rw [if_pos (by omega)]
      · refine ⟨heap.elemsAlloc, ?_, size.le, ?_⟩
        · have num := holds.num
          omega
        · simp only [Bool.false_eq_true, if_false, if_neg full, Option.getD_some]
          rw [if_pos full]
    obtain ⟨alloc, room, more, ensured⟩ := ensured
    have grown := Block.length_grow more
    rw [ensured]
    refine ⟨⟨holds.compare, holds.options, holds.num, Or.inr ⟨_, rfl, ?_, grown, ?_⟩,
      holds.index⟩, _, rfl, ?_⟩
    · exact starts.grow more
    · exact (Nat.zero_le _).trans_lt room
    · rw [grown]
      exact room

theorem HeapHolds.push (holds : HeapHolds compareFunc options heap list map)
    {block : Block NtBinaryHeapElem} (isBlock : heap.elems = some block)
    (room : list.length < block.length) (elem : NtBinaryHeapElem) :
    ∃ heap', NtBinaryHeap.write { heap with elemsNum := heap.elemsNum + 1 }
        heap.elemsNum elem = .ok heap' ∧
      HeapHolds compareFunc options heap' (list ++ [elem]) map := by
  rcases holds.elems with ⟨isNull, -⟩ | ⟨block', isBlock', starts, size, someRoom⟩
  · rw [isNull] at isBlock
    cases isBlock
  · cases isBlock.symm.trans isBlock'
    rw [holds.num]
    obtain ⟨written, isWritten⟩ := Block.write_of_lt elem room
    refine ⟨{ heap with elems := some written, elemsNum := list.length + 1 }, ?_, ?_⟩
    · rw [NtBinaryHeap.write]
      simp only [isBlock, Option.bind_some, isWritten]
      rfl
    · refine ⟨holds.compare, holds.options, ?_, Or.inr ⟨written, rfl, ?_, ?_, someRoom⟩,
        holds.index⟩
      · simp
      · exact starts.push isWritten
      · exact (Block.length_of_written isWritten).trans size

theorem ntBinaryHeapInsert_spec
    (holds : HeapHolds compareFunc options heap list map)
    (notDirect : heap.hasDirectOption = false) (elem : NtBinaryHeapElem) :
    ∃ heap' list' map', ntBinaryHeapInsert heap elem = .ok heap' ∧
      HeapHolds compareFunc options heap' list' map' ∧
      list'.Perm (elem :: list) ∧
      (TotalPreorder (Precedes compareFunc) →
        HeapOrdered (Precedes compareFunc) list →
        HeapOrdered (Precedes compareFunc) list') := by
  obtain ⟨holds₁, block, isBlock, room⟩ := ensureFreeSpace_spec holds
  obtain ⟨heap₂, writes, holds₂⟩ := holds₁.push isBlock room elem
  have within : list.length < (list ++ [elem]).length := by simp
  obtain ⟨heap', index', list', map', bubbles, sifted, -, ordered⟩ :=
    bubbleUp_spec holds₂ within
  refine ⟨heap', list', map', ?_, sifted.holds, ?_, ?_⟩
  · have notDirect' := (sifted.holds.sameDirect holds).trans notDirect
    rw [holds₁.num] at writes
    simp only [ntBinaryHeapInsert, notDirect, Bool.false_eq_true, if_false,
      holds₁.num, writes, ok_bind, bubbles, notDirect', false_and]
    rfl
  · exact sifted.same.trans (List.perm_append_singleton elem list)
  · intro preorder inOrder
    exact ordered preorder (inOrder.append elem)

/-! ## Replacing an element -/

theorem bubbleBoth_spec {index : Nat}
    (holds : HeapHolds compareFunc options heap list map)
    (within : index < list.length) :
    ∃ heap₁ up, heap.bubbleUp index = .ok (heap₁, up) ∧
      ((up ≠ index ∧ ∃ list₁ map₁,
          Sifted compareFunc options list map index heap₁ list₁ map₁ up ∧
          (TotalPreorder (Precedes compareFunc) →
            OrderedAround (Precedes compareFunc) list index →
            HeapOrdered (Precedes compareFunc) list₁)) ∨
        (up = index ∧ ∃ heap' down list' map',
          heap₁.bubbleDown index = .ok (heap', down) ∧
          Sifted compareFunc options list map index heap' list' map' down ∧
          (TotalPreorder (Precedes compareFunc) →
            OrderedAround (Precedes compareFunc) list index →
            HeapOrdered (Precedes compareFunc) list'))) := by
  obtain ⟨heap₁, up, list₁, map₁, bubblesUp, sifted, stays, ordered⟩ :=
    bubbleUp_spec holds within
  refine ⟨heap₁, up, bubblesUp, ?_⟩
  by_cases stayed : up = index
  · obtain ⟨rfl, rfl⟩ := sifted.stays stayed
    obtain ⟨heap', down, list', map', bubblesDown, sifted', ordered'⟩ :=
      bubbleDown_spec sifted.holds within
    exact Or.inr ⟨stayed, heap', down, list', map', bubblesDown, sifted',
      fun preorder around => ordered' preorder ⟨around, stays.mp stayed⟩⟩
  · refine Or.inl ⟨stayed, list₁, map₁, sifted, fun preorder around => ?_⟩
    exact ordered preorder (upHole_of_not_settled preorder around within
      fun settled => stayed (stays.mpr settled))

theorem indexOfValue_ofNat {index : Nat} (small : index < 2 ^ 31) :
    indexOfValue (UInt64.ofNat index) = index := by
  have asNat : (UInt64.ofNat index).toNat = index :=
    UInt64.toNat_ofNat_of_lt' (by
      have : UInt64.size = 2 ^ 64 := rfl
      omega)
  rw [indexOfValue, asNat, Nat.mod_eq_of_lt (by omega), asInt, if_pos small]

theorem natIndex_natCast (index : Nat) : natIndex index = .ok index := by
  simp [natIndex]

theorem ntBinaryHeapUpdateDirect_spec
    (holds : HeapHolds compareFunc options heap list map)
    (direct : heap.hasDirectOption = true) (indexed : Indexed list map)
    (small : list.length ≤ 2 ^ 31) {index : Nat} {stored elem : NtBinaryHeapElem}
    (isStored : list[index]? = some stored) (sameKey : elem.key = stored.key) :
    ∃ heap' list' map', ntBinaryHeapUpdateDirect heap elem = .ok heap' ∧
      HeapHolds compareFunc options heap' list' map' ∧ Indexed list' map' ∧
      list'.Perm (list.set index elem) ∧
      (TotalPreorder (Precedes compareFunc) →
        HeapOrdered (Precedes compareFunc) list →
        HeapOrdered (Precedes compareFunc) list') := by
  have within := (List.getElem?_eq_some_iff.mp isStored).1
  have known : heap.getIndex elem.key = .ok (UInt64.ofNat index) := by
    rw [holds.getIndex direct, sameKey, indexed.placed index stored isStored,
      Option.getD_some]
  have asIndex : indexOfValue (UInt64.ofNat index) = index :=
    indexOfValue_ofNat (within.trans_le small)
  have found : fail ≠ (index : Int) := by
    unfold fail
    omega
  obtain ⟨heap₁, writes, holds₁⟩ := holds.write within elem
  have indexed₁ := indexed.set isStored sameKey
  have within₁ : index < (list.set index elem).length := by simpa
  obtain ⟨heap₂, up, bubblesUp, both⟩ := bubbleBoth_spec holds₁ within₁
  have reaches : ntBinaryHeapUpdateDirect heap elem =
      if index = up then do
        let sunk ← heap₂.bubbleDown index
        pure sunk.1
      else pure heap₂ := by
    simp only [ntBinaryHeapUpdateDirect, direct, Bool.not_true, Bool.false_eq_true,
      if_false, known, ok_bind, asIndex, if_pos found, natIndex_natCast, writes,
      bubblesUp]
  rw [reaches]
  cases both with
  | inl moved =>
      obtain ⟨elsewhere, list', map', sifted, ordered⟩ := moved
      rw [if_neg (Ne.symm elsewhere)]
      exact ⟨heap₂, list', map', rfl, sifted.holds,
        sifted.moves elsewhere (indexed₁.but index), sifted.same,
        fun preorder inOrder => ordered preorder (inOrder.set preorder elem)⟩
  | inr stayed =>
      obtain ⟨here, heap', down, list', map', bubblesDown, sifted, ordered⟩ := stayed
      rw [if_pos here.symm, bubblesDown, ok_bind]
      refine ⟨heap', list', map', rfl, sifted.holds, ?_, sifted.same,
        fun preorder inOrder => ordered preorder (inOrder.set preorder elem)⟩
      by_cases remained : down = index
      · obtain ⟨rfl, rfl⟩ := sifted.stays remained
        exact indexed₁
      · exact sifted.moves remained (indexed₁.but index)

/-! ## Removal -/

theorem HeapHolds.moveLast (holds : HeapHolds compareFunc options heap list map)
    {index : Nat} (within : index < list.length - 1) :
    ∃ last heap',
      NtBinaryHeap.read { heap with elemsNum := heap.elemsNum - 1 }
        (heap.elemsNum - 1) = .ok last ∧
      NtBinaryHeap.write { heap with elemsNum := heap.elemsNum - 1 } index last =
        .ok heap' ∧
      HeapHolds compareFunc options heap' (fillHole list index) map := by
  rcases list.eq_nil_or_concat' with rfl | ⟨front, last, rfl⟩
  · simp at within
  · rw [List.length_append, List.length_singleton, Nat.add_sub_cancel] at within
    have isLast : (front ++ [last])[front.length]? = some last := by simp
    have fewer : front.length ≤ (front ++ [last]).length := by simp
    have shrunk := holds.shrink fewer
    rw [List.take_left] at shrunk
    have num : heap.elemsNum - 1 = front.length := by
      rw [holds.num, List.length_append, List.length_singleton,
        Nat.add_sub_cancel]
    obtain ⟨heap', writes, holds'⟩ := shrunk.write within last
    rw [num, fillHole_concat]
    exact ⟨last, heap', holds.read isLast, writes, holds'⟩

theorem HeapOrdered.fillHole {α : Type*} {le : α → α → Prop} {list : List α}
    (preorder : TotalPreorder le) (ordered : HeapOrdered le list) (index : Nat) :
    OrderedAround le (fillHole list index) index := by
  rcases list.eq_nil_or_concat' with rfl | ⟨front, last, rfl⟩
  · constructor <;> intros <;> intro element other isElement <;>
      simp [NtShm.fillHole] at isElement
  · have inFront := ordered.take front.length
    rw [List.take_left] at inFront
    rw [fillHole_concat]
    exact inFront.set preorder last

theorem Sifted.repair {index down : Nat} {heap' : NtBinaryHeap}
    {list' : List NtBinaryHeapElem} {map' : UInt64 → Option UInt64}
    (sifted : Sifted compareFunc options list map index heap' list' map' down)
    (direct : heap'.hasDirectOption = true) (within : index < list.length)
    (indexed : IndexedBut list map index) (stayed : down = index) :
    ∃ heap'' map'',
      (do
        let moved ← heap'.read index
        heap'.setIndex moved.key index) = .ok heap'' ∧
      HeapHolds compareFunc options heap'' list' map'' ∧ Indexed list' map'' := by
  obtain ⟨rfl, rfl⟩ := sifted.stays stayed
  have isElem := List.getElem?_eq_getElem within
  obtain ⟨heap'', sets, holds''⟩ :=
    sifted.holds.setIndex direct list'[index].key index
  refine ⟨heap'', _, ?_, holds'', indexed.complete isElem⟩
  rw [sifted.holds.read isElem, ok_bind, sets]

theorem ntBinaryHeapRemoveMin_spec
    (holds : HeapHolds compareFunc options heap list map)
    (indexed : heap.hasDirectOption = true → Indexed list map)
    (nonempty : 0 < list.length) :
    ∃ heap' list' map', ntBinaryHeapRemoveMin heap = .ok heap' ∧
      HeapHolds compareFunc options heap' list' map' ∧
      (heap.hasDirectOption = true → Indexed list' map') ∧
      list.Perm (list[0] :: list') ∧
      (TotalPreorder (Precedes compareFunc) →
        HeapOrdered (Precedes compareFunc) list →
        HeapOrdered (Precedes compareFunc) list') := by
  have isRoot := List.getElem?_eq_getElem nonempty
  have unindexes : ∃ heap₁,
      (heap.hasDirectOption = true →
        heap.removeIndex list[0].key = .ok heap₁) ∧
      (heap.hasDirectOption ≠ true → heap = heap₁) ∧
      HeapHolds compareFunc options heap₁ list
        (Function.update map list[0].key none) := by
    by_cases direct : heap.hasDirectOption = true
    · obtain ⟨heap₁, removes, holds₁⟩ := holds.removeIndex direct list[0].key
      exact ⟨heap₁, fun _ => removes, absurd direct, holds₁⟩
    · exact ⟨heap, fun isDirect => absurd isDirect direct, fun _ => rfl,
        holds.forget (by simpa using direct) _⟩
  obtain ⟨heap₁, unindexes, unchanged, holds₁⟩ := unindexes
  have indexed₁ := fun direct => (indexed direct).fillHole isRoot
  have reaches : ntBinaryHeapRemoveMin heap =
      if heap₁.elemsNum - 1 ≠ 0 then do
        let heap := { heap₁ with elemsNum := heap₁.elemsNum - 1 }
        let last ← heap.read heap.elemsNum
        let heap ← heap.write 0 last
        let sunk ← heap.bubbleDown 0
        if sunk.1.hasDirectOption ∧ sunk.2 = 0 then
          let root ← sunk.1.read sunk.2
          sunk.1.setIndex root.key sunk.2
        else pure sunk.1
      else pure { heap₁ with elemsNum := heap₁.elemsNum - 1 } := by
    have notEmpty : heap.elemsNum ≠ 0 := by
      rw [holds.num]
      omega
    rw [ntBinaryHeapRemoveMin, if_neg notEmpty]
    by_cases direct : heap.hasDirectOption = true
    · simp only [if_pos direct, holds.read isRoot, ok_bind, unindexes direct]
    · obtain rfl := unchanged direct
      simp only [if_neg direct, pure_bind]
  rw [reaches]
  by_cases single : list.length = 1
  · obtain ⟨root, rfl⟩ := List.length_eq_one_iff.mp single
    rw [if_neg (by rw [holds₁.num]; simp), holds₁.num]
    refine ⟨_, [], _, rfl, holds₁.shrink (Nat.zero_le _), ?_, List.Perm.refl _, ?_⟩
    · exact fun direct => (indexed₁ direct).of_outside (le_refl 0)
    · intro _ _ parent child _
      exact InOrder.of_length_le_right (Nat.zero_le _)
  · have within : 0 < list.length - 1 := by omega
    obtain ⟨last, heap₂, reads, writes, holds₂⟩ := holds₁.moveLast within
    have within₂ : 0 < (fillHole list 0).length := by rwa [length_fillHole]
    obtain ⟨heap₃, down, list', map', bubbles, sifted, ordered⟩ :=
      bubbleDown_spec holds₂ within₂
    have sameOption := sifted.holds.sameDirect holds
    have inOrder : TotalPreorder (Precedes compareFunc) →
        HeapOrdered (Precedes compareFunc) list →
        HeapOrdered (Precedes compareFunc) list' := fun preorder before =>
      ordered preorder ⟨before.fillHole preorder 0, settledBelow_root _⟩
    have same : list.Perm (list[0] :: list') :=
      (perm_fillHole nonempty).trans (sifted.same.symm.cons _)
    rw [if_pos (by rw [holds₁.num]; omega)]
    simp only [reads, writes, ok_bind, bubbles]
    by_cases repairs : heap₃.hasDirectOption = true ∧ down = 0
    · obtain ⟨direct, atRoot⟩ := repairs
      obtain ⟨heap', map'', sets, holds', indexed'⟩ := sifted.repair direct within₂
        (indexed₁ (sameOption ▸ direct)) atRoot
      rw [if_pos ⟨direct, atRoot⟩, atRoot]
      exact ⟨heap', list', map'', sets, holds', fun _ => indexed', same, inOrder⟩
    · rw [if_neg repairs]
      refine ⟨heap₃, list', map', rfl, sifted.holds, fun direct => ?_, same, inOrder⟩
      exact sifted.moves (fun atRoot => repairs ⟨sameOption.trans direct, atRoot⟩)
        (indexed₁ direct)

theorem ntBinaryHeapRemoveDirect_spec
    (holds : HeapHolds compareFunc options heap list map)
    (direct : heap.hasDirectOption = true) (indexed : Indexed list map)
    (small : list.length ≤ 2 ^ 31) {index : Nat} {stored : NtBinaryHeapElem}
    (isStored : list[index]? = some stored) :
    ∃ heap' list' map', ntBinaryHeapRemoveDirect heap stored.key = .ok heap' ∧
      HeapHolds compareFunc options heap' list' map' ∧ Indexed list' map' ∧
      list.Perm (stored :: list') ∧
      (TotalPreorder (Precedes compareFunc) →
        HeapOrdered (Precedes compareFunc) list →
        HeapOrdered (Precedes compareFunc) list') := by
  obtain ⟨within, isStored'⟩ := List.getElem?_eq_some_iff.mp isStored
  have known : heap.getIndex stored.key = .ok (UInt64.ofNat index) := by
    rw [holds.getIndex direct, indexed.placed index stored isStored,
      Option.getD_some]
  have asIndex : indexOfValue (UInt64.ofNat index) = index :=
    indexOfValue_ofNat (within.trans_le small)
  have found : fail ≠ (index : Int) := by
    unfold fail
    omega
  obtain ⟨heap₁, removes, holds₁⟩ := holds.removeIndex direct stored.key
  have indexed₁ := indexed.fillHole isStored
  have same := perm_fillHole within
  rw [isStored'] at same
  have notEmpty : heap₁.elemsNum ≠ 0 := by
    rw [holds₁.num]
    omega
  have reaches : ntBinaryHeapRemoveDirect heap stored.key =
      if (index : Int) ≠ (heap₁.elemsNum - 1 : Nat) then do
        let heap := { heap₁ with elemsNum := heap₁.elemsNum - 1 }
        let last ← heap.read heap.elemsNum
        let heap ← heap.write index last
        let risen ← heap.bubbleUp index
        if index = risen.2 then
          let sunk ← risen.1.bubbleDown index
          if index = sunk.2 then
            let moved ← sunk.1.read index
            sunk.1.setIndex moved.key index
          else pure sunk.1
        else pure risen.1
      else pure { heap₁ with elemsNum := heap₁.elemsNum - 1 } := by
    simp only [ntBinaryHeapRemoveDirect, direct, Bool.not_true, Bool.false_eq_true,
      if_false, known, ok_bind, asIndex, if_pos found, natIndex_natCast, removes,
      if_neg notEmpty]
  rw [reaches, holds₁.num]
  by_cases isLast : index = list.length - 1
  · have fewer : list.length - 1 ≤ list.length := by omega
    have front : list.take (list.length - 1) = fillHole list index := by
      have whole := take_fillHole within
      rw [isLast, List.take_of_length_le (length_fillHole list _).le] at whole
      rw [isLast, ← whole]
    have shrunk := holds₁.shrink fewer
    rw [front] at shrunk
    rw [if_neg (by simp [isLast])]
    refine ⟨_, _, _, rfl, shrunk, indexed₁.of_outside ?_, same, ?_⟩
    · rw [length_fillHole, isLast]
    · intro _ before
      rw [← front]
      exact before.take _
  · have before : index < list.length - 1 := by omega
    obtain ⟨last, heap₂, reads, writes, holds₂⟩ := holds₁.moveLast before
    rw [holds₁.num] at reads writes
    have within₂ : index < (fillHole list index).length := by rwa [length_fillHole]
    obtain ⟨heap₃, up, bubblesUp, both⟩ := bubbleBoth_spec holds₂ within₂
    rw [if_pos (by omega)]
    simp only [reads, writes, ok_bind, bubblesUp]
    cases both with
    | inl moved =>
        obtain ⟨elsewhere, list', map', sifted, ordered⟩ := moved
        rw [if_neg (Ne.symm elsewhere)]
        exact ⟨heap₃, list', map', rfl, sifted.holds,
          sifted.moves elsewhere indexed₁, same.trans (sifted.same.symm.cons _),
          fun preorder before => ordered preorder (before.fillHole preorder index)⟩
    | inr stayed =>
        obtain ⟨here, heap₄, down, list', map', bubblesDown, sifted, ordered⟩ := stayed
        have same' := same.trans (sifted.same.symm.cons _)
        have inOrder : TotalPreorder (Precedes compareFunc) →
            HeapOrdered (Precedes compareFunc) list →
            HeapOrdered (Precedes compareFunc) list' := fun preorder before =>
          ordered preorder (before.fillHole preorder index)
        rw [if_pos here.symm]
        simp only [bubblesDown, ok_bind]
        by_cases remained : index = down
        · obtain ⟨heap', map'', sets, holds', indexed'⟩ := sifted.repair
            ((sifted.holds.sameDirect holds).trans direct) within₂ indexed₁
            remained.symm
          rw [if_pos remained]
          exact ⟨heap', list', map'', sets, holds', indexed', same', inOrder⟩
        · rw [if_neg remained]
          exact ⟨heap₄, list', map', rfl, sifted.holds,
            sifted.moves (Ne.symm remained) indexed₁, same', inOrder⟩

end NtShm
