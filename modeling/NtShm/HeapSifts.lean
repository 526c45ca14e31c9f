import NtShm.HeapContents

/-!
# The sifts

Bubbling up and bubbling down keep the elements of a heap, and the first swap of
either repairs the index at the hole where it began.  Where the comparison is an
order they restore the heap order around the hole.
-/

namespace NtShm

variable {compareFunc : NtBinaryHeapElem → NtBinaryHeapElem → Int}
  {options : Nat} {heap heap' : NtBinaryHeap} {list list' : List NtBinaryHeapElem}
  {map map' : UInt64 → Option UInt64}

/-- What a sift from a hole leaves: the same elements.  If it moved the element
of the hole then the index is complete, and otherwise all is as it was. -/
structure Sifted
    (compareFunc : NtBinaryHeapElem → NtBinaryHeapElem → Int) (options : Nat)
    (list : List NtBinaryHeapElem) (map : UInt64 → Option UInt64) (hole : Nat)
    (heap' : NtBinaryHeap) (list' : List NtBinaryHeapElem)
    (map' : UInt64 → Option UInt64) (hole' : Nat) : Prop where
  holds : HeapHolds compareFunc options heap' list' map'
  same : list'.Perm list
  stays : hole' = hole → list' = list ∧ map' = map
  moves : hole' ≠ hole → IndexedBut list map hole → Indexed list' map'

theorem Sifted.here (holds : HeapHolds compareFunc options heap list map)
    (hole : Nat) : Sifted compareFunc options list map hole heap list map hole :=
  ⟨holds, List.Perm.refl list, fun _ => ⟨rfl, rfl⟩, fun moved => absurd rfl moved⟩

theorem Sifted.after_swap {hole next first second hole' : Nat}
    {map₁ : UInt64 → Option UInt64}
    (repairs : IndexedBut list map hole → Indexed (list.swap first second) map₁)
    (rest : Sifted compareFunc options (list.swap first second) map₁ next heap'
      list' map' hole')
    (moved : hole' ≠ hole) :
    Sifted compareFunc options list map hole heap' list' map' hole' where
  holds := rest.holds
  same := rest.same.trans (List.swap_perm list first second)
  stays here := absurd here moved
  moves := by
    intro _ indexed
    have complete := repairs indexed
    by_cases stopped : hole' = next
    · obtain ⟨rfl, rfl⟩ := rest.stays stopped
      exact complete
    · exact rest.moves stopped (complete.but next)

/-! ## Bubbling up -/

def SettledBelow (compareFunc : NtBinaryHeapElem → NtBinaryHeapElem → Int)
    (list : List NtBinaryHeapElem) (index : Nat) : Prop :=
  ∀ parent, IsChild index parent → InOrder (Precedes compareFunc) list parent index

theorem settledBelow_root (list : List NtBinaryHeapElem) :
    SettledBelow compareFunc list 0 :=
  fun _ isChild => absurd isChild.lt (Nat.not_lt_zero _)

theorem bubbleUpLoop_spec (fuel : Nat) :
    ∀ {heap list map} {index : Nat},
      HeapHolds compareFunc options heap list map → index < list.length →
      index ≤ fuel →
      ∃ heap' index' list' map',
        NtBinaryHeap.bubbleUpLoop fuel heap index = .ok (heap', index') ∧
        index' ≤ index ∧
        Sifted compareFunc options list map index heap' list' map' index' ∧
        (index' = index ↔ SettledBelow compareFunc list index) ∧
        (TotalPreorder (Precedes compareFunc) →
          UpHole (Precedes compareFunc) list index →
          HeapOrdered (Precedes compareFunc) list') := by
  induction fuel with
  | zero =>
      intro heap list map index holds within enough
      have atRoot : index = 0 := by omega
      subst atRoot
      have settled : SettledBelow compareFunc list 0 := settledBelow_root list
      exact ⟨heap, 0, list, map, rfl, le_refl 0, Sifted.here holds 0,
        iff_of_true rfl settled, fun _ up => up.finish settled⟩
  | succ fuel ih =>
      intro heap list map index holds within enough
      rw [NtBinaryHeap.bubbleUpLoop]
      by_cases atRoot : index = 0
      · subst atRoot
        have settled : SettledBelow compareFunc list 0 := settledBelow_root list
        rw [if_neg (by simp)]
        exact ⟨heap, 0, list, map, rfl, le_refl 0, Sifted.here holds 0,
          iff_of_true rfl settled, fun _ up => up.finish settled⟩
      · have isChild := isChild_parent atRoot
        have parentIn := isChild.lt.trans within
        have isParent := List.getElem?_eq_getElem parentIn
        have isElem := List.getElem?_eq_getElem within
        rw [if_pos atRoot]
        simp only [holds.read isParent, holds.read isElem, ok_bind, holds.compare]
        have asOrder : InOrder (Precedes compareFunc) list _ index ↔ _ :=
          InOrder.iff_of_getElem isParent isElem
        split
        · next inOrder =>
            have settled : SettledBelow compareFunc list index := by
              intro parent isChild'
              cases isChild'.unique isChild
              exact asOrder.mpr inOrder
            exact ⟨heap, index, list, map, rfl, le_refl index,
              Sifted.here holds index, iff_of_true rfl settled,
              fun _ up => up.finish settled⟩
        · next outOfOrder =>
            have unordered : ¬ InOrder (Precedes compareFunc) list _ index :=
              fun inOrder => outOfOrder (asOrder.mp inOrder)
            obtain ⟨heap₁, map₁, swaps, holds₁, repairs⟩ :=
              holds.swap parentIn within isChild.lt.ne
            obtain ⟨heap', index', list', map', loops, below, sifted, -, ordered⟩ :=
              ih holds₁ (by rwa [List.length_swap]) (by
                have := isChild.lt
                omega)
            have moved : index' ≠ index := (below.trans_lt isChild.lt).ne
            refine ⟨heap', index', list', map', ?_, below.trans isChild.lt.le,
              sifted.after_swap (repairs index (Or.inr rfl)) moved, ?_, ?_⟩
            · rw [swaps, ok_bind]
              exact loops
            · exact iff_of_false moved fun settled => unordered (settled _ isChild)
            · intro preorder up
              exact ordered preorder (up.swap preorder isChild within unordered)

/-- Bubbling up moves an element exactly if it is out of order with its parent. -/
theorem bubbleUp_spec {index : Nat}
    (holds : HeapHolds compareFunc options heap list map)
    (within : index < list.length) :
    ∃ heap' index' list' map', heap.bubbleUp index = .ok (heap', index') ∧
      Sifted compareFunc options list map index heap' list' map' index' ∧
      (index' = index ↔ SettledBelow compareFunc list index) ∧
      (TotalPreorder (Precedes compareFunc) →
        UpHole (Precedes compareFunc) list index →
        HeapOrdered (Precedes compareFunc) list') := by
  obtain ⟨heap', index', list', map', loops, -, spec⟩ :=
    bubbleUpLoop_spec index holds within (le_refl index)
  exact ⟨heap', index', list', map', loops, spec⟩

theorem upHole_of_not_settled (preorder : TotalPreorder (Precedes compareFunc))
    {index : Nat} (around : OrderedAround (Precedes compareFunc) list index)
    (within : index < list.length)
    (unsettled : ¬ SettledBelow compareFunc list index) :
    UpHole (Precedes compareFunc) list index := by
  unfold SettledBelow at unsettled
  push Not at unsettled
  obtain ⟨parent, isChild, unordered⟩ := unsettled
  exact around.upHole preorder isChild within unordered

/-! ## Bubbling down -/

/-- Bubbling down from a hole returns: the element is no further up, and the
order below the hole is restored. -/
def SinksTo (compareFunc : NtBinaryHeapElem → NtBinaryHeapElem → Int) (options : Nat)
    (list : List NtBinaryHeapElem) (map : UInt64 → Option UInt64) (index : Nat)
    (result : Except HeapStop (NtBinaryHeap × Nat)) : Prop :=
  ∃ heap' index' list' map', result = .ok (heap', index') ∧ index ≤ index' ∧
    Sifted compareFunc options list map index heap' list' map' index' ∧
    (TotalPreorder (Precedes compareFunc) →
      DownHole (Precedes compareFunc) list index →
      HeapOrdered (Precedes compareFunc) list')

theorem sinksTo_here {index : Nat} (holds : HeapHolds compareFunc options heap list map)
    (settled : TotalPreorder (Precedes compareFunc) → ∀ child, IsChild child index →
      InOrder (Precedes compareFunc) list index child) :
    SinksTo compareFunc options list map index (pure (heap, index)) :=
  ⟨heap, index, list, map, rfl, le_refl index, Sifted.here holds index,
    fun preorder down => down.finish (settled preorder)⟩

section Child

variable {index child : Nat} {next : NtBinaryHeap → Except HeapStop (NtBinaryHeap × Nat)}

theorem sinksTo_swap (holds : HeapHolds compareFunc options heap list map)
    (isChild : IsChild child index) (within : child < list.length)
    (least : TotalPreorder (Precedes compareFunc) →
      ∀ sibling, IsChild sibling index →
      InOrder (Precedes compareFunc) list child sibling)
    (unordered : ¬ InOrder (Precedes compareFunc) list index child)
    (continues : ∀ {heap₁ list₁ map₁},
      HeapHolds compareFunc options heap₁ list₁ map₁ → list₁.length = list.length →
      SinksTo compareFunc options list₁ map₁ child (next heap₁)) :
    SinksTo compareFunc options list map index (heap.swap index child >>= next) := by
  obtain ⟨heap₁, map₁, swaps, holds₁, repairs⟩ :=
    holds.swap (isChild.lt.trans within) within isChild.lt.ne
  obtain ⟨heap', index', list', map', goesOn, below, sifted, ordered⟩ :=
    continues holds₁ List.length_swap
  refine ⟨heap', index', list', map', ?_, isChild.lt.le.trans below, ?_, ?_⟩
  · rw [swaps, ok_bind]
    exact goesOn
  · exact sifted.after_swap (repairs index (Or.inl rfl))
      (isChild.lt.trans_le below).ne'
  · intro preorder down
    exact ordered preorder
      (down.swap preorder isChild within (least preorder) unordered)

theorem sinksTo_child {compared : Int}
    (holds : HeapHolds compareFunc options heap list map)
    (isChild : IsChild child index) (within : child < list.length)
    (order : InOrder (Precedes compareFunc) list index child ↔ compared ≤ 0)
    (least : TotalPreorder (Precedes compareFunc) →
      ∀ sibling, IsChild sibling index →
      InOrder (Precedes compareFunc) list child sibling)
    (continues : ∀ {heap₁ list₁ map₁},
      HeapHolds compareFunc options heap₁ list₁ map₁ → list₁.length = list.length →
      SinksTo compareFunc options list₁ map₁ child (next heap₁)) :
    SinksTo compareFunc options list map index
      (if compared > 0 then heap.swap index child >>= next else pure (heap, index)) := by
  split
  · next falls =>
      apply sinksTo_swap holds isChild within least _ continues
      exact fun inOrder => not_le.mpr falls (order.mp inOrder)
  · next rests =>
      apply sinksTo_here holds
      intro preorder sibling isSibling
      exact (order.mpr (not_lt.mp rests)).trans preorder
        (least preorder sibling isSibling) within

end Child

theorem bubbleDownLoop_spec (fuel : Nat) :
    ∀ {heap list map} {index : Nat},
      HeapHolds compareFunc options heap list map → index < list.length →
      list.length < fuel + index →
      SinksTo compareFunc options list map index
        (NtBinaryHeap.bubbleDownLoop fuel heap index) := by
  induction fuel with
  | zero =>
      intro heap list map index holds within enough
      omega
  | succ fuel ih =>
      intro heap list map index holds within enough
      have noChild : ∀ child, list.length ≤ child → ∀ first,
          InOrder (Precedes compareFunc) list first child :=
        fun child outside first => InOrder.of_length_le_right outside
      rw [NtBinaryHeap.bubbleDownLoop]
      simp only [holds.num, holds.compare]
      have isElem := List.getElem?_eq_getElem within
      by_cases noLeft : 2 * index + 1 ≥ list.length
      · rw [if_pos noLeft]
        apply sinksTo_here holds
        intro _ child isChild
        apply noChild
        unfold IsChild at isChild
        omega
      · rw [if_neg noLeft]
        have isLeft := List.getElem?_eq_getElem (not_le.mp noLeft)
        have leftChild : IsChild (2 * index + 1) index := Or.inl rfl
        by_cases noRight : 2 * index + 2 ≥ list.length
        · rw [if_pos noRight]
          simp only [holds.read isElem, holds.read isLeft, ok_bind]
          apply sinksTo_child holds leftChild (not_le.mp noLeft)
            (InOrder.iff_of_getElem isElem isLeft)
          · intro preorder sibling isSibling
            cases isSibling with
            | inl same => exact same ▸ InOrder.refl preorder
            | inr isRight => exact noChild sibling (isRight ▸ noRight) _
          · intro heap₁ list₁ map₁ holds₁ sameLength
            apply sinksTo_here holds₁
            intro _ child isChild
            apply InOrder.of_length_le_right
            have := isChild.lt
            omega
        · rw [if_neg noRight]
          have isRight := List.getElem?_eq_getElem (not_le.mp noRight)
          have rightChild : IsChild (2 * index + 2) index := Or.inr rfl
          have siblings : InOrder (Precedes compareFunc) list _ _ ↔ _ :=
            InOrder.iff_of_getElem isLeft isRight
          simp only [holds.read isElem, holds.read isLeft, holds.read isRight,
            ok_bind]
          have goesOn : ∀ {child : Nat}, IsChild child index → child < list.length →
              ∀ {heap₁ list₁ map₁}, HeapHolds compareFunc options heap₁ list₁ map₁ →
              list₁.length = list.length →
              SinksTo compareFunc options list₁ map₁ child
                (NtBinaryHeap.bubbleDownLoop fuel heap₁ child) := by
            intro child isChild inList heap₁ list₁ map₁ holds₁ sameLength
            have := isChild.lt
            exact ih holds₁ (by omega) (by omega)
          split
          · next leftFirst =>
              apply sinksTo_child holds leftChild (not_le.mp noLeft)
                (InOrder.iff_of_getElem isElem isLeft) _ (goesOn leftChild (not_le.mp noLeft))
              intro preorder sibling isSibling
              cases isSibling with
              | inl same => exact same ▸ InOrder.refl preorder
              | inr same => exact same ▸ siblings.mpr leftFirst
          · next rightFirst =>
              apply sinksTo_child holds rightChild (not_le.mp noRight)
                (InOrder.iff_of_getElem isElem isRight) _
                (goesOn rightChild (not_le.mp noRight))
              intro preorder sibling isSibling
              cases isSibling with
              | inl same =>
                  exact same ▸ InOrder.of_not preorder fun inOrder =>
                    rightFirst (siblings.mp inOrder)
              | inr same => exact same ▸ InOrder.refl preorder

/-- Bubbling down restores the order below a hole. -/
theorem bubbleDown_spec {index : Nat}
    (holds : HeapHolds compareFunc options heap list map)
    (within : index < list.length) :
    ∃ heap' index' list' map', heap.bubbleDown index = .ok (heap', index') ∧
      Sifted compareFunc options list map index heap' list' map' index' ∧
      (TotalPreorder (Precedes compareFunc) →
        DownHole (Precedes compareFunc) list index →
        HeapOrdered (Precedes compareFunc) list') := by
  have enough : list.length < heap.elemsNum + 1 + index := by
    rw [holds.num]
    omega
  obtain ⟨heap', index', list', map', loops, -, spec⟩ :=
    bubbleDownLoop_spec (heap.elemsNum + 1) holds within enough
  exact ⟨heap', index', list', map', loops, spec⟩

end NtShm
