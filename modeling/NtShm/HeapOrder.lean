import Mathlib.Data.List.Perm.Basic
import Mathlib.Logic.Equiv.Basic
import Mathlib.Order.Nat

/-!
# Heap order

Lists seen as complete binary trees: the children of position `i` are at
`2 * i + 1` and `2 * i + 2`.  A hole is a position whose own order with its
neighbours is not known; exchanging it with a neighbour moves it.
-/

namespace NtShm

variable {α : Type*}

structure TotalPreorder (le : α → α → Prop) : Prop where
  total : ∀ first second, le first second ∨ le second first
  trans : ∀ {first second third}, le first second → le second third →
    le first third

def InOrder (le : α → α → Prop) (list : List α) (first second : Nat) : Prop :=
  ∀ element other, list[first]? = some element → list[second]? = some other →
    le element other

def IsChild (child parent : Nat) : Prop :=
  child = 2 * parent + 1 ∨ child = 2 * parent + 2

def HeapOrdered (le : α → α → Prop) (list : List α) : Prop :=
  ∀ parent child, IsChild child parent → InOrder le list parent child

/-- Every parent is in order with its children where neither is the hole, and
the parent of the hole with the children of the hole. -/
structure OrderedAround (le : α → α → Prop) (list : List α) (hole : Nat) :
    Prop where
  apart : ∀ parent child, IsChild child parent → parent ≠ hole → child ≠ hole →
    InOrder le list parent child
  across : ∀ above below, IsChild hole above → IsChild below hole →
    InOrder le list above below

/-- The order around a hole whose element may belong further up. -/
structure UpHole (le : α → α → Prop) (list : List α) (hole : Nat) : Prop where
  around : OrderedAround le list hole
  below : ∀ child, IsChild child hole → InOrder le list hole child

/-- The order around a hole whose element may belong further down. -/
structure DownHole (le : α → α → Prop) (list : List α) (hole : Nat) : Prop where
  around : OrderedAround le list hole
  above : ∀ parent, IsChild hole parent → InOrder le list parent hole

theorem IsChild.lt {child parent : Nat} (isChild : IsChild child parent) :
    parent < child := by
  unfold IsChild at isChild
  omega

theorem IsChild.unique {child parent other : Nat} (isChild : IsChild child parent)
    (isOther : IsChild child other) : parent = other := by
  unfold IsChild at isChild isOther
  omega

theorem isChild_parent {child : Nat} (notRoot : child ≠ 0) :
    IsChild child ((child - 1) / 2) := by
  unfold IsChild
  omega

theorem getElem?_swap {list : List α} {first second : Nat}
    (firstIn : first < list.length) (secondIn : second < list.length)
    (index : Nat) :
    (list.swap first second)[index]? = list[Equiv.swap first second index]? := by
  rw [List.swap_eq_of_lt firstIn secondIn]
  by_cases atSecond : index = second
  · subst atSecond
    rw [Equiv.swap_apply_right, List.getElem?_set_self (by simpa),
      List.getElem?_eq_getElem firstIn]
  · rw [List.getElem?_set_ne (Ne.symm atSecond)]
    by_cases atFirst : index = first
    · subst atFirst
      rw [Equiv.swap_apply_left, List.getElem?_set_self firstIn,
        List.getElem?_eq_getElem secondIn]
    · rw [List.getElem?_set_ne (Ne.symm atFirst),
        Equiv.swap_apply_of_ne_of_ne atFirst atSecond]

namespace InOrder

variable {le : α → α → Prop} {list : List α} {first second third : Nat}

theorem of_not (preorder : TotalPreorder le)
    (unordered : ¬ InOrder le list first second) : InOrder le list second first := by
  intro element other isElement isOther
  cases preorder.total element other with
  | inl inOrder => exact inOrder
  | inr swapped =>
      apply absurd _ unordered
      intro element' other' isElement' isOther'
      cases isElement.symm.trans isOther'
      cases isOther.symm.trans isElement'
      exact swapped

theorem refl (preorder : TotalPreorder le) : InOrder le list first first := by
  by_contra unordered
  exact unordered (of_not preorder unordered)

theorem trans (preorder : TotalPreorder le) (lower : InOrder le list first second)
    (upper : InOrder le list second third) (within : second < list.length) :
    InOrder le list first third := by
  intro element other isElement isOther
  have isMiddle := List.getElem?_eq_getElem within
  exact preorder.trans (lower _ _ isElement isMiddle) (upper _ _ isMiddle isOther)

theorem of_length_le_right (outside : list.length ≤ second) :
    InOrder le list first second := by
  intro element other isElement isOther
  rw [List.getElem?_eq_none outside] at isOther
  cases isOther

theorem swap_iff (firstIn : first < list.length) (secondIn : second < list.length)
    (parent child : Nat) :
    InOrder le (list.swap first second) parent child ↔
      InOrder le list (Equiv.swap first second parent)
        (Equiv.swap first second child) := by
  unfold InOrder
  simp only [getElem?_swap firstIn secondIn]

theorem congr {list' : List α}
    (sameFirst : list'[first]? = list[first]?)
    (sameSecond : list'[second]? = list[second]?)
    (inOrder : InOrder le list first second) : InOrder le list' first second := by
  unfold InOrder
  rw [sameFirst, sameSecond]
  exact inOrder

theorem iff_of_getElem {element other : α} (isElement : list[first]? = some element)
    (isOther : list[second]? = some other) :
    InOrder le list first second ↔ le element other := by
  unfold InOrder
  rw [isElement, isOther]
  simp

end InOrder

section Holes

variable {le : α → α → Prop} {list : List α} {hole : Nat}

/-- The root of a heap is in order with every element. -/
theorem HeapOrdered.root_le (preorder : TotalPreorder le)
    (ordered : HeapOrdered le list) (index : Nat) : InOrder le list 0 index := by
  induction index using Nat.strongRecOn with
  | ind index ih =>
      by_cases atRoot : index = 0
      · subst atRoot
        by_contra unordered
        exact unordered (InOrder.of_not preorder unordered)
      · have isChild := isChild_parent atRoot
        by_cases within : index < list.length
        · exact (ih _ isChild.lt).trans preorder (ordered _ _ isChild)
            (isChild.lt.trans within)
        · exact InOrder.of_length_le_right (not_lt.mp within)

theorem HeapOrdered.set (preorder : TotalPreorder le) (ordered : HeapOrdered le list)
    (element : α) : OrderedAround le (list.set hole element) hole where
  apart := by
    intro parent child isChild parentElsewhere childElsewhere
    exact (ordered parent child isChild).congr
      (List.getElem?_set_ne (Ne.symm parentElsewhere))
      (List.getElem?_set_ne (Ne.symm childElsewhere))
  across := by
    intro above below isAbove isBelow
    by_cases within : hole < list.length
    · have passes := (ordered above hole isAbove).trans preorder
        (ordered hole below isBelow) within
      exact passes.congr (List.getElem?_set_ne (Ne.symm isAbove.lt.ne))
        (List.getElem?_set_ne isBelow.lt.ne)
    · apply InOrder.of_length_le_right
      have past := isBelow.lt
      rw [List.length_set]
      omega

theorem HeapOrdered.append (ordered : HeapOrdered le list) (element : α) :
    UpHole le (list ++ [element]) list.length := by
  have noBelow : ∀ first below, IsChild below list.length →
      InOrder le (list ++ [element]) first below := by
    intro first below isBelow
    apply InOrder.of_length_le_right
    rw [List.length_append, List.length_singleton]
    exact isBelow.lt
  refine ⟨⟨?_, fun above below _ => noBelow above below⟩, noBelow _⟩
  intro parent child isChild parentElsewhere childElsewhere
  by_cases within : child < list.length
  · exact (ordered parent child isChild).congr
      (List.getElem?_append_left (isChild.lt.trans within))
      (List.getElem?_append_left within)
  · apply InOrder.of_length_le_right
    rw [List.length_append, List.length_singleton]
    omega

theorem HeapOrdered.take (ordered : HeapOrdered le list) (count : Nat) :
    HeapOrdered le (list.take count) := by
  intro parent child isChild
  by_cases within : child < count
  · exact (ordered parent child isChild).congr
      (List.getElem?_take_of_lt (isChild.lt.trans within))
      (List.getElem?_take_of_lt within)
  · apply InOrder.of_length_le_right
    rw [List.length_take]
    omega

/-- A hole that is out of order with its parent has an element for further up. -/
theorem OrderedAround.upHole (preorder : TotalPreorder le)
    (around : OrderedAround le list hole) {parent : Nat}
    (isChild : IsChild hole parent) (within : hole < list.length)
    (unordered : ¬ InOrder le list parent hole) : UpHole le list hole where
  around := around
  below := by
    intro child isBelow
    exact (InOrder.of_not preorder unordered).trans preorder
      (around.across parent child isChild isBelow) (isChild.lt.trans within)

/-- The element of the hole goes up. -/
theorem UpHole.swap (preorder : TotalPreorder le) (up : UpHole le list hole)
    {parent : Nat} (isChild : IsChild hole parent) (within : hole < list.length)
    (unordered : ¬ InOrder le list parent hole) :
    UpHole le (list.swap parent hole) parent := by
  have parentIn := isChild.lt.trans within
  have rises := InOrder.of_not preorder unordered
  have apart := up.around.apart
  have parentElsewhere := isChild.lt.ne
  refine ⟨⟨?_, ?_⟩, ?_⟩
  · intro other child isOther otherElsewhere childElsewhere
    rw [InOrder.swap_iff parentIn within]
    by_cases childHole : child = hole
    · subst childHole
      exact absurd (isOther.unique isChild) otherElsewhere
    · rw [Equiv.swap_apply_of_ne_of_ne childElsewhere childHole]
      by_cases otherHole : other = hole
      · subst otherHole
        rw [Equiv.swap_apply_right]
        exact up.around.across parent child isChild isOther
      · rw [Equiv.swap_apply_of_ne_of_ne otherElsewhere otherHole]
        exact apart other child isOther otherHole childHole
  · intro above below isAbove isBelow
    have aboveHole : above ≠ hole := (isAbove.lt.trans isChild.lt).ne
    have aboveParent := apart above parent isAbove aboveHole parentElsewhere
    rw [InOrder.swap_iff parentIn within,
      Equiv.swap_apply_of_ne_of_ne isAbove.lt.ne aboveHole]
    by_cases belowHole : below = hole
    · subst belowHole
      rw [Equiv.swap_apply_right]
      exact aboveParent
    · rw [Equiv.swap_apply_of_ne_of_ne isBelow.lt.ne' belowHole]
      exact aboveParent.trans preorder
        (apart parent below isBelow parentElsewhere belowHole) parentIn
  · intro below isBelow
    rw [InOrder.swap_iff parentIn within, Equiv.swap_apply_left]
    by_cases belowHole : below = hole
    · subst belowHole
      rw [Equiv.swap_apply_right]
      exact rises
    · rw [Equiv.swap_apply_of_ne_of_ne isBelow.lt.ne' belowHole]
      exact rises.trans preorder
        (apart parent below isBelow parentElsewhere belowHole) parentIn

theorem UpHole.finish (up : UpHole le list hole)
    (settled : ∀ parent, IsChild hole parent → InOrder le list parent hole) :
    HeapOrdered le list := by
  intro parent child isChild
  by_cases parentHole : parent = hole
  · exact parentHole ▸ up.below child (parentHole ▸ isChild)
  · by_cases childHole : child = hole
    · exact childHole ▸ settled parent (childHole ▸ isChild)
    · exact up.around.apart parent child isChild parentHole childHole

/-- The element of the hole goes down to its least child. -/
theorem DownHole.swap (preorder : TotalPreorder le) (down : DownHole le list hole)
    {child : Nat} (isChild : IsChild child hole) (within : child < list.length)
    (least : ∀ sibling, IsChild sibling hole → InOrder le list child sibling)
    (unordered : ¬ InOrder le list hole child) :
    DownHole le (list.swap hole child) child := by
  have holeIn := isChild.lt.trans within
  have apart := down.around.apart
  refine ⟨⟨?_, ?_⟩, ?_⟩
  · intro parent other isOther parentElsewhere otherElsewhere
    rw [InOrder.swap_iff holeIn within]
    by_cases parentHole : parent = hole
    · subst parentHole
      rw [Equiv.swap_apply_left,
        Equiv.swap_apply_of_ne_of_ne isOther.lt.ne' otherElsewhere]
      exact least other isOther
    · rw [Equiv.swap_apply_of_ne_of_ne parentHole parentElsewhere]
      by_cases otherHole : other = hole
      · subst otherHole
        rw [Equiv.swap_apply_left]
        exact down.around.across parent child isOther isChild
      · rw [Equiv.swap_apply_of_ne_of_ne otherHole otherElsewhere]
        exact apart parent other isOther parentHole otherHole
  · intro above below isAbove isBelow
    cases isAbove.unique isChild
    rw [InOrder.swap_iff holeIn within, Equiv.swap_apply_left,
      Equiv.swap_apply_of_ne_of_ne (isAbove.lt.trans isBelow.lt).ne'
        isBelow.lt.ne']
    exact apart child below isBelow isChild.lt.ne' (isAbove.lt.trans isBelow.lt).ne'
  · intro parent isParent
    cases isParent.unique isChild
    rw [InOrder.swap_iff holeIn within, Equiv.swap_apply_left,
      Equiv.swap_apply_right]
    exact InOrder.of_not preorder unordered

theorem DownHole.finish (down : DownHole le list hole)
    (settled : ∀ child, IsChild child hole → InOrder le list hole child) :
    HeapOrdered le list := by
  intro parent child isChild
  by_cases parentHole : parent = hole
  · exact parentHole ▸ settled child (parentHole ▸ isChild)
  · by_cases childHole : child = hole
    · exact childHole ▸ down.above parent (childHole ▸ isChild)
    · exact down.around.apart parent child isChild parentHole childHole

end Holes

end NtShm
