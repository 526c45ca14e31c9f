import Mathlib.Data.List.Perm.Basic

/-!
# Tables of lists

A table is a list of lists, whose contents are all their elements.  Elements
move between lists by appending in one place and by filling the hole with the
last element in another; the contents are followed up to order.
-/

namespace NtShm

variable {α : Type*}

/-- The list without the element at an index, whose place the last one takes. -/
def fillHole (list : List α) (index : Nat) : List α :=
  match list.getLast? with
  | none => []
  | some last => (list.set index last).dropLast

theorem fillHole_concat (front : List α) (last : α) (index : Nat) :
    fillHole (front ++ [last]) index = front.set index last := by
  simp only [fillHole, List.getLast?_append, List.getLast?_singleton,
    Option.some_or]
  by_cases inFront : index < front.length
  · rw [List.set_append_left _ _ inFront, List.dropLast_concat]
  · rw [List.set_append_right _ _ (by omega),
      List.set_eq_of_length_le (by omega : front.length ≤ index)]
    cases index - front.length <;> simp

theorem length_fillHole (list : List α) (index : Nat) :
    (fillHole list index).length = list.length - 1 := by
  cases list.eq_nil_or_concat with
  | inl empty => simp [empty, fillHole]
  | inr concat =>
      obtain ⟨front, last, rfl⟩ := concat
      rw [List.concat_eq_append, fillHole_concat]
      simp

theorem perm_fillHole {list : List α} {index : Nat}
    (inRange : index < list.length) :
    list.Perm (list[index] :: fillHole list index) := by
  cases list.eq_nil_or_concat with
  | inl empty => simp [empty] at inRange
  | inr concat =>
      obtain ⟨front, last, rfl⟩ := concat
      have bound : index < front.length + 1 := by simpa using inRange
      simp only [List.concat_eq_append]
      rw [fillHole_concat]
      by_cases inFront : index < front.length
      · have cut : front = front.take index ++ front[index] ::
            front.drop (index + 1) := by
          rw [List.getElem_cons_drop, List.take_append_drop]
        have place : front.set index last =
            front.take index ++ last :: front.drop (index + 1) := by
          rw [List.set_eq_take_append_cons_drop, if_pos inFront]
        rw [List.getElem_append_left inFront, place]
        calc front ++ [last]
            = front.take index ++ front[index] ::
                (front.drop (index + 1) ++ [last]) := by
              rw [← List.cons_append, ← List.append_assoc, ← cut]
          _ |>.Perm (front[index] :: (front.take index ++
                (front.drop (index + 1) ++ [last]))) := List.perm_middle
          _ |>.Perm (front[index] :: (front.take index ++
                last :: front.drop (index + 1))) :=
              ((List.perm_append_singleton last _).append_left _).cons _
      · have isLast : index = front.length := by omega
        subst isLast
        rw [List.set_eq_of_length_le (by omega)]
        simp

theorem take_fillHole {list : List α} {index : Nat}
    (inRange : index < list.length) :
    (fillHole list index).take index = list.take index := by
  cases list.eq_nil_or_concat with
  | inl empty => simp [empty] at inRange
  | inr concat =>
      obtain ⟨front, last, rfl⟩ := concat
      rw [List.concat_eq_append, List.length_append, List.length_singleton]
        at inRange
      rw [List.concat_eq_append, fillHole_concat,
        List.take_set_of_le (Nat.le_refl index), List.take_append_of_le_length (by omega)]

theorem getElem?_of_fillHole {list : List α} {hole index : Nat} {element : α}
    (elsewhere : index ≠ hole)
    (isElement : (fillHole list hole)[index]? = some element) :
    list[index]? = some element := by
  cases list.eq_nil_or_concat with
  | inl empty => simp [empty, fillHole] at isElement
  | inr concat =>
      obtain ⟨front, last, rfl⟩ := concat
      rw [List.concat_eq_append] at isElement ⊢
      rw [fillHole_concat, List.getElem?_set_ne (Ne.symm elsewhere)] at isElement
      rw [List.getElem?_append_left (List.getElem?_eq_some_iff.mp isElement).1]
      exact isElement

theorem flatten_set_perm {table : List (List α)} {index : Nat}
    {list : List α} (isList : table[index]? = some list) (list' : List α) :
    ((table.set index list').flatten ++ list).Perm (table.flatten ++ list') := by
  induction table generalizing index with
  | nil => simp at isList
  | cons head table ih =>
      cases index with
      | zero =>
          simp only [List.getElem?_cons_zero, Option.some.injEq] at isList
          subst isList
          rw [List.set_cons_zero, List.flatten_cons, List.flatten_cons,
            List.append_assoc]
          exact (List.perm_append_comm.append_left list').trans
            (List.perm_append_comm)
      | succ index =>
          rw [List.getElem?_cons_succ] at isList
          rw [List.set_cons_succ, List.flatten_cons, List.flatten_cons,
            List.append_assoc, List.append_assoc]
          exact (ih isList).append_left head

theorem flatten_set_balance {table : List (List α)} {index : Nat}
    {list list' gained lost : List α} (isList : table[index]? = some list)
    (change : (list ++ gained).Perm (list' ++ lost)) :
    (table.flatten ++ gained).Perm ((table.set index list').flatten ++ lost) := by
  classical
  have whole := flatten_set_perm isList list'
  rw [List.perm_iff_count] at change whole ⊢
  intro element
  have here := change element
  have all := whole element
  simp only [List.count_append] at here all ⊢
  omega

theorem flatten_set_concat {table : List (List α)} {index : Nat}
    {list : List α} (isList : table[index]? = some list) (element : α) :
    (table.set index (list ++ [element])).flatten.Perm
      (element :: table.flatten) := by
  have change : (list ++ [element]).Perm (list ++ [element] ++ []) := by simp
  have balance := flatten_set_balance isList change
  rw [List.append_nil] at balance
  exact balance.symm.trans (List.perm_append_singleton element _)

theorem flatten_set_fillHole {table : List (List α)} {index hole : Nat}
    {list : List α} (isList : table[index]? = some list)
    (inRange : hole < list.length) :
    table.flatten.Perm
      (list[hole] :: (table.set index (fillHole list hole)).flatten) := by
  have change : (list ++ []).Perm (fillHole list hole ++ [list[hole]]) := by
    rw [List.append_nil]
    exact (perm_fillHole inRange).trans (List.perm_append_singleton _ _).symm
  have balance := flatten_set_balance isList change
  rw [List.append_nil] at balance
  exact balance.trans (List.perm_append_singleton _ _)

theorem flatten_set_set {table : List (List α)} {index place : Nat}
    {list : List α} (isList : table[index]? = some list)
    (inRange : place < list.length) (element : α) :
    (element :: table.flatten).Perm
      (list[place] :: (table.set index (list.set place element)).flatten) := by
  have cut : list = list.take place ++ list[place] :: list.drop (place + 1) := by
    rw [List.getElem_cons_drop, List.take_append_drop]
  have change : (list ++ [element]).Perm
      (list.set place element ++ [list[place]]) := by
    classical
    rw [List.set_eq_take_append_cons_drop, if_pos inRange, List.perm_iff_count]
    intro other
    have whole := congrArg (List.count other) cut
    simp only [List.count_append, List.count_cons, List.count_nil] at whole ⊢
    omega
  exact (List.perm_append_singleton _ _).symm.trans
    ((flatten_set_balance isList change).trans (List.perm_append_singleton _ _))

end NtShm
