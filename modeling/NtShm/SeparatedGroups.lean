import Mathlib.Data.List.Induction

/-!
# Groups with separators between them

A list consists of a number of groups, with one separator between each group and
the next.  The elements of a group are recognised, and the separator is not one of
them, so that a list can be cut into groups in one way only.
-/

namespace NtShm

variable {α : Type*}

def Separated (isGroup : List α → Prop) (separator : α) : Nat → List α → Prop
  | 0, _ => False
  | 1, list => isGroup list
  | count + 2, list => ∃ group rest, list = group ++ separator :: rest ∧ isGroup group ∧
      Separated isGroup separator (count + 1) rest

section Cutting

variable {isGroup : List α → Prop} {separator : α} {isMember : α → Bool}
  {count : Nat} {group list rest : List α}

theorem takeWhile_group (members : ∀ element ∈ group, isMember element = true)
    (apart : isMember separator = false) :
    (group ++ separator :: rest).takeWhile isMember = group := by
  rw [List.takeWhile_append_of_pos members, List.takeWhile_cons_of_neg (by simp [apart]),
    List.append_nil]

theorem separated_single (members : ∀ element ∈ list, isMember element = true)
    (apart : isMember separator = false) :
    Separated isGroup separator count list ↔ count = 1 ∧ isGroup list := by
  match count with
  | 0 => simp [Separated]
  | 1 => simp [Separated]
  | count + 2 =>
      refine iff_of_false ?_ (by omega)
      rintro ⟨group, rest, rfl, -⟩
      have isSeparator := members separator (by simp)
      exact Bool.false_ne_true (apart.symm.trans isSeparator)

theorem separated_first
    (sound : ∀ group, isGroup group → ∀ element ∈ group, isMember element = true)
    (members : ∀ element ∈ group, isMember element = true)
    (apart : isMember separator = false) :
    Separated isGroup separator (count + 1) (group ++ separator :: rest) ↔
      isGroup group ∧ Separated isGroup separator count rest := by
  cases count with
  | zero =>
      refine iff_of_false (fun one => ?_) (fun both => both.2)
      have isSeparator := sound _ one separator (by simp)
      exact Bool.false_ne_true (apart.symm.trans isSeparator)
  | succ count =>
      constructor
      · rintro ⟨group', rest', same, isGroup', others⟩
        have sameGroup : group = group' := by
          calc group = (group ++ separator :: rest).takeWhile isMember :=
                (takeWhile_group members apart).symm
            _ = (group' ++ separator :: rest').takeWhile isMember := by rw [same]
            _ = group' := takeWhile_group (sound group' isGroup') apart
        subst sameGroup
        have sameRest := List.append_cancel_left same
        cases sameRest
        exact ⟨isGroup', others⟩
      · rintro ⟨isGroup', others⟩
        exact ⟨group, rest, rfl, isGroup', others⟩

theorem Separated.mem
    (sound : ∀ group, isGroup group → ∀ element ∈ group, isMember element = true)
    (separated : Separated isGroup separator count list) :
    ∀ element ∈ list, isMember element = true ∨ element = separator := by
  induction count generalizing list with
  | zero => cases separated
  | succ count ih =>
      cases count with
      | zero => exact fun element inList => Or.inl (sound list separated element inList)
      | succ count =>
          obtain ⟨group, rest, rfl, first, others⟩ := separated
          intro element inList
          rcases List.mem_append.mp inList with inGroup | inRest
          · exact Or.inl (sound group first element inGroup)
          · rcases List.mem_cons.mp inRest with isSeparator | inRest
            · exact Or.inr isSeparator
            · exact ih others element inRest

end Cutting

end NtShm
