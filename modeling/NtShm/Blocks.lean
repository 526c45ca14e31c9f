import Mathlib.Data.List.Basic

/-!
# Allocated arrays

An array of a fixed number of elements in allocated memory, some of them not
written yet.  Reading past the end or an element that was not written has no
result, and neither has writing past the end.
-/

namespace NtShm

abbrev Block (α : Type*) := List (Option α)

namespace Block

variable {α : Type*}

def allocate (size : Nat) : Block α := List.replicate size none

def grow (block : Block α) (size : Nat) : Block α :=
  block.take size ++ List.replicate (size - block.length) none

def read (block : Block α) (index : Nat) : Option α := block[index]?.join

def write (block : Block α) (index : Nat) (value : α) : Option (Block α) :=
  if index < block.length then some (block.set index (some value)) else none

/-- The array starts with these elements. -/
def StartsWith (block : Block α) (list : List α) : Prop :=
  ∀ index (inRange : index < list.length), block.read index = some list[index]

@[simp] theorem length_allocate (size : Nat) :
    (allocate size : Block α).length = size := by
  simp [allocate]

theorem length_grow {block : Block α} {size : Nat} (more : block.length ≤ size) :
    (block.grow size).length = size := by
  simp [grow]
  omega

theorem read_of_written {block block' : Block α} {index : Nat} {value : α}
    (written : block.write index value = some block') (other : Nat) :
    block'.read other =
      if other = index then some value else block.read other := by
  unfold write at written
  split at written
  · next inRange =>
      cases written
      unfold read
      split
      · next same =>
          subst same
          simp [inRange]
      · next differs =>
          rw [List.getElem?_set_ne (Ne.symm differs)]
  · cases written

theorem length_of_written {block block' : Block α} {index : Nat} {value : α}
    (written : block.write index value = some block') :
    block'.length = block.length := by
  unfold write at written
  split at written
  · cases written
    simp
  · cases written

theorem write_of_lt {block : Block α} {index : Nat} (value : α)
    (inRange : index < block.length) :
    ∃ block', block.write index value = some block' := by
  unfold write
  rw [if_pos inRange]
  exact ⟨_, rfl⟩

theorem lt_length_of_read {block : Block α} {index : Nat} {value : α}
    (isRead : block.read index = some value) : index < block.length := by
  by_contra past
  have none : block[index]? = none := List.getElem?_eq_none (by omega)
  simp [read, none] at isRead

theorem startsWith_nil (block : Block α) : block.StartsWith [] :=
  fun index inRange => absurd inRange (Nat.not_lt_zero index)

theorem StartsWith.length_le {block : Block α} {list : List α}
    (starts : block.StartsWith list) : list.length ≤ block.length := by
  by_contra past
  have last := starts (list.length - 1) (by omega)
  have bound := lt_length_of_read last
  omega

theorem StartsWith.grow {block : Block α} {list : List α} {size : Nat}
    (starts : block.StartsWith list) (more : block.length ≤ size) :
    (block.grow size).StartsWith list := by
  intro index inRange
  have bound := starts.length_le
  rw [← starts index inRange]
  unfold read Block.grow
  rw [List.take_of_length_le more, List.getElem?_append_left (by omega)]

theorem StartsWith.push {block block' : Block α} {list : List α} {value : α}
    (starts : block.StartsWith list)
    (written : block.write list.length value = some block') :
    block'.StartsWith (list ++ [value]) := by
  intro index inRange
  rw [read_of_written written]
  rw [List.length_append, List.length_singleton] at inRange
  split
  · next same =>
      subst same
      simp
  · next differs =>
      rw [List.getElem_append_left (by omega)]
      exact starts index (by omega)

theorem StartsWith.set {block block' : Block α} {list : List α} {index : Nat}
    {value : α} (starts : block.StartsWith list)
    (written : block.write index value = some block') :
    block'.StartsWith (list.set index value) := by
  intro other inRange
  rw [List.length_set] at inRange
  rw [read_of_written written, List.getElem_set]
  by_cases same : other = index
  · rw [if_pos same, if_pos same.symm]
  · rw [if_neg same, if_neg (Ne.symm same)]
    exact starts other inRange

theorem StartsWith.take {block : Block α} {list : List α}
    (starts : block.StartsWith list) (count : Nat) :
    block.StartsWith (list.take count) := by
  intro index inRange
  rw [List.length_take] at inRange
  rw [List.getElem_take]
  exact starts index (by omega)

end Block

end NtShm
