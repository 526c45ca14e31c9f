import Mathlib.Data.List.Basic

/-!
# Streams cut into blocks

The elements of a stream are collected until they are a block, which is compressed into
a state.  What comes of a stream does not depend on the pieces in which it arrives.
-/

namespace NtShm

/-- What was compressed, and the elements of a block that is not complete. -/
structure BlockStream (α State : Type*) where
  state : State
  pending : List α

namespace BlockStream

variable {α State : Type*} (compress : State → List α → State) (size : Nat)

def absorbOne (stream : BlockStream α State) (element : α) : BlockStream α State :=
  if stream.pending.length + 1 = size then
    ⟨compress stream.state (stream.pending ++ [element]), []⟩
  else ⟨stream.state, stream.pending ++ [element]⟩

def absorb (stream : BlockStream α State) (list : List α) : BlockStream α State :=
  list.foldl (absorbOne compress size) stream

variable {compress size} {stream : BlockStream α State} {list : List α}

@[simp] theorem absorb_nil : stream.absorb compress size [] = stream := rfl

theorem absorb_cons (element : α) :
    stream.absorb compress size (element :: list) =
      (stream.absorbOne compress size element).absorb compress size list := rfl

theorem absorb_append (first second : List α) :
    stream.absorb compress size (first ++ second) =
      (stream.absorb compress size first).absorb compress size second :=
  List.foldl_append

theorem absorb_short (short : stream.pending.length + list.length < size) :
    stream.absorb compress size list = ⟨stream.state, stream.pending ++ list⟩ := by
  induction list generalizing stream with
  | nil => rw [absorb_nil, List.append_nil]
  | cons element list ih =>
      rw [List.length_cons] at short
      have notFull : stream.pending.length + 1 ≠ size := by omega
      rw [absorb_cons, absorbOne, if_neg notFull, ih]
      · rw [List.append_assoc, List.singleton_append]
      · rw [List.length_append, List.length_singleton]
        omega

theorem absorb_full (some : stream.pending.length < size)
    (full : stream.pending.length + list.length = size) :
    stream.absorb compress size list =
      ⟨compress stream.state (stream.pending ++ list), []⟩ := by
  rcases List.eq_nil_or_concat list with rfl | ⟨front, last, rfl⟩
  · rw [List.length_nil] at full
    omega
  · rw [List.concat_eq_append, List.length_append, List.length_singleton] at full
    have collected := @absorb_short _ _ compress size stream front (by omega)
    rw [List.concat_eq_append, absorb_append, collected, absorb_cons, absorbOne,
      if_pos (by rw [List.length_append]; omega), absorb_nil, List.append_assoc]

/-- Elements that complete the block that was begun, and go on. -/
theorem absorb_fill (some : stream.pending.length < size)
    (full : size ≤ stream.pending.length + list.length) :
    stream.absorb compress size list =
      absorb compress size
        ⟨compress stream.state (stream.pending ++ list.take (size - stream.pending.length)), []⟩
        (list.drop (size - stream.pending.length)) := by
  have just : stream.pending.length + (list.take (size - stream.pending.length)).length =
      size := by
    rw [List.length_take]
    omega
  rw [← absorb_full some just, ← absorb_append, List.take_append_drop]

theorem absorb_block (positive : 0 < size) {state : State} {block rest : List α}
    (whole : block.length = size) :
    absorb compress size ⟨state, []⟩ (block ++ rest) =
      absorb compress size ⟨compress state block, []⟩ rest := by
  have isWhole : ([] : List α).length + block.length = size := by
    rw [List.length_nil, Nat.zero_add, whole]
  have compressed := @absorb_full _ _ compress size ⟨state, []⟩ block positive isWhole
  rw [absorb_append, compressed]
  rfl

def blocks (size : Nat) (list : List α) : List (List α) :=
  (List.range (list.length / size)).map fun i => (list.drop (size * i)).take size

theorem blocks_succ (positive : 0 < size) (long : size ≤ list.length) :
    blocks size list = list.take size :: blocks size (list.drop size) := by
  have count : list.length / size = (list.drop size).length / size + 1 := by
    rw [List.length_drop, Nat.div_eq_sub_div positive long]
  rw [blocks, count, List.range_succ_eq_map, List.map_cons, List.map_map, Nat.mul_zero,
    List.drop_zero, blocks]
  congr 2
  funext i
  rw [Function.comp_apply, List.drop_drop, Nat.mul_succ, Nat.add_comm size]

theorem absorb_blocks (positive : 0 < size) (whole : size ∣ list.length) {state : State} :
    absorb compress size ⟨state, []⟩ list = ⟨(blocks size list).foldl compress state, []⟩ := by
  obtain ⟨count, length⟩ := whole
  induction count generalizing state list with
  | zero =>
      have none : list = [] := List.eq_nil_of_length_eq_zero length
      subst none
      rw [blocks, List.length_nil, Nat.zero_div]
      rfl
  | succ count step =>
      have long : size ≤ list.length := by
        rw [length]
        exact Nat.le_mul_of_pos_right _ (Nat.succ_pos count)
      have first : (list.take size).length = size := by
        rw [List.length_take, Nat.min_eq_left long]
      have rest : (list.drop size).length = size * count := by
        rw [List.length_drop, length, Nat.mul_succ, Nat.add_sub_cancel]
      calc absorb compress size ⟨state, []⟩ list
        _ = absorb compress size ⟨state, []⟩ (list.take size ++ list.drop size) := by
            rw [List.take_append_drop]
        _ = absorb compress size ⟨compress state (list.take size), []⟩ (list.drop size) :=
            absorb_block positive first
        _ = ⟨(blocks size list).foldl compress state, []⟩ := by
            rw [step rest, blocks_succ positive long, List.foldl_cons]

theorem absorb_pending_length (small : stream.pending.length < size) :
    (stream.absorb compress size list).pending.length =
      (stream.pending.length + list.length) % size := by
  induction list generalizing stream with
  | nil => exact (Nat.mod_eq_of_lt small).symm
  | cons element list ih =>
      rw [absorb_cons, absorbOne, List.length_cons]
      by_cases full : stream.pending.length + 1 = size
      · rw [if_pos full, ih (by rw [List.length_nil]; omega), List.length_nil,
          show stream.pending.length + (list.length + 1) = 0 + list.length + size by omega,
          Nat.add_mod_right]
      · have more : (stream.pending ++ [element]).length = stream.pending.length + 1 := by simp
        rw [if_neg full, ih (by rw [more]; omega), more]
        congr 1
        omega

end BlockStream

end NtShm
