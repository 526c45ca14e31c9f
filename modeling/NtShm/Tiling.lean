import Mathlib.Algebra.BigOperators.Group.List.Basic
import Mathlib.Tactic.Ring

/-!
# Tilings of an address interval

A list of pieces laid end to end from a start address.  `At` says which piece
stands at which address; it is the only view of a tiling that a client needs,
since replacing some pieces by others of the same total extent leaves the
places of all other pieces alone.
-/

namespace NtShm

namespace Tiling

/-- The number of addresses that a piece takes. -/
class Extent (Piece : Type*) where
  extent : Piece → Nat

export Extent (extent)

variable {Piece : Type*} [Extent Piece]

def span (pieces : List Piece) : Nat :=
  (pieces.map extent).sum

def At (start : Nat) (pieces : List Piece)
    (address : Nat) (piece : Piece) : Prop :=
  ∃ before after, pieces = before ++ piece :: after ∧
    address = start + span before

@[simp]
theorem span_nil : span ([] : List Piece) = 0 := rfl

@[simp]
theorem span_cons (piece : Piece) (pieces : List Piece) :
    span (piece :: pieces) = extent piece + span pieces := by
  simp [span]

@[simp]
theorem span_append (first second : List Piece) :
    span (first ++ second) = span first + span second := by
  simp [span]

@[simp]
theorem at_nil {start address : Nat} {piece : Piece} :
    ¬ At start [] address piece := by
  rintro ⟨before, after, split, _⟩
  simp at split

theorem at_append {start address : Nat} {first second : List Piece}
    {piece : Piece} :
    At start (first ++ second) address piece ↔
      At start first address piece ∨
        At (start + span first) second address piece := by
  constructor
  · rintro ⟨before, after, split, rfl⟩
    rcases List.append_eq_append_iff.mp split with
      ⟨middle, rfl, rfl⟩ | ⟨middle, rfl, split⟩
    · exact Or.inr ⟨middle, after, rfl, by rw [span_append]; omega⟩
    · cases middle with
      | nil =>
          refine Or.inr ⟨[], after, by simpa using split, by simp⟩
      | cons piece' middle =>
          obtain ⟨rfl, rfl⟩ : piece' = piece ∧ middle ++ second = after := by
            simpa using split
          exact Or.inl ⟨before, middle, rfl, rfl⟩
  · rintro (⟨before, after, rfl, rfl⟩ | ⟨before, after, rfl, rfl⟩)
    · exact ⟨before, after ++ second, by simp, rfl⟩
    · exact ⟨first ++ before, after, by simp, by rw [span_append]; omega⟩

@[simp]
theorem at_cons {start address : Nat} {head piece : Piece}
    {pieces : List Piece} :
    At start (head :: pieces) address piece ↔
      (address = start ∧ piece = head) ∨
        At (start + extent head) pieces address piece := by
  have split : At start ([head] ++ pieces) address piece ↔ _ := at_append
  simp only [List.singleton_append, span_cons, span_nil, Nat.add_zero] at split
  rw [split]
  refine or_congr_left ⟨?_, ?_⟩
  · rintro ⟨before, after, equal, rfl⟩
    cases before with
    | nil => simp_all
    | cons first before => simp at equal
  · rintro ⟨rfl, rfl⟩
    exact ⟨[], [], rfl, rfl⟩

theorem at_middle {start address : Nat} {before after : List Piece}
    {piece : Piece} (place : address = start + span before) :
    At start (before ++ piece :: after) address piece :=
  ⟨before, after, rfl, place⟩

namespace At

variable {start address other : Nat} {pieces : List Piece} {piece piece' : Piece}

theorem mem (placed : At start pieces address piece) :
    piece ∈ pieces := by
  obtain ⟨before, after, rfl, _⟩ := placed
  simp

theorem low (placed : At start pieces address piece) :
    start ≤ address := by
  obtain ⟨before, after, _, rfl⟩ := placed
  omega

theorem high (placed : At start pieces address piece) :
    address + extent piece ≤ start + span pieces := by
  obtain ⟨before, after, rfl, rfl⟩ := placed
  simp only [span_append, span_cons]
  omega

/-- Two placed pieces are the same one or do not overlap. -/
theorem cases_disjoint (first : At start pieces address piece)
    (second : At start pieces other piece') :
    (address = other ∧ piece = piece') ∨
      address + extent piece ≤ other ∨ other + extent piece' ≤ address := by
  induction pieces generalizing start with
  | nil => exact (at_nil first).elim
  | cons head pieces ih =>
      rcases at_cons.mp first with ⟨rfl, rfl⟩ | first
      · rcases at_cons.mp second with ⟨rfl, rfl⟩ | second
        · exact Or.inl ⟨rfl, rfl⟩
        · exact Or.inr (Or.inl second.low)
      · rcases at_cons.mp second with ⟨rfl, rfl⟩ | second
        · exact Or.inr (Or.inr first.low)
        · exact ih first second

theorem unique (first : At start pieces address piece)
    (second : At start pieces address piece')
    (positive : ∀ piece : Piece, 0 < extent piece) : piece = piece' := by
  have := positive piece
  have := positive piece'
  rcases first.cases_disjoint second with ⟨_, equal⟩ | disjoint
  · exact equal
  · omega

theorem disjoint (first : At start pieces address piece)
    (second : At start pieces other piece') (ne : address ≠ other) :
    address + extent piece ≤ other ∨ other + extent piece' ≤ address :=
  (first.cases_disjoint second).resolve_left fun same => ne same.1

end At

theorem exists_at {start position : Nat} {pieces : List Piece}
    (low : start ≤ position) (high : position < start + span pieces) :
    ∃ address piece, At start pieces address piece ∧ address ≤ position ∧
      position < address + extent piece := by
  induction pieces generalizing start with
  | nil => simp at high; omega
  | cons head pieces ih =>
      rw [span_cons] at high
      by_cases inHead : position < start + extent head
      · exact ⟨start, head, at_cons.mpr (Or.inl ⟨rfl, rfl⟩), low, inHead⟩
      · obtain ⟨address, piece, placed, inside⟩ :=
          @ih (start + extent head) (by omega) (by omega)
        exact ⟨address, piece, at_cons.mpr (Or.inr placed), inside⟩

/-- Replacing a stretch of pieces by another one of the same total extent
changes only what is placed inside the stretch. -/
theorem at_replace {start address : Nat} {before middle after : List Piece}
    {piece : Piece} :
    At start (before ++ middle ++ after) address piece ↔
      At start before address piece ∨
        At (start + span before) middle address piece ∨
        At (start + span before + span middle) after
          address piece := by
  rw [List.append_assoc, at_append, at_append]

end Tiling

end NtShm
