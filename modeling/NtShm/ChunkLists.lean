import NtShm.MemRepresentation
import Mathlib.Data.List.Chain

/-!
# Chunk lists

The allocator as a program on chunk lists, without any memory: `carve` is what
an allocation does to a free chunk, `release` what freeing does to a used one,
and `giveBack` what shrinking does to the right of a used one.  The lists that
arise have no holes and never two free chunks side by side.
-/

namespace NtShm

open Tiling

/-- What an allocation of `size` makes of a stretch with room for `fullSize`:
a remainder too small for a chunk is swallowed. -/
def carve (size fullSize : Nat) : List Chunk :=
  if fullSize < size + 40 then [⟨.used, fullSize⟩]
  else [⟨.used, size⟩, ⟨.free, fullSize - size - 16⟩]

/-- The payload that `carve` uses. -/
def carvedSize (size fullSize : Nat) : Nat :=
  if fullSize < size + 40 then fullSize else size

/-- Join a free chunk with the last of the chunks on its left. -/
def mergeLeft (before : List Chunk) (size : Nat) : List Chunk × Nat :=
  match before.getLast? with
  | some ⟨.free, other⟩ => (before.dropLast, other + size + 16)
  | _ => (before, size)

/-- Join a free chunk with the first of the chunks on its right. -/
def mergeRight (size : Nat) (after : List Chunk) : Nat × List Chunk :=
  match after with
  | ⟨.free, other⟩ :: rest => (size + other + 16, rest)
  | _ => (size, after)

def releasedSize (before : List Chunk) (size : Nat) (after : List Chunk) : Nat :=
  (mergeRight (mergeLeft before size).2 after).1

def release (before : List Chunk) (size : Nat) (after : List Chunk) :
    List Chunk :=
  (mergeLeft before size).1 ++ ⟨.free, releasedSize before size after⟩ ::
    (mergeRight (mergeLeft before size).2 after).2

/-- What follows a chunk when its payload is cut down by `surplus`. -/
def giveBack (surplus : Nat) (after : List Chunk) : List Chunk :=
  match after with
  | ⟨.free, other⟩ :: rest => ⟨.free, other + surplus⟩ :: rest
  | _ => ⟨.free, surplus - 16⟩ :: after

/-- The chunk before a free one is not free. -/
def Guards (before : List Chunk) : Prop :=
  ∀ chunk ∈ before.getLast?, chunk.tag ≠ .free

/-- The chunk after a free one is not free. -/
def Guarded (after : List Chunk) : Prop :=
  ∀ chunk ∈ after.head?, chunk.tag ≠ .free

/-- A chunk list as it is between two operations: no holes, and no two free
chunks side by side. -/
structure Settled (chunks : List Chunk) : Prop where
  solid : ∀ chunk ∈ chunks, chunk.tag ≠ .hole
  coalesced : chunks.IsChain fun left right =>
    ¬ (left.tag = .free ∧ right.tag = .free)

@[simp] theorem settled_nil : Settled [] := ⟨by simp, List.isChain_nil⟩

theorem settled_append {before after : List Chunk} :
    Settled (before ++ after) ↔
      Settled before ∧ Settled after ∧ (Guards before ∨ Guarded after) := by
  constructor
  · rintro ⟨solid, coalesced⟩
    obtain ⟨left, right, middle⟩ := List.isChain_append.mp coalesced
    refine ⟨⟨fun chunk member => solid chunk (by simp [member]), left⟩,
      ⟨fun chunk member => solid chunk (by simp [member]), right⟩, ?_⟩
    by_contra neither
    simp only [Guards, Guarded, not_or, not_forall, not_not] at neither
    obtain ⟨⟨last, isLast, lastFree⟩, first, isFirst, firstFree⟩ := neither
    exact middle last isLast first isFirst ⟨lastFree, firstFree⟩
  · rintro ⟨left, right, guarded⟩
    refine ⟨fun chunk member => ?_, List.isChain_append.mpr
      ⟨left.coalesced, right.coalesced, ?_⟩⟩
    · rcases List.mem_append.mp member with member | member
      · exact left.solid chunk member
      · exact right.solid chunk member
    · rintro last isLast first isFirst ⟨lastFree, firstFree⟩
      rcases guarded with guards | guarded
      · exact guards last isLast lastFree
      · exact guarded first isFirst firstFree

theorem settled_cons {chunk : Chunk} {after : List Chunk} :
    Settled (chunk :: after) ↔
      chunk.tag ≠ .hole ∧ Settled after ∧
        (chunk.tag = .free → Guarded after) := by
  have single : Settled [chunk] ↔ chunk.tag ≠ .hole :=
    ⟨fun settled => settled.solid chunk (by simp),
      fun solid => ⟨by simpa using solid, List.isChain_singleton chunk⟩⟩
  have guards : Guards [chunk] ↔ ¬ chunk.tag = .free := by simp [Guards]
  rw [← List.singleton_append, settled_append, single, guards, imp_iff_not_or]

theorem Settled.split {before after : List Chunk} {chunk : Chunk}
    (settled : Settled (before ++ chunk :: after)) :
    Settled before ∧ Settled after ∧ (chunk.tag = .free → Guarded after) := by
  obtain ⟨left, right, -⟩ := settled_append.mp settled
  exact ⟨left, (settled_cons.mp right).2⟩

@[simp] theorem guards_nil : Guards [] := by simp [Guards]

@[simp] theorem guarded_nil : Guarded [] := by simp [Guarded]

@[simp]
theorem guards_concat {before : List Chunk} {chunk : Chunk} :
    Guards (before ++ [chunk]) ↔ chunk.tag ≠ .free := by
  simp [Guards]

@[simp]
theorem guarded_cons {chunk : Chunk} {after : List Chunk} :
    Guarded (chunk :: after) ↔ chunk.tag ≠ .free := by
  simp [Guarded]

section Merge

variable {before after : List Chunk} {size : Nat}

theorem mergeLeft_cases (before : List Chunk) :
    (∃ front other, before = front ++ [⟨.free, other⟩] ∧
        ∀ size, mergeLeft before size = (front, other + size + 16)) ∨
      Guards before ∧ ∀ size, mergeLeft before size = (before, size) := by
  rcases List.eq_nil_or_concat before with rfl | ⟨front, ⟨tag, other⟩, rfl⟩
  · exact Or.inr ⟨guards_nil, fun size => rfl⟩
  · rw [List.concat_eq_append, guards_concat]
    cases tag with
    | free => exact Or.inl ⟨front, other, rfl, by simp [mergeLeft]⟩
    | used => exact Or.inr ⟨by simp, by simp [mergeLeft]⟩
    | hole => exact Or.inr ⟨by simp, by simp [mergeLeft]⟩

theorem mergeRight_cases (after : List Chunk) :
    (∃ other rest, after = ⟨.free, other⟩ :: rest ∧
        ∀ size, mergeRight size after = (size + other + 16, rest)) ∨
      Guarded after ∧ ∀ size, mergeRight size after = (size, after) := by
  rcases after with _ | ⟨⟨tag, other⟩, rest⟩
  · exact Or.inr ⟨guarded_nil, fun size => rfl⟩
  · rw [guarded_cons]
    cases tag with
    | free => exact Or.inl ⟨other, rest, rfl, fun size => rfl⟩
    | used => exact Or.inr ⟨by simp, fun size => rfl⟩
    | hole => exact Or.inr ⟨by simp, fun size => rfl⟩

section Release

variable {front rest : List Chunk} {left right : Nat}

theorem release_both :
    release (front ++ [⟨.free, left⟩]) size (⟨.free, right⟩ :: rest) =
      front ++ ⟨.free, left + size + 16 + right + 16⟩ :: rest := by
  simp [release, releasedSize, mergeLeft, mergeRight]

theorem release_left (rightKept : ∀ size, mergeRight size after = (size, after)) :
    release (front ++ [⟨.free, left⟩]) size after =
      front ++ ⟨.free, left + size + 16⟩ :: after := by
  simp [release, releasedSize, mergeLeft, rightKept]

theorem release_right (leftKept : ∀ size, mergeLeft before size = (before, size)) :
    release before size (⟨.free, right⟩ :: rest) =
      before ++ ⟨.free, size + right + 16⟩ :: rest := by
  simp [release, releasedSize, leftKept, mergeRight]

theorem release_alone (leftKept : ∀ size, mergeLeft before size = (before, size))
    (rightKept : ∀ size, mergeRight size after = (size, after)) :
    release before size after = before ++ ⟨.free, size⟩ :: after := by
  simp [release, releasedSize, leftKept, rightKept]

end Release

theorem span_carve {size fullSize : Nat} :
    span (carve size fullSize) = fullSize + 16 := by
  unfold carve
  split_ifs <;> simp
  omega

theorem guarded_of_mergeRight
    (kept : ∀ size, mergeRight size after = (size, after)) : Guarded after := by
  rcases mergeRight_cases after with ⟨other, rest, rfl, taken⟩ | ⟨guarded, _⟩
  · have := (kept 0).symm.trans (taken 0)
    simp at this
  · exact guarded

theorem giveBack_of_guarded {surplus : Nat} (guarded : Guarded after) :
    giveBack surplus after = ⟨.free, surplus - 16⟩ :: after := by
  unfold giveBack
  split
  · simp at guarded
  · rfl

end Merge

section Settled

variable {before after rest : List Chunk} {size fullSize other surplus : Nat}

theorem Settled.carve (left : Settled before) (right : Settled after)
    (guarded : Guarded after) :
    Settled (before ++ carve size fullSize ++ after) := by
  unfold NtShm.carve
  split_ifs <;>
    simp [settled_append, settled_cons, left, right, guarded]

theorem Settled.release (left : Settled before) (right : Settled after) :
    Settled (release before size after) := by
  have joined : ∀ front rest, Settled front → Guards front → Settled rest →
      Guarded rest → ∀ size, Settled (front ++ ⟨.free, size⟩ :: rest) := by
    intro front rest frontSettled guards restSettled guarded size
    simp [settled_append, settled_cons, frontSettled, guards, restSettled,
      guarded]
  unfold NtShm.release
  rcases mergeLeft_cases before with ⟨front, other, rfl, taken⟩ | ⟨guards, kept⟩ <;>
    rcases mergeRight_cases after with
      ⟨other', rest, rfl, taken'⟩ | ⟨guarded, kept'⟩
  · simp only [settled_append, settled_cons, guarded_cons] at left right
    simp only [taken, taken']
    exact joined _ _ left.1 (by simpa using left.2.2) right.2.1
      (right.2.2 trivial) _
  · simp only [settled_append, guarded_cons] at left
    simp only [taken, kept']
    exact joined _ _ left.1 (by simpa using left.2.2) right guarded _
  · simp only [settled_cons] at right
    simp only [kept, taken']
    exact joined _ _ left guards right.2.1 (right.2.2 trivial) _
  · simp only [kept, kept']
    exact joined _ _ left guards right guarded _

theorem Settled.giveBack (left : Settled before) (size surplus : Nat)
    (right : Settled after) :
    Settled (before ++ ⟨.used, size⟩ :: giveBack surplus after) := by
  have tail : Settled (NtShm.giveBack surplus after) := by
    rcases mergeRight_cases after with ⟨other, rest, rfl, _⟩ | ⟨guarded, _⟩
    · simpa [NtShm.giveBack, settled_cons] using right
    · unfold NtShm.giveBack
      split
      · simp at guarded
      · simp [settled_cons, right, guarded]
  simp [settled_append, settled_cons, left, tail]

end Settled

section UsedBlocks

def usedBlocks (start : Nat) : List Chunk → List (Nat × Nat)
  | [] => []
  | ⟨.used, size⟩ :: rest =>
      (start, size) :: usedBlocks (start + size + 16) rest
  | ⟨_, size⟩ :: rest => usedBlocks (start + size + 16) rest

variable {start : Nat} {before after rest : List Chunk}
  {size fullSize other surplus : Nat}

theorem usedBlocks_cons_free (start size : Nat) (rest : List Chunk) :
    usedBlocks start (⟨.free, size⟩ :: rest) =
      usedBlocks (start + size + 16) rest := rfl

theorem usedBlocks_append (start : Nat) (before after : List Chunk) :
    usedBlocks start (before ++ after) =
      usedBlocks start before ++ usedBlocks (start + span before) after := by
  induction before generalizing start with
  | nil => simp [usedBlocks]
  | cons chunk before ih =>
      obtain ⟨tag, size⟩ := chunk
      cases tag <;>
        simp [usedBlocks, ih, Nat.add_assoc]

theorem mem_usedBlocks {chunks : List Chunk} {address : Nat} :
    (address, size) ∈ usedBlocks start chunks ↔
      At start chunks address ⟨.used, size⟩ := by
  induction chunks generalizing start with
  | nil => simp [usedBlocks]
  | cons chunk chunks ih =>
      obtain ⟨tag, other⟩ := chunk
      cases tag <;>
        simp [usedBlocks, ih, at_cons, Nat.add_assoc]

theorem usedBlocks_carve (before after : List Chunk) :
    usedBlocks start (before ++ carve size fullSize ++ after) =
      usedBlocks start before ++
        (start + span before, carvedSize size fullSize) ::
          usedBlocks (start + span before + fullSize + 16) after := by
  rw [usedBlocks_append, usedBlocks_append, span_append, span_carve,
    carve, carvedSize]
  split_ifs <;> simp [usedBlocks, Nat.add_assoc]

theorem usedBlocks_free (before after : List Chunk) :
    usedBlocks start (before ++ ⟨.free, size⟩ :: after) =
      usedBlocks start before ++
        usedBlocks (start + span before + size + 16) after := by
  simp [usedBlocks_append, usedBlocks]

theorem usedBlocks_used (before after : List Chunk) :
    usedBlocks start (before ++ ⟨.used, size⟩ :: after) =
      usedBlocks start before ++ (start + span before, size) ::
        usedBlocks (start + span before + size + 16) after := by
  simp [usedBlocks_append, usedBlocks]

theorem usedBlocks_release (before after : List Chunk) :
    usedBlocks start (release before size after) =
      usedBlocks start before ++
        usedBlocks (start + span before + size + 16) after := by
  unfold release releasedSize
  rcases mergeLeft_cases before with ⟨front, other, rfl, taken⟩ | ⟨_, kept⟩ <;>
    rcases mergeRight_cases after with ⟨other', rest, rfl, taken'⟩ | ⟨_, kept'⟩
  · simp only [taken, taken', usedBlocks_append, span_append,
      span_cons, span_nil, Chunk.extent_eq, usedBlocks, List.append_nil]
    congr 2
    omega
  · simp only [taken, kept', usedBlocks_append, span_append,
      span_cons, span_nil, Chunk.extent_eq, usedBlocks, List.append_nil]
    congr 2
    omega
  · simp only [kept, taken', usedBlocks_append, usedBlocks_cons_free]
    congr 2
    omega
  · simp only [kept, kept', usedBlocks_append, usedBlocks_cons_free]

/-- Every used chunk has its own address. -/
theorem usedBlocks_nodup (start : Nat) (chunks : List Chunk) :
    ((usedBlocks start chunks).map Prod.fst).Nodup := by
  have above : ∀ chunks start, ∀ address ∈ (usedBlocks start chunks).map
      Prod.fst, start ≤ address := by
    intro chunks start address member
    obtain ⟨⟨_, size⟩, listed, rfl⟩ := List.mem_map.mp member
    exact (mem_usedBlocks.mp listed).low
  induction chunks generalizing start with
  | nil => simp [usedBlocks]
  | cons chunk chunks ih =>
      obtain ⟨tag, size⟩ := chunk
      cases tag with
      | used =>
          refine List.nodup_cons.mpr ⟨fun member => ?_, ih _⟩
          have := above _ _ _ member
          omega
      | free => exact ih _
      | hole => exact ih _

end UsedBlocks

end NtShm
