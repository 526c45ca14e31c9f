import NtShm.MemSeparation

/-!
# The functions for memory in an arena

`nt_mem_malloc`, `nt_mem_realloc` and `nt_mem_free` as the containers call them.  What they
give out is recorded with the arena, and what belongs to others stays as it is.
-/

namespace NtShm

/-- Why a call does not come back: it stops, or it reaches for memory that is not its own. -/
inductive CallEnd where
  | stops (stop : Stop)
  | faults
  deriving DecidableEq, Repr

/-- An access that may be outside of its structure. -/
def orFaults {α : Type*} : Option α → Except CallEnd α
  | some value => .ok value
  | none => .error .faults

@[simp] theorem orFaults_some {α : Type*} (value : α) : orFaults (some value) = .ok value := rfl

namespace CallEnd

variable {α β : Type}

@[simp] theorem ok_bind (value : α) (next : α → Except CallEnd β) :
    (Except.ok value >>= next) = next value := rfl

@[simp] theorem error_bind (ending : CallEnd) (next : α → Except CallEnd β) :
    ((Except.error ending : Except CallEnd α) >>= next) = .error ending := rfl

end CallEnd

/-- What `nt_mem_malloc` and `nt_mem_realloc` do with a chunk, where `live` are the blocks
without the old one. -/
def givenOut (heap : Heap) (live : List Nat) :
    Except Stop (Nat × Arena) → Except CallEnd (Option Nat × Heap)
  | .error stop => .error (.stops stop)
  | .ok (chunk, arena) =>
      if chunk = 0 then
        if arena.allowOom = 1 then .ok (none, ⟨arena, heap.live⟩) else .error (.stops .exit)
      else .ok (some (chunk + memSizeField), ⟨arena, (chunk + memSizeField) :: live⟩)

/-- `nt_mem_malloc`. -/
def ntMemMalloc (heap : Heap) (size : Nat) : Except CallEnd (Option Nat × Heap) :=
  if size = 0 ∨ memMaxSize < size then .error (.stops .exit)
  else givenOut heap heap.live (memMalloc heap.arena size)

/-- `nt_mem_realloc`. -/
def ntMemRealloc (heapServes : Bool) (heap : Heap) (old : Option Nat) (size : Nat) :
    Except CallEnd (Option Nat × Heap) :=
  if size = 0 ∨ memMaxSize < size then .error (.stops .exit)
  else
    match old with
    | none => givenOut heap heap.live (memMalloc heap.arena size)
    | some old =>
        givenOut heap (heap.live.erase old) (memRealloc heapServes heap.arena old size)

/-- `nt_mem_free` of a block. -/
def ntMemFree (heap : Heap) (block : Nat) : Heap :=
  ⟨memFree heap.arena block, heap.live.erase block⟩

/-- A block was given out, and these blocks were left alone. -/
structure GivenOut (heap : Heap) (others : List Nat) (size block : Nat) (heap' : Heap) :
    Prop where
  serves : ∃ chunks, Serves heap' chunks
  same : heap.arena.SameBounds heap'.arena
  live : heap'.live = block :: others
  room : size ≤ payloadSize heap'.arena.mem block
  kept : PayloadsKept heap.arena.mem heap'.arena.mem others

/-- Nothing changed: the process ends, or the answer is NULL. -/
def Refuses (heap : Heap) (answer : Except CallEnd (Option Nat × Heap)) : Prop :=
  answer = .error (.stops .exit) ∨ answer = .ok (none, heap)

section Calls

variable {heap : Heap} {chunks : List Chunk}

theorem refuses_givenOut (heap : Heap) (live : List Nat) :
    Refuses heap (givenOut heap live (.ok (0, heap.arena))) := by
  rw [givenOut, if_pos rfl]
  split
  · exact Or.inr rfl
  · exact Or.inl rfl

theorem givenOut_of_serves {live : List Nat} {size chunk newSize : Nat} {arena : Arena}
    (bound : size ≤ memMaxSize) (nonnull : chunk ≠ 0)
    (same : heap.arena.SameBounds arena) {chunks' : List Chunk}
    (serves : Serves ⟨arena, (chunk + 8) :: live⟩ chunks')
    (listed : (chunk, newSize) ∈ usedBlocks arena.loBound chunks')
    (room : memProperAllocSize size ≤ newSize)
    (kept : PayloadsKept heap.arena.mem arena.mem live) :
    ∃ block heap', givenOut heap live (.ok (chunk, arena)) = .ok (some block, heap') ∧
      GivenOut heap live size block heap' := by
  refine ⟨chunk + memSizeField, ⟨arena, (chunk + memSizeField) :: live⟩, ?_, ?_⟩
  · rw [givenOut, if_neg nonnull]
  · refine ⟨⟨chunks', serves⟩, same, rfl, ?_, kept⟩
    have covers := (memProperAllocSize_spec bound).covers
    rw [memSizeField_eq]
    change size ≤ payloadSize arena.mem (chunk + 8)
    rw [serves.represents.payloadSize_of_used listed]
    exact covers.trans room

theorem ntMemMalloc_spec (serves : Serves heap chunks) (size : Nat) :
    Refuses heap (ntMemMalloc heap size) ∨
      ∃ block heap', ntMemMalloc heap size = .ok (some block, heap') ∧
        GivenOut heap heap.live size block heap' := by
  rw [ntMemMalloc]
  by_cases bad : size = 0 ∨ memMaxSize < size
  · rw [if_pos bad]
    exact Or.inl (Or.inl rfl)
  · rw [if_neg bad]
    have bound : size ≤ memMaxSize := Nat.not_lt.mp fun large => bad (Or.inr large)
    rcases serves.malloc bound with
      null | ⟨chunk, arena, chunks', newSize, found, nonnull, same, serves', listed, room, -,
        kept⟩
    · rw [null]
      exact Or.inl (refuses_givenOut heap heap.live)
    · rw [found]
      exact Or.inr (givenOut_of_serves bound nonnull same serves' listed room kept)

theorem ntMemRealloc_spec (serves : Serves heap chunks) {old : Nat} (held : old ∈ heap.live)
    (heapServes : Bool) (size : Nat) :
    Refuses heap (ntMemRealloc heapServes heap (some old) size) ∨
      ∃ block heap', ntMemRealloc heapServes heap (some old) size = .ok (some block, heap') ∧
        GivenOut heap (heap.live.erase old) size block heap' := by
  rw [ntMemRealloc]
  by_cases bad : size = 0 ∨ memMaxSize < size
  · rw [if_pos bad]
    exact Or.inl (Or.inl rfl)
  · rw [if_neg bad]
    have bound : size ≤ memMaxSize := Nat.not_lt.mp fun large => bad (Or.inr large)
    rcases serves.realloc held bound heapServes with
      null | ⟨-, exits⟩ | ⟨chunk, arena, chunks', newSize, found, nonnull, same, serves', listed,
        room, kept⟩
    · rw [null]
      exact Or.inl (refuses_givenOut heap _)
    · rw [exits]
      exact Or.inl (Or.inl rfl)
    · rw [found]
      exact Or.inr (givenOut_of_serves bound nonnull same serves' listed room kept)

theorem ntMemFree_spec (serves : Serves heap chunks) {block : Nat} (held : block ∈ heap.live) :
    (∃ chunks', Serves (ntMemFree heap block) chunks') ∧
      heap.arena.SameBounds (ntMemFree heap block).arena ∧
      PayloadsKept heap.arena.mem (ntMemFree heap block).arena.mem (heap.live.erase block) := by
  obtain ⟨chunks', same, serves', kept⟩ := serves.free held
  exact ⟨⟨chunks', serves'⟩, same, kept⟩

end Calls

end NtShm
