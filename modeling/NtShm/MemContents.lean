import NtShm.MemRuns

/-!
# What a reallocated block holds

Whichever way `__mem_realloc` takes, the block it returns begins with the bytes
of the old one, as many as both have room for.
-/

namespace NtShm

open Tiling

theorem Serves.realloc_contents {h : Heap} {chunks : List Chunk}
    (serves : Serves h chunks) {old size chunk : Nat} {s : Arena} {heapServes : Bool}
    (held : old ∈ h.live) (bound : size ≤ memMaxSize)
    (returned : memRealloc heapServes h.arena old size = .ok (chunk, s))
    (nonnull : chunk ≠ 0) :
    memProperAllocSize size ≤ payloadSize s.mem (chunk + 8) ∧
      ∀ offset < payloadSize h.arena.mem old, offset < memProperAllocSize size →
        s.mem (chunk + 8 + offset) = h.arena.mem (old + offset) := by
  obtain ⟨before, oldSize, after, rfl, rfl⟩ := serves.live_split held
  generalize nodeEq : h.arena.loBound + span before = node at returned ⊢
  have rep := serves.represents
  have listed : (node, oldSize) ∈ usedBlocks h.arena.loBound
      (before ++ ⟨.used, oldSize⟩ :: after) := mem_usedBlocks.mpr (at_middle nodeEq.symm)
  rw [rep.payloadSize_of_used listed]
  rcases rep.realloc_spec heapServes serves.settled nodeEq.symm (fun _ => False.elim)
      (memProperAllocSize_spec bound) rfl with
    ⟨-, -, -, null⟩ | ⟨-, exits⟩ | ⟨new, s', found, -, reallocated⟩
  · rw [null] at returned
    cases returned
    exact absurd rfl nonnull
  · rw [exits] at returned
    cases returned
  · rw [found] at returned
    cases returned
    obtain ⟨chunks', newSize, rep', -, room, blocks⟩ := reallocated.block
    have listed' : (chunk, newSize) ∈ usedBlocks s.loBound chunks' := by
      rw [reallocated.same.2.1, blocks.mem_iff]
      exact List.mem_cons_self
    rw [rep'.payloadSize_of_used listed']
    exact ⟨room, reallocated.contents⟩

/-- After any run, a reallocation that returns a block keeps the bytes of the old
one. -/
theorem heapRun_realloc_contents {start : Arena} (fresh : FreshArena start) {h : Heap}
    (run : HeapRun start h) {old size chunk : Nat} {s : Arena} {heapServes : Bool}
    (held : old ∈ h.live) (bound : size ≤ memMaxSize)
    (returned : memRealloc heapServes h.arena old size = .ok (chunk, s))
    (nonnull : chunk ≠ 0) :
    size ≤ payloadSize s.mem (chunk + memSizeField) ∧
      ∀ offset < min (payloadSize h.arena.mem old) size,
        s.mem (chunk + memSizeField + offset) = h.arena.mem (old + offset) := by
  obtain ⟨chunks, serves, -⟩ := run.serves fresh
  have covers := (memProperAllocSize_spec bound).covers
  obtain ⟨room, contents⟩ := serves.realloc_contents held bound returned nonnull
  refine ⟨covers.trans room, fun offset inRange => ?_⟩
  rw [lt_min_iff] at inRange
  exact contents offset inRange.1 (inRange.2.trans_le covers)

theorem smallArena_realloc : ∃ s s', memMalloc smallArena 100 = .ok (336, s) ∧
    memRealloc true s 344 200 = .ok (336, s') := by
  obtain ⟨s, returned⟩ := smallArena_malloc
  have found : ((memMalloc smallArena 100).toOption.bind fun value =>
      (memRealloc true value.2 344 200).toOption.map Prod.fst) = some 336 := by
    decide +kernel
  rw [returned] at found
  change (memRealloc true s 344 200).toOption.map Prod.fst = some 336 at found
  cases result : memRealloc true s 344 200 with
  | error stop => simp [result, Except.toOption] at found
  | ok value =>
      obtain ⟨chunk, s'⟩ := value
      obtain rfl : chunk = 336 := by simpa [result, Except.toOption] using found
      exact ⟨s, s', returned, result⟩

theorem heapRun_realloc_contents_smallArena :
    ∃ h s, HeapRun smallArena h ∧ 344 ∈ h.live ∧
      memRealloc true h.arena 344 200 = .ok (336, s) ∧
      200 ≤ payloadSize s.mem 344 ∧
      ∀ offset < min (payloadSize h.arena.mem 344) 200,
        s.mem (344 + offset) = h.arena.mem (344 + offset) := by
  obtain ⟨s, s', returned, returned'⟩ := smallArena_realloc
  have run := smallArena_run returned
  have held : 344 ∈ (⟨s, [344]⟩ : Heap).live := List.mem_singleton_self 344
  exact ⟨_, s', run, held, returned', heapRun_realloc_contents smallArena_fresh run held
    (by decide) returned' (by decide)⟩

end NtShm
