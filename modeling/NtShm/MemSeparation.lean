import NtShm.MemRuns

/-!
# Separation of live blocks

No two live blocks overlap, each lies inside the arena, and an operation
changes no byte of a live block other than its operand.
-/

namespace NtShm

open Tiling

/-- A block that the allocator has just handed out, next to the other live
blocks, in an arena that starts as `start`. -/
structure SeparateBlock (start : Arena) (mem : Memory) (others : List Nat)
    (block size : Nat) : Prop where
  aligned : block % 8 = 0
  above : start.loBound < block
  below : block + payloadSize mem block < start.hiBound
  room : size ≤ payloadSize mem block
  apart : ∀ other ∈ others,
    block + payloadSize mem block ≤ other ∨
      other + payloadSize mem other ≤ block

namespace Serves

variable {h : Heap} {chunks : List Chunk}

theorem live_nodup (serves : Serves h chunks) : h.live.Nodup := by
  refine serves.live.nodup_iff.mpr ?_
  have addresses := usedBlocks_nodup h.arena.loBound chunks
  have shifted := addresses.map fun first second equal =>
    Nat.add_right_cancel (m := 8) equal
  rwa [List.map_map] at shifted

theorem live_apart (serves : Serves h chunks) {block other : Nat}
    (held : block ∈ h.live) (held' : other ∈ h.live) (ne : block ≠ other) :
    block + payloadSize h.arena.mem block ≤ other ∨
      other + payloadSize h.arena.mem other ≤ block := by
  obtain ⟨⟨node, size⟩, listed, rfl⟩ :=
    List.mem_map.mp (serves.live.mem_iff.mp held)
  obtain ⟨⟨node', size'⟩, listed', rfl⟩ :=
    List.mem_map.mp (serves.live.mem_iff.mp held')
  rw [serves.represents.payloadSize_of_used listed,
    serves.represents.payloadSize_of_used listed']
  have disjoint := (mem_usedBlocks.mp listed).disjoint
    (mem_usedBlocks.mp listed') (by simp only at ne; omega)
  simp only [Chunk.extent_eq] at disjoint ⊢
  omega

theorem separateBlock {start s : Arena} {node size newSize : Nat}
    {others : List Nat} (serves : Serves ⟨s, (node + 8) :: others⟩ chunks)
    (same : start.SameBounds s)
    (listed : (node, newSize) ∈ usedBlocks s.loBound chunks)
    (room : size ≤ newSize) :
    SeparateBlock start s.mem others (node + 8) size := by
  have rep := serves.represents
  have placed := mem_usedBlocks.mp listed
  have bounds := rep.placed_bounds placed
  have aligned := rep.placed_aligned placed
  have sizeEq := rep.payloadSize_of_used listed
  simp only [same.2.1, same.2.2.1] at bounds aligned sizeEq
  refine ⟨by omega, by omega, by omega, by omega, fun other member => ?_⟩
  refine serves.live_apart (by simp) (by simp [member]) ?_
  rintro rfl
  exact (List.nodup_cons.mp serves.live_nodup).1 member

end Serves

/-- What one more operation does after any run from a fresh arena. -/
theorem heapRun_separate {start : Arena} (fresh : FreshArena start) {h : Heap}
    (run : HeapRun start h) :
    (∀ size ≤ memMaxSize, ∃ chunk s,
      memMalloc h.arena size = .ok (chunk, s) ∧
        (chunk ≠ 0 →
          SeparateBlock start s.mem h.live (chunk + memSizeField) size ∧
            payloadSize s.mem (chunk + memSizeField) <
              memProperAllocSize size + 40) ∧
        PayloadsKept h.arena.mem s.mem h.live) ∧
    (∀ heapServes, ∀ old ∈ h.live, ∀ size ≤ memMaxSize,
      (heapServes = false ∧
          memRealloc heapServes h.arena old size = .error .exit) ∨
        ∃ chunk s, memRealloc heapServes h.arena old size = .ok (chunk, s) ∧
          (chunk = 0 → s = h.arena) ∧
          (chunk ≠ 0 →
            SeparateBlock start s.mem (h.live.erase old)
              (chunk + memSizeField) size) ∧
          PayloadsKept h.arena.mem s.mem (h.live.erase old)) ∧
    ∀ old ∈ h.live,
      PayloadsKept h.arena.mem (memFree h.arena old).mem (h.live.erase old) := by
  obtain ⟨chunks, serves, same⟩ := run.serves fresh
  have nothingChanged : ∀ blocks, PayloadsKept h.arena.mem h.arena.mem blocks :=
    fun _ _ _ => ⟨rfl, fun _ _ _ => rfl⟩
  refine ⟨fun size bound => ?_, fun heapServes old held size bound => ?_,
    fun old held => ?_⟩
  · have proper := memProperAllocSize_spec bound
    rcases serves.malloc bound with
      null | ⟨chunk, s, chunks', newSize, found, _, same', serves', listed, room,
        limit, kept⟩
    · exact ⟨0, h.arena, null, fun nonnull => (nonnull rfl).elim,
        nothingChanged _⟩
    · have sizeEq := serves'.represents.payloadSize_of_used listed
      refine ⟨chunk, s, found, fun _ => ⟨serves'.separateBlock (same.trans same') listed
        (proper.covers.trans room), ?_⟩, kept⟩
      rw [memSizeField_eq, sizeEq]
      exact limit
  · have proper := memProperAllocSize_spec bound
    rcases serves.realloc held bound heapServes with
      null | exits | ⟨chunk, s, chunks', newSize, found, nonnull, same', serves',
        listed, room, kept⟩
    · exact Or.inr ⟨0, h.arena, null, fun _ => rfl,
        fun nonnull => (nonnull rfl).elim, nothingChanged _⟩
    · exact Or.inl exits
    · exact Or.inr ⟨chunk, s, found, fun null => (nonnull null).elim,
        fun _ => serves'.separateBlock (same.trans same') listed
          (proper.covers.trans room), kept⟩
  · obtain ⟨_, _, _, kept⟩ := serves.free held
    exact kept

/-- A third block beside two live ones, a reallocation that moves the first of them, and
its release; each time the byte that a client wrote into the second one stays. -/
theorem heapRun_separate_twoBlocks :
    ∃ s malloced realloced, HeapRun smallArena ⟨s, [384, 344]⟩ ∧ s.mem 384 = 7 ∧
      memMalloc s 40 = .ok (424, malloced) ∧
      SeparateBlock smallArena malloced.mem [384, 344] 432 40 ∧ malloced.mem 384 = 7 ∧
      memRealloc true s 344 100 = .ok (424, realloced) ∧
      SeparateBlock smallArena realloced.mem [384] 432 100 ∧ realloced.mem 384 = 7 ∧
      (memFree s 344).mem 384 = 7 := by
  obtain ⟨s, isTwo, run, written⟩ := twoBlocks_run
  have evaluates : twoBlocks.map (fun s => (payloadSize s.mem 384,
      (memMalloc s 40).toOption.map Prod.fst,
      (memRealloc true s 344 100).toOption.map Prod.fst)) = some (32, some 424, some 424) := by
    decide +kernel
  rw [isTwo, Option.map_some, Option.some.injEq, Prod.mk.injEq, Prod.mk.injEq] at evaluates
  obtain ⟨size, mallocs, reallocs⟩ := evaluates
  obtain ⟨malloced, mallocs⟩ := exists_of_chunk mallocs
  obtain ⟨realloced, reallocs⟩ := exists_of_chunk reallocs
  have stays {mem : Memory} {blocks : List Nat} (kept : PayloadsKept s.mem mem blocks)
      (isBlock : 384 ∈ blocks) : mem 384 = 7 := by
    rw [(kept 384 isBlock).2 384 le_rfl (by omega), written]
  obtain ⟨malloc, realloc, free⟩ := heapRun_separate smallArena_fresh run
  obtain ⟨_, _, returned, separate, kept⟩ := malloc 40 (by decide)
  cases mallocs.symm.trans returned
  rcases realloc true 344 (by simp) 100 (by decide) with
    ⟨fails, -⟩ | ⟨_, _, returned', -, separate', kept'⟩
  · cases fails
  · cases reallocs.symm.trans returned'
    exact ⟨s, malloced, realloced, run, written, mallocs, (separate (by decide)).1,
      stays kept (by simp), reallocs, separate' (by decide), stays kept' (by simp),
      stays (free 344 (by simp)) (by simp)⟩

end NtShm
