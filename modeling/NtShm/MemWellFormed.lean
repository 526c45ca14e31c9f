import NtShm.MemRuns

/-!
# Well-formed arenas

What a reader of the raw memory sees after any run: walking by header sizes
tiles the arena, no two neighbouring chunks are free, and the bucket lists are
doubly linked lists of exactly the free chunks.
-/

namespace NtShm

open Tiling

/-- Walking from an address by header sizes meets these chunks and ends
exactly at `stop`. -/
def Walk (mem : Memory) (stop : Nat) : Nat → List Nat → Prop
  | address, [] => address = stop
  | address, node :: nodes =>
      node = address ∧
        Walk mem stop (address + chunkSize mem address + 2 * memSizeField) nodes

/-- A chunk whose header and trailer agree on a proper payload size. -/
structure ProperChunk (mem : Memory) (node : Nat) : Prop where
  aligned : chunkSize mem node % 8 = 0
  least : memMinAlloc ≤ chunkSize mem node
  words : mem.load node 8 =
    mem.load (node + memSizeField + chunkSize mem node) 8

/-- The arena is tiled by these chunks, and these are its bucket lists. -/
structure WellFormed (s : Arena) (nodes : List Nat)
    (lists : Nat → List Nat) : Prop where
  walk : Walk s.mem s.hiBound s.loBound nodes
  proper : ∀ node ∈ nodes, ProperChunk s.mem node
  coalesced : nodes.IsChain fun left right =>
    ¬ (freeChunk s.mem left = true ∧ freeChunk s.mem right = true)
  linked : ∀ index < memBucketCount,
    DoublyLinked.IsSegment 0 (memGetPrevChunk s.mem) (memGetNextChunk s.mem)
      0 (s.bucket index) (lists index)
  once : ∀ index < memBucketCount, (lists index).Nodup
  listed : ∀ index < memBucketCount, ∀ node, node ∈ lists index ↔
    node ∈ nodes ∧ freeChunk s.mem node = true ∧
      memBucketBySize (chunkSize s.mem node) = index

def chunkAddresses (start : Nat) : List Chunk → List Nat
  | [] => []
  | chunk :: chunks => start :: chunkAddresses (start + extent chunk) chunks

theorem mem_chunkAddresses {start node : Nat} {chunks : List Chunk} :
    node ∈ chunkAddresses start chunks ↔
      ∃ chunk, At start chunks node chunk := by
  induction chunks generalizing start with
  | nil => simp [chunkAddresses]
  | cons chunk chunks ih =>
      simp only [chunkAddresses, List.mem_cons, ih, at_cons]
      constructor
      · rintro (rfl | ⟨other, placed⟩)
        · exact ⟨chunk, Or.inl ⟨rfl, rfl⟩⟩
        · exact ⟨other, Or.inr placed⟩
      · rintro ⟨other, ⟨rfl, _⟩ | placed⟩
        · exact Or.inl rfl
        · exact Or.inr ⟨other, placed⟩

section Words

variable {mem : Memory} {start : Nat} {chunks : List Chunk}

theorem walk_chunkAddresses
    (sizes : ∀ address chunk, At start chunks address chunk →
      chunkSize mem address = chunk.size) :
    Walk mem (start + span chunks) start (chunkAddresses start chunks) := by
  induction chunks generalizing start with
  | nil => rfl
  | cons chunk chunks ih =>
      have head := sizes start chunk (at_cons.mpr (Or.inl ⟨rfl, rfl⟩))
      have tail := @ih (start + extent chunk) fun address other placed =>
        sizes address other (at_cons.mpr (Or.inr placed))
      refine ⟨rfl, ?_⟩
      rw [head]
      simpa [span_cons, Nat.add_assoc] using tail

theorem coalesced_chunkAddresses (settled : Settled chunks)
    (tags : ∀ address chunk, At start chunks address chunk →
      freeChunk mem address = decide (chunk.tag = .free)) :
    (chunkAddresses start chunks).IsChain fun left right =>
      ¬ (freeChunk mem left = true ∧ freeChunk mem right = true) := by
  induction chunks generalizing start with
  | nil => exact List.isChain_nil
  | cons chunk chunks ih =>
      obtain ⟨_, tailSettled, guarded⟩ := settled_cons.mp settled
      have tail := @ih (start + extent chunk) tailSettled
        fun address other placed =>
          tags address other (at_cons.mpr (Or.inr placed))
      refine List.isChain_cons.mpr ⟨?_, tail⟩
      cases chunks with
      | nil => simp [chunkAddresses]
      | cons next chunks =>
          have head := tags start chunk (at_cons.mpr (Or.inl ⟨rfl, rfl⟩))
          have second := tags (start + extent chunk) next
            (at_cons.mpr (Or.inr (at_cons.mpr (Or.inl ⟨rfl, rfl⟩))))
          rw [guarded_cons] at guarded
          simp only [chunkAddresses, List.head?_cons, Option.mem_def,
            Option.some.injEq, forall_eq', head, second, decide_eq_true_eq]
          exact fun both => guarded both.1 both.2

end Words

theorem Represents.wellFormed {kept : Nat → Prop} {content : Memory} {s : Arena}
    {chunks : List Chunk} (rep : Represents kept content s chunks)
    (settled : Settled chunks) :
    ∃ lists, WellFormed s (chunkAddresses s.loBound chunks) lists := by
  obtain ⟨lists, good⟩ := rep.lists
  have words (address : Nat) (chunk : Chunk)
      (placed : At s.loBound chunks address chunk) :=
    rep.chunkSize_of_placed placed (settled.solid chunk placed.mem)
  refine ⟨lists, ?_, ?_, ?_, good.linked, fun index inRange =>
    (good.linked index inRange).nodup, ?_⟩
  · have top : s.loBound + span chunks = s.hiBound := by
      rw [rep.tiles, rep.bounds.hi_eq]
      omega
    rw [← top]
    exact walk_chunkAddresses fun address chunk placed =>
      (words address chunk placed).1
  · intro node member
    obtain ⟨chunk, placed⟩ := mem_chunkAddresses.mp member
    have sizeEq := (words node chunk placed).1
    have bounds := rep.placed_bounds placed
    obtain ⟨head, tail⟩ :=
      rep.words node chunk placed (settled.solid chunk placed.mem)
    refine ⟨by omega, by simp; omega, ?_⟩
    rw [sizeEq, memSizeField_eq, head, tail]
  · exact coalesced_chunkAddresses settled fun address chunk placed =>
      (words address chunk placed).2.2.1
  · intro index inRange node
    rw [good.members index inRange node]
    constructor
    · rintro ⟨size, placed, inBucket⟩
      obtain ⟨sizeEq, _, freeEq, _⟩ := words node _ placed
      refine ⟨mem_chunkAddresses.mpr ⟨_, placed⟩, by simp [freeEq], ?_⟩
      rw [sizeEq]
      exact inBucket
    · rintro ⟨member, isFree, inBucket⟩
      obtain ⟨⟨tag, size⟩, placed⟩ := mem_chunkAddresses.mp member
      obtain ⟨sizeEq, _, freeEq, _⟩ := words node _ placed
      rw [freeEq, decide_eq_true_eq] at isFree
      simp only at isFree sizeEq
      subst isFree
      rw [sizeEq] at inBucket
      exact ⟨size, placed, inBucket⟩

theorem Settled.single_of_unused {lo : Nat} {chunks : List Chunk}
    (settled : Settled chunks) (nonempty : chunks ≠ [])
    (unused : usedBlocks lo chunks = []) : ∃ size, chunks = [⟨.free, size⟩] := by
  have isFree : ∀ chunk ∈ chunks, chunk.tag = .free := by
    intro chunk member
    obtain ⟨before, after, rfl⟩ := List.append_of_mem member
    obtain ⟨tag, size⟩ := chunk
    cases tag with
    | free => rfl
    | used => simp [usedBlocks_used] at unused
    | hole => exact (settled.solid _ member rfl).elim
  rcases chunks with _ | ⟨⟨tag, size⟩, _ | ⟨second, chunks⟩⟩
  · exact (nonempty rfl).elim
  · obtain rfl : tag = .free := isFree ⟨tag, size⟩ (by simp)
    exact ⟨size, rfl⟩
  · obtain ⟨_, _, guarded⟩ := settled_cons.mp settled
    have notFree := guarded (isFree _ (by simp))
    rw [guarded_cons] at notFree
    exact (notFree (isFree second (by simp))).elim

/-- Every call of the allocator returns, unless the process heap fails. -/
structure Answers (h : Heap) : Prop where
  malloc : ∀ size ≤ memMaxSize, ∃ result, memMalloc h.arena size = .ok result
  realloc : ∀ old ∈ h.live, ∀ size ≤ memMaxSize,
    ∃ result, memRealloc true h.arena old size = .ok result

theorem Serves.answers {h : Heap} {chunks : List Chunk}
    (serves : Serves h chunks) : Answers h := by
  refine ⟨fun size bound => ?_, fun old held size bound => ?_⟩
  · rcases serves.malloc bound with null | ⟨_, _, _, _, found, _⟩
    · exact ⟨_, null⟩
    · exact ⟨_, found⟩
  · rcases serves.realloc held bound true with
      null | ⟨isFalse, _⟩ | ⟨_, _, _, _, found, _⟩
    · exact ⟨_, null⟩
    · cases isFalse
    · exact ⟨_, found⟩

/-- After any run from a fresh arena the heap is well formed and all calls
return; when nothing is live, the arena is a single free chunk again. -/
theorem heapRun_wellFormed {start : Arena} (fresh : FreshArena start) {h : Heap}
    (run : HeapRun start h) :
    (∃ nodes lists, WellFormed h.arena nodes lists) ∧ Answers h ∧
      (h.live = [] → ∃ lists, WellFormed h.arena [start.loBound] lists ∧
        freeChunk h.arena.mem start.loBound = true ∧
        chunkSize h.arena.mem start.loBound = start.totalSize) := by
  obtain ⟨chunks, serves, same⟩ := run.serves fresh
  obtain ⟨lists, wellFormed⟩ := serves.represents.wellFormed serves.settled
  refine ⟨⟨_, lists, wellFormed⟩, serves.answers, fun nothing => ?_⟩
  have tiles := serves.represents.tiles
  have unused : usedBlocks h.arena.loBound chunks = [] := by
    have perm := serves.live
    rw [nothing] at perm
    exact List.map_eq_nil_iff.mp perm.nil_eq.symm
  have nonempty : chunks ≠ [] := by
    rintro rfl
    simp at tiles
  obtain ⟨size, rfl⟩ := serves.settled.single_of_unused nonempty unused
  have sizeEq : size = start.totalSize := by
    simp only [span_cons, span_nil, Chunk.extent_eq] at tiles
    have := same.2.2.2
    omega
  obtain ⟨chunkSizeEq, _, isFree, _⟩ := serves.represents.chunkSize_of_placed
    (at_cons.mpr (Or.inl ⟨rfl, rfl⟩)) (by simp)
  rw [same.2.1] at chunkSizeEq isFree wellFormed
  exact ⟨lists, wellFormed, by simpa using isFree, chunkSizeEq.trans sizeEq⟩

theorem heapRun_wellFormed_smallArena :
    ∃ h s, HeapRun smallArena h ∧ memMalloc smallArena 100 = .ok (336, s) ∧
      h = ⟨memFree s 344, []⟩ ∧
      ∃ lists, WellFormed h.arena [smallArena.loBound] lists ∧
        freeChunk h.arena.mem smallArena.loBound = true ∧
        chunkSize h.arena.mem smallArena.loBound = smallArena.totalSize := by
  obtain ⟨s, returned⟩ := smallArena_malloc
  have run : HeapRun smallArena ⟨memFree s 344, []⟩ :=
    (smallArena_run returned).tail (@HeapStep.free ⟨s, [344]⟩ 344 (by simp))
  exact ⟨_, s, run, returned, rfl,
    (heapRun_wellFormed smallArena_fresh run).2.2 rfl⟩

end NtShm
