import NtShm.MemReallocation
import Mathlib.Logic.Relation

/-!
# Runs of the allocator

A client calls the allocator with any requests, gives back blocks that it
holds, and writes whatever it likes into them.  The invariant of such a run is
that the arena is represented by a settled chunk list whose used chunks are
exactly the live blocks.
-/

namespace NtShm

open Tiling

/-- What `nt_mem_create` sets up and `nt_mem_clear` goes back to: one free
chunk. -/
structure FreshArena (s : Arena) : Prop where
  bounds : ArenaBounds s.toNtMemInfo
  header : s.mem.load s.loBound 8 = s.totalSize
  trailer : s.mem.load (s.loBound + 8 + s.totalSize) 8 = s.totalSize
  prev : memGetPrevChunk s.mem s.loBound = 0
  next : memGetNextChunk s.mem s.loBound = 0
  buckets : ∀ index < 30, s.bucket index =
    if index = memBucketBySize s.totalSize then s.loBound else 0
  usedSize : s.usedSize = 0
  freeSize : s.freeSize = s.totalSize

theorem FreshArena.represents {s : Arena} (fresh : FreshArena s)
    (content : Memory) :
    Represents (fun _ => False) content s [⟨.free, s.totalSize⟩] := by
  have lo_pos := fresh.bounds.lo_pos
  refine ⟨fresh.bounds, by simp, ?_, ?_, ⟨fun index =>
    if index = memBucketBySize s.totalSize then [s.loBound] else [], ?_, ?_⟩,
    fun _ => False.elim, fun _ => False.elim⟩
  · simpa using ⟨fresh.bounds.total_aligned, fresh.bounds.total_least⟩
  · intro address chunk placed _
    simp only [at_cons, at_nil, or_false] at placed
    obtain ⟨rfl, rfl⟩ := placed
    exact ⟨fresh.header, fresh.trailer⟩
  · intro index inRange
    rw [fresh.buckets index inRange]
    split_ifs
    · exact ⟨rfl, by omega, fresh.prev, fresh.next⟩
    · rfl
  · intro index _ address
    simp only [at_cons, at_nil, or_false, Chunk.mk.injEq, true_and]
    split_ifs with same
    · subst same
      simp
    · simp only [List.not_mem_nil, false_iff, not_exists, not_and]
      rintro size ⟨_, rfl⟩ isIndex
      exact same isIndex.symm

theorem ArenaBounds.bucketField_low {info : NtMemInfo} (bounds : ArenaBounds info)
    {index : Nat} (inRange : index < 30) :
    info.buckets ≤ info.bucketField index ∧
      info.bucketField index + 8 ≤ info.buckets + 240 ∧
      info.bucketField index + 8 ≤ info.loBound := by
  have low := bounds.buckets_low
  simp only [NtMemInfo.bucketField, ntPtrSize_eq]
  omega

theorem memSetFirstChunk_mem {s : Arena} (bounds : ArenaBounds s.toNtMemInfo) :
    (memSetFirstChunk s).mem =
      memSetNextChunk (memSetPrevChunk (setSizeWords
        (s.mem.store (s.bucketField (memBucketBySize s.totalSize)) 8 s.loBound)
        s.loBound s.totalSize s.totalSize) s.loBound 0) s.loBound 0 := by
  have low := (bounds.bucketField_low (memBucketBySize_lt s.totalSize)).2.2
  have lo_lt : s.loBound < 2 ^ 64 := by
    have := bounds.hi_eq
    have := bounds.hi_lt
    omega
  set field := s.bucketField (memBucketBySize s.totalSize) with fieldEq
  set first := s.mem.store field 8 s.loBound with firstEq
  set sized := setSizeWords first s.loBound s.totalSize s.totalSize with sizedEq
  have firstField : first.load field 8 = s.loBound :=
    Memory.load_store_same (by norm_num; omega)
  have sizedField : sized.load field 8 = s.loBound := by
    rw [sizedEq, load_setSizeWords_of_outside (by omega), firstField]
  have prevField : (memSetPrevChunk sized s.loBound 0).load field 8 =
      s.loBound := by
    rw [memSetPrevChunk, Memory.load_store_of_disjoint (by simp; omega),
      sizedField]
  simp only [memSetFirstChunk, ← fieldEq, ← firstEq, firstField,
    memSetChunkSize_eq, ← sizedEq, sizedField, prevField]

theorem memSetFirstChunk_of_outside {s : Arena}
    (bounds : ArenaBounds s.toNtMemInfo) {position : Nat}
    (outside : position < s.buckets ∨ s.buckets + 240 ≤ position)
    (low : position < s.loBound) :
    (memSetFirstChunk s).mem position = s.mem position := by
  have field := bounds.bucketField_low (memBucketBySize_lt s.totalSize)
  rw [memSetFirstChunk_mem bounds, memSetNextChunk,
    Memory.store_of_outside (by simp; omega), memSetPrevChunk,
    Memory.store_of_outside (by simp; omega),
    setSizeWords_of_outside (Or.inl low), Memory.store_of_outside (by omega)]

theorem memSetFirstChunk_fresh {s : Arena} (bounds : ArenaBounds s.toNtMemInfo)
    (empty : ∀ index < 30, s.bucket index = 0) :
    FreshArena (memSetFirstChunk s) := by
  obtain ⟨lo_pos, _, _, least, small, hi_eq, hi_lt, _⟩ := id bounds
  rw [memMaxSize_eq] at small
  have memEq := memSetFirstChunk_mem bounds
  set first := s.mem.store (s.bucketField (memBucketBySize s.totalSize)) 8
    s.loBound with firstEq
  set sized := setSizeWords first s.loBound s.totalSize s.totalSize with sizedEq
  have loadEq : ∀ address, address + 8 ≤ s.loBound + 8 ∨
      s.loBound + 24 ≤ address →
      (memSetFirstChunk s).mem.load address 8 = sized.load address 8 := by
    intro address outside
    rw [memEq, memSetNextChunk, Memory.load_store_of_disjoint (by simp; omega),
      memSetPrevChunk, Memory.load_store_of_disjoint (by simp; omega)]
  have totalFits : s.totalSize < 2 ^ 64 := by omega
  obtain ⟨header, trailer⟩ :=
    load_setSizeWords first s.loBound s.totalSize totalFits
  have same : s.SameBounds (memSetFirstChunk s) := ⟨rfl, rfl, rfl, rfl⟩
  refine ⟨bounds.of_same same, ?_, ?_, ?_, ?_, fun index indexRange => ?_,
    rfl, rfl⟩
  · exact (loadEq s.loBound (by omega)).trans header
  · exact (loadEq (s.loBound + 8 + s.totalSize) (by omega)).trans trailer
  · change memGetPrevChunk (memSetFirstChunk s).mem s.loBound = 0
    rw [memEq, memGetPrevChunk_setNext (Or.inl rfl),
      memGetPrevChunk_setPrev (Or.inl rfl) (by norm_num), if_pos rfl]
  · change memGetNextChunk (memSetFirstChunk s).mem s.loBound = 0
    rw [memEq, memGetNextChunk_setNext (Or.inl rfl) (by norm_num), if_pos rfl]
  · have indexLow := (bounds.bucketField_low indexRange).2.2
    have fields := bucketField_cases s.toNtMemInfo index
      (memBucketBySize s.totalSize)
    have same := bucketField_inj s.toNtMemInfo index
      (memBucketBySize s.totalSize)
    change (memSetFirstChunk s).mem.load (s.bucketField index) 8 =
      if index = memBucketBySize s.totalSize then s.loBound else 0
    rw [loadEq _ (by omega), sizedEq, load_setSizeWords_of_outside (by omega),
      firstEq]
    split_ifs with isFirst
    · rw [same.mpr isFirst]
      exact Memory.load_store_same (by norm_num; omega)
    · have := isFirst ∘ same.mp
      rw [Memory.load_store_of_disjoint (by omega)]
      exact empty index indexRange

theorem ntMemClear_fresh {s : Arena} (bounds : ArenaBounds s.toNtMemInfo) :
    FreshArena (ntMemClear s) := by
  refine memSetFirstChunk_fresh (s := { s with
    mem := s.mem.fill s.buckets (memBucketCount * ntPtrSize) fun _ => 0 })
    bounds fun index inRange => ?_
  refine Memory.load_eq_zero fun position low high => ?_
  simp only [NtMemInfo.bucketField, ntPtrSize_eq] at low high
  exact if_pos ⟨by omega, by
    simp only [memBucketCount_eq, ntPtrSize_eq]
    omega⟩

/-- An arena with room for a payload of 240 bytes. -/
def smallArena : Arena :=
  memSetFirstChunk
    { buckets := 88
      loBound := 336
      hiBound := 592
      freeSize := 0
      usedSize := 0
      origSize := 593
      totalSize := 240
      shmId := 0
      allowOom := 0
      memDescr := 328
      memParam := 329
      mem := fun _ => 0 }

theorem smallArena_fresh : FreshArena smallArena :=
  memSetFirstChunk_fresh
    ⟨by decide, by decide, by decide, by decide, by decide, by decide,
      by decide, by decide⟩
    fun _ _ => Memory.load_eq_zero fun _ _ _ => rfl

theorem toOption_ok_bind {α : Type} (value : Nat × Arena) (next : Nat × Arena → Option α) :
    (Except.ok value : Except Stop (Nat × Arena)).toOption.bind next = next value := rfl

theorem exists_of_chunk {answer : Except Stop (Nat × Arena)} {chunk : Nat}
    (found : answer.toOption.map Prod.fst = some chunk) : ∃ s, answer = .ok (chunk, s) := by
  cases answer with
  | error stop => cases found
  | ok value =>
      cases found
      exact ⟨value.2, rfl⟩

theorem smallArena_malloc : ∃ s, memMalloc smallArena 100 = .ok (336, s) :=
  exists_of_chunk (by decide +kernel)

def twoBlocks : Option Arena :=
  (memMalloc smallArena 24).toOption.bind fun first =>
    (memMalloc first.2 32).toOption.map fun second =>
      { second.2 with mem := Function.update second.2.mem 384 7 }

def payloadSize (mem : Memory) (block : Nat) : Nat :=
  chunkSize mem (block - memSizeField)

/-- The allocator together with the blocks that its clients hold, by the
addresses they were given. -/
structure Heap where
  arena : Arena
  live : List Nat

/-- One call of a client, or one change of a client to a block it holds.
Neither a call that fails to return nor one with a request above the maximum
is a step. -/
inductive HeapStep : Heap → Heap → Prop
  | malloc {h : Heap} {size chunk : Nat} {s : Arena} (bound : size ≤ memMaxSize)
      (returned : memMalloc h.arena size = .ok (chunk, s)) :
      HeapStep h
        ⟨s, if chunk = 0 then h.live else (chunk + memSizeField) :: h.live⟩
  | realloc {h : Heap} {heapServes : Bool} {old size chunk : Nat} {s : Arena}
      (held : old ∈ h.live) (bound : size ≤ memMaxSize)
      (returned : memRealloc heapServes h.arena old size = .ok (chunk, s)) :
      HeapStep h
        ⟨s, if chunk = 0 then h.live
          else (chunk + memSizeField) :: h.live.erase old⟩
  | free {h : Heap} {old : Nat} (held : old ∈ h.live) :
      HeapStep h ⟨memFree h.arena old, h.live.erase old⟩
  | clear {h : Heap} : HeapStep h ⟨ntMemClear h.arena, []⟩
  | write {h : Heap} {block : Nat} {mem : Memory} (held : block ∈ h.live)
      (outside : ∀ position, position < block ∨
        block + payloadSize h.arena.mem block ≤ position →
          mem position = h.arena.mem position) :
      HeapStep h ⟨{ h.arena with mem := mem }, h.live⟩

/-- The heaps that clients can bring about, beginning with an arena from which
nothing has been allocated. -/
def HeapRun (start : Arena) (h : Heap) : Prop :=
  Relation.ReflTransGen HeapStep ⟨start, []⟩ h

structure Serves (h : Heap) (chunks : List Chunk) : Prop where
  represents : Represents (fun _ => False) h.arena.mem h.arena chunks
  settled : Settled chunks
  live : h.live.Perm
    ((usedBlocks h.arena.loBound chunks).map fun block => block.1 + 8)

def PayloadsKept (mem mem' : Memory) (blocks : List Nat) : Prop :=
  ∀ block ∈ blocks, payloadSize mem' block = payloadSize mem block ∧
    ∀ position, block ≤ position →
      position < block + payloadSize mem block → mem' position = mem position

def InPayload (blocks : List (Nat × Nat)) (position : Nat) : Prop :=
  ∃ block ∈ blocks, block.1 + 8 ≤ position ∧
    position < block.1 + 8 + block.2

namespace Represents

variable {kept : Nat → Prop} {content : Memory} {s s' : Arena}
  {chunks chunks' before after : List Chunk} {size node : Nat}

theorem payloadSize_of_used (rep : Represents kept content s chunks)
    (listed : (node, size) ∈ usedBlocks s.loBound chunks) :
    payloadSize s.mem (node + 8) = size := by
  rw [payloadSize, memSizeField_eq, Nat.add_sub_cancel]
  exact (rep.chunkSize_of_placed (mem_usedBlocks.mp listed) (by simp)).1

theorem keepBlocks {blocks : List (Nat × Nat)}
    (rep : Represents kept content s chunks)
    (listed : blocks ⊆ usedBlocks s.loBound chunks) :
    Represents (InPayload blocks) s.mem s chunks := by
  refine rep.weaken (fun position inside => ?_) fun _ _ => rfl
  obtain ⟨⟨address, size⟩, member, low, high⟩ := inside
  refine ⟨address, ⟨.used, size⟩, mem_usedBlocks.mp (listed member), by simp,
    by omega, ?_⟩
  simp only [Chunk.extent_eq] at low high ⊢
  omega

theorem payloadsKept {blocks : List (Nat × Nat)}
    (rep : Represents kept content s chunks) (same : s.SameBounds s')
    (rep' : Represents (InPayload blocks) s.mem s' chunks')
    (listed : blocks ⊆ usedBlocks s.loBound chunks)
    (listed' : blocks ⊆ usedBlocks s.loBound chunks') :
    PayloadsKept s.mem s'.mem (blocks.map fun block => block.1 + 8) := by
  intro block mapped
  obtain ⟨⟨address, size⟩, member, rfl⟩ := List.mem_map.mp mapped
  have sizeEq := rep.payloadSize_of_used (listed member)
  have sizeEq' := rep'.payloadSize_of_used (same.2.1.symm ▸ listed' member)
  refine ⟨sizeEq'.trans sizeEq.symm, fun position low high => ?_⟩
  rw [sizeEq] at high
  exact rep'.kept_content position ⟨_, member, low, high⟩

end Represents

theorem others_outside {lo node size position : Nat} {before after : List Chunk}
    (nodeEq : node = lo + span before)
    (inside : InPayload (usedBlocks lo before ++
      usedBlocks (node + size + 16) after) position) :
    position < node ∨ node + size + 16 ≤ position := by
  obtain ⟨⟨address, other⟩, member, low, high⟩ := inside
  simp only at low high
  rcases List.mem_append.mp member with member | member
  · have := (mem_usedBlocks.mp member).high
    simp only [Chunk.extent_eq] at this
    omega
  · have := (mem_usedBlocks.mp member).low
    omega

theorem PayloadsKept.of_perm {mem mem' : Memory} {blocks blocks' : List Nat}
    (kept : PayloadsKept mem mem' blocks) (perm : blocks'.Perm blocks) :
    PayloadsKept mem mem' blocks' :=
  fun block member => kept block (perm.mem_iff.mp member)

namespace Serves

variable {h : Heap} {chunks : List Chunk}

theorem of_fresh {s : Arena} (fresh : FreshArena s) :
    Serves ⟨s, []⟩ [⟨.free, s.totalSize⟩] := by
  refine ⟨fresh.represents s.mem, ?_, ?_⟩
  · simp [settled_cons]
  · simp [usedBlocks]

theorem live_split (serves : Serves h chunks) {old : Nat} (held : old ∈ h.live) :
    ∃ before size after, chunks = before ++ ⟨.used, size⟩ :: after ∧
      old = h.arena.loBound + span before + 8 := by
  obtain ⟨⟨node, size⟩, listed, rfl⟩ :=
    List.mem_map.mp (serves.live.mem_iff.mp held)
  obtain ⟨before, after, split, place⟩ := mem_usedBlocks.mp listed
  exact ⟨before, size, after, split, by rw [← place]⟩

theorem live_erase {before after : List Chunk} {size node : Nat}
    (serves : Serves h (before ++ ⟨.used, size⟩ :: after))
    (nodeEq : node = h.arena.loBound + span before) :
    (h.live.erase (node + 8)).Perm
      ((usedBlocks h.arena.loBound before ++
        usedBlocks (node + size + 16) after).map fun block => block.1 + 8) := by
  have perm := serves.live
  rw [usedBlocks_used, ← nodeEq] at perm
  have front := perm.trans (List.perm_middle.map _)
  simpa using front.erase (node + 8)

theorem malloc (serves : Serves h chunks) {size : Nat}
    (bound : size ≤ memMaxSize) :
    memMalloc h.arena size = .ok (0, h.arena) ∨
      ∃ chunk s chunks' newSize, memMalloc h.arena size = .ok (chunk, s) ∧
        chunk ≠ 0 ∧ h.arena.SameBounds s ∧
        Serves ⟨s, (chunk + 8) :: h.live⟩ chunks' ∧
        (chunk, newSize) ∈ usedBlocks s.loBound chunks' ∧
        memProperAllocSize size ≤ newSize ∧
        newSize < memProperAllocSize size + 40 ∧
        PayloadsKept h.arena.mem s.mem h.live := by
  have rep := serves.represents.keepBlocks
    (List.Subset.refl (usedBlocks h.arena.loBound chunks))
  rcases rep.malloc_spec serves.settled (memProperAllocSize_spec bound) rfl with
    ⟨null, _⟩ |
    ⟨chunk, s, chunks', newSize, found, same, rep', settled', room, limit, _,
      blocks⟩
  · exact Or.inl null
  · have listed : (chunk, newSize) ∈ usedBlocks s.loBound chunks' := by
      rw [same.2.1, blocks.mem_iff]
      simp
    have low := (mem_usedBlocks.mp listed).low
    have lo_pos := rep'.bounds.lo_pos
    refine Or.inr ⟨chunk, s, chunks', newSize, found, by omega, same,
      ⟨rep'.weaken (fun _ => False.elim) fun _ => False.elim, settled', ?_⟩,
      listed, room, limit, ?_⟩
    · rw [same.2.1]
      exact (serves.live.cons (chunk + 8)).trans
        (blocks.symm.map fun block : Nat × Nat => block.1 + 8)
    · refine (serves.represents.payloadsKept same rep' (List.Subset.refl _)
        fun block member => ?_).of_perm serves.live
      rw [blocks.mem_iff]
      exact List.mem_cons_of_mem _ member

theorem realloc (serves : Serves h chunks) {old size : Nat}
    (held : old ∈ h.live) (bound : size ≤ memMaxSize) (heapServes : Bool) :
    memRealloc heapServes h.arena old size = .ok (0, h.arena) ∨
      (heapServes = false ∧
        memRealloc heapServes h.arena old size = .error .exit) ∨
      ∃ chunk s chunks' newSize,
        memRealloc heapServes h.arena old size = .ok (chunk, s) ∧
        chunk ≠ 0 ∧ h.arena.SameBounds s ∧
        Serves ⟨s, (chunk + 8) :: h.live.erase old⟩ chunks' ∧
        (chunk, newSize) ∈ usedBlocks s.loBound chunks' ∧
        memProperAllocSize size ≤ newSize ∧
        PayloadsKept h.arena.mem s.mem (h.live.erase old) := by
  obtain ⟨before, oldSize, after, rfl, rfl⟩ := serves.live_split held
  generalize nodeEq : h.arena.loBound + span before = node
  have others := serves.live_erase nodeEq.symm
  have listed : usedBlocks h.arena.loBound before ++
      usedBlocks (node + oldSize + 16) after ⊆ usedBlocks h.arena.loBound
        (before ++ ⟨.used, oldSize⟩ :: after) := by
    rw [usedBlocks_used, nodeEq]
    exact List.append_subset.mpr ⟨by simp, by simp⟩
  have rep := serves.represents.keepBlocks listed
  rcases rep.realloc_spec heapServes serves.settled nodeEq.symm
      (fun position => others_outside nodeEq.symm)
      (memProperAllocSize_spec bound) rfl with
    ⟨_, _, _, null⟩ | exits | ⟨chunk, s, found, nonnull, same, block, _⟩
  · exact Or.inl null
  · exact Or.inr (Or.inl exits)
  · obtain ⟨chunks', newSize, rep', settled', room, blocks⟩ := block
    refine Or.inr (Or.inr ⟨chunk, s, chunks', newSize, found, nonnull, same,
      ⟨rep'.weaken (fun _ => False.elim) fun _ => False.elim, settled', ?_⟩,
      ?_, room, ?_⟩)
    · rw [same.2.1]
      exact (others.cons (chunk + 8)).trans
        (blocks.symm.map fun block : Nat × Nat => block.1 + 8)
    · rw [same.2.1, blocks.mem_iff]
      simp
    · refine (serves.represents.payloadsKept same rep' listed
        fun block member => ?_).of_perm others
      rw [blocks.mem_iff]
      exact List.mem_cons_of_mem _ member

theorem free (serves : Serves h chunks) {old : Nat} (held : old ∈ h.live) :
    ∃ chunks', h.arena.SameBounds (memFree h.arena old) ∧
      Serves ⟨memFree h.arena old, h.live.erase old⟩ chunks' ∧
      PayloadsKept h.arena.mem (memFree h.arena old).mem (h.live.erase old) := by
  obtain ⟨before, size, after, rfl, rfl⟩ := serves.live_split held
  generalize nodeEq : h.arena.loBound + span before = node
  have others := serves.live_erase nodeEq.symm
  have listed : usedBlocks h.arena.loBound before ++
      usedBlocks (node + size + 16) after ⊆ usedBlocks h.arena.loBound
        (before ++ ⟨.used, size⟩ :: after) := by
    rw [usedBlocks_used, nodeEq]
    exact List.append_subset.mpr ⟨by simp, by simp⟩
  have rep := serves.represents.keepBlocks listed
  obtain ⟨same, rep', settled', _⟩ := rep.free_spec serves.settled nodeEq.symm
    fun position => others_outside nodeEq.symm
  have blocks : usedBlocks h.arena.loBound (release before size after) =
      usedBlocks h.arena.loBound before ++
        usedBlocks (node + size + 16) after := by
    rw [usedBlocks_release, nodeEq]
  refine ⟨_, same, ⟨rep'.weaken (fun _ => False.elim) fun _ => False.elim,
    settled', ?_⟩, ?_⟩
  · rw [same.2.1, blocks]
    exact others
  · exact (serves.represents.payloadsKept same rep' listed
      (by rw [blocks]; exact List.Subset.refl _)).of_perm others

theorem write (serves : Serves h chunks) {block : Nat} {mem : Memory}
    (held : block ∈ h.live)
    (outside : ∀ position, position < block ∨
      block + payloadSize h.arena.mem block ≤ position →
        mem position = h.arena.mem position) :
    Serves ⟨{ h.arena with mem := mem }, h.live⟩ chunks := by
  obtain ⟨⟨node, size⟩, listed, rfl⟩ :=
    List.mem_map.mp (serves.live.mem_iff.mp held)
  rw [serves.represents.payloadSize_of_used listed] at outside
  exact ⟨serves.represents.writePayload (mem_usedBlocks.mp listed) outside
    fun _ => False.elim, serves.settled, serves.live⟩

end Serves

theorem HeapStep.serves {h h' : Heap} (step : HeapStep h h')
    {chunks : List Chunk} (serves : Serves h chunks) :
    ∃ chunks', Serves h' chunks' ∧ h.arena.SameBounds h'.arena := by
  cases step with
  | malloc bound returned =>
      rcases serves.malloc bound with null | ⟨_, _, chunks', _, found, nonnull,
          same, serves', _⟩
      · rw [null] at returned
        cases returned
        exact ⟨chunks, serves, rfl, rfl, rfl, rfl⟩
      · rw [found] at returned
        cases returned
        rw [if_neg nonnull]
        exact ⟨chunks', serves', same⟩
  | @realloc heapServes old size chunk s held bound returned =>
      rcases serves.realloc held bound heapServes with null | ⟨_, exits⟩ |
          ⟨_, _, chunks', _, found, nonnull, same, serves', _⟩
      · rw [null] at returned
        cases returned
        exact ⟨chunks, serves, rfl, rfl, rfl, rfl⟩
      · rw [exits] at returned
        cases returned
      · rw [found] at returned
        cases returned
        rw [if_neg nonnull]
        exact ⟨chunks', serves', same⟩
  | free held =>
      obtain ⟨chunks', same, serves', _⟩ := serves.free held
      exact ⟨chunks', serves', same⟩
  | clear =>
      exact ⟨_, Serves.of_fresh (ntMemClear_fresh serves.represents.bounds),
        rfl, rfl, rfl, rfl⟩
  | write held outside =>
      exact ⟨chunks, serves.write held outside, rfl, rfl, rfl, rfl⟩

theorem HeapRun.serves {start : Arena} (fresh : FreshArena start) {h : Heap}
    (run : HeapRun start h) :
    ∃ chunks, Serves h chunks ∧ start.SameBounds h.arena := by
  induction run with
  | refl => exact ⟨_, Serves.of_fresh fresh, rfl, rfl, rfl, rfl⟩
  | tail _ step ih =>
      obtain ⟨chunks, serves, same⟩ := ih
      obtain ⟨chunks', serves', same'⟩ := step.serves serves
      exact ⟨chunks', serves', same.trans same'⟩

theorem smallArena_run {s : Arena} (returned : memMalloc smallArena 100 = .ok (336, s)) :
    HeapRun smallArena ⟨s, [344]⟩ := by
  have first := @HeapStep.malloc ⟨smallArena, []⟩ 100 _ _ (by simp) returned
  rw [if_neg (by decide), memSizeField_eq] at first
  exact Relation.ReflTransGen.single first

/-- A run that holds two blocks. -/
theorem twoBlocks_run :
    ∃ s, twoBlocks = some s ∧ HeapRun smallArena ⟨s, [384, 344]⟩ ∧ s.mem 384 = 7 := by
  obtain ⟨first, returned⟩ : ∃ s, memMalloc smallArena 24 = .ok (336, s) :=
    exists_of_chunk (by decide +kernel)
  have found : (memMalloc smallArena 24).toOption.bind (fun value =>
      (memMalloc value.2 32).toOption.map fun value =>
        (value.1, payloadSize value.2.mem 384)) = some (376, 32) := by
    decide +kernel
  rw [returned, toOption_ok_bind] at found
  obtain ⟨second, returned', size⟩ :
      ∃ s, memMalloc first 32 = .ok (376, s) ∧ payloadSize s.mem 384 = 32 := by
    cases answer : memMalloc first 32 with
    | error stop =>
        rw [answer] at found
        cases found
    | ok value =>
        rw [answer] at found
        obtain ⟨isChunk, isSize⟩ := Prod.mk.inj (Option.some.inj found)
        exact ⟨value.2, by rw [← isChunk], isSize⟩
  have takesFirst := @HeapStep.malloc ⟨smallArena, []⟩ 24 _ _ (by simp) returned
  have takesSecond := @HeapStep.malloc ⟨first, [344]⟩ 32 _ _ (by simp) returned'
  rw [if_neg (by decide), memSizeField_eq] at takesFirst takesSecond
  refine ⟨_, ?_, ((Relation.ReflTransGen.single takesFirst).tail takesSecond).tail
    (@HeapStep.write ⟨second, [384, 344]⟩ 384 (Function.update second.mem 384 7)
      List.mem_cons_self ?_), Function.update_self 384 7 second.mem⟩
  · rw [twoBlocks, returned, toOption_ok_bind, returned']
    rfl
  · intro position outside
    rw [size] at outside
    exact Function.update_of_ne (by omega) _ _

end NtShm
