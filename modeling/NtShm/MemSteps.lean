import NtShm.MemRepresentation

/-!
# The rewriting steps of the allocator

Unlinking a free chunk turns it into a hole; new size words and a link turn a
hole into a free chunk; used size words turn a hole into a used chunk.  Holes
are joined and cut without touching the memory.
-/

namespace NtShm

open Tiling

section Fields

variable {mem : Memory} {x y value : Nat}

/-- The list pointers of two nodes are the same words or do not overlap. -/
def FieldsApart (x y : Nat) : Prop := x = y ∨ x + 24 ≤ y ∨ y + 24 ≤ x

theorem memGetPrevChunk_setNext (apart : FieldsApart x y) :
    memGetPrevChunk (memSetNextChunk mem x value) y = memGetPrevChunk mem y := by
  simp only [FieldsApart] at apart
  exact Memory.load_store_of_disjoint (by simp; omega)

theorem memGetNextChunk_setPrev (apart : FieldsApart x y) :
    memGetNextChunk (memSetPrevChunk mem x value) y = memGetNextChunk mem y := by
  simp only [FieldsApart] at apart
  exact Memory.load_store_of_disjoint (by simp; omega)

theorem memGetPrevChunk_setPrev (apart : FieldsApart x y)
    (fits : value < 2 ^ 64) :
    memGetPrevChunk (memSetPrevChunk mem x value) y =
      if y = x then value else memGetPrevChunk mem y := by
  simp only [FieldsApart] at apart
  split_ifs with same
  · subst same
    exact Memory.load_store_same (by norm_num; exact fits)
  · exact Memory.load_store_of_disjoint (by simp; omega)

theorem memGetNextChunk_setNext (apart : FieldsApart x y)
    (fits : value < 2 ^ 64) :
    memGetNextChunk (memSetNextChunk mem x value) y =
      if y = x then value else memGetNextChunk mem y := by
  simp only [FieldsApart] at apart
  split_ifs with same
  · subst same
    exact Memory.load_store_same (by norm_num; exact fits)
  · exact Memory.load_store_of_disjoint (by simp; omega)

end Fields

namespace Represents

variable {kept : Nat → Prop} {content : Memory} {s : Arena}
  {chunks before after : List Chunk} {size : Nat}

theorem bucketField_low (rep : Represents kept content s chunks)
    {index : Nat} (inRange : index < 30) :
    s.bucketField index + 8 ≤ s.loBound := by
  have low := rep.bounds.buckets_low
  simp only [NtMemInfo.bucketField, ntPtrSize_eq]
  omega

theorem chunkSize_of_placed (rep : Represents kept content s chunks)
    {address : Nat} {chunk : Chunk}
    (placed : At s.loBound chunks address chunk) (solid : chunk.tag ≠ .hole) :
    chunkSize s.mem address = chunk.size ∧
      chunkSize s.mem (address + 8 + chunk.size) = chunk.size ∧
      freeChunk s.mem address = decide (chunk.tag = .free) ∧
      freeChunk s.mem (address + 8 + chunk.size) =
        decide (chunk.tag = .free) := by
  have bounds := rep.placed_bounds placed
  obtain ⟨head, tail⟩ := rep.words address chunk placed solid
  have small : chunk.size < 2 ^ 63 := by omega
  obtain ⟨tag, size⟩ := chunk
  cases tag with
  | free =>
      obtain ⟨h1, h2⟩ := chunkSize_of_free small head
      obtain ⟨h3, h4⟩ := chunkSize_of_free small tail
      exact ⟨h1, h3, h2, h4⟩
  | used =>
      obtain ⟨h1, h2⟩ := chunkSize_of_used small head
      obtain ⟨h3, h4⟩ := chunkSize_of_used small tail
      exact ⟨h1, h3, h2, h4⟩
  | hole => exact (solid rfl).elim

theorem fieldsApart (rep : Represents kept content s chunks)
    {first second : Nat} {chunk chunk' : Chunk}
    (left : At s.loBound chunks first chunk)
    (right : At s.loBound chunks second chunk') :
    FieldsApart first second := by
  have leftBounds := rep.placed_bounds left
  have rightBounds := rep.placed_bounds right
  rcases left.cases_disjoint right with ⟨same, _⟩ | disjoint
  · exact Or.inl same
  · simp only [Chunk.extent_eq] at disjoint
    exact Or.inr (by omega)

end Represents

/-- The first pointer write of `mem_unlink_chunk`; `field` is the bucket
pointer, which takes the place of a missing predecessor. -/
def joinPrevious (mem : Memory) (prevChunk nextChunk field : Nat) : Memory :=
  if prevChunk = 0 then mem.store field 8 nextChunk
  else memSetNextChunk mem prevChunk nextChunk

/-- Both pointer writes of `mem_unlink_chunk`. -/
def joinNeighbours (mem : Memory) (prevChunk nextChunk field : Nat) : Memory :=
  if nextChunk = 0 then joinPrevious mem prevChunk nextChunk field
  else
    memSetPrevChunk (joinPrevious mem prevChunk nextChunk field) nextChunk
      prevChunk

theorem memUnlinkChunk_mem (s : Arena) (chunk : Nat) :
    (memUnlinkChunk s chunk).mem =
      joinNeighbours s.mem (memGetPrevChunk s.mem chunk)
        (memGetNextChunk s.mem chunk)
        (s.bucketField (memBucketBySize (chunkSize s.mem chunk))) := by
  simp only [memUnlinkChunk, joinNeighbours, joinPrevious, memSetPrevChunk,
    memSetNextChunk, memPtrToNextField, memPtrToPrevField]
  split_ifs <;> simp_all

theorem memUnlinkChunk_same (s : Arena) (chunk : Nat) :
    s.SameBounds (memUnlinkChunk s chunk) :=
  ⟨rfl, rfl, rfl, rfl⟩

theorem Arena.SameBounds.bucketField_eq {s s' : Arena} (same : s.SameBounds s')
    (index : Nat) : s'.bucketField index = s.bucketField index := by
  rw [NtMemInfo.bucketField, same.1, NtMemInfo.bucketField]

theorem bucketField_inj (info : NtMemInfo) (first second : Nat) :
    info.bucketField first = info.bucketField second ↔ first = second := by
  simp only [NtMemInfo.bucketField, ntPtrSize_eq]
  omega

/-- Two bucket pointers are the same word or do not overlap. -/
theorem bucketField_cases (info : NtMemInfo) (first second : Nat) :
    info.bucketField first = info.bucketField second ∨
      info.bucketField first + 8 ≤ info.bucketField second ∨
        info.bucketField second + 8 ≤ info.bucketField first := by
  simp only [NtMemInfo.bucketField, ntPtrSize_eq]
  omega

section JoinNeighbours

variable {mem : Memory} {p q field y : Nat}

theorem memGetPrevChunk_join (prevApart : p ≠ 0 → FieldsApart p y)
    (nextApart : q ≠ 0 → FieldsApart q y) (nonnull : y ≠ 0)
    (low : field ≤ y) (fits : p < 2 ^ 64) :
    memGetPrevChunk (joinNeighbours mem p q field) y =
      if y = q then p else memGetPrevChunk mem y := by
  have first : memGetPrevChunk (joinPrevious mem p q field) y =
      memGetPrevChunk mem y := by
    unfold joinPrevious
    split_ifs with hp
    · exact Memory.load_store_of_disjoint (by simp; omega)
    · exact memGetPrevChunk_setNext (prevApart hp)
  unfold joinNeighbours
  by_cases hq : q = 0
  · rw [if_pos hq, if_neg (by omega), first]
  · rw [if_neg hq, memGetPrevChunk_setPrev (nextApart hq) fits, first]

theorem memGetNextChunk_join (prevApart : p ≠ 0 → FieldsApart p y)
    (nextApart : q ≠ 0 → FieldsApart q y) (nonnull : y ≠ 0)
    (low : field ≤ y) (fits : q < 2 ^ 64) :
    memGetNextChunk (joinNeighbours mem p q field) y =
      if y = p then q else memGetNextChunk mem y := by
  have first : memGetNextChunk (joinPrevious mem p q field) y =
      if y = p then q else memGetNextChunk mem y := by
    unfold joinPrevious
    by_cases hp : p = 0
    · rw [if_pos hp, if_neg (by omega)]
      exact Memory.load_store_of_disjoint (by simp; omega)
    · rw [if_neg hp]
      exact memGetNextChunk_setNext (prevApart hp) fits
  unfold joinNeighbours
  by_cases hq : q = 0
  · rw [if_pos hq, first]
  · rw [if_neg hq, memGetNextChunk_setPrev (nextApart hq), first]

theorem load_join {other : Nat} (prevHigh : p ≠ 0 → other + 8 ≤ p)
    (nextHigh : q ≠ 0 → other + 8 ≤ q)
    (apart : other = field ∨ other + 8 ≤ field ∨ field + 8 ≤ other)
    (fits : q < 2 ^ 64) :
    (joinNeighbours mem p q field).load other 8 =
      if p = 0 ∧ other = field then q else mem.load other 8 := by
  have first : (joinPrevious mem p q field).load other 8 =
      if p = 0 ∧ other = field then q else mem.load other 8 := by
    unfold joinPrevious
    by_cases hp : p = 0
    · rw [if_pos hp]
      by_cases same : other = field
      · subst same
        rw [if_pos ⟨hp, rfl⟩]
        exact Memory.load_store_same (by norm_num; exact fits)
      · rw [if_neg (by simp [same])]
        exact Memory.load_store_of_disjoint (by omega)
    · rw [if_neg hp, if_neg (by simp [hp])]
      have := prevHigh hp
      exact Memory.load_store_of_disjoint (by simp; omega)
  unfold joinNeighbours
  by_cases hq : q = 0
  · rw [if_pos hq, first]
  · have := nextHigh hq
    rw [if_neg hq, memSetPrevChunk,
      Memory.load_store_of_disjoint (by simp; omega), first]

theorem joinNeighbours_of_outside {position : Nat}
    (prevOutside : p ≠ 0 → position < p + 16 ∨ p + 24 ≤ position)
    (nextOutside : q ≠ 0 → position < q + 8 ∨ q + 16 ≤ position)
    (fieldOutside : position < field ∨ field + 8 ≤ position) :
    joinNeighbours mem p q field position = mem position := by
  have first : joinPrevious mem p q field position = mem position := by
    unfold joinPrevious
    split_ifs with hp
    · exact Memory.store_of_outside fieldOutside
    · have := prevOutside hp
      exact Memory.store_of_outside (by simp; omega)
  unfold joinNeighbours
  split_ifs with hq
  · exact first
  · have := nextOutside hq
    rw [memSetPrevChunk, Memory.store_of_outside (by simp; omega), first]

end JoinNeighbours

/-- The pointer writes of `mem_link_chunk`; `head` is the chunk that `field`,
the bucket pointer, holds before. -/
def pushNode (mem : Memory) (node head field : Nat) : Memory :=
  let mem := if head = 0 then mem else memSetPrevChunk mem head node
  (memSetNextChunk (memSetPrevChunk mem node 0) node head).store field 8 node

theorem memLinkChunk_mem {s : Arena} (chunk field : Nat)
    (fieldEq : field =
      s.bucketField (memBucketBySize (chunkSize s.mem chunk)))
    (low : field + 8 ≤ chunk)
    (headHigh : s.mem.load field 8 ≠ 0 → field + 8 ≤ s.mem.load field 8) :
    (memLinkChunk s chunk).mem =
      pushNode s.mem chunk (s.mem.load field 8) field := by
  have reread : ∀ mem : Memory, mem.load field 8 = s.mem.load field 8 →
      (memSetPrevChunk mem chunk 0).load field 8 = s.mem.load field 8 := by
    intro mem same
    rw [memSetPrevChunk, Memory.load_store_of_disjoint (by simp; omega), same]
  simp only [memLinkChunk, pushNode, Arena.bucket, ← fieldEq]
  by_cases null : s.mem.load field 8 = 0
  · rw [if_neg (by simpa using null), if_pos null, reread _ rfl]
  · have := headHigh null
    rw [if_pos null, if_neg null, reread]
    rw [memSetPrevChunk, Memory.load_store_of_disjoint (by simp; omega)]

section PushNode

variable {mem : Memory} {node head field y : Nat}

theorem memGetPrevChunk_push (apart : FieldsApart node y) (ne : y ≠ node)
    (headApart : head ≠ 0 → FieldsApart head y) (nonnull : y ≠ 0)
    (low : field ≤ y) (fits : node < 2 ^ 64) :
    memGetPrevChunk (pushNode mem node head field) y =
      if y = head then node else memGetPrevChunk mem y := by
  have first : memGetPrevChunk
      (if head = 0 then mem else memSetPrevChunk mem head node) y =
      if y = head then node else memGetPrevChunk mem y := by
    by_cases null : head = 0
    · rw [if_pos null, if_neg (by omega)]
    · rw [if_neg null, memGetPrevChunk_setPrev (headApart null) fits]
  have outer : memGetPrevChunk (pushNode mem node head field) y =
      memGetPrevChunk (memSetNextChunk (memSetPrevChunk
        (if head = 0 then mem else memSetPrevChunk mem head node) node 0)
          node head) y :=
    Memory.load_store_of_disjoint (by simp; omega)
  rw [outer, memGetPrevChunk_setNext apart,
    memGetPrevChunk_setPrev apart (by norm_num), if_neg ne, first]

theorem memGetNextChunk_push (apart : FieldsApart node y) (ne : y ≠ node)
    (headApart : head ≠ 0 → FieldsApart head y) (low : field ≤ y)
    (fits : head < 2 ^ 64) :
    memGetNextChunk (pushNode mem node head field) y =
      memGetNextChunk mem y := by
  have first : memGetNextChunk
      (if head = 0 then mem else memSetPrevChunk mem head node) y =
      memGetNextChunk mem y := by
    by_cases null : head = 0
    · rw [if_pos null]
    · rw [if_neg null, memGetNextChunk_setPrev (headApart null)]
  have outer : memGetNextChunk (pushNode mem node head field) y =
      memGetNextChunk (memSetNextChunk (memSetPrevChunk
        (if head = 0 then mem else memSetPrevChunk mem head node) node 0)
          node head) y :=
    Memory.load_store_of_disjoint (by simp; omega)
  rw [outer, memGetNextChunk_setNext apart fits, if_neg ne,
    memGetNextChunk_setPrev apart, first]

theorem memGetPrevChunk_push_self (low : field ≤ node) :
    memGetPrevChunk (pushNode mem node head field) node = 0 := by
  have outer : memGetPrevChunk (pushNode mem node head field) node =
      memGetPrevChunk (memSetNextChunk (memSetPrevChunk
        (if head = 0 then mem else memSetPrevChunk mem head node) node 0)
          node head) node :=
    Memory.load_store_of_disjoint (by simp; omega)
  rw [outer, memGetPrevChunk_setNext (Or.inl rfl),
    memGetPrevChunk_setPrev (Or.inl rfl) (by norm_num), if_pos rfl]

theorem memGetNextChunk_push_self (low : field ≤ node)
    (fits : head < 2 ^ 64) :
    memGetNextChunk (pushNode mem node head field) node = head := by
  have outer : memGetNextChunk (pushNode mem node head field) node =
      memGetNextChunk (memSetNextChunk (memSetPrevChunk
        (if head = 0 then mem else memSetPrevChunk mem head node) node 0)
          node head) node :=
    Memory.load_store_of_disjoint (by simp; omega)
  rw [outer, memGetNextChunk_setNext (Or.inl rfl) fits, if_pos rfl]

theorem pushNode_of_outside {position : Nat}
    (outside : position < node + 8 ∨ node + 24 ≤ position)
    (headOutside : head ≠ 0 → position < head + 8 ∨ head + 16 ≤ position)
    (fieldOutside : position < field ∨ field + 8 ≤ position) :
    pushNode mem node head field position = mem position := by
  have first : (if head = 0 then mem else memSetPrevChunk mem head node)
      position = mem position := by
    by_cases null : head = 0
    · rw [if_pos null]
    · have := headOutside null
      rw [if_neg null, memSetPrevChunk,
        Memory.store_of_outside (by simp; omega)]
  rw [pushNode, Memory.store_of_outside fieldOutside, memSetNextChunk,
    Memory.store_of_outside (by simp; omega), memSetPrevChunk,
    Memory.store_of_outside (by simp; omega), first]

theorem load_push_of_outside {address : Nat}
    (outside : address + 8 ≤ node + 8 ∨ node + 24 ≤ address)
    (headOutside : head ≠ 0 → address + 8 ≤ head + 8 ∨ head + 16 ≤ address)
    (fieldOutside : address + 8 ≤ field ∨ field + 8 ≤ address) :
    (pushNode mem node head field).load address 8 = mem.load address 8 :=
  Memory.load_congr fun position _ _ =>
    pushNode_of_outside (by omega)
      (fun null => by have := headOutside null; omega) (by omega)

theorem load_push_field (fits : node < 2 ^ 64) :
    (pushNode mem node head field).load field 8 = node :=
  Memory.load_store_same (by norm_num; exact fits)

end PushNode

theorem at_free_hole {lo address : Nat} {before after : List Chunk}
    {size size' : Nat} :
    At lo (before ++ ⟨.free, size⟩ :: after) address (⟨.free, size'⟩ : Chunk) ↔
      At lo (before ++ ⟨.hole, size⟩ :: after) address ⟨.free, size'⟩ ∨
        address = lo + span before ∧ size' = size := by
  simp only [at_append, at_cons, Chunk.mk.injEq, Chunk.extent_eq,
    reduceCtorEq, false_and, and_false, false_or, true_and]
  tauto

theorem BucketLists.node_free {s : Arena} {chunks : List Chunk}
    {lists : Nat → List Nat} (good : BucketLists s chunks lists)
    {index node : Nat} (inRange : index < 30) (member : node ∈ lists index) :
    ∃ size, At s.loBound chunks node (⟨.free, size⟩ : Chunk) := by
  obtain ⟨size, placed, _⟩ := (good.members index inRange node).mp member
  exact ⟨size, placed⟩

theorem Chunk.extent_pos (chunk : Chunk) : 0 < extent chunk := by
  simp

theorem BucketLists.index_unique {s : Arena} {chunks : List Chunk}
    {lists : Nat → List Nat} (good : BucketLists s chunks lists)
    {first second node : Nat} (firstRange : first < 30)
    (secondRange : second < 30) (left : node ∈ lists first)
    (right : node ∈ lists second) : first = second := by
  obtain ⟨size, placed, rfl⟩ := (good.members first firstRange node).mp left
  obtain ⟨size', placed', rfl⟩ :=
    (good.members second secondRange node).mp right
  have same := placed.unique placed' Chunk.extent_pos
  rw [Chunk.mk.injEq] at same
  rw [same.2]

theorem BucketLists.edit {s s' : Arena} {chunks chunks' : List Chunk}
    {lists : Nat → List Nat} (good : BucketLists s chunks lists)
    {index : Nat} {newList : List Nat} (lo : s'.loBound = s.loBound)
    (edited : DoublyLinked.IsSegment 0 (memGetPrevChunk s'.mem)
      (memGetNextChunk s'.mem) 0 (s'.bucket index) newList)
    (buckets : ∀ other < 30, other ≠ index →
      s'.bucket other = s.bucket other)
    (fields : ∀ other < 30, other ≠ index → ∀ node ∈ lists other,
      memGetPrevChunk s'.mem node = memGetPrevChunk s.mem node ∧
        memGetNextChunk s'.mem node = memGetNextChunk s.mem node)
    (members : ∀ other < 30, ∀ address,
      (∃ size, At s.loBound chunks' address ⟨.free, size⟩ ∧
          memBucketBySize size = other) ↔
        address ∈ if other = index then newList else lists other) :
    ∃ lists', BucketLists s' chunks' lists' := by
  refine ⟨fun other => if other = index then newList else lists other,
    ⟨fun other inRange => ?_, fun other inRange address => ?_⟩⟩
  · by_cases same : other = index
    · subst same
      simpa using edited
    · rw [if_neg same, buckets other inRange same]
      exact (good.linked other inRange).congr
        (fun node member => (fields other inRange same node member).1)
        (fun node member => (fields other inRange same node member).2)
  · rw [lo]
    exact (members other inRange address).symm

theorem not_free_at_hole {lo : Nat} {before after : List Chunk}
    {size size' : Nat} :
    ¬ At lo (before ++ ⟨.hole, size⟩ :: after) (lo + span before)
      (⟨.free, size'⟩ : Chunk) := by
  intro free
  have same := free.unique (at_middle rfl) Chunk.extent_pos
  simp at same

section Unlink

variable {s s' : Arena} {before after : List Chunk} {size : Nat}
  {lists : Nat → List Nat}

theorem BucketLists.neighbours {chunks : List Chunk} {index node : Nat}
    (good : BucketLists s chunks lists) (inRange : index < 30)
    (member : node ∈ lists index) :
    (memGetPrevChunk s.mem node ≠ 0 →
        memGetPrevChunk s.mem node ∈ lists index) ∧
      (memGetNextChunk s.mem node ≠ 0 →
        memGetNextChunk s.mem node ∈ lists index) := by
  have linked := good.linked index inRange
  obtain ⟨front, back, split⟩ := List.append_of_mem member
  rw [split] at linked ⊢
  constructor
  · intro nonnull
    have place := linked.prev_eq_or_mem.resolve_left nonnull
    simp [place]
  · intro nonnull
    rw [linked.next_eq] at nonnull ⊢
    cases back <;> simp_all

theorem BucketLists.unlink {node index : Nat}
    (good : BucketLists s (before ++ ⟨.free, size⟩ :: after) lists)
    (nodeEq : node = s.loBound + span before)
    (indexEq : index = memBucketBySize size)
    (lo : s'.loBound = s.loBound)
    (prevAfter : ∀ other < 30, ∀ y ∈ lists other,
      memGetPrevChunk s'.mem y =
        if y = memGetNextChunk s.mem node then memGetPrevChunk s.mem node
        else memGetPrevChunk s.mem y)
    (nextAfter : ∀ other < 30, ∀ y ∈ lists other,
      memGetNextChunk s'.mem y =
        if y = memGetPrevChunk s.mem node then memGetNextChunk s.mem node
        else memGetNextChunk s.mem y)
    (bucketAfter : ∀ other < 30, s'.bucket other =
      if memGetPrevChunk s.mem node = 0 ∧ other = index then
        memGetNextChunk s.mem node
      else s.bucket other) :
    ∃ lists', BucketLists s' (before ++ ⟨.hole, size⟩ :: after) lists' := by
  have inRange : index < 30 := indexEq ▸ memBucketBySize_lt size
  have member : node ∈ lists index :=
    (good.members index inRange node).mpr
      ⟨size, at_middle nodeEq, indexEq.symm⟩
  obtain ⟨prevListed, nextListed⟩ := good.neighbours inRange member
  obtain ⟨front, back, split⟩ := List.append_of_mem member
  have linked := good.linked index inRange
  rw [split] at linked
  have distinct := linked.nodup
  rw [List.nodup_middle, List.nodup_cons] at distinct
  have inList : ∀ y ∈ front ++ back, y ∈ lists index := by
    intro y listed
    rcases List.mem_append.mp listed with inFront | inBack
    · simp [split, inFront]
    · simp [split, inBack]
  have edited : DoublyLinked.IsSegment 0 (memGetPrevChunk s'.mem)
      (memGetNextChunk s'.mem) 0 (s'.bucket index) (front ++ back) := by
    have unlinked := linked.unlink linked.null_not_mem
      (fun y listed => prevAfter index inRange y (inList y listed))
      (fun y listed => nextAfter index inRange y (inList y listed))
    rw [bucketAfter index inRange]
    simpa using unlinked
  refine good.edit lo edited ?_ ?_ ?_
  · intro other otherRange ne
    rw [bucketAfter other otherRange, if_neg (by simp [ne])]
  · intro other otherRange ne y listed
    have nonnull : y ≠ 0 := by
      rintro rfl
      exact (good.linked other otherRange).null_not_mem listed
    have notNext : y ≠ memGetNextChunk s.mem node := by
      intro isNext
      rw [isNext] at listed nonnull
      exact ne (good.index_unique otherRange inRange listed
        (nextListed nonnull))
    have notPrev : y ≠ memGetPrevChunk s.mem node := by
      intro isPrev
      rw [isPrev] at listed nonnull
      exact ne (good.index_unique otherRange inRange listed
        (prevListed nonnull))
    rw [prevAfter other otherRange y listed, if_neg notNext,
      nextAfter other otherRange y listed, if_neg notPrev]
    exact ⟨rfl, rfl⟩
  · intro other otherRange address
    have listed := good.members other otherRange address
    simp only [at_free_hole, ← nodeEq] at listed
    by_cases same : other = index
    · rw [if_pos same]
      rw [same, split] at listed
      rw [same]
      by_cases isNode : address = node
      · rw [isNode]
        refine iff_of_false ?_ distinct.1
        rintro ⟨size', free, _⟩
        exact not_free_at_hole (nodeEq ▸ free)
      · simp only [isNode, false_and, or_false, List.mem_append,
          List.mem_cons, false_or] at listed ⊢
        exact listed.symm
    · rw [if_neg same, listed]
      refine exists_congr fun size' => ?_
      constructor
      · rintro ⟨free, sizeEq⟩
        exact ⟨Or.inl free, sizeEq⟩
      · rintro ⟨free | ⟨_, rfl⟩, sizeEq⟩
        · exact ⟨free, sizeEq⟩
        · exact (same (sizeEq.symm.trans indexEq.symm)).elim

theorem BucketLists.head_mem {chunks : List Chunk} {index : Nat}
    (good : BucketLists s chunks lists) (inRange : index < 30)
    (nonempty : s.bucket index ≠ 0) : s.bucket index ∈ lists index := by
  have linked := good.linked index inRange
  cases listed : lists index with
  | nil =>
      rw [listed] at linked
      exact (nonempty linked).elim
  | cons node rest =>
      rw [listed] at linked
      simp [linked.1]

theorem BucketLists.push {node index : Nat}
    (good : BucketLists s (before ++ ⟨.hole, size⟩ :: after) lists)
    (nodeEq : node = s.loBound + span before)
    (indexEq : index = memBucketBySize size)
    (lo : s'.loBound = s.loBound) (nonnull : node ≠ 0)
    (prevNode : memGetPrevChunk s'.mem node = 0)
    (nextNode : memGetNextChunk s'.mem node = s.bucket index)
    (prevAfter : ∀ other < 30, ∀ y ∈ lists other,
      memGetPrevChunk s'.mem y =
        if y = s.bucket index then node else memGetPrevChunk s.mem y)
    (nextAfter : ∀ other < 30, ∀ y ∈ lists other,
      memGetNextChunk s'.mem y = memGetNextChunk s.mem y)
    (bucketAfter : ∀ other < 30, s'.bucket other =
      if other = index then node else s.bucket other) :
    ∃ lists', BucketLists s' (before ++ ⟨.free, size⟩ :: after) lists' := by
  have inRange : index < 30 := indexEq ▸ memBucketBySize_lt size
  have linked := good.linked index inRange
  have edited : DoublyLinked.IsSegment 0 (memGetPrevChunk s'.mem)
      (memGetNextChunk s'.mem) 0 (s'.bucket index) (node :: lists index) := by
    rw [bucketAfter index inRange, if_pos rfl]
    exact linked.push nonnull prevNode nextNode (prevAfter index inRange)
      (nextAfter index inRange)
  refine good.edit lo edited ?_ ?_ ?_
  · intro other otherRange ne
    rw [bucketAfter other otherRange, if_neg ne]
  · intro other otherRange ne y listed
    have notHead : y ≠ s.bucket index := by
      intro isHead
      rw [isHead] at listed
      have nonempty : s.bucket index ≠ 0 := fun null =>
        (good.linked other otherRange).null_not_mem (null ▸ listed)
      exact ne (good.index_unique otherRange inRange listed
        (good.head_mem inRange nonempty))
    rw [prevAfter other otherRange y listed, if_neg notHead,
      nextAfter other otherRange y listed]
    exact ⟨rfl, rfl⟩
  · intro other otherRange address
    have listed := good.members other otherRange address
    simp only [at_free_hole, ← nodeEq]
    by_cases same : other = index
    · rw [if_pos same, List.mem_cons, ← same, listed]
      constructor
      · rintro ⟨size', free | ⟨isNode, _⟩, sizeEq⟩
        · exact Or.inr ⟨size', free, sizeEq⟩
        · exact Or.inl isNode
      · rintro (isNode | ⟨size', free, sizeEq⟩)
        · exact ⟨size, Or.inr ⟨isNode, rfl⟩, by rw [same, indexEq]⟩
        · exact ⟨size', Or.inl free, sizeEq⟩
    · rw [if_neg same, listed]
      refine exists_congr fun size' => ?_
      constructor
      · rintro ⟨free | ⟨_, rfl⟩, sizeEq⟩
        · exact ⟨free, sizeEq⟩
        · exact (same (sizeEq.symm.trans indexEq.symm)).elim
      · rintro ⟨free, sizeEq⟩
        exact ⟨Or.inl free, sizeEq⟩

end Unlink

section SizeWords

variable {mem : Memory} {chunk size word : Nat}

def setSizeWords (mem : Memory) (chunk size word : Nat) : Memory :=
  (mem.store chunk 8 word).store (chunk + 8 + size) 8 word

theorem setSizeWords_of_apart {position : Nat}
    (apart : (position < chunk ∨ chunk + 8 ≤ position) ∧
      (position < chunk + 8 + size ∨ chunk + 16 + size ≤ position)) :
    setSizeWords mem chunk size word position = mem position := by
  rw [setSizeWords, Memory.store_of_outside (by omega),
    Memory.store_of_outside (by omega)]

theorem setSizeWords_of_outside {position : Nat}
    (outside : position < chunk ∨ chunk + size + 16 ≤ position) :
    setSizeWords mem chunk size word position = mem position :=
  setSizeWords_of_apart (by omega)

theorem load_setSizeWords_of_outside {address : Nat}
    (outside : address + 8 ≤ chunk ∨ chunk + size + 16 ≤ address) :
    (setSizeWords mem chunk size word).load address 8 = mem.load address 8 :=
  Memory.load_congr fun _ _ _ => setSizeWords_of_outside (by omega)

theorem load_setSizeWords (mem : Memory) (chunk size : Nat) {word : Nat}
    (fits : word < 2 ^ 64) :
    (setSizeWords mem chunk size word).load chunk 8 = word ∧
      (setSizeWords mem chunk size word).load (chunk + 8 + size) 8 = word := by
  have fits' : word < 256 ^ 8 := by
    norm_num
    exact fits
  refine ⟨?_, Memory.load_store_same fits'⟩
  rw [setSizeWords, Memory.load_store_of_disjoint (by omega),
    Memory.load_store_same fits']

theorem memSetChunkSize_eq :
    memSetChunkSize mem chunk size = setSizeWords mem chunk size size := rfl

theorem memSetUsedChunkSize_eq :
    memSetUsedChunkSize mem chunk size =
      setSizeWords mem chunk size (memFlgUsed ||| size) := rfl

theorem memGetPrevChunk_setSizeWords {y : Nat}
    (outside : y + 24 ≤ chunk ∨ chunk + size + 16 ≤ y) :
    memGetPrevChunk (setSizeWords mem chunk size word) y =
      memGetPrevChunk mem y := by
  unfold memGetPrevChunk
  rw [load_setSizeWords_of_outside (by simp; omega)]

theorem memGetNextChunk_setSizeWords {y : Nat}
    (outside : y + 24 ≤ chunk ∨ chunk + size + 16 ≤ y) :
    memGetNextChunk (setSizeWords mem chunk size word) y =
      memGetNextChunk mem y := by
  unfold memGetNextChunk
  rw [load_setSizeWords_of_outside (by simp; omega)]

end SizeWords

namespace Represents

variable {kept : Nat → Prop} {content : Memory} {s : Arena}
  {chunks before after : List Chunk} {size : Nat}

theorem low_of_not_scratch {lo position : Nat}
    (notScratch : ¬ ScratchByte kept lo chunks position) : lo ≤ position := by
  by_contra isLow
  exact notScratch (Or.inl (by omega))

/-- A byte that is not scratch is none of the list pointers of a listed chunk. -/
theorem outside_of_not_scratch {lists : Nat → List Nat} (good : BucketLists s chunks lists)
    {index y position : Nat} (inRange : index < 30) (member : y ∈ lists index)
    (notScratch : ¬ ScratchByte kept s.loBound chunks position) :
    position < y + 8 ∨ y + 24 ≤ position := by
  obtain ⟨_, yPlaced⟩ := good.node_free inRange member
  by_contra inside
  exact notScratch (Or.inr ⟨y, _, yPlaced, Or.inl ⟨rfl, by omega⟩⟩)

theorem listed_fieldsApart (rep : Represents kept content s chunks)
    {lists : Nat → List Nat} (good : BucketLists s chunks lists)
    {index other x y : Nat} (inRange : index < 30) (otherRange : other < 30)
    (isListed : x ∈ lists index) (isOther : y ∈ lists other) : FieldsApart x y := by
  obtain ⟨_, xPlaced⟩ := good.node_free inRange isListed
  obtain ⟨_, yPlaced⟩ := good.node_free otherRange isOther
  exact rep.fieldsApart xPlaced yPlaced

theorem unlink
    (rep : Represents kept content s (before ++ ⟨.free, size⟩ :: after))
    {node : Nat} (nodeEq : node = s.loBound + span before) :
    Represents kept content (memUnlinkChunk s node)
      (before ++ ⟨.hole, size⟩ :: after) := by
  have placed : At s.loBound (before ++ ⟨.free, size⟩ :: after) node
      (⟨.free, size⟩ : Chunk) := at_middle nodeEq
  obtain ⟨lists, good⟩ := rep.lists
  have inRange := memBucketBySize_lt size
  have mem_eq := memUnlinkChunk_mem s node
  have nodeSize : chunkSize s.mem node = size :=
    (rep.chunkSize_of_placed placed (by simp)).1
  rw [nodeSize] at mem_eq
  obtain ⟨prevListed, nextListed⟩ := good.neighbours inRange
    ((good.members _ inRange node).mpr ⟨size, placed, rfl⟩)
  have same := memUnlinkChunk_same s node
  generalize memUnlinkChunk s node = s' at mem_eq same
  have prevFits : memGetPrevChunk s.mem node < 2 ^ 64 := s.mem.load_lt _ 8
  have nextFits : memGetNextChunk s.mem node < 2 ^ 64 := s.mem.load_lt _ 8
  have low := rep.bucketField_low inRange
  have lo_pos := rep.bounds.lo_pos
  -- every node of every list lies apart from the neighbours
  have nodeFacts : ∀ other < 30, ∀ y ∈ lists other,
      s.loBound ≤ y ∧
        (memGetPrevChunk s.mem node ≠ 0 →
          FieldsApart (memGetPrevChunk s.mem node) y) ∧
        (memGetNextChunk s.mem node ≠ 0 →
          FieldsApart (memGetNextChunk s.mem node) y) := by
    intro other otherRange y member
    obtain ⟨_, yPlaced⟩ := good.node_free otherRange member
    refine ⟨yPlaced.low, fun nonnull => ?_, fun nonnull => ?_⟩
    · exact rep.listed_fieldsApart good inRange otherRange (prevListed nonnull) member
    · exact rep.listed_fieldsApart good inRange otherRange (nextListed nonnull) member
  have lists' : ∃ lists', BucketLists s'
      (before ++ ⟨.hole, size⟩ :: after) lists' := by
    refine good.unlink nodeEq rfl same.2.1 ?_ ?_ ?_
    · intro other otherRange y member
      obtain ⟨yLow, prevApart, nextApart⟩ := nodeFacts other otherRange y member
      rw [mem_eq]
      exact memGetPrevChunk_join prevApart nextApart (by omega) (by omega)
        prevFits
    · intro other otherRange y member
      obtain ⟨yLow, prevApart, nextApart⟩ := nodeFacts other otherRange y member
      rw [mem_eq]
      exact memGetNextChunk_join prevApart nextApart (by omega) (by omega)
        nextFits
    · intro other otherRange
      have otherLow := rep.bucketField_low otherRange
      rw [Arena.bucket, same.bucketField_eq, mem_eq, load_join
        (fun nonnull => by
          have := (nodeFacts _ inRange _ (prevListed nonnull)).1
          omega)
        (fun nonnull => by
          have := (nodeFacts _ inRange _ (nextListed nonnull)).1
          omega)
        (bucketField_cases _ other _) nextFits]
      simp only [bucketField_inj, Arena.bucket]
  have agree : ∀ position,
      ¬ ScratchByte kept s.loBound (before ++ [⟨.free, size⟩] ++ after) position →
        s'.mem position = s.mem position := by
    intro position notScratch
    simp only [List.append_assoc, List.singleton_append] at notScratch
    have high := low_of_not_scratch notScratch
    rw [mem_eq]
    refine joinNeighbours_of_outside (fun nonnull => ?_) (fun nonnull => ?_)
      (Or.inr (by omega))
    · have := outside_of_not_scratch good inRange (prevListed nonnull) notScratch
      omega
    · have := outside_of_not_scratch good inRange (nextListed nonnull) notScratch
      omega
  have sizes := rep.sizes ⟨.free, size⟩ (by simp)
  rw [List.append_cons] at rep lists' ⊢
  refine rep.rewrite same (by simp) ?_ (by simpa using sizes) agree ?_ lists'
  · rintro position _ ⟨address, chunk, isFree, notFree, _⟩
    simp only [at_cons, at_nil, or_false] at isFree
    exact (notFree (by rw [isFree.2])).elim
  intro address chunk isHole solid
  simp only [at_cons, at_nil, or_false] at isHole
  exact (solid (by rw [isHole.2])).elim

theorem hole_bounds
    (rep : Represents kept content s (before ++ ⟨.hole, size⟩ :: after))
    {node : Nat} (nodeEq : node = s.loBound + span before) :
    s.loBound ≤ node ∧ node + size + 16 ≤ s.hiBound ∧ 24 ≤ size ∧
      size % 8 = 0 ∧ size ≤ 2 ^ 36 ∧ node < 2 ^ 64 ∧ node ≠ 0 ∧
        ∀ address chunk,
          At s.loBound (before ++ ⟨.hole, size⟩ :: after) address chunk →
            chunk.tag ≠ .hole →
              address + chunk.size + 16 ≤ node ∨ node + size + 16 ≤ address := by
  have placed : At s.loBound (before ++ ⟨.hole, size⟩ :: after) node
      (⟨.hole, size⟩ : Chunk) := at_middle nodeEq
  have bounds := rep.placed_bounds placed
  have lo_pos := rep.bounds.lo_pos
  have hi_lt := rep.bounds.hi_lt
  simp only at bounds
  refine ⟨by omega, by omega, by omega, by omega, by omega, by omega,
    by omega, ?_⟩
  intro address chunk other solid
  rcases placed.cases_disjoint other with ⟨_, rfl⟩ | disjoint
  · exact (solid rfl).elim
  · simp only [Chunk.extent_eq] at disjoint
    omega

theorem listed_apart
    (rep : Represents kept content s (before ++ ⟨.hole, size⟩ :: after))
    {node : Nat} (nodeEq : node = s.loBound + span before) {lists : Nat → List Nat}
    (good : BucketLists s (before ++ ⟨.hole, size⟩ :: after) lists)
    {index : Nat} (inRange : index < 30) {y : Nat} (member : y ∈ lists index) :
    s.loBound ≤ y ∧ (y + 24 ≤ node ∨ node + size + 16 ≤ y) := by
  obtain ⟨_, yPlaced⟩ := good.node_free inRange member
  have yApart := (rep.hole_bounds nodeEq).2.2.2.2.2.2.2 y _ yPlaced (by simp)
  have yBounds := rep.placed_bounds yPlaced
  simp only at yApart yBounds
  exact ⟨yPlaced.low, by omega⟩

/-- A byte of a hole is scratch unless it is kept. -/
theorem kept_of_inside {node position : Nat} (nodeEq : node = s.loBound + span before)
    (notScratch : ¬ ScratchByte kept s.loBound (before ++ ⟨.hole, size⟩ :: after) position)
    (low : node ≤ position) (high : position < node + size + 16) : kept position := by
  by_contra notKept
  refine notScratch (Or.inr ⟨node, ⟨.hole, size⟩, at_middle nodeEq,
    Or.inr ⟨rfl, low, ?_, notKept⟩⟩)
  rw [Chunk.extent_eq]
  omega

theorem linkFree
    (rep : Represents kept content s (before ++ ⟨.hole, size⟩ :: after))
    {node : Nat} (nodeEq : node = s.loBound + span before)
    (notKept : ∀ position, kept position →
      position < node ∨ node + size + 16 ≤ position) :
    Represents kept content
      (memLinkChunk { s with mem := memSetChunkSize s.mem node size } node)
      (before ++ ⟨.free, size⟩ :: after) := by
  obtain ⟨nodeLow, nodeHigh, least, aligned, small, nodeFits, nonnull,
    -⟩ := rep.hole_bounds nodeEq
  obtain ⟨lists, good⟩ := rep.lists
  have inRange := memBucketBySize_lt size
  have low := rep.bucketField_low inRange
  have lo_pos := rep.bounds.lo_pos
  set field := s.bucketField (memBucketBySize size) with fieldEq
  have sizeFits : size < 2 ^ 64 := by omega
  obtain ⟨headWord, tailWord⟩ := load_setSizeWords s.mem node size sizeFits
  have nodeSize : chunkSize (memSetChunkSize s.mem node size) node = size :=
    (chunkSize_of_free (by omega) headWord).1
  have headEq : (memSetChunkSize s.mem node size).load field 8 =
      s.bucket (memBucketBySize size) :=
    load_setSizeWords_of_outside (by omega)
  have headFits : s.bucket (memBucketBySize size) < 2 ^ 64 :=
    s.mem.load_lt _ 8
  have headListed := good.head_mem inRange
  -- nodes of the lists lie outside the hole, and apart from the list head
  have nodeFacts : ∀ other < 30, ∀ y ∈ lists other,
      s.loBound ≤ y ∧ (y + 24 ≤ node ∨ node + size + 16 ≤ y) ∧
        (s.bucket (memBucketBySize size) ≠ 0 →
          FieldsApart (s.bucket (memBucketBySize size)) y) := by
    intro other otherRange y member
    obtain ⟨yLow, yApart⟩ := rep.listed_apart nodeEq good otherRange member
    refine ⟨yLow, yApart, fun nonempty => ?_⟩
    exact rep.listed_fieldsApart good inRange otherRange (headListed nonempty) member
  have mem_eq : (memLinkChunk
      { s with mem := memSetChunkSize s.mem node size } node).mem =
      pushNode (memSetChunkSize s.mem node size) node
        (s.bucket (memBucketBySize size)) field := by
    have writes := memLinkChunk_mem
      (s := { s with mem := memSetChunkSize s.mem node size })
      node field (by rw [nodeSize]) (by omega)
    rw [headEq] at writes
    refine writes fun nonempty => ?_
    have := (nodeFacts _ inRange _ (headListed nonempty)).1
    omega
  have same : s.SameBounds (memLinkChunk
      { s with mem := memSetChunkSize s.mem node size } node) :=
    ⟨rfl, rfl, rfl, rfl⟩
  generalize memLinkChunk
    { s with mem := memSetChunkSize s.mem node size } node = s' at mem_eq same
  have headFacts (nonempty : s.bucket (memBucketBySize size) ≠ 0) :=
    nodeFacts _ inRange _ (headListed nonempty)
  have lists' : ∃ lists', BucketLists s'
      (before ++ ⟨.free, size⟩ :: after) lists' := by
    refine good.push nodeEq rfl same.2.1 nonnull ?_ ?_ ?_ ?_ ?_
    · rw [mem_eq, memGetPrevChunk_push_self (by omega)]
    · rw [mem_eq, memGetNextChunk_push_self (by omega) headFits]
    · intro other otherRange y member
      obtain ⟨yLow, yApart, headApart⟩ := nodeFacts other otherRange y member
      rw [mem_eq, memGetPrevChunk_push (Or.inr (by omega)) (by omega)
        headApart (by omega) (by omega) nodeFits, memSetChunkSize_eq,
        memGetPrevChunk_setSizeWords yApart]
    · intro other otherRange y member
      obtain ⟨yLow, yApart, headApart⟩ := nodeFacts other otherRange y member
      rw [mem_eq, memGetNextChunk_push (Or.inr (by omega)) (by omega)
        headApart (by omega) headFits, memSetChunkSize_eq,
        memGetNextChunk_setSizeWords yApart]
    · intro other otherRange
      have otherLow := rep.bucketField_low otherRange
      rw [Arena.bucket, same.bucketField_eq, mem_eq]
      split_ifs with isIndex
      · rw [isIndex, ← fieldEq, load_push_field nodeFits]
      · have fields := bucketField_cases s.toNtMemInfo other
          (memBucketBySize size)
        rw [bucketField_inj, ← fieldEq] at fields
        rw [load_push_of_outside (by omega)
          (fun nonempty => by have := headFacts nonempty; omega) (by omega),
          memSetChunkSize_eq, load_setSizeWords_of_outside (by omega)]
        rfl
  have agree : ∀ position,
      ¬ ScratchByte kept s.loBound (before ++ [⟨.hole, size⟩] ++ after) position →
        s'.mem position = s.mem position := by
    intro position notScratch
    simp only [List.append_assoc, List.singleton_append] at notScratch
    have high := low_of_not_scratch notScratch
    have outsideHole : position < node ∨ node + size + 16 ≤ position := by
      by_contra inside
      exact inside (notKept position
        (kept_of_inside nodeEq notScratch (by omega) (by omega)))
    rw [mem_eq, pushNode_of_outside (by omega) _ (by omega)]
    · rw [memSetChunkSize_eq, setSizeWords_of_outside outsideHole]
    · intro nonempty
      have := outside_of_not_scratch good inRange (headListed nonempty) notScratch
      omega
  rw [List.append_cons] at rep lists' ⊢
  refine rep.rewrite same (by simp) ?_ (by simpa using ⟨aligned, least⟩)
    agree ?_ lists'
  · intro position isKept held
    have inside := held.bounds
    have outside := notKept position isKept
    simp only [span_cons, span_nil, Chunk.extent_eq] at inside
    omega
  intro address chunk isFree _
  simp only [at_cons, at_nil, or_false] at isFree
  obtain ⟨rfl, rfl⟩ := isFree
  rw [← nodeEq, mem_eq]
  simp only [Chunk.word_free]
  constructor
  · rw [load_push_of_outside (by omega)
      (fun nonempty => by have := headFacts nonempty; omega) (by omega)]
    exact headWord
  · rw [load_push_of_outside (by omega)
      (fun nonempty => by have := headFacts nonempty; omega) (by omega)]
    exact tailWord

theorem useHole
    (rep : Represents kept content s (before ++ ⟨.hole, size⟩ :: after))
    {node : Nat} (nodeEq : node = s.loBound + span before)
    (notKept : ∀ position, kept position →
      (position < node ∨ node + 8 ≤ position) ∧
        (position < node + 8 + size ∨ node + 16 + size ≤ position)) :
    Represents kept content
      { s with mem := memSetUsedChunkSize s.mem node size }
      (before ++ ⟨.used, size⟩ :: after) := by
  obtain ⟨nodeLow, nodeHigh, least, aligned, small, nodeFits, nonnull,
    -⟩ := rep.hole_bounds nodeEq
  obtain ⟨lists, good⟩ := rep.lists
  have word : memFlgUsed ||| size < 2 ^ 64 := by
    rw [memFlgUsed_or (by omega)]
    omega
  have sizeWords := load_setSizeWords s.mem node size word
  rw [memSetUsedChunkSize_eq]
  generalize mem_eq : setSizeWords s.mem node size (memFlgUsed ||| size) = mem
    at sizeWords ⊢
  have lists' : BucketLists { s with mem := mem }
      (before ++ ⟨.used, size⟩ :: after) lists := by
    constructor
    · intro index inRange
      have low := rep.bucketField_low inRange
      have bucketEq : ({ s with mem := mem } : Arena).bucket index =
          s.bucket index := by
        simp only [Arena.bucket, ← mem_eq]
        exact load_setSizeWords_of_outside (by omega)
      rw [bucketEq]
      refine (good.linked index inRange).congr (fun y member => ?_)
        (fun y member => ?_)
      · simp only [← mem_eq]
        exact memGetPrevChunk_setSizeWords (rep.listed_apart nodeEq good inRange member).2
      · simp only [← mem_eq]
        exact memGetNextChunk_setSizeWords (rep.listed_apart nodeEq good inRange member).2
    · intro index inRange address
      rw [good.members index inRange address]
      simp only [at_append, at_cons, Chunk.mk.injEq, Chunk.extent_eq,
        reduceCtorEq, false_and, and_false, false_or]
  have agree : ∀ position,
      ¬ ScratchByte kept s.loBound (before ++ [⟨.hole, size⟩] ++ after) position →
        mem position = s.mem position := by
    intro position notScratch
    simp only [List.append_assoc, List.singleton_append] at notScratch
    rw [← mem_eq]
    apply setSizeWords_of_apart
    by_contra inside
    exact inside (notKept position
      (kept_of_inside nodeEq notScratch (by omega) (by omega)))
  have listsEx : ∃ lists', BucketLists { s with mem := mem }
      (before ++ ⟨.used, size⟩ :: after) lists' := ⟨lists, lists'⟩
  rw [List.append_cons] at rep listsEx ⊢
  refine rep.rewrite ⟨rfl, rfl, rfl, rfl⟩ (by simp) ?_
    (by simpa using ⟨aligned, least⟩) agree ?_ listsEx
  · exact fun position _ held =>
      heldByte_of_no_free (by simp) held.bounds.1 (by simpa using held.bounds.2)
  intro address chunk isUsed _
  simp only [at_cons, at_nil, or_false] at isUsed
  obtain ⟨rfl, rfl⟩ := isUsed
  rw [← nodeEq]
  exact sizeWords

theorem openUsed
    (rep : Represents kept content s (before ++ ⟨.used, size⟩ :: after)) :
    Represents kept content s (before ++ ⟨.hole, size⟩ :: after) := by
  obtain ⟨lists, good⟩ := rep.lists
  have placesEq : ∀ address chunk,
      At s.loBound (before ++ ⟨.hole, size⟩ :: after) address chunk →
        chunk.tag ≠ .hole →
          At s.loBound (before ++ ⟨.used, size⟩ :: after) address chunk := by
    intro address chunk placed solid
    simp only [at_append, at_cons, Chunk.extent_eq] at placed ⊢
    rcases placed with placed | ⟨_, rfl⟩ | placed
    · exact Or.inl placed
    · exact (solid rfl).elim
    · exact Or.inr (Or.inr placed)
  refine ⟨rep.bounds, ?_, ?_, ?_, ⟨lists, good.linked, ?_⟩, ?_,
    rep.kept_content⟩
  · simpa using rep.tiles
  · intro chunk member
    simp only [List.mem_append, List.mem_cons] at member
    rcases member with member | rfl | member
    · exact rep.sizes chunk (by simp [member])
    · exact rep.sizes ⟨.used, size⟩ (by simp)
    · exact rep.sizes chunk (by simp [member])
  · exact fun address chunk placed solid =>
      rep.words address chunk (placesEq address chunk placed solid) solid
  · intro index inRange address
    rw [good.members index inRange address]
    simp only [at_append, at_cons, Chunk.mk.injEq, Chunk.extent_eq,
      reduceCtorEq, false_and, and_false, false_or]
  · intro position isKept
    have held := rep.kept_held position isKept
    rw [List.append_cons] at held ⊢
    exact held.replace (by simp) fun held =>
      heldByte_of_no_free (by simp) held.bounds.1 (by simpa using held.bounds.2)

/-- Holes are cut and joined without touching the memory. -/
theorem recutHoles {middle : List Chunk}
    (rep : Represents kept content s (before ++ middle ++ after))
    (middle' : List Chunk)
    (spans : span middle' = span middle)
    (holes : ∀ chunk ∈ middle, chunk.tag = .hole)
    (holes' : ∀ chunk ∈ middle', chunk.tag = .hole)
    (sizes : ∀ chunk ∈ middle', chunk.size % 8 = 0 ∧ 24 ≤ chunk.size) :
    Represents kept content s (before ++ middle' ++ after) := by
  refine rep.rewrite ⟨rfl, rfl, rfl, rfl⟩ spans
    (fun position _ held => heldByte_of_no_free
      (fun chunk member => by simp [holes' chunk member]) held.bounds.1
      (by rw [spans]; exact held.bounds.2)) sizes
    (fun _ _ => rfl) ?_ ?_
  · intro address chunk placed solid
    exact (solid (holes' chunk placed.mem)).elim
  · obtain ⟨lists, good⟩ := rep.lists
    refine ⟨lists, good.linked, fun index inRange address => ?_⟩
    rw [good.members index inRange address]
    refine exists_congr fun size => and_congr_left fun _ => ?_
    have noFree : ∀ start, ¬ At start middle address (⟨.free, size⟩ : Chunk) := by
      intro start placed
      have := holes _ placed.mem
      simp at this
    have noFree' : ∀ start,
        ¬ At start middle' address (⟨.free, size⟩ : Chunk) := by
      intro start placed
      have := holes' _ placed.mem
      simp at this
    simp only [at_replace, noFree, noFree', false_or, spans]

end Represents

end NtShm
