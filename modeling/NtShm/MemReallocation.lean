import NtShm.MemOperations

/-!
# Specification of the reallocation

The reallocation keeps a chunk, shrinks it into its right neighbour or by a
split, extends it into its right neighbour, or moves it: by allocating before
freeing when there is room for both, and through a copy outside the arena when
there is not.
-/

namespace NtShm

open Tiling

theorem shrinkIntoNext_same (s : Arena) (chunk size fullSize next : Nat) :
    s.SameBounds (shrinkIntoNext s chunk size fullSize next) := by
  simp only [Arena.SameBounds, shrinkIntoNext, memLinkChunk, memUnlinkChunk,
    and_self]

theorem shrinkBySplit_same (s : Arena) (chunk size fullSize : Nat) :
    s.SameBounds (shrinkBySplit s chunk size fullSize) := by
  simp only [Arena.SameBounds, shrinkBySplit, memLinkChunk, and_self]

theorem extendIntoNext_same (s : Arena) (chunk size fullSize next : Nat) :
    s.SameBounds (extendIntoNext s chunk size fullSize next) := by
  unfold extendIntoNext
  refine Arena.SameBounds.trans ?_ (useOrSplitChunk_same _ _ _ _)
  simp only [Arena.SameBounds, memUnlinkChunk, and_self]

namespace Represents

variable {kept : Nat → Prop} {content : Memory} {s : Arena}
  {chunks before after rest : List Chunk} {size fullSize other node next : Nat}

theorem shrinkIntoNext
    (rep : Represents kept content s
      (before ++ ⟨.used, fullSize⟩ :: ⟨.free, other⟩ :: rest))
    (nodeEq : node = s.loBound + span before)
    (nextEq : next = node + 8 + fullSize + 8) (aligned : size % 8 = 0)
    (least : 24 ≤ size) (room : size ≤ fullSize)
    (notKept : ∀ position, kept position →
      position < node ∨ node + 8 ≤ position ∧ position < node + 8 + size ∨
        node + fullSize + 16 ≤ position) :
    Represents kept content (shrinkIntoNext s node size fullSize next)
      (before ++ ⟨.used, size⟩ :: ⟨.free, other + (fullSize - size)⟩ :: rest) := by
  obtain ⟨nodeLow, nodeHigh, fullLeast, fullAligned, fullSmall⟩ :=
    rep.placed_bounds (at_middle nodeEq)
  have nextPlaced : next = s.loBound + span (before ++ [⟨.used, fullSize⟩]) := by
    simp
    omega
  have nextRep : Represents kept content s
      ((before ++ [⟨.used, fullSize⟩]) ++ ⟨.free, other⟩ :: rest) := by
    simpa using rep
  have otherFacts := nextRep.placed_bounds (at_middle nextPlaced)
  have nextSize : chunkSize s.mem next = other :=
    (nextRep.chunkSize_of_placed (at_middle nextPlaced) (by simp)).1
  simp only at nodeHigh fullLeast fullAligned fullSmall otherFacts
  have surplus : u64Sub fullSize size = fullSize - size :=
    u64Sub_of_le room (by omega)
  have newSize : u64Add other (fullSize - size) = other + (fullSize - size) :=
    u64Add_of_lt (by omega)
  have holePlaced : next = s.loBound + span (before ++ [⟨.hole, fullSize⟩]) := by
    simp
    omega
  have opened : Represents kept content s
      ((before ++ [⟨.hole, fullSize⟩]) ++ ⟨.free, other⟩ :: rest) := by
    simpa using rep.openUsed
  have unlinked := (opened.counters (u64Sub s.usedSize (fullSize - size))
    (u64Add s.freeSize (fullSize - size))).unlink holePlaced
  have shape : (before ++ [⟨.hole, fullSize⟩]) ++ ⟨.hole, other⟩ :: rest =
      before ++ [⟨.hole, fullSize⟩, ⟨.hole, other⟩] ++ rest := by
    simp
  rw [shape] at unlinked
  have divided := unlinked.splitHoles size (other + (fullSize - size)) (by simp)
    (by simp; omega) aligned least (by omega) (by omega) nodeEq
    fun position isKept => by
      have apart := notKept position isKept
      have outside := nextRep.kept_outside_free nextPlaced isKept
      omega
  simp only [NtShm.shrinkIntoNext, memSizeField_eq, nextSize, surplus, newSize]
  exact divided

theorem shrinkBySplit
    (rep : Represents kept content s (before ++ ⟨.used, fullSize⟩ :: after))
    (nodeEq : node = s.loBound + span before) (aligned : size % 8 = 0)
    (least : 24 ≤ size) (room : size + 40 ≤ fullSize)
    (notKept : ∀ position, kept position →
      position < node ∨ node + 8 ≤ position ∧ position < node + 8 + size ∨
        node + fullSize + 16 ≤ position) :
    Represents kept content (shrinkBySplit s node size fullSize)
      (before ++ ⟨.used, size⟩ :: ⟨.free, fullSize - size - 16⟩ :: after) := by
  obtain ⟨nodeLow, nodeHigh, fullLeast, fullAligned, fullSmall⟩ :=
    rep.placed_bounds (at_middle nodeEq)
  simp only at nodeHigh fullLeast fullAligned fullSmall
  have restSize : u64Sub (u64Sub fullSize size) 16 = fullSize - size - 16 := by
    have surplus : u64Sub fullSize size = fullSize - size :=
      u64Sub_of_le (by omega) (by omega)
    rw [surplus, u64Sub_of_le (by omega) (by omega)]
  have opened := (rep.openUsed.counters
    (u64Sub s.usedSize (u64Sub fullSize size))
    (u64Add s.freeSize (fullSize - size - 16)))
  rw [List.append_cons] at opened
  have divided := opened.splitHoles size (fullSize - size - 16) (by simp)
    (by simp; omega) aligned least (by omega) (by omega) nodeEq
    fun position isKept => by
      have apart := notKept position isKept
      omega
  simp only [NtShm.shrinkBySplit, memSizeField_eq, Nat.reduceMul, restSize]
  exact divided

theorem extendIntoNext
    (rep : Represents kept content s
      (before ++ ⟨.used, fullSize⟩ :: ⟨.free, other⟩ :: rest))
    (nodeEq : node = s.loBound + span before)
    (nextEq : next = node + 8 + fullSize + 8) (aligned : size % 8 = 0)
    (least : 24 ≤ size) (room : size ≤ fullSize + 16 + other)
    (notKept : ∀ position, kept position →
      position < node ∨ node + 8 ≤ position ∧ position < node + 8 + size ∨
        node + fullSize + 16 ≤ position) :
    Represents kept content (extendIntoNext s node size fullSize next)
      (before ++ carve size (fullSize + 16 + other) ++ rest) := by
  obtain ⟨nodeLow, nodeHigh, fullLeast, fullAligned, fullSmall⟩ :=
    rep.placed_bounds (at_middle nodeEq)
  have nextPlaced : next = s.loBound + span (before ++ [⟨.used, fullSize⟩]) := by
    simp
    omega
  have nextRep : Represents kept content s
      ((before ++ [⟨.used, fullSize⟩]) ++ ⟨.free, other⟩ :: rest) := by
    simpa using rep
  have otherFacts := nextRep.placed_bounds (at_middle nextPlaced)
  have nextSize : chunkSize s.mem next = other :=
    (nextRep.chunkSize_of_placed (at_middle nextPlaced) (by simp)).1
  simp only at nodeHigh fullLeast fullAligned fullSmall otherFacts
  have joinedSize : u64Add fullSize (u64Add 16 other) =
      fullSize + 16 + other := u64Add_add_of_lt (by omega)
  have holePlaced : next = s.loBound + span (before ++ [⟨.hole, fullSize⟩]) := by
    simp
    omega
  have opened : Represents kept content s
      ((before ++ [⟨.hole, fullSize⟩]) ++ ⟨.free, other⟩ :: rest) := by
    simpa using rep.openUsed
  have unlinked := (opened.counters (u64Sub s.usedSize fullSize)
    (u64Add s.freeSize (u64Add fullSize 16))).unlink holePlaced
  have shape : (before ++ [⟨.hole, fullSize⟩]) ++ ⟨.hole, other⟩ :: rest =
      before ++ [⟨.hole, fullSize⟩, ⟨.hole, other⟩] ++ rest := by
    simp
  rw [shape] at unlinked
  have joined := unlinked.recutHoles [⟨.hole, fullSize + 16 + other⟩]
    (by simp; omega) (by simp) (by simp) (by simp; omega)
  rw [List.append_assoc, List.singleton_append] at joined
  have divided := joined.useOrSplit nodeEq aligned least room
    fun position isKept => by
      have apart := notKept position isKept
      have outside := nextRep.kept_outside_free nextPlaced isKept
      omega
  simp only [NtShm.extendIntoNext, memSizeField_eq, Nat.reduceMul, nextSize,
    joinedSize]
  exact divided

theorem realloc_cases {request : Nat}
    (rep : Represents kept content s (before ++ ⟨.used, fullSize⟩ :: after))
    (heapServes : Bool)
    (solidAfter : ∀ chunk ∈ after, chunk.tag ≠ .hole)
    (nodeEq : node = s.loBound + span before)
    (nextEq : next = node + 8 + fullSize + 8)
    (sizeEq : size = memProperAllocSize request) :
    (size ≤ fullSize ∧ fullSize / 4 < size ∧
        memRealloc heapServes s (node + 8) request = .ok (node, s)) ∨
      (size ≤ fullSize / 4 ∧ ∃ other rest, after = ⟨.free, other⟩ :: rest ∧
        memRealloc heapServes s (node + 8) request =
          .ok (node, NtShm.shrinkIntoNext s node size fullSize next)) ∨
      (size ≤ fullSize / 4 ∧ (∀ size, mergeRight size after = (size, after)) ∧
        memRealloc heapServes s (node + 8) request =
          .ok (node, NtShm.shrinkBySplit s node size fullSize)) ∨
      (fullSize < size ∧ ∃ other rest, after = ⟨.free, other⟩ :: rest ∧
        size ≤ fullSize + 16 + other ∧
        memRealloc heapServes s (node + 8) request =
          .ok (node, NtShm.extendIntoNext s node size fullSize next)) ∨
      fullSize < size ∧
        (∀ other rest, after = ⟨.free, other⟩ :: rest →
          fullSize + 16 + other < size) ∧
        memRealloc heapServes s (node + 8) request =
          reallocElsewhere heapServes s (node + 8) node size fullSize next
            (decide (next < s.hiBound) && freeChunk s.mem next) := by
  have placed : At s.loBound (before ++ ⟨.used, fullSize⟩ :: after) node
      (⟨.used, fullSize⟩ : Chunk) := at_middle nodeEq
  have fullEq := (rep.chunkSize_of_placed placed (by simp)).1
  have nodeBounds := rep.placed_bounds placed
  simp only at fullEq nodeBounds
  have unfolded : memRealloc heapServes s (node + 8) request =
      if size ≤ fullSize then
        if size > fullSize / 4 then .ok (node, s)
        else if decide (next < s.hiBound) && freeChunk s.mem next then
          .ok (node, NtShm.shrinkIntoNext s node size fullSize next)
        else .ok (node, NtShm.shrinkBySplit s node size fullSize)
      else if (decide (next < s.hiBound) && freeChunk s.mem next) &&
          decide (u64Add (u64Add fullSize 16) (chunkSize s.mem next) ≥ size) then
        .ok (node, NtShm.extendIntoNext s node size fullSize next)
      else
        reallocElsewhere heapServes s (node + 8) node size fullSize next
          (decide (next < s.hiBound) && freeChunk s.mem next) := by
    simp only [memRealloc, memSizeField_eq, Nat.add_sub_cancel, fullEq, sizeEq,
      nextEq, Nat.reduceMul]
  rw [unfolded]
  rcases rep.right_cases next solidAfter nodeEq
      (by simp only; omega) with
    ⟨other, rest, rfl, nextFree, nextSize, nextPlace⟩ | ⟨nextFree, nextKept⟩
  · have nextRep : Represents kept content s
        ((before ++ [⟨.used, fullSize⟩]) ++ ⟨.free, other⟩ :: rest) := by
      simpa using rep
    have otherFacts := nextRep.placed_bounds (at_middle nextPlace)
    simp only at otherFacts
    have joinedSize : u64Add (u64Add fullSize 16) other =
        fullSize + 16 + other :=
      u64Add_of_add_lt (by omega)
    rw [nextFree, nextSize, joinedSize]
    simp only [List.cons.injEq, Chunk.mk.injEq, true_and]
    by_cases fits : size ≤ fullSize
    · by_cases keep : size > fullSize / 4
      · exact Or.inl ⟨fits, keep, by simp [fits, keep]⟩
      · exact Or.inr (Or.inl ⟨by omega, other, rest, ⟨rfl, rfl⟩, by
          simp [fits, keep]⟩)
    · by_cases extends' : size ≤ fullSize + 16 + other
      · exact Or.inr (Or.inr (Or.inr (Or.inl ⟨by omega, other, rest,
          ⟨rfl, rfl⟩, extends', by simp [fits, extends']⟩)))
      · refine Or.inr (Or.inr (Or.inr (Or.inr ⟨by omega, ?_, by
          simp [fits, extends']⟩)))
        rintro _ _ ⟨rfl, _⟩
        omega
  · rw [nextFree]
    by_cases fits : size ≤ fullSize
    · by_cases keep : size > fullSize / 4
      · exact Or.inl ⟨fits, keep, by simp [fits, keep]⟩
      · exact Or.inr (Or.inr (Or.inl ⟨by omega, nextKept, by
          simp [fits, keep]⟩))
    · refine Or.inr (Or.inr (Or.inr (Or.inr ⟨by omega, ?_, by simp [fits]⟩)))
      rintro other rest rfl
      have := nextKept 0
      simp [mergeRight] at this

theorem sizeWithNeighbours_eq
    (rep : Represents kept content s (before ++ ⟨.used, fullSize⟩ :: after))
    (solidBefore : ∀ chunk ∈ before, chunk.tag ≠ .hole)
    (solidAfter : ∀ chunk ∈ after, chunk.tag ≠ .hole)
    (nodeEq : node = s.loBound + span before)
    (nextEq : next = node + 8 + fullSize + 8) :
    sizeWithNeighbours s node fullSize next
        (decide (next < s.hiBound) && freeChunk s.mem next) =
      releasedSize before fullSize after := by
  have nodeBounds := rep.placed_bounds (at_middle nodeEq)
  have hi_lt := rep.bounds.hi_lt
  have total := rep.tiles
  have small := rep.bounds.total_small
  simp only [span_append, span_cons, Chunk.extent_eq, memMaxSize_eq]
    at total small nodeBounds
  unfold sizeWithNeighbours releasedSize
  rcases rep.left_cases solidBefore nodeEq with
      ⟨front, left, rfl, leftFree, leftSize, _⟩ | ⟨leftFree, leftKept⟩ <;>
    rcases rep.right_cases next solidAfter nodeEq
      (by simp only; omega) with
      ⟨right, rest, rfl, rightFree, rightSize, _⟩ | ⟨rightFree, rightKept⟩
  · simp only [span_append, span_cons, span_nil, Chunk.extent_eq] at total
    have rightSum : u64Add fullSize (u64Add right 16) = fullSize + right + 16 :=
      u64Add_add_of_lt (by omega)
    have sum : u64Add (fullSize + right + 16) (u64Add left 16) =
        left + fullSize + 16 + right + 16 := by
      rw [u64Add_add_of_lt (by omega)]
      omega
    simp only [memSizeField_eq, Nat.reduceMul, leftFree, leftSize, rightFree,
      rightSize, if_true, rightSum, sum]
    simp [mergeLeft, mergeRight]
  · simp only [span_append, span_cons, span_nil, Chunk.extent_eq] at total
    have sum : u64Add fullSize (u64Add left 16) = left + fullSize + 16 := by
      rw [u64Add_add_of_lt (by omega)]
      omega
    simp only [memSizeField_eq, Nat.reduceMul, leftFree, leftSize, rightFree,
      if_true, Bool.false_eq_true, if_false, sum, rightKept]
    simp [mergeLeft]
  · simp only [span_cons, Chunk.extent_eq] at total
    have sum : u64Add fullSize (u64Add right 16) = fullSize + right + 16 :=
      u64Add_add_of_lt (by omega)
    simp only [memSizeField_eq, Nat.reduceMul, leftFree, rightFree, rightSize,
      if_true, Bool.false_eq_true, if_false, sum, leftKept, mergeRight]
  · simp [leftFree, leftKept, rightFree, rightKept]

/-- `__mem_realloc` when no free chunk is large enough. -/
theorem reallocElsewhere_of_null
    (rep : Represents kept content s (before ++ ⟨.used, fullSize⟩ :: after))
    (heapServes : Bool) (solidBefore : ∀ chunk ∈ before, chunk.tag ≠ .hole)
    (solidAfter : ∀ chunk ∈ after, chunk.tag ≠ .hole)
    (nodeEq : node = s.loBound + span before)
    (null : memMalloc s size = .ok (0, s)) :
    reallocElsewhere heapServes s (node + 8) node size fullSize
        (node + 8 + fullSize + 8)
        (decide (node + 8 + fullSize + 8 < s.hiBound) &&
          freeChunk s.mem (node + 8 + fullSize + 8)) =
      if size > releasedSize before fullSize after then .ok (0, s)
      else reallocThroughCopy heapServes s (node + 8) node size fullSize := by
  simp only [reallocElsewhere, null, ne_eq, not_true_eq_false, if_false,
    rep.sizeWithNeighbours_eq solidBefore solidAfter nodeEq rfl]

theorem keepOwn {count : Nat}
    (rep : Represents kept content s (before ++ ⟨.used, fullSize⟩ :: after))
    (nodeEq : node = s.loBound + span before) (within : count ≤ fullSize) :
    Represents
      (fun position =>
        kept position ∨ node + 8 ≤ position ∧ position < node + 8 + count)
      s.mem s (before ++ ⟨.used, fullSize⟩ :: after) := by
  refine rep.weaken (fun position isKept => ?_) fun _ _ => rfl
  rcases isKept with isKept | inside
  · exact rep.kept_held position isKept
  · refine ⟨node, ⟨.used, fullSize⟩, at_middle nodeEq, by simp, by omega, ?_⟩
    simp only [Chunk.extent_eq]
    omega

/-- Give up the bytes that `keepOwn` added. -/
theorem dropOwn {s' : Arena} {own : Nat → Prop} {chunks' : List Chunk}
    (rep : Represents kept content s chunks)
    (rep' : Represents (fun position => kept position ∨ own position) s.mem s'
      chunks') :
    Represents kept content s' chunks' :=
  rep'.weaken (fun position isKept => rep'.kept_held position (Or.inl isKept))
    fun position isKept => (rep'.kept_content position (Or.inl isKept)).trans
      (rep.kept_content position isKept)

end Represents

/-- What a call of `__mem_realloc` has done when it returns a block: the
chunk at `node` has gone, and another used chunk has come that begins with the
same bytes. -/
structure Reallocated (kept : Nat → Prop) (content : Memory) (s : Arena)
    (node fullSize size : Nat) (others : List (Nat × Nat))
    (new : Nat) (s' : Arena) : Prop where
  same : s.SameBounds s'
  block : ∃ chunks newSize, Represents kept content s' chunks ∧
    Settled chunks ∧ size ≤ newSize ∧
    (usedBlocks s.loBound chunks).Perm ((new, newSize) :: others)
  contents : ∀ offset, offset < fullSize → offset < size →
    s'.mem (new + 8 + offset) = s.mem (node + 8 + offset)

namespace Represents

variable {kept : Nat → Prop} {content : Memory} {s : Arena}
  {chunks before after rest : List Chunk} {size fullSize other node next : Nat}

theorem move_spec
    (rep : Represents kept content s (before ++ ⟨.used, fullSize⟩ :: after))
    (nodeEq : node = s.loBound + span before)
    (notKept : ∀ position, kept position →
      position < node ∨ node + fullSize + 16 ≤ position)
    (larger : fullSize < size) {new newSize : Nat} {moved : Arena} {chunks' : List Chunk}
    (same : s.SameBounds moved)
    (movedRep : Represents
      (fun position => kept position ∨
        node + 8 ≤ position ∧ position < node + 8 + fullSize)
      s.mem moved chunks')
    (movedSettled : Settled chunks') (room : size ≤ newSize)
    (apart : ∀ position, (kept position ∨
        node + 8 ≤ position ∧ position < node + 8 + fullSize) →
      position < new ∨ new + newSize + 16 ≤ position)
    (blocks : (usedBlocks s.loBound chunks').Perm
      ((new, newSize) ::
        usedBlocks s.loBound (before ++ ⟨.used, fullSize⟩ :: after))) :
    Reallocated kept content s node fullSize size
      (usedBlocks s.loBound before ++
        usedBlocks (node + fullSize + 16) after) new
      (memFree { moved with
        mem := moved.mem.copy (new + 8) (node + 8) fullSize } (node + 8)) := by
  have loEq := same.2.1
  have newPlaced : At moved.loBound chunks' new ⟨.used, newSize⟩ := by
    rw [← mem_usedBlocks, loEq, blocks.mem_iff]
    simp
  have nodePlaced : At moved.loBound chunks' node ⟨.used, fullSize⟩ := by
    rw [← mem_usedBlocks, loEq, blocks.mem_iff]
    simp [usedBlocks_used, nodeEq]
  have least := (movedRep.placed_bounds nodePlaced).2.2.1
  have disjoint : new + newSize + 16 ≤ node ∨ node + fullSize + 16 ≤ new := by
    rcases newPlaced.cases_disjoint nodePlaced with ⟨equal, _⟩ | disjoint
    · have := apart (node + 8) (Or.inr (by simp only at least; omega))
      omega
    · simpa only [Chunk.extent_eq, Nat.add_assoc] using disjoint
  generalize copyEq : moved.mem.copy (new + 8) (node + 8) fullSize = mem
  have outside : ∀ position, position < new + 8 ∨
      new + 8 + fullSize ≤ position → mem position = moved.mem position :=
    fun position outside => copyEq ▸ Memory.fill_of_outside outside
  have written : Represents _ s.mem { moved with mem := mem } chunks' :=
    movedRep.writePayload newPlaced
      (fun position _ => outside position (by omega))
      fun position isKept => by
        have := apart position isKept
        rw [outside position (by omega), movedRep.kept_content position isKept]
  have copied : Represents
      (fun position => kept position ∨
        new + 8 ≤ position ∧ position < new + 8 + fullSize)
      mem { moved with mem := mem } chunks' :=
    written.weaken (fun position isKept => ?_) fun _ _ => rfl
  · obtain ⟨front, back, rfl, place⟩ := nodePlaced
    obtain ⟨same', freed, settled', blocks'⟩ :=
      copied.free_spec movedSettled place fun position isKept => by
        rcases isKept with isKept | own
        · exact notKept position isKept
        · omega
    refine ⟨same.trans same', ⟨_, newSize, ?_, settled', room, ?_⟩, ?_⟩
    · refine freed.weaken
        (fun position isKept => freed.kept_held position (Or.inl isKept))
        fun position isKept => ?_
      have := apart position (Or.inl isKept)
      rw [freed.kept_content position (Or.inl isKept),
        outside position (by omega),
        movedRep.kept_content position (Or.inl isKept),
        rep.kept_content position isKept]
    · simp only [loEq] at blocks'
      have blocks' := blocks'.symm.trans blocks
      rw [usedBlocks_used, ← nodeEq] at blocks'
      have toFront : ((new, newSize) :: (usedBlocks s.loBound before ++
          (node, fullSize) :: usedBlocks (node + fullSize + 16) after)).Perm
          ((node, fullSize) :: (new, newSize) :: (usedBlocks s.loBound before ++
            usedBlocks (node + fullSize + 16) after)) :=
        (List.perm_middle.cons _).trans (List.Perm.swap _ _ _)
      exact List.Perm.cons_inv (blocks'.trans toFront)
    · intro offset low _
      rw [freed.kept_content (new + 8 + offset) (Or.inr (by omega)), ← copyEq,
        Memory.copy, Memory.fill_of_inside low]
      exact movedRep.kept_content (node + 8 + offset) (Or.inr (by omega))
  · rcases isKept with isKept | own
    · exact movedRep.kept_held position (Or.inl isKept)
    · refine ⟨new, ⟨.used, newSize⟩, newPlaced, by simp, by omega, ?_⟩
      simp only [Chunk.extent_eq]
      omega

theorem at_released (before after : List Chunk) (start size : Nat) :
    ∃ address, At start (release before size after) address
      ⟨.free, releasedSize before size after⟩ :=
  ⟨_, _, _, rfl, rfl⟩

theorem throughCopy_spec {request : Nat}
    (rep : Represents kept content s (before ++ ⟨.used, fullSize⟩ :: after))
    (settled : Settled (before ++ ⟨.used, fullSize⟩ :: after))
    (nodeEq : node = s.loBound + span before)
    (notKept : ∀ position, kept position →
      position < node ∨ node + fullSize + 16 ≤ position)
    (proper : IsProperSize request size) (larger : fullSize < size)
    (room : size ≤ releasedSize before fullSize after) :
    ∃ new s', reallocThroughCopy true s (node + 8) node size fullSize =
        .ok (new, s') ∧
      new ≠ 0 ∧
      Reallocated kept content s node fullSize size
        (usedBlocks s.loBound before ++
          usedBlocks (node + fullSize + 16) after) new s' := by
  obtain ⟨same, freed, freedSettled, blocks⟩ :=
    rep.free_spec settled nodeEq notKept
  have lo_pos := freed.bounds.lo_pos
  have loEq := same.2.1
  have properSize := memProperAllocSize_of_proper proper
  have again : IsProperSize size size :=
    ⟨proper.aligned, proper.least, le_rfl, proper.small⟩
  rcases freed.malloc_spec freedSettled again properSize.symm with
    ⟨_, noFit⟩ |
    ⟨new, s', chunks', newSize, found, same', newRep, newSettled, newRoom, _,
      apart, newBlocks⟩
  · obtain ⟨address, placed⟩ := at_released before after
      (memFree s (node + 8)).loBound fullSize
    have := noFit address _ placed
    omega
  · have newPlaced : At s'.loBound chunks' new ⟨.used, newSize⟩ := by
      rw [← mem_usedBlocks, same'.2.1, newBlocks.mem_iff]
      simp
    have newLow := newPlaced.low
    have nonnull : new ≠ 0 := by
      have := newRep.bounds.lo_pos
      omega
    generalize fillEq : s'.mem.fill (new + 8) fullSize
      (fun offset => s.mem (node + 8 + offset)) = mem
    have outside : ∀ position, position < new + 8 ∨
        new + 8 + fullSize ≤ position → mem position = s'.mem position :=
      fun position outside => fillEq ▸ Memory.fill_of_outside outside
    have filled : Represents kept content { s' with mem := mem } chunks' :=
      newRep.writePayload newPlaced
        (fun position _ => outside position (by omega))
        fun position isKept => by
          have := apart position isKept
          rw [outside position (by omega), newRep.kept_content position isKept]
    refine ⟨new, { s' with mem := mem }, ?_, nonnull, ?_, ?_, ?_⟩
    · simp only [reallocThroughCopy, found, nonnull, if_true, if_false,
        memSizeField_eq, fillEq]
    · exact (same.trans same').trans ⟨rfl, rfl, rfl, rfl⟩
    · refine ⟨chunks', newSize, filled, newSettled, newRoom, ?_⟩
      rw [loEq, usedBlocks_release, ← nodeEq] at newBlocks
      exact newBlocks
    · intro offset low _
      have copied : s'.mem.fill (new + 8) fullSize
          (fun offset => s.mem (node + 8 + offset)) (new + 8 + offset) =
          s.mem (node + 8 + offset) := Memory.fill_of_inside low
      rwa [fillEq] at copied

theorem inPlace_spec {s' : Arena} {chunks' : List Chunk}
    (rep : Represents kept content s chunks) (newSize : Nat) (same : s.SameBounds s')
    (newRep : Represents
      (fun position => kept position ∨
        node + 8 ≤ position ∧ position < node + 8 + min fullSize size)
      s.mem s' chunks')
    (settled : Settled chunks') (room : size ≤ newSize)
    {front back : List (Nat × Nat)}
    (blocks : usedBlocks s.loBound chunks' = front ++ (node, newSize) :: back) :
    Reallocated kept content s node fullSize size (front ++ back) node s' := by
  refine ⟨same, ⟨chunks', newSize, rep.dropOwn newRep, settled, room, ?_⟩,
    fun offset low high => newRep.kept_content _ (Or.inr (by omega))⟩
  rw [blocks]
  exact List.perm_middle

theorem realloc_spec {request : Nat} (heapServes : Bool)
    (rep : Represents kept content s (before ++ ⟨.used, fullSize⟩ :: after))
    (settled : Settled (before ++ ⟨.used, fullSize⟩ :: after))
    (nodeEq : node = s.loBound + span before)
    (notKept : ∀ position, kept position →
      position < node ∨ node + fullSize + 16 ≤ position)
    (proper : IsProperSize request size)
    (sizeEq : size = memProperAllocSize request) :
    (fullSize < size ∧ releasedSize before fullSize after < size ∧
        (∀ address freeSize,
          At s.loBound (before ++ ⟨.used, fullSize⟩ :: after) address
            ⟨.free, freeSize⟩ → freeSize < size) ∧
        memRealloc heapServes s (node + 8) request = .ok (0, s)) ∨
      (heapServes = false ∧
        memRealloc heapServes s (node + 8) request = .error .exit) ∨
      ∃ new s', memRealloc heapServes s (node + 8) request = .ok (new, s') ∧
        new ≠ 0 ∧
        Reallocated kept content s node fullSize size
          (usedBlocks s.loBound before ++
            usedBlocks (node + fullSize + 16) after) new s' := by
  obtain ⟨left, right, -⟩ := settled.split
  have nodeBounds := rep.placed_bounds (at_middle nodeEq)
  have lo_pos := rep.bounds.lo_pos
  have nonnull : node ≠ 0 := by omega
  have least := proper.least
  simp only at nodeBounds
  have own := rep.keepOwn nodeEq (min_le_left fullSize size)
  have ownNotKept : ∀ position, (kept position ∨
      node + 8 ≤ position ∧ position < node + 8 + min fullSize size) →
      position < node ∨ node + 8 ≤ position ∧ position < node + 8 + size ∨
        node + fullSize + 16 ≤ position := by
    rintro position (isKept | inside)
    · have := notKept position isKept
      omega
    · omega
  rcases own.realloc_cases heapServes right.solid nodeEq rfl sizeEq with
    ⟨fits, _, result⟩ | ⟨small, other, rest, rfl, result⟩ |
    ⟨small, noRight, result⟩ | ⟨large, other, rest, rfl, room, result⟩ |
    ⟨large, _, result⟩
  · refine Or.inr (Or.inr ⟨node, s, result, nonnull,
      rep.inPlace_spec fullSize ⟨rfl, rfl, rfl, rfl⟩ own settled fits ?_⟩)
    rw [usedBlocks_used, nodeEq]
  · have shrunk := own.shrinkIntoNext nodeEq rfl proper.aligned least
      (by omega) ownNotKept
    refine Or.inr (Or.inr ⟨node, _, result, nonnull,
      rep.inPlace_spec size (shrinkIntoNext_same _ _ _ _ _) shrunk
        (left.giveBack size (fullSize - size) right) le_rfl ?_⟩)
    rw [usedBlocks_used, usedBlocks_cons_free, usedBlocks_cons_free, nodeEq]
    congr 3
    omega
  · have guarded := guarded_of_mergeRight noRight
    have shrunk := own.shrinkBySplit nodeEq proper.aligned least
      (by omega) ownNotKept
    have newSettled := left.giveBack size (fullSize - size) right
    rw [giveBack_of_guarded guarded] at newSettled
    refine Or.inr (Or.inr ⟨node, _, result, nonnull,
      rep.inPlace_spec size (shrinkBySplit_same _ _ _ _) shrunk newSettled
        le_rfl ?_⟩)
    rw [usedBlocks_used, usedBlocks_cons_free, nodeEq]
    congr 3
    omega
  · obtain ⟨_, restSettled, guarded⟩ := settled_cons.mp right
    have extended := own.extendIntoNext nodeEq rfl proper.aligned least room
      ownNotKept
    refine Or.inr (Or.inr ⟨node, _, result, nonnull,
      rep.inPlace_spec (carvedSize size (fullSize + 16 + other))
        (extendIntoNext_same _ _ _ _ _) extended
        (left.carve restSettled (guarded rfl)) ?_ ?_⟩)
    · unfold carvedSize
      split_ifs <;> omega
    · rw [usedBlocks_carve, usedBlocks_cons_free, nodeEq]
      congr 3
      omega
  · have again : IsProperSize size size :=
      ⟨proper.aligned, least, le_rfl, proper.small⟩
    have properSize := (memProperAllocSize_of_proper proper).symm
    rw [result]
    rcases (rep.keepOwn nodeEq le_rfl).malloc_spec settled again properSize with
      ⟨null, noFit⟩ |
      ⟨new, moved, chunks', newSize, found, same, movedRep, movedSettled,
        room, _, apart, blocks⟩
    · have unfolded := rep.reallocElsewhere_of_null heapServes left.solid right.solid
        nodeEq null
      rw [unfolded]
      by_cases short : size > releasedSize before fullSize after
      · exact Or.inl ⟨large, short, noFit, if_pos short⟩
      · rw [if_neg short]
        cases heapServes with
        | false => exact Or.inr (Or.inl ⟨rfl, rfl⟩)
        | true => exact Or.inr (Or.inr (rep.throughCopy_spec settled nodeEq
            notKept proper large (by omega)))
    · have newPlaced : At s.loBound chunks' new ⟨.used, newSize⟩ := by
        rw [← mem_usedBlocks, blocks.mem_iff]
        simp
      have newLow := newPlaced.low
      have newNonnull : new ≠ 0 := by omega
      refine Or.inr (Or.inr ⟨new, _, ?_, newNonnull, rep.move_spec nodeEq
        notKept large same movedRep movedSettled room apart blocks⟩)
      simp only [reallocElsewhere, found, memSizeField_eq, ne_eq, newNonnull,
        not_false_eq_true, if_true]

end Represents

end NtShm
