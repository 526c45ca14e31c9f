import NtShm.MemWellFormed

/-!
# When the allocator gives up

`__mem_malloc` returns NULL only if no free chunk of the arena is large enough.
`__mem_realloc` returns NULL only if, besides, the chunk could not grow over its
free neighbours.  In both cases nothing has changed.
-/

namespace NtShm

open Tiling

def HasRoom (mem : Memory) (nodes : List Nat) (size : Nat) : Prop :=
  ∃ node ∈ nodes, freeChunk mem node = true ∧ size ≤ chunkSize mem node

/-- What a neighbour adds to a chunk that it is merged with. -/
def freeExtent (mem : Memory) : Option Nat → Nat
  | some node => if freeChunk mem node then chunkSize mem node + 2 * memSizeField else 0
  | none => 0

namespace Represents

variable {kept : Nat → Prop} {content : Memory} {s : Arena}
  {chunks before after : List Chunk} {size fullSize node : Nat}

theorem hasRoom_iff (rep : Represents kept content s chunks) (settled : Settled chunks) :
    HasRoom s.mem (chunkAddresses s.loBound chunks) size ↔
      ∃ address freeSize, At s.loBound chunks address ⟨.free, freeSize⟩ ∧
        size ≤ freeSize := by
  constructor
  · rintro ⟨address, member, isFree, fits⟩
    obtain ⟨⟨tag, freeSize⟩, placed⟩ := mem_chunkAddresses.mp member
    obtain ⟨sizeEq, -, freeEq, -⟩ :=
      rep.chunkSize_of_placed placed (settled.solid _ placed.mem)
    rw [freeEq, decide_eq_true_eq] at isFree
    simp only at isFree sizeEq
    subst isFree
    exact ⟨address, freeSize, placed, sizeEq ▸ fits⟩
  · rintro ⟨address, freeSize, placed, fits⟩
    obtain ⟨sizeEq, -, freeEq, -⟩ := rep.chunkSize_of_placed placed (by simp)
    exact ⟨address, mem_chunkAddresses.mpr ⟨_, placed⟩, by simp [freeEq], sizeEq ▸ fits⟩

theorem malloc_finds (rep : Represents kept content s chunks) (settled : Settled chunks)
    (bound : size ≤ memMaxSize) :
    ∃ chunk s', memMalloc s size = .ok (chunk, s') ∧
      (chunk = 0 ↔ ¬ HasRoom s.mem (chunkAddresses s.loBound chunks)
        (memProperAllocSize size)) ∧
      (chunk = 0 → s' = s) ∧
      (chunk ≠ 0 → chunk ∈ chunkAddresses s.loBound chunks ∧
        freeChunk s.mem chunk = true ∧
        memProperAllocSize size ≤ chunkSize s.mem chunk) := by
  rw [rep.hasRoom_iff settled]
  cases rep.malloc_cases bound with
  | inl fails =>
      obtain ⟨null, noFit⟩ := fails
      refine ⟨0, s, null, iff_of_true rfl ?_, fun _ => rfl,
        fun nonnull => absurd rfl nonnull⟩
      rintro ⟨address, freeSize, placed, fits⟩
      exact absurd fits (Nat.not_le.mpr (noFit address freeSize placed))
  | inr found =>
      obtain ⟨before, freeSize, after, rfl, fits, found⟩ := found
      have placed : At s.loBound (before ++ ⟨.free, freeSize⟩ :: after)
        (s.loBound + span before) ⟨.free, freeSize⟩ := at_middle rfl
      obtain ⟨sizeEq, -, freeEq, -⟩ := rep.chunkSize_of_placed placed (by simp)
      have nonnull : s.loBound + span before ≠ 0 := by
        have := rep.bounds.lo_pos
        omega
      refine ⟨_, _, found, iff_of_false nonnull ?_, fun null => absurd null nonnull,
        fun _ => ⟨mem_chunkAddresses.mpr ⟨_, placed⟩, by simp [freeEq], sizeEq ▸ fits⟩⟩
      exact not_not.mpr ⟨_, freeSize, placed, fits⟩

end Represents

/-- After any run, `__mem_malloc` returns NULL if and only if no free chunk has
room for the rounded request.  It then changes nothing, and otherwise takes a
free chunk that is large enough. -/
theorem heapRun_malloc_finds {start : Arena} (fresh : FreshArena start) {h : Heap}
    (run : HeapRun start h) :
    ∃ nodes lists, WellFormed h.arena nodes lists ∧ ∀ size ≤ memMaxSize,
      ∃ chunk s, memMalloc h.arena size = .ok (chunk, s) ∧
        (chunk = 0 ↔ ¬ HasRoom h.arena.mem nodes (memProperAllocSize size)) ∧
        (chunk = 0 → s = h.arena) ∧
        (chunk ≠ 0 → chunk ∈ nodes ∧ freeChunk h.arena.mem chunk = true ∧
          memProperAllocSize size ≤ chunkSize h.arena.mem chunk) := by
  obtain ⟨chunks, serves, -⟩ := run.serves fresh
  obtain ⟨lists, wellFormed⟩ := serves.represents.wellFormed serves.settled
  exact ⟨_, lists, wellFormed, fun size bound =>
    serves.represents.malloc_finds serves.settled bound⟩

/-- Of two blocks the first is given back: 24 bytes are found there, and 200 nowhere. -/
theorem heapRun_malloc_finds_twoBlocks :
    ∃ s nodes lists, HeapRun smallArena ⟨s, [384]⟩ ∧ WellFormed s nodes lists ∧
      336 ∈ nodes ∧ freeChunk s.mem 336 = true ∧
      memProperAllocSize 24 ≤ chunkSize s.mem 336 ∧
      ¬ HasRoom s.mem nodes (memProperAllocSize 200) := by
  obtain ⟨s, isTwo, run, -⟩ := twoBlocks_run
  have evaluates : twoBlocks.map (fun s => ((memMalloc (memFree s 344) 24).toOption.map Prod.fst,
      (memMalloc (memFree s 344) 200).toOption.map Prod.fst)) = some (some 336, some 0) := by
    decide +kernel
  rw [isTwo, Option.map_some, Option.some.injEq, Prod.mk.injEq] at evaluates
  obtain ⟨_, serves⟩ := exists_of_chunk evaluates.1
  obtain ⟨_, fails⟩ := exists_of_chunk evaluates.2
  have run' : HeapRun smallArena ⟨memFree s 344, [384]⟩ :=
    run.tail (@HeapStep.free ⟨s, [384, 344]⟩ 344 (by simp))
  obtain ⟨nodes, lists, wellFormed, finds⟩ := heapRun_malloc_finds smallArena_fresh run'
  obtain ⟨_, _, returned, -, -, found⟩ := finds 24 (by decide)
  cases serves.symm.trans returned
  obtain ⟨_, _, returned', null, -⟩ := finds 200 (by decide)
  cases fails.symm.trans returned'
  obtain ⟨isNode, isFree, room⟩ := found (by decide)
  exact ⟨_, nodes, lists, run', wellFormed, isNode, isFree, room, null.mp rfl⟩

section Neighbours

/-- What the last of some chunks adds to a chunk on its right. -/
def lastExtent (before : List Chunk) : Nat :=
  match before.getLast? with
  | some ⟨.free, size⟩ => size + 16
  | _ => 0

/-- What the first of some chunks adds to a chunk on its left. -/
def firstExtent (after : List Chunk) : Nat :=
  match after.head? with
  | some ⟨.free, size⟩ => size + 16
  | _ => 0

theorem releasedSize_eq (before : List Chunk) (size : Nat) (after : List Chunk) :
    releasedSize before size after = size + lastExtent before + firstExtent after := by
  have right : ∀ size, (mergeRight size after).1 = size + firstExtent after := by
    intro size
    unfold mergeRight firstExtent
    rcases after with _ | ⟨⟨tag, other⟩, rest⟩
    · rfl
    · cases tag <;> simp [Nat.add_assoc]
  have left : (mergeLeft before size).2 = size + lastExtent before := by
    rcases List.eq_nil_or_concat before with rfl | ⟨front, ⟨tag, other⟩, rfl⟩
    · rfl
    · rw [List.concat_eq_append]
      cases tag with
      | free =>
          have taken : (mergeLeft (front ++ [⟨.free, other⟩]) size).2 =
              other + size + 16 := by
            simp [mergeLeft]
          have added : lastExtent (front ++ [⟨.free, other⟩]) = other + 16 := by
            simp [lastExtent]
          omega
      | used => simp [mergeLeft, lastExtent]
      | hole => simp [mergeLeft, lastExtent]
  rw [releasedSize, right, left]

theorem chunkAddresses_append (start : Nat) (before after : List Chunk) :
    chunkAddresses start (before ++ after) =
      chunkAddresses start before ++ chunkAddresses (start + span before) after := by
  induction before generalizing start with
  | nil => rfl
  | cons chunk before ih =>
      simp [chunkAddresses, ih, Nat.add_assoc]

variable {kept : Nat → Prop} {content : Memory} {s : Arena}
  {before after : List Chunk} {chunk : Chunk} {size node : Nat}

namespace Represents

theorem freeExtent_of_placed {chunks : List Chunk}
    (rep : Represents kept content s chunks)
    (placed : At s.loBound chunks node chunk) (solid : chunk.tag ≠ .hole) :
    freeExtent s.mem (some node) = if chunk.tag = .free then chunk.size + 16 else 0 := by
  obtain ⟨sizeEq, -, freeEq, -⟩ := rep.chunkSize_of_placed placed solid
  simp [freeExtent, sizeEq, freeEq]

theorem freeExtent_left (rep : Represents kept content s (before ++ after))
    (solid : ∀ chunk ∈ before, chunk.tag ≠ .hole) :
    freeExtent s.mem (chunkAddresses s.loBound before).getLast? = lastExtent before := by
  rcases List.eq_nil_or_concat before with rfl | ⟨front, last, rfl⟩
  · rfl
  · rw [List.concat_eq_append] at *
    have placed : At s.loBound (front ++ [last] ++ after) (s.loBound + span front) last := by
      rw [List.append_assoc]
      exact at_middle rfl
    have isLast : (chunkAddresses s.loBound (front ++ [last])).getLast? =
        some (s.loBound + span front) := by
      simp [chunkAddresses_append, chunkAddresses]
    rw [isLast, rep.freeExtent_of_placed placed (solid last (by simp))]
    obtain ⟨tag, size⟩ := last
    cases tag <;> simp [lastExtent]

theorem freeExtent_right (rep : Represents kept content s (before ++ after))
    (solid : ∀ chunk ∈ after, chunk.tag ≠ .hole) :
    freeExtent s.mem (chunkAddresses (s.loBound + span before) after).head? =
      firstExtent after := by
  rcases after with _ | ⟨first, rest⟩
  · rfl
  · have placed : At s.loBound (before ++ first :: rest) (s.loBound + span before) first :=
      at_middle rfl
    change freeExtent s.mem (some (s.loBound + span before)) = _
    rw [rep.freeExtent_of_placed placed (solid first (by simp))]
    obtain ⟨tag, size⟩ := first
    cases tag <;> simp [firstExtent]

theorem realloc_null {request fullSize : Nat}
    (rep : Represents kept content s (before ++ ⟨.used, fullSize⟩ :: after))
    (settled : Settled (before ++ ⟨.used, fullSize⟩ :: after))
    (nodeEq : node = s.loBound + span before) (proper : IsProperSize request size)
    (sizeEq : size = memProperAllocSize request) (heapServes : Bool)
    (larger : fullSize < size)
    (noFit : ∀ address freeSize,
      At s.loBound (before ++ ⟨.used, fullSize⟩ :: after) address ⟨.free, freeSize⟩ →
        freeSize < size)
    (short : releasedSize before fullSize after < size) :
    memRealloc heapServes s (node + 8) request = .ok (0, s) := by
  obtain ⟨left, right, -⟩ := settled.split
  have properSize := memProperAllocSize_of_proper proper
  rcases rep.realloc_cases heapServes right.solid nodeEq rfl sizeEq with
    ⟨fits, -⟩ | ⟨small, -⟩ | ⟨small, -⟩ | ⟨-, other, rest, rfl, fits, -⟩ |
    ⟨-, -, result⟩
  · omega
  · omega
  · omega
  · rw [releasedSize_eq] at short
    change fullSize + lastExtent before + (other + 16) < size at short
    omega
  · have null : memMalloc s size = .ok (0, s) := by
      cases rep.malloc_cases proper.small with
      | inl fails => exact fails.1
      | inr found =>
          obtain ⟨front, freeSize, back, split, fits, -⟩ := found
          have placed : At s.loBound (before ++ ⟨.used, fullSize⟩ :: after)
            (s.loBound + span front) ⟨.free, freeSize⟩ := ⟨front, back, split, rfl⟩
          have := noFit _ _ placed
          omega
    rw [result, rep.reallocElsewhere_of_null heapServes left.solid right.solid nodeEq null,
      if_pos short]

theorem realloc_finds {request fullSize : Nat}
    (rep : Represents (fun _ => False) content s
      (before ++ ⟨.used, fullSize⟩ :: after))
    (settled : Settled (before ++ ⟨.used, fullSize⟩ :: after))
    (nodeEq : node = s.loBound + span before) (bound : request ≤ memMaxSize) :
    ∃ front back,
      chunkAddresses s.loBound (before ++ ⟨.used, fullSize⟩ :: after) =
        front ++ node :: back ∧
      ∃ chunk s', memRealloc true s (node + 8) request = .ok (chunk, s') ∧
        (chunk = 0 ↔ payloadSize s.mem (node + 8) < memProperAllocSize request ∧
          ¬ HasRoom s.mem (front ++ node :: back) (memProperAllocSize request) ∧
          payloadSize s.mem (node + 8) + freeExtent s.mem front.getLast? +
            freeExtent s.mem back.head? < memProperAllocSize request) ∧
        (chunk = 0 → s' = s) := by
  obtain ⟨left, right, -⟩ := settled.split
  have proper := memProperAllocSize_spec bound
  have listed : (node, fullSize) ∈
      usedBlocks s.loBound (before ++ ⟨.used, fullSize⟩ :: after) :=
    mem_usedBlocks.mpr (at_middle nodeEq)
  have addresses : chunkAddresses s.loBound (before ++ ⟨.used, fullSize⟩ :: after) =
      chunkAddresses s.loBound before ++
        node :: chunkAddresses (s.loBound + span (before ++ [⟨.used, fullSize⟩])) after := by
    simp [chunkAddresses_append, chunkAddresses, nodeEq, Nat.add_assoc]
  have leftExtent := rep.freeExtent_left left.solid
  have shifted := rep
  rw [List.append_cons] at shifted
  have rightExtent := shifted.freeExtent_right right.solid
  refine ⟨_, _, addresses, ?_⟩
  rw [← addresses, rep.hasRoom_iff settled, rep.payloadSize_of_used listed, leftExtent,
    rightExtent, ← releasedSize_eq]
  by_cases fails : fullSize < memProperAllocSize request ∧
      (¬ ∃ address freeSize, At s.loBound (before ++ ⟨.used, fullSize⟩ :: after) address
        ⟨.free, freeSize⟩ ∧ memProperAllocSize request ≤ freeSize) ∧
      releasedSize before fullSize after < memProperAllocSize request
  · refine ⟨0, s, ?_, iff_of_true rfl fails, fun _ => rfl⟩
    obtain ⟨larger, noRoom, short⟩ := fails
    apply rep.realloc_null settled nodeEq proper rfl true larger _ short
    intro address freeSize placed
    by_contra fits
    exact noRoom ⟨address, freeSize, placed, Nat.le_of_not_lt fits⟩
  · rcases rep.realloc_spec true settled nodeEq (fun _ => False.elim) proper rfl with
      ⟨larger, short, noFit, -⟩ | ⟨isFalse, -⟩ | ⟨new, s', found, nonnull, -⟩
    · refine absurd ⟨larger, ?_, short⟩ fails
      rintro ⟨address, freeSize, placed, fits⟩
      exact absurd fits (Nat.not_le.mpr (noFit address freeSize placed))
    · cases isFalse
    · exact ⟨new, s', found, iff_of_false nonnull fails, fun null => absurd null nonnull⟩

end Represents

end Neighbours

/-- What `__mem_realloc` does with a live block: it returns NULL if and only if
the rounded request is larger than the block, no free chunk has room for it, and
the block with its free neighbours has no room either.  It then changes
nothing. -/
def ReallocFinds (s : Arena) (nodes : List Nat) (old size : Nat) : Prop :=
  ∃ before after chunk s', nodes = before ++ (old - memSizeField) :: after ∧
    memRealloc true s old size = .ok (chunk, s') ∧
    (chunk = 0 ↔ payloadSize s.mem old < memProperAllocSize size ∧
      ¬ HasRoom s.mem nodes (memProperAllocSize size) ∧
      payloadSize s.mem old + freeExtent s.mem before.getLast? +
        freeExtent s.mem after.head? < memProperAllocSize size) ∧
    (chunk = 0 → s' = s)

/-- After any run, every reallocation of a live block returns, and it fails only
where it must. -/
theorem heapRun_realloc_finds {start : Arena} (fresh : FreshArena start) {h : Heap}
    (run : HeapRun start h) :
    ∃ nodes lists, WellFormed h.arena nodes lists ∧
      ∀ old ∈ h.live, ∀ size ≤ memMaxSize, ReallocFinds h.arena nodes old size := by
  obtain ⟨chunks, serves, -⟩ := run.serves fresh
  obtain ⟨lists, wellFormed⟩ := serves.represents.wellFormed serves.settled
  refine ⟨_, lists, wellFormed, fun old held size bound => ?_⟩
  obtain ⟨before, fullSize, after, rfl, rfl⟩ := serves.live_split held
  obtain ⟨front, back, addresses, chunk, s', found, null, unchanged⟩ :=
    serves.represents.realloc_finds serves.settled rfl bound
  rw [← addresses] at null
  exact ⟨front, back, chunk, s', by rw [memSizeField_eq, Nat.add_sub_cancel, addresses],
    found, null, unchanged⟩

theorem heapRun_realloc_finds_smallArena :
    ∃ h nodes lists, HeapRun smallArena h ∧ h.live = [344] ∧
      WellFormed h.arena nodes lists ∧
      ∀ old ∈ h.live, ∀ size ≤ memMaxSize, ReallocFinds h.arena nodes old size := by
  obtain ⟨s, returned⟩ := smallArena_malloc
  have run := smallArena_run returned
  obtain ⟨nodes, lists, wellFormed, finds⟩ := heapRun_realloc_finds smallArena_fresh run
  exact ⟨_, nodes, lists, run, rfl, wellFormed, finds⟩

end NtShm
