import NtShm.MemAccounts

/-!
# Balanced arenas

An arena is balanced when its counters are right for its chunks.  Every
operation keeps an arena balanced, and takes from a counter no more than it has.
-/

namespace NtShm

open Tiling

/-- The arena has these settled chunks, and its counters are right for them. -/
structure Balanced (s : Arena) (chunks : List Chunk) : Prop where
  represents : Represents (fun _ => False) s.mem s chunks
  settled : Settled chunks
  accounts : Accounts s.toNtMemInfo chunks

section Cuts

/-- The subtractions from a counter in `__mem_malloc`, each as the counter and
what is taken from it. -/
def memMallocCuts (s : Arena) (size : Nat) : List (Nat × Nat) :=
  match memMalloc s size with
  | .error _ => []
  | .ok (chunk, _) => if chunk = 0 then [] else [(s.freeSize, chunkSize s.mem chunk)]

/-- The subtraction from a counter in `__mem_free`. -/
def memFreeCuts (s : Arena) (ptr : Nat) : List (Nat × Nat) :=
  [(s.usedSize, chunkSize s.mem (ptr - memSizeField))]

/-- The subtractions from a counter in the branches of `__mem_realloc` that
allocate a new chunk. -/
def reallocElsewhereCuts (heapServes : Bool) (s : Arena)
    (old chunk size fullSize nextChunk : Nat) (nextFree : Bool) : List (Nat × Nat) :=
  match memMalloc s size with
  | .error _ => []
  | .ok (newChunk, moved) =>
      if newChunk ≠ 0 then
        memMallocCuts s size ++ memFreeCuts
          { moved with
            mem := moved.mem.copy (newChunk + memSizeField) (chunk + memSizeField) fullSize }
          old
      else if size > sizeWithNeighbours s chunk fullSize nextChunk nextFree then []
      else if heapServes then memFreeCuts s old ++ memMallocCuts (memFree s old) size
      else []

/-- The subtractions from a counter in `__mem_realloc`. -/
def memReallocCuts (heapServes : Bool) (s : Arena) (old size : Nat) : List (Nat × Nat) :=
  let size := memProperAllocSize size
  let chunk := old - memSizeField
  let fullSize := chunkSize s.mem chunk
  let nextChunk := chunk + memSizeField + fullSize + memSizeField
  let nextFree := decide (nextChunk < s.hiBound) && freeChunk s.mem nextChunk
  if size ≤ fullSize then
    if size > fullSize / 4 then [] else [(s.usedSize, u64Sub fullSize size)]
  else if nextFree &&
      decide (u64Add (u64Add fullSize (2 * memSizeField))
        (chunkSize s.mem nextChunk) ≥ size) then
    [(s.usedSize, fullSize),
      (u64Add s.freeSize (u64Add fullSize (2 * memSizeField)),
        u64Add fullSize (u64Add (2 * memSizeField) (chunkSize s.mem nextChunk)))]
  else
    reallocElsewhereCuts heapServes s old chunk size fullSize nextChunk nextFree

def CutsExact (cuts : List (Nat × Nat)) : Prop :=
  ∀ cut ∈ cuts, cut.2 ≤ cut.1

@[simp] theorem cutsExact_nil : CutsExact [] := by
  simp [CutsExact]

@[simp] theorem cutsExact_cons (cut : Nat × Nat) (cuts : List (Nat × Nat)) :
    CutsExact (cut :: cuts) ↔ cut.2 ≤ cut.1 ∧ CutsExact cuts := by
  simp [CutsExact]

theorem cutsExact_append (first second : List (Nat × Nat)) :
    CutsExact (first ++ second) ↔ CutsExact first ∧ CutsExact second := by
  simp [CutsExact, or_imp, forall_and]

end Cuts

theorem size_le_payloads {chunk : Chunk} {chunks : List Chunk} (member : chunk ∈ chunks) :
    chunk.size ≤ payloads chunk.tag chunks := by
  obtain ⟨before, after, rfl⟩ := List.append_of_mem member
  obtain ⟨tag, size⟩ := chunk
  rw [payloads_append, payloads_cons_self]
  simp only
  omega

namespace Balanced

variable {s s' : Arena} {chunks before after : List Chunk}
  {request size fullSize node chunk : Nat}

theorem of_represents {kept : Nat → Prop} {content : Memory}
    (rep : Represents kept content s chunks) (settled : Settled chunks)
    (accounts : Accounts s.toNtMemInfo chunks) : Balanced s chunks :=
  ⟨rep.weaken (fun _ => False.elim) fun _ => False.elim, settled, accounts⟩

theorem of_fresh (fresh : FreshArena s) : Balanced s [⟨.free, s.totalSize⟩] := by
  refine ⟨fresh.represents s.mem, by simp [settled_cons], ?_, ?_⟩
  · simp [fresh.usedSize]
  · simp [fresh.freeSize]

/-- The counters are far from overflowing. -/
theorem counters_le (balanced : Balanced s chunks) :
    s.usedSize + s.freeSize ≤ 2 ^ 36 := by
  rw [balanced.accounts.used, balanced.accounts.free]
  exact balanced.represents.payloads_le balanced.settled

theorem size_le_used (balanced : Balanced s chunks)
    (placed : At s.loBound chunks node ⟨.used, size⟩) : size ≤ s.usedSize :=
  (size_le_payloads placed.mem).trans_eq balanced.accounts.used.symm

theorem size_le_free (balanced : Balanced s chunks)
    (placed : At s.loBound chunks node ⟨.free, size⟩) : size ≤ s.freeSize :=
  (size_le_payloads placed.mem).trans_eq balanced.accounts.free.symm

theorem malloc (balanced : Balanced s chunks) (bound : request ≤ memMaxSize)
    (returned : memMalloc s request = .ok (chunk, s')) : ∃ chunks', Balanced s' chunks' := by
  have proper := memProperAllocSize_spec bound
  cases balanced.represents.malloc_cases bound with
  | inl fails =>
      rw [fails.1] at returned
      cases returned
      exact ⟨chunks, balanced⟩
  | inr found =>
      obtain ⟨before, freeSize, after, rfl, fits, found⟩ := found
      obtain ⟨left, right, guarded⟩ := balanced.settled.split
      rw [found] at returned
      cases returned
      exact ⟨_, of_represents
        (balanced.represents.malloc rfl proper.aligned proper.least fits)
        (left.carve right (guarded rfl))
        (balanced.represents.accounts_malloc balanced.settled balanced.accounts fits)⟩

theorem malloc_null (balanced : Balanced s chunks) (bound : request ≤ memMaxSize)
    (returned : memMalloc s request = .ok (0, s')) : s' = s := by
  rcases balanced.represents.malloc_cases bound with
    ⟨null, -⟩ | ⟨before, freeSize, after, -, -, found⟩
  · rw [null] at returned
    cases returned
    rfl
  · rw [found] at returned
    have := balanced.represents.bounds.lo_pos
    simp only [Except.ok.injEq, Prod.mk.injEq] at returned
    omega

theorem malloc_cuts (balanced : Balanced s chunks) (bound : request ≤ memMaxSize) :
    CutsExact (memMallocCuts s request) := by
  cases balanced.represents.malloc_cases bound with
  | inl fails => simp [memMallocCuts, fails.1]
  | inr found =>
      obtain ⟨before, freeSize, after, rfl, fits, found⟩ := found
      have placed : At s.loBound (before ++ ⟨.free, freeSize⟩ :: after)
        (s.loBound + span before) ⟨.free, freeSize⟩ := at_middle rfl
      obtain ⟨sizeEq, -⟩ := balanced.represents.chunkSize_of_placed placed (by simp)
      have nonnull : s.loBound + span before ≠ 0 := by
        have := balanced.represents.bounds.lo_pos
        omega
      have cuts : memMallocCuts s request = [(s.freeSize, freeSize)] := by
        rw [memMallocCuts, found]
        simp only [if_neg nonnull, sizeEq]
      simpa [cuts] using balanced.size_le_free placed

theorem free (balanced : Balanced s (before ++ ⟨.used, size⟩ :: after))
    (nodeEq : node = s.loBound + span before) :
    Balanced (memFree s (node + 8)) (release before size after) := by
  obtain ⟨left, right, -⟩ := balanced.settled.split
  apply of_represents
  · exact balanced.represents.free left.solid right.solid nodeEq fun _ => False.elim
  · exact left.release right
  · exact balanced.represents.accounts_free balanced.settled balanced.accounts nodeEq

theorem free_cuts (balanced : Balanced s chunks)
    (placed : At s.loBound chunks node ⟨.used, size⟩) :
    CutsExact (memFreeCuts s (node + 8)) := by
  obtain ⟨sizeEq, -⟩ := balanced.represents.chunkSize_of_placed placed (by simp)
  simpa [memFreeCuts, sizeEq] using balanced.size_le_used placed

/-- Writes into the payload of a used chunk keep the balance. -/
theorem write (balanced : Balanced s chunks) {mem : Memory}
    (placed : At s.loBound chunks node ⟨.used, size⟩)
    (outside : ∀ position, position < node + 8 ∨ node + 8 + size ≤ position →
      mem position = s.mem position) :
    Balanced { s with mem := mem } chunks :=
  ⟨balanced.represents.writePayload placed outside fun _ => False.elim,
    balanced.settled, balanced.accounts⟩

theorem malloc_block (balanced : Balanced s chunks) (bound : request ≤ memMaxSize)
    (returned : memMalloc s request = .ok (chunk, s')) (nonnull : chunk ≠ 0) :
    ∃ chunks' newSize, Balanced s' chunks' ∧ s'.loBound = s.loBound ∧
      memProperAllocSize request ≤ newSize ∧
      (usedBlocks s.loBound chunks').Perm
        ((chunk, newSize) :: usedBlocks s.loBound chunks) := by
  obtain ⟨chunks', balanced'⟩ := balanced.malloc bound returned
  rcases balanced.represents.malloc_spec balanced.settled
      (memProperAllocSize_spec bound) rfl with
    ⟨null, -⟩ |
    ⟨new, moved, chunks'', newSize, found, same, rep, settled, room, -, -, blocks⟩
  · rw [null] at returned
    cases returned
    exact absurd rfl nonnull
  · rw [found] at returned
    cases returned
    obtain rfl := rep.chunks_eq settled balanced'.represents balanced'.settled
    exact ⟨_, newSize, balanced', same.2.1, room, blocks⟩

theorem fill (balanced : Balanced s chunks)
    (placed : At s.loBound chunks node ⟨.used, size⟩) {count : Nat} (within : count ≤ size)
    (bytes : Nat → UInt8) :
    Balanced { s with mem := s.mem.fill (node + 8) count bytes } chunks :=
  balanced.write placed fun _ outside => Memory.fill_of_outside (by omega)

theorem move (balanced : Balanced s (before ++ ⟨.used, fullSize⟩ :: after))
    (nodeEq : node = s.loBound + span before) (bound : size ≤ memMaxSize)
    (larger : fullSize < memProperAllocSize size)
    {moved : Arena} (returned : memMalloc s size = .ok (chunk, moved))
    (nonnull : chunk ≠ 0) :
    (∃ chunks', Balanced (memFree { moved with
      mem := moved.mem.copy (chunk + 8) (node + 8) fullSize } (node + 8)) chunks') ∧
      CutsExact (memFreeCuts { moved with
        mem := moved.mem.copy (chunk + 8) (node + 8) fullSize } (node + 8)) := by
  obtain ⟨chunks', newSize, balanced', loEq, room, blocks⟩ :=
    balanced.malloc_block bound returned nonnull
  have newPlaced : At moved.loBound chunks' chunk ⟨.used, newSize⟩ := by
    rw [← mem_usedBlocks, loEq, blocks.mem_iff]
    simp
  have nodePlaced : At moved.loBound chunks' node ⟨.used, fullSize⟩ := by
    rw [← mem_usedBlocks, loEq, blocks.mem_iff]
    simp [usedBlocks_used, nodeEq]
  have copied : Balanced { moved with
      mem := moved.mem.copy (chunk + 8) (node + 8) fullSize } chunks' :=
    balanced'.fill newPlaced (by omega) fun offset => moved.mem (node + 8 + offset)
  have exact := copied.free_cuts nodePlaced
  obtain ⟨front, back, rfl, place⟩ := nodePlaced
  exact ⟨⟨_, copied.free place⟩, exact⟩

/-- Moving a block through a copy outside the arena: free, allocate, fill. -/
theorem throughCopy (balanced : Balanced s (before ++ ⟨.used, fullSize⟩ :: after))
    (nodeEq : node = s.loBound + span before) (bound : size ≤ memMaxSize)
    (larger : fullSize < memProperAllocSize size) (bytes : Nat → UInt8)
    (returned : memMalloc (memFree s (node + 8)) size = .ok (chunk, s'))
    (nonnull : chunk ≠ 0) :
    ∃ chunks', Balanced { s' with
      mem := s'.mem.fill (chunk + 8) fullSize bytes } chunks' := by
  obtain ⟨chunks', newSize, balanced', loEq, room, blocks⟩ :=
    (balanced.free nodeEq).malloc_block bound returned nonnull
  have newPlaced : At s'.loBound chunks' chunk ⟨.used, newSize⟩ := by
    rw [← mem_usedBlocks, loEq, blocks.mem_iff]
    simp
  exact ⟨chunks', balanced'.fill newPlaced (by omega) bytes⟩

theorem elsewhere (balanced : Balanced s (before ++ ⟨.used, fullSize⟩ :: after))
    (nodeEq : node = s.loBound + span before) (bound : size ≤ memMaxSize)
    (larger : fullSize < memProperAllocSize size) {heapServes nextFree : Bool} {next : Nat}
    (returned : reallocElsewhere heapServes s (node + 8) node size fullSize next nextFree =
      .ok (chunk, s')) : ∃ chunks', Balanced s' chunks' := by
  unfold reallocElsewhere at returned
  cases found : memMalloc s size with
  | error stop => simp [found] at returned
  | ok value =>
      obtain ⟨new, moved⟩ := value
      simp only [found, memSizeField_eq] at returned
      split_ifs at returned with nonnull short
      · cases returned
        exact (balanced.move nodeEq bound larger found nonnull).1
      · cases returned
        exact balanced.malloc bound found
      · obtain rfl : moved = s := balanced.malloc_null bound (not_not.mp nonnull ▸ found)
        unfold reallocThroughCopy at returned
        cases found' : memMalloc (memFree moved (node + 8)) size with
        | error stop =>
            rw [found'] at returned
            split_ifs at returned
        | ok value =>
            obtain ⟨new', freed⟩ := value
            simp only [found', memSizeField_eq] at returned
            split_ifs at returned with serves null
            cases returned
            exact balanced.throughCopy nodeEq bound larger _ found' null

theorem elsewhere_cuts (balanced : Balanced s (before ++ ⟨.used, fullSize⟩ :: after))
    (nodeEq : node = s.loBound + span before) (bound : size ≤ memMaxSize)
    (larger : fullSize < memProperAllocSize size) (heapServes nextFree : Bool) (next : Nat) :
    CutsExact (reallocElsewhereCuts heapServes s (node + 8) node size fullSize next
      nextFree) := by
  unfold reallocElsewhereCuts
  cases found : memMalloc s size with
  | error stop => simp
  | ok value =>
      obtain ⟨new, moved⟩ := value
      simp only [memSizeField_eq]
      split_ifs with nonnull short serves
      · rw [cutsExact_append]
        exact ⟨balanced.malloc_cuts bound,
          (balanced.move nodeEq bound larger found nonnull).2⟩
      · exact cutsExact_nil
      · rw [cutsExact_append]
        exact ⟨balanced.free_cuts (at_middle nodeEq),
          (balanced.free nodeEq).malloc_cuts bound⟩
      · exact cutsExact_nil

theorem realloc (balanced : Balanced s (before ++ ⟨.used, fullSize⟩ :: after))
    (nodeEq : node = s.loBound + span before) (bound : request ≤ memMaxSize)
    {heapServes : Bool}
    (returned : memRealloc heapServes s (node + 8) request = .ok (chunk, s')) :
    ∃ chunks', Balanced s' chunks' := by
  have rep := balanced.represents
  obtain ⟨left, right, -⟩ := balanced.settled.split
  have proper := memProperAllocSize_spec bound
  generalize sizeEq : memProperAllocSize request = size at proper
  have least := proper.least
  rcases rep.realloc_cases heapServes right.solid nodeEq rfl sizeEq.symm with
    ⟨-, -, result⟩ | ⟨small, other, rest, rfl, result⟩ | ⟨small, noRight, result⟩ |
    ⟨large, other, rest, rfl, room, result⟩ | ⟨large, -, result⟩
  all_goals rw [result] at returned
  · cases returned
    exact ⟨_, balanced⟩
  · cases returned
    refine ⟨_, of_represents (rep.shrinkIntoNext nodeEq rfl proper.aligned least
      (by omega) fun _ => False.elim) (left.giveBack _ _ right) ?_⟩
    exact rep.accounts_shrinkIntoNext balanced.settled balanced.accounts (by omega)
  · cases returned
    have settled := left.giveBack size (fullSize - size) right
    rw [giveBack_of_guarded (guarded_of_mergeRight noRight)] at settled
    refine ⟨_, of_represents (rep.shrinkBySplit nodeEq proper.aligned least
      (by omega) fun _ => False.elim) settled ?_⟩
    exact rep.accounts_shrinkBySplit balanced.settled balanced.accounts (by omega)
  · cases returned
    obtain ⟨-, restSettled, guarded⟩ := settled_cons.mp right
    refine ⟨_, of_represents (rep.extendIntoNext nodeEq rfl proper.aligned least
      room fun _ => False.elim) (left.carve restSettled (guarded rfl)) ?_⟩
    exact rep.accounts_extendIntoNext balanced.settled balanced.accounts nodeEq rfl room
  · have again := memProperAllocSize_of_proper proper
    exact balanced.elsewhere nodeEq proper.small (again.symm ▸ large) returned

theorem realloc_cuts (balanced : Balanced s (before ++ ⟨.used, fullSize⟩ :: after))
    (nodeEq : node = s.loBound + span before) (bound : request ≤ memMaxSize)
    (heapServes : Bool) : CutsExact (memReallocCuts heapServes s (node + 8) request) := by
  have rep := balanced.represents
  obtain ⟨-, right, -⟩ := balanced.settled.split
  have proper := memProperAllocSize_spec bound
  have again := memProperAllocSize_of_proper proper
  have placed : At s.loBound (before ++ ⟨.used, fullSize⟩ :: after) node
    ⟨.used, fullSize⟩ := at_middle nodeEq
  have fullEq := (rep.chunkSize_of_placed placed (by simp)).1
  have small := balanced.counters_le
  have used := balanced.size_le_used placed
  simp only [memReallocCuts, memSizeField_eq, Nat.add_sub_cancel, fullEq, Nat.reduceMul]
  split_ifs with fits keep extends'
  · exact cutsExact_nil
  · have surplus : u64Sub fullSize (memProperAllocSize request) =
        fullSize - memProperAllocSize request := u64Sub_of_le fits (by omega)
    simp only [cutsExact_cons, cutsExact_nil, and_true, surplus]
    omega
  · rw [Bool.and_eq_true] at extends'
    rcases rep.right_cases (node + 8 + fullSize + 8) right.solid nodeEq
        (by simp only; omega) with
      ⟨other, rest, rfl, -, nextSize, -⟩ | ⟨occupied, -⟩
    · have freed : other ≤ s.freeSize := by
        have member : (⟨.free, other⟩ : Chunk) ∈
          before ++ ⟨.used, fullSize⟩ :: ⟨.free, other⟩ :: rest := by simp
        exact (size_le_payloads member).trans_eq balanced.accounts.free.symm
      have joined : u64Add fullSize (u64Add 16 other) = fullSize + 16 + other :=
        u64Add_add_of_lt (by omega)
      have credited : u64Add s.freeSize (u64Add fullSize 16) =
          s.freeSize + (fullSize + 16) := by
        rw [u64Add_add_of_lt (by omega)]
        omega
      simp only [cutsExact_cons, cutsExact_nil, and_true, nextSize, joined, credited]
      omega
    · simp [occupied] at extends'
  · exact balanced.elsewhere_cuts nodeEq proper.small (by omega) heapServes _ _

end Balanced

/-- No call that a client may make next takes more from a counter than it has. -/
structure CallsExact (h : Heap) : Prop where
  malloc : ∀ size ≤ memMaxSize, CutsExact (memMallocCuts h.arena size)
  realloc : ∀ heapServes, ∀ old ∈ h.live, ∀ size ≤ memMaxSize,
    CutsExact (memReallocCuts heapServes h.arena old size)
  free : ∀ old ∈ h.live, CutsExact (memFreeCuts h.arena old)

namespace Serves

variable {h : Heap} {chunks : List Chunk}

theorem callsExact (serves : Serves h chunks) (balanced : Balanced h.arena chunks) :
    CallsExact h := by
  constructor
  · intro size bound
    exact balanced.malloc_cuts bound
  · intro heapServes old held size bound
    obtain ⟨before, fullSize, after, rfl, rfl⟩ := serves.live_split held
    exact balanced.realloc_cuts rfl bound heapServes
  · intro old held
    obtain ⟨before, fullSize, after, rfl, rfl⟩ := serves.live_split held
    exact balanced.free_cuts (at_middle rfl)

end Serves

/-- Every step keeps the balance. -/
theorem HeapStep.balanced {h h' : Heap} (step : HeapStep h h') {chunks : List Chunk}
    (serves : Serves h chunks) (balanced : Balanced h.arena chunks) :
    ∃ chunks', Balanced h'.arena chunks' := by
  cases step with
  | malloc bound returned => exact balanced.malloc bound returned
  | realloc held bound returned =>
      obtain ⟨before, fullSize, after, rfl, rfl⟩ := serves.live_split held
      exact balanced.realloc rfl bound returned
  | free held =>
      obtain ⟨before, fullSize, after, rfl, rfl⟩ := serves.live_split held
      exact ⟨_, balanced.free rfl⟩
  | clear => exact ⟨_, Balanced.of_fresh (ntMemClear_fresh serves.represents.bounds)⟩
  | write held outside =>
      obtain ⟨before, fullSize, after, rfl, rfl⟩ := serves.live_split held
      have placed : At h.arena.loBound (before ++ ⟨.used, fullSize⟩ :: after)
        (h.arena.loBound + span before) ⟨.used, fullSize⟩ := at_middle rfl
      rw [serves.represents.payloadSize_of_used (mem_usedBlocks.mpr placed)] at outside
      exact ⟨_, balanced.write placed outside⟩

theorem HeapRun.balanced {start : Arena} (fresh : FreshArena start) {h : Heap}
    (run : HeapRun start h) :
    ∃ chunks, Serves h chunks ∧ Balanced h.arena chunks := by
  induction run with
  | refl => exact ⟨_, Serves.of_fresh fresh, Balanced.of_fresh fresh⟩
  | tail _ step ih =>
      obtain ⟨chunks, serves, balanced⟩ := ih
      obtain ⟨chunks', serves', -⟩ := step.serves serves
      obtain ⟨chunks'', balanced'⟩ := step.balanced serves balanced
      obtain rfl : chunks' = chunks'' := serves'.represents.chunks_eq serves'.settled
        balanced'.represents balanced'.settled
      exact ⟨_, serves', balanced'⟩

end NtShm
