import NtShm.MemSteps
import NtShm.ChunkLists
import Mathlib.Data.Finset.Card
import Mathlib.Order.Interval.Finset.Nat

/-!
# Specifications of the allocator operations

Each operation on the arena does to its chunk list what the functions on chunk
lists say.
-/

namespace NtShm

open Tiling

/-- The two calls that `__mem_free` ends with in every case. -/
def releaseInto (s : Arena) (node size : Nat) : Arena :=
  memLinkChunk { s with mem := memSetChunkSize s.mem node size } node

def splitInto (s : Arena) (node size restSize : Nat) : Arena :=
  let s := releaseInto s (node + 8 + size + 8) restSize
  { s with mem := memSetUsedChunkSize s.mem node size }

theorem useOrSplitChunk_same (s : Arena) (chunk size fullSize : Nat) :
    s.SameBounds (useOrSplitChunk s chunk size fullSize) := by
  by_cases whole : fullSize < u64Add size (2 * memSizeField + memMinAlloc)
  · simp only [Arena.SameBounds, useOrSplitChunk, if_pos whole, and_self]
  · simp only [Arena.SameBounds, useOrSplitChunk, if_neg whole, memLinkChunk,
      and_self]

namespace Represents

variable {kept : Nat → Prop} {content : Memory} {s : Arena}
  {chunks before after : List Chunk} {size fullSize node : Nat}

theorem kept_outside_free
    (rep : Represents kept content s (before ++ ⟨.free, size⟩ :: after))
    (nodeEq : node = s.loBound + span before) {position : Nat}
    (isKept : kept position) :
    position < node ∨ node + size + 16 ≤ position := by
  have placed : At s.loBound (before ++ ⟨.free, size⟩ :: after) node
      (⟨.free, size⟩ : Chunk) := at_middle nodeEq
  obtain ⟨address, chunk, other, notFree, inside⟩ :=
    rep.kept_held position isKept
  rcases placed.cases_disjoint other with ⟨_, rfl⟩ | disjoint
  · exact (notFree rfl).elim
  · simp only [Chunk.extent_eq] at disjoint inside
    omega

theorem counters (rep : Represents kept content s chunks)
    (usedSize freeSize : Nat) :
    Represents kept content
      { s with usedSize := usedSize, freeSize := freeSize } chunks :=
  rep.recount ⟨rfl, rfl, rfl, rfl⟩ rfl

theorem releaseHoles (holes : List Chunk)
    (rep : Represents kept content s (before ++ holes ++ after))
    (isHole : ∀ chunk ∈ holes, chunk.tag = .hole)
    (spans : size + 16 = span holes) (aligned : size % 8 = 0)
    (least : 24 ≤ size) (nodeEq : node = s.loBound + span before)
    (notKept : ∀ position, kept position →
      position < node ∨ node + size + 16 ≤ position) :
    Represents kept content (releaseInto s node size)
      (before ++ ⟨.free, size⟩ :: after) := by
  have joined := rep.recutHoles [⟨.hole, size⟩]
    (by simpa using spans) isHole (by simp) (by simp [aligned, least])
  rw [List.append_assoc, List.singleton_append] at joined
  exact joined.linkFree nodeEq notKept

/-- Neighbouring holes become a used chunk and a free one.  Only bytes of the
payload in use may have to be kept. -/
theorem splitHoles {holes : List Chunk}
    (rep : Represents kept content s (before ++ holes ++ after))
    (size restSize : Nat)
    (isHole : ∀ chunk ∈ holes, chunk.tag = .hole)
    (spans : size + 16 + (restSize + 16) = span holes)
    (aligned : size % 8 = 0) (least : 24 ≤ size)
    (restAligned : restSize % 8 = 0) (restLeast : 24 ≤ restSize)
    (nodeEq : node = s.loBound + span before)
    (notKept : ∀ position, kept position →
      position < node ∨ node + 8 ≤ position ∧ position < node + 8 + size ∨
        node + size + restSize + 32 ≤ position) :
    Represents kept content (splitInto s node size restSize)
      (before ++ ⟨.used, size⟩ :: ⟨.free, restSize⟩ :: after) := by
  have cut := rep.recutHoles [⟨.hole, size⟩, ⟨.hole, restSize⟩]
    (by simpa using spans) isHole (by simp) (by simp; omega)
  have rest : Represents kept content s
      ((before ++ [⟨.hole, size⟩]) ++ ⟨.hole, restSize⟩ :: after) := by
    simpa using cut
  have place : node + 8 + size + 8 =
      s.loBound + span (before ++ [⟨.hole, size⟩]) := by
    simp [nodeEq]
    omega
  have linked := rest.linkFree place fun position isKept => by
    have := notKept position isKept
    omega
  rw [List.append_assoc, List.singleton_append] at linked
  exact linked.useHole nodeEq fun position isKept => by
    have := notKept position isKept
    omega

/-- Only bytes of the payload in use may have to be kept. -/
theorem useOrSplit
    (rep : Represents kept content s (before ++ ⟨.hole, fullSize⟩ :: after))
    (nodeEq : node = s.loBound + span before) (aligned : size % 8 = 0)
    (least : 24 ≤ size) (room : size ≤ fullSize)
    (notKept : ∀ position, kept position →
      position < node ∨ node + 8 ≤ position ∧ position < node + 8 + size ∨
        node + fullSize + 16 ≤ position) :
    Represents kept content (useOrSplitChunk s node size fullSize)
      (before ++ carve size fullSize ++ after) := by
  obtain ⟨_, _, _, fullAligned, small, _⟩ := rep.hole_bounds nodeEq
  have limit : u64Add size (2 * memSizeField + memMinAlloc) = size + 40 :=
    u64Add_of_lt (by simp; omega)
  by_cases whole : fullSize < size + 40
  · have used := rep.useHole nodeEq fun position isKept => by
      have := notKept position isKept
      omega
    rw [useOrSplitChunk, limit, if_pos whole, carve, if_pos whole,
      List.append_assoc, List.singleton_append]
    exact used.counters _ _
  · have restSize : u64Sub (u64Sub fullSize size) 16 = fullSize - size - 16 := by
      rw [u64Sub_of_le room (by omega), u64Sub_of_le (by omega) (by omega)]
    rw [useOrSplitChunk, limit, if_neg whole, carve, if_neg whole]
    simp only [memSizeField_eq, Nat.reduceMul, restSize]
    rw [List.append_cons] at rep
    have divided := rep.splitHoles size (fullSize - size - 16) (by simp)
      (by simp; omega) aligned least (by omega) (by omega) nodeEq
      fun position isKept => by
        have := notKept position isKept
        omega
    rw [List.append_assoc]
    exact divided.counters _ _

end Represents

section Search

theorem skipEmptyBuckets_spec (s : Arena) (fuel index : Nat)
    (inRange : index ≤ 29) (enough : 29 < fuel + index) :
    index ≤ skipEmptyBuckets s fuel index ∧
      skipEmptyBuckets s fuel index ≤ 29 ∧
      (skipEmptyBuckets s fuel index ≠ 29 →
        s.bucket (skipEmptyBuckets s fuel index) ≠ 0) ∧
      ∀ other, index ≤ other → other < skipEmptyBuckets s fuel index →
        s.bucket other = 0 := by
  fun_induction skipEmptyBuckets s fuel index with
  | case1 index => omega
  | case2 fuel index empty ih =>
      simp only [memBucketCount_eq] at empty
      obtain ⟨low, high, found, skipped⟩ := ih (by omega) (by omega)
      refine ⟨by omega, high, found, fun other otherLow otherHigh => ?_⟩
      rcases Nat.eq_or_lt_of_le otherLow with rfl | later
      · exact empty.2
      · exact skipped other later otherHigh
  | case3 fuel index stop =>
      simp only [memBucketCount_eq] at stop
      refine ⟨le_rfl, inRange, fun notLast null => ?_, fun other low high => ?_⟩
      · exact stop ⟨by omega, null⟩
      · omega

/-- The chunk that `__mem_malloc` takes for a rounded request. -/
def searchChunk (s : Arena) (size : Nat) : Option Nat :=
  let index := skipEmptyBuckets s memBucketCount (memBucketBySize size)
  if index = memBucketCount - 1 then
    firstFit s.mem size (s.hiBound - s.loBound) (s.bucket index)
  else some (s.bucket index)

theorem memMalloc_eq (s : Arena) (request : Nat) :
    memMalloc s request =
      match searchChunk s (memProperAllocSize request) with
      | none => .error .hang
      | some chunk =>
          if chunk = 0 then .ok (0, s)
          else
            .ok (chunk,
              useOrSplitChunk (memUnlinkChunk s chunk) chunk
                (memProperAllocSize request) (chunkSize s.mem chunk)) :=
  rfl

theorem memMalloc_of_search_null {s : Arena} {request : Nat}
    (search : searchChunk s (memProperAllocSize request) = some 0) :
    memMalloc s request = .ok (0, s) := by
  rw [memMalloc_eq, search]
  exact if_pos rfl

theorem memMalloc_of_search {s : Arena} {request chunk : Nat}
    (search : searchChunk s (memProperAllocSize request) = some chunk)
    (nonnull : chunk ≠ 0) :
    memMalloc s request =
      .ok (chunk, useOrSplitChunk (memUnlinkChunk s chunk) chunk
        (memProperAllocSize request) (chunkSize s.mem chunk)) := by
  rw [memMalloc_eq, search]
  exact if_neg nonnull

theorem firstFit_eq {mem : Memory} (size : Nat) {fuel before chunk : Nat}
    {nodes : List Nat}
    (list : DoublyLinked.IsSegment 0 (memGetPrevChunk mem)
      (memGetNextChunk mem) before chunk nodes)
    (enough : nodes.length < fuel) :
    firstFit mem size fuel chunk =
      some ((nodes.find? fun node =>
        decide (size ≤ chunkSize mem node)).getD 0) := by
  induction nodes generalizing fuel before chunk with
  | nil =>
      obtain ⟨fuel, rfl⟩ := Nat.exists_eq_succ_of_ne_zero
        (Nat.ne_zero_of_lt enough)
      have null : chunk = 0 := list
      simp [firstFit, null]
  | cons node nodes ih =>
      obtain ⟨fuel, rfl⟩ := Nat.exists_eq_succ_of_ne_zero
        (Nat.ne_zero_of_lt enough)
      obtain ⟨rfl, nonnull, _, tail⟩ := list
      rw [List.length_cons] at enough
      by_cases fits : size ≤ chunkSize mem chunk
      · simp [firstFit, fits]
      · rw [firstFit, if_pos ⟨nonnull, by omega⟩, ih tail (by omega),
          List.find?_cons_of_neg (by simpa using fits)]

end Search

namespace Represents

variable {kept : Nat → Prop} {content : Memory} {s : Arena}
  {chunks before after : List Chunk} {size fullSize node : Nat}

theorem list_length_lt (rep : Represents kept content s chunks)
    {lists : Nat → List Nat} (good : BucketLists s chunks lists)
    {index : Nat} (inRange : index < 30) :
    (lists index).length < s.hiBound - s.loBound := by
  have distinct := (good.linked index inRange).nodup
  have total := rep.bounds.hi_eq
  have within : (lists index).toFinset ⊆
      Finset.Ico s.loBound (s.hiBound - 1) := by
    intro address member
    obtain ⟨size, placed⟩ :=
      good.node_free inRange (List.mem_toFinset.mp member)
    have bounds := rep.placed_bounds placed
    simp only [Finset.mem_Ico]
    omega
  have card := Finset.card_le_card within
  rw [List.toFinset_card_of_nodup distinct, Nat.card_Ico] at card
  omega

/-- The search of `__mem_malloc`: it finds nothing only when no free chunk is
large enough, and otherwise it takes a free chunk that is. -/
theorem malloc_cases (rep : Represents kept content s chunks)
    {request : Nat} (bound : request ≤ 2 ^ 36) :
    (memMalloc s request = .ok (0, s) ∧
      ∀ address size, At s.loBound chunks address ⟨.free, size⟩ →
        size < memProperAllocSize request) ∨
    ∃ before fullSize after,
      chunks = before ++ ⟨.free, fullSize⟩ :: after ∧
        memProperAllocSize request ≤ fullSize ∧
        memMalloc s request =
          .ok (s.loBound + span before,
            useOrSplitChunk (memUnlinkChunk s (s.loBound + span before))
              (s.loBound + span before) (memProperAllocSize request)
              fullSize) := by
  have proper := memProperAllocSize_spec bound
  obtain ⟨lists, good⟩ := rep.lists
  have lo_pos := rep.bounds.lo_pos
  set size := memProperAllocSize request with sizeEq
  have bucketRange := memBucketBySize_lt size
  obtain ⟨low, high, nonempty, skipped⟩ :=
    skipEmptyBuckets_spec s memBucketCount (memBucketBySize size) (by omega)
      (by simp; omega)
  set index := skipEmptyBuckets s memBucketCount (memBucketBySize size) with indexEq
  have linked := good.linked index (by omega)
  have sizeAt : ∀ address full, At s.loBound chunks address ⟨.free, full⟩ →
      chunkSize s.mem address = full := fun address full placed =>
    (rep.chunkSize_of_placed placed (by simp)).1
  -- a listed chunk of sufficient size is taken
  have take : ∀ chunk, chunk ∈ lists index → size ≤ chunkSize s.mem chunk →
      ∃ before fullSize after,
        chunks = before ++ ⟨.free, fullSize⟩ :: after ∧ size ≤ fullSize ∧
          chunk = s.loBound + span before ∧ chunk ≠ 0 ∧
            chunkSize s.mem chunk = fullSize := by
    intro chunk member fits
    obtain ⟨full, placed⟩ := good.node_free (by omega) member
    have fullEq := sizeAt chunk full placed
    have chunkLow := placed.low
    obtain ⟨before, after, split, place⟩ := placed
    exact ⟨before, full, after, split, by omega, place, by omega, fullEq⟩
  by_cases last : index = 29
  · have scan := firstFit_eq size linked
      (rep.list_length_lt good (by omega))
    have search : searchChunk s size = some (((lists index).find? fun node =>
        decide (size ≤ chunkSize s.mem node)).getD 0) := by
      rw [searchChunk, ← indexEq, memBucketCount_eq, if_pos last, scan]
    cases found : (lists index).find? fun node =>
        decide (size ≤ chunkSize s.mem node) with
    | none =>
        left
        rw [found] at search
        refine ⟨memMalloc_of_search_null search, fun address full placed => ?_⟩
        by_contra large
        have later := memBucketBySize_mono (Nat.le_of_not_lt large)
        have inList : address ∈ lists (memBucketBySize full) :=
          (good.members _ (memBucketBySize_lt full) address).mpr
            ⟨full, placed, rfl⟩
        have fullRange := memBucketBySize_lt full
        rcases Nat.lt_or_ge (memBucketBySize full) index with skip | same
        · have empty := good.linked _ fullRange
          rw [skipped _ later skip] at empty
          cases listed : lists (memBucketBySize full) with
          | nil => simp [listed] at inList
          | cons node rest =>
              rw [listed] at empty
              exact empty.2.1 empty.1.symm
        · have sameIndex : memBucketBySize full = index := by omega
          rw [sameIndex] at inList
          have none := List.find?_eq_none.mp found address inList
          simp [sizeAt address full placed] at none
          omega
    | some chunk =>
        right
        have member := List.mem_of_find?_eq_some found
        have fits := List.find?_some found
        obtain ⟨before, full, after, split, room, place, nonnull, fullEq⟩ :=
          take chunk member (by simpa using fits)
        refine ⟨before, full, after, split, room, ?_⟩
        rw [found, Option.getD_some] at search
        rw [memMalloc_of_search search nonnull, ← sizeEq, fullEq, place]
  · right
    have headListed := good.head_mem (by omega) (nonempty last)
    obtain ⟨full, placed, inBucket⟩ :=
      (good.members index (by omega) _).mp headListed
    have fullSizes := rep.placed_bounds placed
    simp only at fullSizes
    have fits : size ≤ full := le_of_memBucketBySize_le proper.aligned
      (by omega) proper.least (by omega) (by omega) (by omega)
    obtain ⟨before, full', after, split, room, place, nonnull, fullEq⟩ :=
      take _ headListed (by rw [sizeAt _ full placed]; exact fits)
    refine ⟨before, full', after, split, room, ?_⟩
    have search : searchChunk s size = some (s.bucket index) := by
      rw [searchChunk, ← indexEq, memBucketCount_eq, if_neg last]
    rw [memMalloc_of_search search nonnull, ← sizeEq, fullEq, place]

theorem left_cases {chunk : Chunk}
    (rep : Represents kept content s (before ++ chunk :: after))
    (solid : ∀ other ∈ before, other.tag ≠ .hole)
    (nodeEq : node = s.loBound + span before) :
    (∃ front other, before = front ++ [⟨.free, other⟩] ∧
        (decide (s.loBound < node) && freeChunk s.mem (node - 8)) = true ∧
        chunkSize s.mem (node - 8) = other ∧
        node = s.loBound + span front + other + 16) ∨
      (decide (s.loBound < node) && freeChunk s.mem (node - 8)) = false ∧
        ∀ size, mergeLeft before size = (before, size) := by
  rcases List.eq_nil_or_concat before with rfl | ⟨front, ⟨tag, other⟩, rfl⟩
  · refine Or.inr ⟨?_, fun size => rfl⟩
    simp [nodeEq]
  · rw [List.concat_eq_append] at *
    have place : node = s.loBound + span front + other + 16 := by
      simp [nodeEq]
      omega
    have placed : At s.loBound (front ++ [⟨tag, other⟩] ++ chunk :: after)
        (s.loBound + span front) (⟨tag, other⟩ : Chunk) := by
      rw [List.append_assoc]
      exact at_middle rfl
    have words := rep.chunkSize_of_placed placed (solid _ (by simp))
    have trailer : s.loBound + span front + 8 + other = node - 8 := by omega
    simp only [trailer] at words
    obtain ⟨_, sizeEq, _, freeEq⟩ := words
    have above : s.loBound < node := by omega
    cases tag with
    | free => exact Or.inl ⟨front, other, rfl, by simp [above, freeEq],
        sizeEq, place⟩
    | used =>
        refine Or.inr ⟨by simp [freeEq], fun size => ?_⟩
        simp [mergeLeft]
    | hole => exact (solid ⟨.hole, other⟩ (by simp) rfl).elim

theorem right_cases {chunk : Chunk}
    (rep : Represents kept content s (before ++ chunk :: after)) (next : Nat)
    (solid : ∀ other ∈ after, other.tag ≠ .hole)
    (nodeEq : node = s.loBound + span before)
    (nextEq : next = node + chunk.size + 16) :
    (∃ other rest, after = ⟨.free, other⟩ :: rest ∧
        (decide (next < s.hiBound) && freeChunk s.mem next) = true ∧
        chunkSize s.mem next = other ∧
        next = s.loBound + span (before ++ [chunk])) ∨
      (decide (next < s.hiBound) && freeChunk s.mem next) = false ∧
        ∀ size, mergeRight size after = (size, after) := by
  have place : next = s.loBound + span (before ++ [chunk]) := by
    simp [nextEq, nodeEq]
    omega
  cases after with
  | nil =>
      refine Or.inr ⟨?_, fun size => rfl⟩
      have total := rep.tiles
      have top := rep.bounds.hi_eq
      have notBelow : ¬ next < s.hiBound := by omega
      simp [notBelow]
  | cons head rest =>
      obtain ⟨tag, other⟩ := head
      rw [List.append_cons] at rep
      have placed : At s.loBound (before ++ [chunk] ++ ⟨tag, other⟩ :: rest)
          next (⟨tag, other⟩ : Chunk) := at_middle place
      obtain ⟨sizeEq, _, freeEq, _⟩ :=
        rep.chunkSize_of_placed placed (solid _ (by simp))
      have below : next < s.hiBound := by
        have := rep.placed_bounds placed
        omega
      cases tag with
      | free => exact Or.inl ⟨other, rest, rfl, by simp [below, freeEq],
          sizeEq, place⟩
      | used => exact Or.inr ⟨by simp [freeEq], fun size => rfl⟩
      | hole => exact (solid ⟨.hole, other⟩ (by simp) rfl).elim

theorem free_cases
    (rep : Represents kept content s (before ++ ⟨.used, size⟩ :: after))
    (solidBefore : ∀ chunk ∈ before, chunk.tag ≠ .hole)
    (solidAfter : ∀ chunk ∈ after, chunk.tag ≠ .hole)
    (nodeEq : node = s.loBound + span before) :
    (∃ front left right rest prev, before = front ++ [⟨.free, left⟩] ∧
        after = ⟨.free, right⟩ :: rest ∧ prev = s.loBound + span front ∧
        memFree s (node + 8) = releaseInto
          (memUnlinkChunk (memUnlinkChunk
            { s with
              usedSize := u64Sub s.usedSize size
              freeSize := u64Add (u64Add s.freeSize size) 32 } prev)
            (node + 8 + size + 8)) prev (left + size + 16 + right + 16)) ∨
      (∃ front left prev, before = front ++ [⟨.free, left⟩] ∧
        (∀ size, mergeRight size after = (size, after)) ∧
        prev = s.loBound + span front ∧
        memFree s (node + 8) = releaseInto
          (memUnlinkChunk
            { s with
              usedSize := u64Sub s.usedSize size
              freeSize := u64Add (u64Add s.freeSize size) 16 } prev)
          prev (left + size + 16)) ∨
      (∃ right rest, after = ⟨.free, right⟩ :: rest ∧
        (∀ size, mergeLeft before size = (before, size)) ∧
        memFree s (node + 8) = releaseInto
          (memUnlinkChunk
            { s with
              usedSize := u64Sub s.usedSize size
              freeSize := u64Add (u64Add s.freeSize size) 16 }
            (node + 8 + size + 8)) node (size + right + 16)) ∨
      (∀ size, mergeLeft before size = (before, size)) ∧
        (∀ size, mergeRight size after = (size, after)) ∧
        memFree s (node + 8) = releaseInto
          { s with
            usedSize := u64Sub s.usedSize size
            freeSize := u64Add s.freeSize size } node size := by
  have placed : At s.loBound (before ++ ⟨.used, size⟩ :: after) node
      (⟨.used, size⟩ : Chunk) := at_middle nodeEq
  have sizeEq := (rep.chunkSize_of_placed placed (by simp)).1
  have nodeBounds := rep.placed_bounds placed
  have total := rep.tiles
  have small := rep.bounds.total_small
  simp only [span_append, span_cons, Chunk.extent_eq, memMaxSize_eq]
    at total small
  simp only at sizeEq nodeBounds
  rcases rep.left_cases solidBefore nodeEq with
      ⟨front, left, rfl, leftFree, leftSize, place⟩ | ⟨leftFree, leftKept⟩ <;>
    rcases rep.right_cases (node + 8 + size + 8) solidAfter nodeEq
      (by simp; omega) with
      ⟨right, rest, rfl, rightFree, rightSize, _⟩ | ⟨rightFree, rightKept⟩
  · refine Or.inl ⟨front, left, right, rest, s.loBound + span front, rfl, rfl,
      rfl, ?_⟩
    simp only [span_append, span_cons, span_nil, Chunk.extent_eq] at total
    have prevEq : node - 8 - left - 8 = s.loBound + span front := by omega
    have prevSize : chunkSize s.mem (s.loBound + span front) = left := by
      rw [List.append_assoc] at rep
      exact (rep.chunkSize_of_placed (at_middle rfl) (by simp)).1
    have sum : u64Add size (u64Add (u64Add 32 left) right) =
        left + size + 16 + right + 16 := by
      rw [u64Add_of_add_lt (by omega), u64Add_of_lt (by omega)]
      omega
    simp only [memFree, releaseInto, memSizeField_eq, Nat.add_sub_cancel,
      sizeEq, leftFree, rightFree, leftSize, rightSize, prevEq, prevSize,
      Bool.and_true, if_true, Nat.reduceMul, sum]
  · refine Or.inr (Or.inl ⟨front, left, s.loBound + span front, rfl,
      rightKept, rfl, ?_⟩)
    simp only [span_append, span_cons, span_nil, Chunk.extent_eq] at total
    have prevEq : node - 8 - left - 8 = s.loBound + span front := by omega
    have prevSize : chunkSize s.mem (s.loBound + span front) = left := by
      rw [List.append_assoc] at rep
      exact (rep.chunkSize_of_placed (at_middle rfl) (by simp)).1
    have sum : u64Add size (u64Add 16 left) = left + size + 16 := by
      rw [u64Add_add_of_lt (by omega)]
      omega
    simp only [memFree, releaseInto, memSizeField_eq, Nat.add_sub_cancel,
      sizeEq, leftFree, rightFree, leftSize, prevEq, prevSize,
      Bool.and_false, Bool.false_eq_true, if_false, if_true, Nat.reduceMul,
      sum]
  · refine Or.inr (Or.inr (Or.inl ⟨right, rest, rfl, leftKept, ?_⟩))
    simp only [span_cons, Chunk.extent_eq] at total
    have sum : u64Add size (u64Add 16 right) = size + right + 16 := by
      rw [u64Add_add_of_lt (by omega)]
      omega
    simp only [memFree, releaseInto, memSizeField_eq, Nat.add_sub_cancel,
      sizeEq, leftFree, rightFree, rightSize, Bool.and_true, Bool.false_eq_true,
      if_false, if_true, Nat.reduceMul, sum]
  · refine Or.inr (Or.inr (Or.inr ⟨leftKept, rightKept, ?_⟩))
    simp only [memFree, releaseInto, memSizeField_eq, Nat.add_sub_cancel,
      sizeEq, leftFree, rightFree, Bool.false_and, Bool.false_eq_true, if_false]

theorem free_same
    (rep : Represents kept content s (before ++ ⟨.used, size⟩ :: after))
    (solidBefore : ∀ chunk ∈ before, chunk.tag ≠ .hole)
    (solidAfter : ∀ chunk ∈ after, chunk.tag ≠ .hole)
    (nodeEq : node = s.loBound + span before) :
    s.SameBounds (memFree s (node + 8)) := by
  rcases rep.free_cases solidBefore solidAfter nodeEq with
    ⟨_, _, _, _, _, _, _, _, result⟩ | ⟨_, _, _, _, _, _, result⟩ |
    ⟨_, _, _, _, result⟩ | ⟨_, _, result⟩ <;>
  · rw [result]
    exact ⟨rfl, rfl, rfl, rfl⟩

theorem free
    (rep : Represents kept content s (before ++ ⟨.used, size⟩ :: after))
    (solidBefore : ∀ chunk ∈ before, chunk.tag ≠ .hole)
    (solidAfter : ∀ chunk ∈ after, chunk.tag ≠ .hole)
    (nodeEq : node = s.loBound + span before)
    (notKept : ∀ position, kept position →
      position < node ∨ node + size + 16 ≤ position) :
    Represents kept content (memFree s (node + 8))
      (release before size after) := by
  have opened := rep.openUsed
  have sizes := rep.sizes
  have sizeFacts := sizes ⟨.used, size⟩ (by simp)
  simp only at sizeFacts
  rcases rep.free_cases solidBefore solidAfter nodeEq with
    ⟨front, left, right, rest, prev, rfl, rfl, prevEq, result⟩ |
    ⟨front, left, prev, rfl, rightKept, prevEq, result⟩ |
    ⟨right, rest, rfl, leftKept, result⟩ | ⟨leftKept, rightKept, result⟩
  · have leftFacts := sizes ⟨.free, left⟩ (by simp)
    have rightFacts := sizes ⟨.free, right⟩ (by simp)
    simp only at leftFacts rightFacts
    rw [result, release_both]
    rw [List.append_assoc] at opened
    have first := (opened.counters (u64Sub s.usedSize size)
      (u64Add (u64Add s.freeSize size) 32)).unlink prevEq
    have second : Represents kept content _
        ((front ++ [⟨.hole, left⟩, ⟨.hole, size⟩]) ++
          ⟨.hole, right⟩ :: rest) :=
      Represents.unlink (by simpa using first) (by
        simp only [span_append, span_cons, span_nil, Chunk.extent_eq] at nodeEq ⊢
        change node + 8 + size + 8 = s.loBound + _
        omega)
    refine releaseHoles [⟨.hole, left⟩, ⟨.hole, size⟩, ⟨.hole, right⟩]
      (by simpa using second) (by simp) (by simp; omega) (by omega) (by omega)
      prevEq fun position isKept => ?_
    have apart := notKept position isKept
    have outside := opened.kept_outside_free rfl isKept
    have shifted : Represents kept content s
        ((front ++ [⟨.free, left⟩, ⟨.hole, size⟩]) ++
          ⟨.free, right⟩ :: rest) := by
      simpa using opened
    have outside' := shifted.kept_outside_free rfl isKept
    simp only [span_append, span_cons, span_nil, Chunk.extent_eq]
      at outside outside' nodeEq
    omega
  · have leftFacts := sizes ⟨.free, left⟩ (by simp)
    simp only at leftFacts
    rw [result, release_left rightKept]
    rw [List.append_assoc] at opened
    have first := (opened.counters (u64Sub s.usedSize size)
      (u64Add (u64Add s.freeSize size) 16)).unlink prevEq
    refine releaseHoles [⟨.hole, left⟩, ⟨.hole, size⟩]
      (by simpa using first) (by simp) (by simp; omega) (by omega) (by omega)
      prevEq fun position isKept => ?_
    have apart := notKept position isKept
    have outside := opened.kept_outside_free rfl isKept
    simp only [span_append, span_cons, span_nil, Chunk.extent_eq]
      at outside nodeEq
    omega
  · have rightFacts := sizes ⟨.free, right⟩ (by simp)
    simp only at rightFacts
    rw [result, release_right leftKept]
    rw [List.append_cons] at opened
    have place : node + 8 + size + 8 =
        s.loBound + span (before ++ [⟨.hole, size⟩]) := by
      simp
      omega
    have second := (opened.counters (u64Sub s.usedSize size)
      (u64Add (u64Add s.freeSize size) 16)).unlink place
    refine releaseHoles [⟨.hole, size⟩, ⟨.hole, right⟩]
      (by simpa using second) (by simp) (by simp; omega) (by omega) (by omega)
      nodeEq fun position isKept => ?_
    have apart := notKept position isKept
    have outside := opened.kept_outside_free rfl isKept
    simp only [span_append, span_cons, span_nil, Chunk.extent_eq] at outside
    omega
  · rw [result, release_alone leftKept rightKept]
    exact (opened.counters (u64Sub s.usedSize size)
      (u64Add s.freeSize size)).linkFree nodeEq notKept

theorem malloc
    (rep : Represents kept content s (before ++ ⟨.free, fullSize⟩ :: after))
    (nodeEq : node = s.loBound + span before) (aligned : size % 8 = 0)
    (least : 24 ≤ size) (room : size ≤ fullSize) :
    Represents kept content
      (useOrSplitChunk (memUnlinkChunk s node) node size fullSize)
      (before ++ carve size fullSize ++ after) :=
  (rep.unlink nodeEq).useOrSplit nodeEq aligned least room
    fun _ isKept => (rep.kept_outside_free nodeEq isKept).imp_right Or.inr

theorem weaken {kept' : Nat → Prop} {content' : Memory}
    (rep : Represents kept content s chunks)
    (held : ∀ position, kept' position →
      HeldByte s.loBound chunks position)
    (agree : ∀ position, kept' position →
      s.mem position = content' position) :
    Represents kept' content' s chunks :=
  ⟨rep.bounds, rep.tiles, rep.sizes, rep.words, rep.lists, held, agree⟩

/-- Writes of a client into the payload of its block. -/
theorem writePayload {mem content' : Memory}
    (rep : Represents kept content s chunks)
    (placed : At s.loBound chunks node ⟨.used, size⟩)
    (agree : ∀ position, position < node + 8 ∨ node + 8 + size ≤ position →
      mem position = s.mem position)
    (keeps : ∀ position, kept position → mem position = content' position) :
    Represents kept content' { s with mem := mem } chunks := by
  have nodeBounds := rep.placed_bounds placed
  obtain ⟨lists, good⟩ := rep.lists
  -- no word of the allocator overlaps the payload
  have apart : ∀ address chunk, At s.loBound chunks address chunk →
      chunk = ⟨.used, size⟩ ∧ address = node ∨
        address + chunk.size + 16 ≤ node ∨ node + size + 16 ≤ address := by
    intro address chunk other
    rcases placed.cases_disjoint other with ⟨rfl, rfl⟩ | disjoint
    · exact Or.inl ⟨rfl, rfl⟩
    · simp only [Chunk.extent_eq] at disjoint
      omega
  have loads : ∀ address, address + 8 ≤ node + 8 ∨ node + 8 + size ≤ address →
      mem.load address 8 = s.mem.load address 8 := fun address outside =>
    Memory.load_congr fun position _ _ => agree position (by omega)
  refine ⟨rep.bounds, rep.tiles, rep.sizes, ?_, ⟨lists, ?_, good.members⟩,
    rep.kept_held, keeps⟩
  · intro address chunk other solid
    obtain ⟨head, tail⟩ := rep.words address chunk other solid
    rcases apart address chunk other with ⟨rfl, rfl⟩ | outside
    · exact ⟨(loads address (by omega)).trans head,
        (loads (address + 8 + size) (by omega)).trans tail⟩
    · exact ⟨(loads address (by omega)).trans head,
        (loads (address + 8 + chunk.size) (by omega)).trans tail⟩
  · intro index inRange
    have low := rep.bucketField_low inRange
    have bucketEq : ({ s with mem := mem } : Arena).bucket index =
        s.bucket index := loads (s.bucketField index) (by omega)
    rw [bucketEq]
    have outside : ∀ y ∈ lists index, y + 24 ≤ node + 8 ∨
        node + 8 + size ≤ y := by
      intro y member
      obtain ⟨freeSize, freePlaced⟩ := good.node_free inRange member
      have freeBounds := rep.placed_bounds freePlaced
      have disjoint := apart y _ freePlaced
      simp only [Chunk.mk.injEq, reduceCtorEq, false_and, false_or]
        at disjoint freeBounds
      omega
    refine (good.linked index inRange).congr (fun y member => ?_)
      (fun y member => ?_)
    · have := outside y member
      exact loads _ (by simp; omega)
    · have := outside y member
      exact loads _ (by simp; omega)

/-- `__mem_malloc` on a settled arena: it gives up only when no free chunk is
large enough, and otherwise adds one used chunk. -/
theorem malloc_spec (rep : Represents kept content s chunks)
    (settled : Settled chunks) {request : Nat}
    (proper : IsProperSize request size)
    (sizeEq : size = memProperAllocSize request) :
    (memMalloc s request = .ok (0, s) ∧
        ∀ address freeSize, At s.loBound chunks address ⟨.free, freeSize⟩ →
          freeSize < size) ∨
      ∃ new s' chunks' newSize, memMalloc s request = .ok (new, s') ∧
        s.SameBounds s' ∧ Represents kept content s' chunks' ∧
        Settled chunks' ∧ size ≤ newSize ∧ newSize < size + 40 ∧
        (∀ position, kept position →
          position < new ∨ new + newSize + 16 ≤ position) ∧
        (usedBlocks s.loBound chunks').Perm
          ((new, newSize) :: usedBlocks s.loBound chunks) := by
  have bound : request ≤ 2 ^ 36 := proper.covers.trans proper.small
  rcases rep.malloc_cases bound with
    ⟨null, noFit⟩ | ⟨before, fullSize, after, rfl, room, found⟩
  · exact Or.inl ⟨null, sizeEq ▸ noFit⟩
  · rw [← sizeEq] at room found
    obtain ⟨left, right, guarded⟩ := settled.split
    refine Or.inr ⟨_, _, _, carvedSize size fullSize, found, ?_,
      rep.malloc rfl proper.aligned proper.least room,
      left.carve right (guarded rfl), ?_, ?_, fun position isKept => ?_, ?_⟩
    · exact (memUnlinkChunk_same s _).trans (useOrSplitChunk_same _ _ _ _)
    · unfold carvedSize
      split_ifs <;> omega
    · unfold carvedSize
      split_ifs <;> omega
    · have outside := rep.kept_outside_free rfl isKept
      have smaller : carvedSize size fullSize ≤ fullSize := by
        unfold carvedSize
        split_ifs <;> omega
      omega
    · rw [usedBlocks_carve, usedBlocks_free]
      exact List.perm_middle

/-- `__mem_free` on a settled arena: it removes one used chunk. -/
theorem free_spec
    (rep : Represents kept content s (before ++ ⟨.used, size⟩ :: after))
    (settled : Settled (before ++ ⟨.used, size⟩ :: after))
    (nodeEq : node = s.loBound + span before)
    (notKept : ∀ position, kept position →
      position < node ∨ node + size + 16 ≤ position) :
    s.SameBounds (memFree s (node + 8)) ∧
      Represents kept content (memFree s (node + 8))
        (release before size after) ∧
      Settled (release before size after) ∧
      (usedBlocks s.loBound (before ++ ⟨.used, size⟩ :: after)).Perm
        ((node, size) :: usedBlocks s.loBound (release before size after)) := by
  obtain ⟨left, right, -⟩ := settled.split
  refine ⟨rep.free_same left.solid right.solid nodeEq,
    rep.free left.solid right.solid nodeEq notKept, left.release right, ?_⟩
  rw [usedBlocks_used, usedBlocks_release, nodeEq]
  exact List.perm_middle

end Represents

end NtShm
