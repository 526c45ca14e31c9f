import NtShm.MemBalances
import NtShm.MemWellFormed

/-!
# The statistics of the allocator

`nt_mem_dump_stats` counts the free chunks by walking the bucket lists, and
derives the number of all chunks from the two counters: besides the payloads
every chunk but one costs 16 bytes.
-/

namespace NtShm

open Tiling

/-- The figures that `nt_mem_dump_stats` logs, in the order in which it logs
them; a line about a bucket has the text before its size, the size, and the
number of its chunks. -/
structure MemStats where
  bucketLines : List (String × Nat × Nat)
  minSize : Nat
  maxSize : Nat
  totalSize : Nat
  total : Nat
  freeSize : Nat
  totalFree : Nat
  usedSize : Nat
  totalUsed : Nat

/-- `while (NULL != chunk)` over one bucket list, over at most the given number
of chunks: the counter and the extreme sizes. -/
def countChunks (mem : Memory) : Nat → Nat → Nat → Nat → Nat → Option (Nat × Nat × Nat)
  | 0, _, _, _, _ => none
  | fuel + 1, chunk, counter, minSize, maxSize =>
      if chunk ≠ 0 then
        countChunks mem fuel (memGetNextChunk mem chunk) (u64Add counter 1)
          (min minSize (chunkSize mem chunk)) (max maxSize (chunkSize mem chunk))
      else some (counter, minSize, maxSize)

def bucketLine (index counter : Nat) : String × Nat × Nat :=
  (if index = memBucketCount - 1 then ">=" else "", memMinBucketSize + 8 * index, counter)

/-- The loop over the buckets: the lines, the extreme sizes, and `total_free`. -/
def countBuckets (s : Arena) :
    List Nat → Nat → Nat → Nat → Option (List (String × Nat × Nat) × Nat × Nat × Nat)
  | [], minSize, maxSize, totalFree => some ([], minSize, maxSize, totalFree)
  | index :: rest, minSize, maxSize, totalFree =>
      match countChunks s.mem (s.hiBound - s.loBound) (s.bucket index) 0 minSize maxSize with
      | none => none
      | some (counter, minSize, maxSize) =>
          if counter > 0 then
            match countBuckets s rest minSize maxSize (u64Add totalFree counter) with
            | none => none
            | some (lines, figures) => some (bucketLine index counter :: lines, figures)
          else countBuckets s rest minSize maxSize totalFree

/-- `nt_mem_dump_stats`. -/
def ntMemDumpStats (s : Arena) : Except Stop MemStats :=
  match countBuckets s (List.range memBucketCount) (2 ^ 64 - 1) 0 0 with
  | none => .error .hang
  | some (bucketLines, minSize, maxSize, totalFree) =>
      let total := u64Add
        (u64Sub (u64Sub s.totalSize s.usedSize) s.freeSize / (2 * memSizeField)) 1
      .ok
        { bucketLines := bucketLines
          minSize := minSize
          maxSize := maxSize
          totalSize := s.totalSize
          total := total
          freeSize := s.freeSize
          totalFree := totalFree
          usedSize := s.usedSize
          totalUsed := u64Sub total totalFree }

section Walks

variable {mem : Memory} {s : Arena}

theorem countChunks_eq {fuel before chunk counter minSize maxSize : Nat} {nodes : List Nat}
    (list : DoublyLinked.IsSegment 0 (memGetPrevChunk mem) (memGetNextChunk mem)
      before chunk nodes)
    (enough : nodes.length < fuel) (small : counter + nodes.length < 2 ^ 64) :
    countChunks mem fuel chunk counter minSize maxSize =
      some (counter + nodes.length, (nodes.map (chunkSize mem)).foldl min minSize,
        (nodes.map (chunkSize mem)).foldl max maxSize) := by
  induction nodes generalizing fuel before chunk counter minSize maxSize with
  | nil =>
      obtain ⟨fuel, rfl⟩ := Nat.exists_eq_succ_of_ne_zero (Nat.ne_zero_of_lt enough)
      have null : chunk = 0 := list
      simp [countChunks, null]
  | cons node nodes ih =>
      obtain ⟨fuel, rfl⟩ := Nat.exists_eq_succ_of_ne_zero (Nat.ne_zero_of_lt enough)
      obtain ⟨rfl, nonnull, -, tail⟩ := list
      rw [List.length_cons] at enough small
      have next : u64Add counter 1 = counter + 1 := u64Add_of_lt (by omega)
      rw [countChunks, if_pos nonnull, next, ih tail (by omega) (by omega)]
      simp
      omega

/-- The walk over the buckets meets the nodes of their lists in order. -/
theorem countBuckets_eq {lists : Nat → List Nat} {indices : List Nat}
    {minSize maxSize totalFree : Nat}
    (linked : ∀ index ∈ indices, DoublyLinked.IsSegment 0 (memGetPrevChunk s.mem)
      (memGetNextChunk s.mem) 0 (s.bucket index) (lists index))
    (short : ∀ index ∈ indices, (lists index).length < s.hiBound - s.loBound)
    (small : totalFree + (indices.flatMap lists).length < 2 ^ 64) :
    countBuckets s indices minSize maxSize totalFree =
      some ((indices.filter fun index => (lists index).length > 0).map fun index =>
          bucketLine index (lists index).length,
        ((indices.flatMap lists).map (chunkSize s.mem)).foldl min minSize,
        ((indices.flatMap lists).map (chunkSize s.mem)).foldl max maxSize,
        totalFree + (indices.flatMap lists).length) := by
  induction indices generalizing minSize maxSize totalFree with
  | nil => rfl
  | cons index indices ih =>
      rw [List.flatMap_cons, List.length_append] at small
      have here := @countChunks_eq s.mem _ _ _ 0 minSize maxSize _
        (linked index List.mem_cons_self) (short index List.mem_cons_self) (by omega)
      have later := fun minSize maxSize totalFree => @ih minSize maxSize totalFree
        (fun other member => linked other (List.mem_cons_of_mem _ member))
        fun other member => short other (List.mem_cons_of_mem _ member)
      rw [countBuckets, here]
      simp only [Nat.zero_add]
      by_cases listed : (lists index).length > 0
      · have sum : u64Add totalFree (lists index).length =
            totalFree + (lists index).length := u64Add_of_lt (by omega)
        rw [if_pos listed, sum, later _ _ _ (by omega)]
        simp [listed, Nat.add_assoc]
      · have empty : lists index = [] := by simpa using listed
        rw [if_neg listed, later _ _ _ (by omega)]
        simp [empty]

theorem Walk.le {stop start : Nat} {nodes : List Nat} (walk : Walk mem stop start nodes) :
    ∀ node ∈ nodes, start ≤ node := by
  induction nodes generalizing start with
  | nil => simp
  | cons first nodes ih =>
      obtain ⟨rfl, tail⟩ := walk
      intro node member
      rcases List.mem_cons.mp member with rfl | later
      · exact le_rfl
      · have := ih tail node later
        omega

/-- No chunk is met twice. -/
theorem Walk.nodup {stop start : Nat} {nodes : List Nat} (walk : Walk mem stop start nodes) :
    nodes.Nodup := by
  induction nodes generalizing start with
  | nil => exact List.nodup_nil
  | cons first nodes ih =>
      obtain ⟨rfl, tail⟩ := walk
      refine List.nodup_cons.mpr ⟨fun again => ?_, ih tail⟩
      have := tail.le first again
      simp only [memSizeField_eq] at this
      omega

theorem WellFormed.buckets_perm {nodes : List Nat} {lists : Nat → List Nat}
    (wellFormed : WellFormed s nodes lists) :
    ((List.range memBucketCount).flatMap lists).Perm
      (nodes.filter fun node => freeChunk s.mem node) := by
  apply (List.perm_ext_iff_of_nodup _ (wellFormed.walk.nodup.filter _)).mpr
  · intro node
    simp only [List.mem_flatMap, List.mem_range, List.mem_filter]
    constructor
    · rintro ⟨index, inRange, member⟩
      obtain ⟨inNodes, isFree, -⟩ := (wellFormed.listed index inRange node).mp member
      exact ⟨inNodes, isFree⟩
    · rintro ⟨inNodes, isFree⟩
      have inRange := memBucketBySize_lt (chunkSize s.mem node)
      exact ⟨_, inRange, (wellFormed.listed _ inRange node).mpr ⟨inNodes, isFree, rfl⟩⟩
  · refine List.nodup_flatMap.mpr ⟨fun index member =>
      wellFormed.once index (List.mem_range.mp member), ?_⟩
    refine List.nodup_range.imp_of_mem ?_
    intro first second firstRange secondRange distinct node inFirst inSecond
    have left := (wellFormed.listed first (List.mem_range.mp firstRange) node).mp inFirst
    have right := (wellFormed.listed second (List.mem_range.mp secondRange) node).mp inSecond
    exact distinct (left.2.2.symm.trans right.2.2)

end Walks

/-- The counters of the header, in terms of the raw memory. -/
structure SizesAccount (s : Arena) (nodes : List Nat) : Prop where
  used : s.usedSize =
    ((nodes.filter fun node => ! freeChunk s.mem node).map (chunkSize s.mem)).sum
  free : s.freeSize =
    ((nodes.filter fun node => freeChunk s.mem node).map (chunkSize s.mem)).sum
  nonempty : nodes ≠ []
  total : s.usedSize + s.freeSize + 2 * memSizeField * (nodes.length - 1) = s.totalSize

/-- The derived figures count the chunks. -/
structure StatsExact (s : Arena) (nodes : List Nat) (stats : MemStats) : Prop where
  total : stats.total = nodes.length
  totalFree : stats.totalFree = (nodes.filter fun node => freeChunk s.mem node).length
  totalUsed : stats.totalUsed = (nodes.filter fun node => ! freeChunk s.mem node).length

theorem length_chunkAddresses (start : Nat) (chunks : List Chunk) :
    (chunkAddresses start chunks).length = chunks.length := by
  induction chunks generalizing start with
  | nil => rfl
  | cons chunk chunks ih => simp [chunkAddresses, ih]

theorem map_filter_chunkAddresses {mem : Memory} {start : Nat} {chunks : List Chunk}
    {tag : ChunkTag} {isTag : Nat → Bool}
    (words : ∀ address chunk, At start chunks address chunk →
      chunkSize mem address = chunk.size ∧ isTag address = decide (chunk.tag = tag)) :
    ((chunkAddresses start chunks).filter isTag).map (chunkSize mem) =
      (chunks.filter fun chunk => chunk.tag = tag).map Chunk.size := by
  induction chunks generalizing start with
  | nil => rfl
  | cons chunk chunks ih =>
      obtain ⟨sizeEq, tagEq⟩ := words start chunk (at_cons.mpr (Or.inl ⟨rfl, rfl⟩))
      have tail := @ih (start + extent chunk) fun address other placed =>
        words address other (at_cons.mpr (Or.inr placed))
      rw [Chunk.extent_eq] at tail
      by_cases here : chunk.tag = tag <;>
        simp [chunkAddresses, tagEq, here, tail, sizeEq]

namespace Balanced

variable {s : Arena} {chunks : List Chunk}

theorem sizesAccount (balanced : Balanced s chunks) :
    SizesAccount s (chunkAddresses s.loBound chunks) := by
  have rep := balanced.represents
  have tiles := rep.tiles
  have words (address : Nat) (chunk : Chunk) (placed : At s.loBound chunks address chunk) :=
    rep.chunkSize_of_placed placed (balanced.settled.solid chunk placed.mem)
  have nonempty : chunks ≠ [] := by
    rintro rfl
    simp at tiles
  have positive := List.length_pos_of_ne_nil nonempty
  have lengthEq := length_chunkAddresses s.loBound chunks
  constructor
  · rw [balanced.accounts.used, payloads, ← @map_filter_chunkAddresses s.mem s.loBound]
    intro address chunk placed
    obtain ⟨sizeEq, -, freeEq, -⟩ := words address chunk placed
    have solid := balanced.settled.solid chunk placed.mem
    obtain ⟨tag, size⟩ := chunk
    cases tag <;> simp_all
  · rw [balanced.accounts.free, payloads, ← @map_filter_chunkAddresses s.mem s.loBound]
    intro address chunk placed
    obtain ⟨sizeEq, -, freeEq, -⟩ := words address chunk placed
    exact ⟨sizeEq, freeEq⟩
  · intro empty
    rw [empty, List.length_nil] at lengthEq
    omega
  · rw [span_eq_payloads balanced.settled.solid] at tiles
    rw [balanced.accounts.used, balanced.accounts.free, lengthEq, memSizeField_eq]
    omega

/-- `nt_mem_dump_stats` returns, and its figures are exact. -/
theorem statsExact (balanced : Balanced s chunks) {lists : Nat → List Nat}
    (wellFormed : WellFormed s (chunkAddresses s.loBound chunks) lists) :
    ∃ stats, ntMemDumpStats s = .ok stats ∧
      StatsExact s (chunkAddresses s.loBound chunks) stats := by
  have account := balanced.sizesAccount
  have lengthEq := length_chunkAddresses s.loBound chunks
  have positive := List.length_pos_of_ne_nil account.nonempty
  generalize chunkAddresses s.loBound chunks = nodes
    at wellFormed account lengthEq positive ⊢
  have perm := wellFormed.buckets_perm
  have total := account.total
  have top := balanced.represents.bounds.hi_eq
  have small := balanced.represents.bounds.total_small
  rw [memMaxSize_eq] at small
  rw [memSizeField_eq] at total
  have free_le : (nodes.filter fun node => freeChunk s.mem node).length ≤ nodes.length :=
    List.length_filter_le _ _
  have split : (nodes.filter fun node => freeChunk s.mem node).length +
      (nodes.filter fun node => ! freeChunk s.mem node).length = nodes.length := by
    simpa using (List.length_eq_length_filter_add fun node => freeChunk s.mem node).symm
  have counted := @countBuckets_eq s lists (List.range memBucketCount) (2 ^ 64 - 1) 0 0
    (fun index member => wellFormed.linked index (List.mem_range.mp member))
    (fun index member => by
      have within : (lists index).length ≤
          ((List.range memBucketCount).flatMap lists).length := by
        simpa using ((List.singleton_sublist.mpr member).flatMap lists).length_le
      rw [perm.length_eq] at within
      omega)
    (by rw [perm.length_eq]; omega)
  rw [perm.length_eq, Nat.zero_add] at counted
  have used : u64Sub s.totalSize s.usedSize = s.totalSize - s.usedSize :=
    u64Sub_of_le (by omega) (by omega)
  have both : u64Sub (s.totalSize - s.usedSize) s.freeSize =
      s.totalSize - s.usedSize - s.freeSize := u64Sub_of_le (by omega) (by omega)
  have figure : u64Add ((s.totalSize - s.usedSize - s.freeSize) / (2 * 8)) 1 =
      nodes.length := by
    rw [u64Add_of_lt (by omega)]
    omega
  refine ⟨_, by rw [ntMemDumpStats, counted], ?_, rfl, ?_⟩
  · simp only [used, both, memSizeField_eq, figure]
  · simp only [used, both, memSizeField_eq, figure]
    rw [u64Sub_of_le free_le (by omega)]
    omega

end Balanced

/-- After any run the counters of the header are right, no next call makes one of
them wrap, and the figures of `nt_mem_dump_stats` are exact. -/
theorem heapRun_sizesAccount {start : Arena} (fresh : FreshArena start) {h : Heap}
    (run : HeapRun start h) :
    ∃ nodes lists, WellFormed h.arena nodes lists ∧ SizesAccount h.arena nodes ∧
      CallsExact h ∧
      ∃ stats, ntMemDumpStats h.arena = .ok stats ∧ StatsExact h.arena nodes stats := by
  obtain ⟨chunks, serves, balanced⟩ := run.balanced fresh
  obtain ⟨lists, wellFormed⟩ := serves.represents.wellFormed serves.settled
  exact ⟨_, lists, wellFormed, balanced.sizesAccount, serves.callsExact balanced,
    balanced.statsExact wellFormed⟩

theorem heapRun_sizesAccount_smallArena :
    ∃ h nodes lists, HeapRun smallArena h ∧ h.live = [344] ∧
      WellFormed h.arena nodes lists ∧ SizesAccount h.arena nodes ∧ CallsExact h ∧
      ∃ stats, ntMemDumpStats h.arena = .ok stats ∧ StatsExact h.arena nodes stats := by
  obtain ⟨s, returned⟩ := smallArena_malloc
  have run := smallArena_run returned
  obtain ⟨nodes, lists, account⟩ := heapRun_sizesAccount smallArena_fresh run
  exact ⟨_, nodes, lists, run, rfl, account⟩

end NtShm
