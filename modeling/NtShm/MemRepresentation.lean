import NtShm.MemWords
import NtShm.Tiling
import NtShm.DoublyLinked

/-!
# Chunk lists represented in an arena

An arena is described by the list of its chunks.  Besides free and used chunks
there are holes: stretches whose size words and list pointers are not to be
read, which is what a chunk becomes between the moment an operation takes it
over and the moment it is given its new size words.  Every allocator operation
is a chain of the rewriting steps of this file.
-/

namespace NtShm

open Tiling

inductive ChunkTag where
  | free
  | used
  | hole
  deriving DecidableEq, Repr

structure Chunk where
  tag : ChunkTag
  size : Nat
  deriving DecidableEq, Repr

namespace Chunk

/-- A chunk takes its payload and its two size words. -/
instance : Extent Chunk := ⟨fun chunk => chunk.size + 16⟩

def word (chunk : Chunk) : Nat :=
  match chunk.tag with
  | .used => memFlgUsed ||| chunk.size
  | _ => chunk.size

@[simp] theorem extent_eq (chunk : Chunk) : extent chunk = chunk.size + 16 := rfl
@[simp] theorem word_free (size : Nat) : word ⟨.free, size⟩ = size := rfl

end Chunk

/-- A byte of a used chunk or of a hole, size words included. -/
def HeldByte (lo : Nat) (chunks : List Chunk) (position : Nat) : Prop :=
  ∃ address chunk, At lo chunks address chunk ∧ chunk.tag ≠ .free ∧
    address ≤ position ∧ position < address + extent chunk

/-- A byte that the allocator may write while the arena has these chunks: the
bucket array, the list pointers of a free chunk, or anything in a hole that
does not have to be kept. -/
def ScratchByte (kept : Nat → Prop) (lo : Nat) (chunks : List Chunk)
    (position : Nat) : Prop :=
  position < lo ∨ ∃ address chunk, At lo chunks address chunk ∧
    (chunk.tag = .free ∧ address + 8 ≤ position ∧ position < address + 24 ∨
      chunk.tag = .hole ∧ address ≤ position ∧
        position < address + extent chunk ∧ ¬ kept position)

/-- The fields of the header that no operation changes. -/
structure ArenaBounds (info : NtMemInfo) : Prop where
  lo_pos : 0 < info.loBound
  lo_aligned : info.loBound % 8 = 0
  total_aligned : info.totalSize % 8 = 0
  total_least : 24 ≤ info.totalSize
  total_small : info.totalSize ≤ memMaxSize
  hi_eq : info.hiBound = info.loBound + info.totalSize + 16
  hi_lt : info.hiBound < 2 ^ 64
  buckets_low : info.buckets + 240 ≤ info.loBound

/-- Header fields that the representation reads. -/
def Arena.SameBounds (s s' : Arena) : Prop :=
  s'.buckets = s.buckets ∧ s'.loBound = s.loBound ∧
    s'.hiBound = s.hiBound ∧ s'.totalSize = s.totalSize

theorem Arena.SameBounds.trans {s s' s'' : Arena} (first : s.SameBounds s')
    (second : s'.SameBounds s'') : s.SameBounds s'' :=
  ⟨second.1.trans first.1, second.2.1.trans first.2.1,
    second.2.2.1.trans first.2.2.1, second.2.2.2.trans first.2.2.2⟩

theorem ArenaBounds.of_same {s s' : Arena}
    (bounds : ArenaBounds s.toNtMemInfo) (same : s.SameBounds s') :
    ArenaBounds s'.toNtMemInfo := by
  obtain ⟨bucketsEq, loEq, hiEq, totalEq⟩ := same
  obtain ⟨h1, h2, h3, h4, h5, h6, h7, h8⟩ := bounds
  constructor <;> simpa only [bucketsEq, loEq, hiEq, totalEq]

/-- The bucket lists hold exactly the free chunks, by size. -/
structure BucketLists (s : Arena) (chunks : List Chunk)
    (lists : Nat → List Nat) : Prop where
  linked : ∀ index < 30,
    DoublyLinked.IsSegment 0 (memGetPrevChunk s.mem) (memGetNextChunk s.mem)
      0 (s.bucket index) (lists index)
  members : ∀ index < 30, ∀ address,
    address ∈ lists index ↔
      ∃ size, At s.loBound chunks address ⟨.free, size⟩ ∧
        memBucketBySize size = index

/-- The arena has these chunks, and the bytes in `kept`, none of them bytes of
free chunks, have the values that `content` gives. -/
structure Represents (kept : Nat → Prop) (content : Memory) (s : Arena)
    (chunks : List Chunk) : Prop where
  bounds : ArenaBounds s.toNtMemInfo
  tiles : span chunks = s.totalSize + 16
  sizes : ∀ chunk ∈ chunks, chunk.size % 8 = 0 ∧ 24 ≤ chunk.size
  words : ∀ address chunk, At s.loBound chunks address chunk →
    chunk.tag ≠ .hole →
      s.mem.load address 8 = chunk.word ∧
        s.mem.load (address + 8 + chunk.size) 8 = chunk.word
  lists : ∃ lists, BucketLists s chunks lists
  kept_held : ∀ position, kept position → HeldByte s.loBound chunks position
  kept_content : ∀ position, kept position →
    s.mem position = content position

namespace Represents

variable {kept : Nat → Prop} {content : Memory} {s s' : Arena}
  {chunks before middle middle' after : List Chunk}

theorem placed_bounds (rep : Represents kept content s chunks)
    {address : Nat} {chunk : Chunk}
    (placed : At s.loBound chunks address chunk) :
    s.loBound ≤ address ∧ address + chunk.size + 16 ≤ s.hiBound ∧
      24 ≤ chunk.size ∧ chunk.size % 8 = 0 ∧ chunk.size ≤ 2 ^ 36 := by
  have low := placed.low
  have high := placed.high
  have sizes := rep.sizes chunk placed.mem
  have total := rep.bounds.hi_eq
  have small := rep.bounds.total_small
  rw [rep.tiles] at high
  simp only [Chunk.extent_eq, memMaxSize_eq] at high small
  omega

theorem span_before_aligned
    (sizes : ∀ chunk ∈ chunks, chunk.size % 8 = 0 ∧ 24 ≤ chunk.size) :
    span chunks % 8 = 0 := by
  induction chunks with
  | nil => rfl
  | cons chunk chunks ih =>
      have head := (sizes chunk (by simp)).1
      have tail := ih fun other member => sizes other (by simp [member])
      simp only [span_cons, Chunk.extent_eq] at tail ⊢
      omega

theorem placed_aligned (rep : Represents kept content s chunks)
    {address : Nat} {chunk : Chunk}
    (placed : At s.loBound chunks address chunk) : address % 8 = 0 := by
  obtain ⟨front, back, rfl, rfl⟩ := placed
  have aligned : span front % 8 = 0 := span_before_aligned
    fun chunk member => rep.sizes chunk (by simp [member])
  have start := rep.bounds.lo_aligned
  omega

/-- The size words of a free or used chunk are never scratch. -/
theorem word_not_scratch (rep : Represents kept content s chunks)
    {address position : Nat} {chunk : Chunk}
    (placed : At s.loBound chunks address chunk)
    (solid : chunk.tag ≠ .hole)
    (inside : address ≤ position ∧ position < address + 8 ∨
      address + 8 + chunk.size ≤ position ∧
        position < address + 8 + chunk.size + 8) :
    ¬ ScratchByte kept s.loBound chunks position := by
  have bounds := rep.placed_bounds placed
  rintro (low | ⟨other, otherChunk, otherPlaced, scratch⟩)
  · omega
  · have otherBounds := rep.placed_bounds otherPlaced
    simp only [Chunk.extent_eq] at scratch
    rcases placed.cases_disjoint otherPlaced with ⟨rfl, rfl⟩ | disjoint
    · rcases scratch with ⟨_, scratch⟩ | ⟨isHole, _⟩
      · omega
      · exact solid isHole
    · simp only [Chunk.extent_eq] at disjoint
      omega

theorem kept_not_scratch (rep : Represents kept content s chunks)
    {position : Nat} (isKept : kept position) :
    ¬ ScratchByte kept s.loBound chunks position := by
  obtain ⟨address, chunk, placed, notFree, inside⟩ :=
    rep.kept_held position isKept
  have bounds := rep.placed_bounds placed
  simp only [Chunk.extent_eq] at inside
  rintro (low | ⟨other, otherChunk, otherPlaced, scratch⟩)
  · omega
  · have otherBounds := rep.placed_bounds otherPlaced
    simp only [Chunk.extent_eq] at scratch
    rcases placed.cases_disjoint otherPlaced with ⟨rfl, rfl⟩ | disjoint
    · rcases scratch with ⟨isFree, _⟩ | ⟨_, _, _, notKept⟩
      · exact notFree isFree
      · exact notKept isKept
    · simp only [Chunk.extent_eq] at disjoint
      omega

end Represents

theorem heldByte_of_no_free {lo position : Nat} {chunks : List Chunk}
    (noFree : ∀ chunk ∈ chunks, chunk.tag ≠ .free) (low : lo ≤ position)
    (high : position < lo + span chunks) : HeldByte lo chunks position := by
  obtain ⟨address, chunk, placed, inside⟩ := exists_at low high
  exact ⟨address, chunk, placed, noFree chunk placed.mem, inside⟩

theorem HeldByte.bounds {lo position : Nat} {chunks : List Chunk}
    (held : HeldByte lo chunks position) :
    lo ≤ position ∧ position < lo + span chunks := by
  obtain ⟨address, chunk, placed, _, inside⟩ := held
  have low := placed.low
  have high := placed.high
  omega

theorem HeldByte.replace {lo position : Nat}
    {before middle middle' after : List Chunk}
    (held : HeldByte lo (before ++ middle ++ after) position)
    (spans : span middle' = span middle)
    (middleHeld : HeldByte (lo + span before) middle position →
      HeldByte (lo + span before) middle' position) :
    HeldByte lo (before ++ middle' ++ after) position := by
  obtain ⟨address, chunk, placed, notFree, inside⟩ := held
  rw [at_replace] at placed
  rcases placed with placed | placed | placed
  · exact ⟨address, chunk, at_replace.mpr (Or.inl placed), notFree, inside⟩
  · obtain ⟨address, chunk, placed, notFree, inside⟩ :=
      middleHeld ⟨address, chunk, placed, notFree, inside⟩
    exact ⟨address, chunk, at_replace.mpr (Or.inr (Or.inl placed)), notFree,
      inside⟩
  · refine ⟨address, chunk, at_replace.mpr (Or.inr (Or.inr ?_)), notFree,
      inside⟩
    rwa [spans]

namespace Represents

variable {kept : Nat → Prop} {content : Memory} {s s' : Arena}
  {chunks before middle middle' after : List Chunk}

theorem recount (rep : Represents kept content s chunks)
    (same : s.SameBounds s') (mem : s'.mem = s.mem) :
    Represents kept content s' chunks := by
  have newBounds := rep.bounds.of_same same
  obtain ⟨lists, linked, members⟩ := rep.lists
  obtain ⟨bucketsEq, loEq, hiEq, totalEq⟩ := same
  refine ⟨newBounds, totalEq ▸ rep.tiles, rep.sizes, ?_, ⟨lists, ?_, ?_⟩,
    ?_, ?_⟩
  · rw [mem, loEq]
    exact rep.words
  · rw [mem]
    intro index inRange
    have bucketEq : s'.bucket index = s.bucket index := by
      simp only [Arena.bucket, NtMemInfo.bucketField, mem, bucketsEq]
    rw [bucketEq]
    exact linked index inRange
  · rw [loEq]
    exact members
  · rw [loEq]
    exact rep.kept_held
  · rw [mem]
    exact rep.kept_content

/-- One rewriting step: a stretch is replaced by another one of the same span,
writing only scratch bytes. -/
theorem rewrite (rep : Represents kept content s (before ++ middle ++ after))
    (same : s.SameBounds s')
    (spans : span middle' = span middle)
    (held : ∀ position, kept position →
      HeldByte (s.loBound + span before) middle position →
        HeldByte (s.loBound + span before) middle' position)
    (sizes : ∀ chunk ∈ middle', chunk.size % 8 = 0 ∧ 24 ≤ chunk.size)
    (agree : ∀ position,
      ¬ ScratchByte kept s.loBound (before ++ middle ++ after) position →
        s'.mem position = s.mem position)
    (words : ∀ address chunk,
      At (s.loBound + span before) middle' address chunk →
        chunk.tag ≠ .hole →
          s'.mem.load address 8 = chunk.word ∧
            s'.mem.load (address + 8 + chunk.size) 8 = chunk.word)
    (lists : ∃ lists, BucketLists s' (before ++ middle' ++ after) lists) :
    Represents kept content s' (before ++ middle' ++ after) := by
  have newBounds := rep.bounds.of_same same
  obtain ⟨bucketsEq, loEq, hiEq, totalEq⟩ := same
  have keptWords : ∀ address chunk,
      At s.loBound (before ++ middle ++ after) address chunk →
        chunk.tag ≠ .hole →
          s'.mem.load address 8 = chunk.word ∧
            s'.mem.load (address + 8 + chunk.size) 8 = chunk.word := by
    intro address chunk placed solid
    obtain ⟨head, tail⟩ := rep.words address chunk placed solid
    refine ⟨Eq.trans ?_ head, Eq.trans ?_ tail⟩
    · exact Memory.load_congr fun position low high =>
        agree position (rep.word_not_scratch placed solid
          (Or.inl ⟨low, high⟩))
    · exact Memory.load_congr fun position low high =>
        agree position (rep.word_not_scratch placed solid
          (Or.inr ⟨low, high⟩))
  refine ⟨newBounds, ?_, ?_, ?_, lists, ?_, ?_⟩
  · have total := rep.tiles
    simp only [span_append] at total ⊢
    omega
  · intro chunk member
    simp only [List.mem_append] at member
    rcases member with (member | member) | member
    · exact rep.sizes chunk (by simp [member])
    · exact sizes chunk member
    · exact rep.sizes chunk (by simp [member])
  · rw [loEq]
    intro address chunk placed solid
    rw [at_replace, spans] at placed
    rcases placed with placed | placed | placed
    · exact keptWords address chunk
        (at_replace.mpr (Or.inl placed)) solid
    · exact words address chunk placed solid
    · exact keptWords address chunk
        (at_replace.mpr (Or.inr (Or.inr placed))) solid
  · rw [loEq]
    intro position isKept
    exact (rep.kept_held position isKept).replace spans (held position isKept)
  · intro position isKept
    rw [agree position (rep.kept_not_scratch isKept)]
    exact rep.kept_content position isKept

end Represents

end NtShm
