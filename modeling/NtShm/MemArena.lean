import NtShm.ByteMemory

/-!
# The shared-memory allocator

The allocator keeps its metadata inside the arena it serves: every chunk has a
size word on its left and on its right end, and a free chunk holds the two
pointers of its bucket list in its first payload bytes.  The definitions below
follow the allocator function by function over a byte memory.  Unsigned 64-bit
arithmetic wraps, pointers are addresses, and `NULL` is address zero.
-/

namespace NtShm

def u64Add (first second : Nat) : Nat := (first + second) % 2 ^ 64

def u64Sub (first second : Nat) : Nat :=
  (first + (2 ^ 64 - second % 2 ^ 64)) % 2 ^ 64

theorem u64Add_of_lt {first second : Nat} (fits : first + second < 2 ^ 64) :
    u64Add first second = first + second :=
  Nat.mod_eq_of_lt fits

theorem u64Add_add_of_lt {first second third : Nat}
    (fits : first + second + third < 2 ^ 64) :
    u64Add first (u64Add second third) = first + second + third := by
  unfold u64Add
  omega

theorem u64Add_of_add_lt {first second third : Nat}
    (fits : first + second + third < 2 ^ 64) :
    u64Add (u64Add first second) third = first + second + third := by
  unfold u64Add
  omega

theorem u64Sub_of_le {first second : Nat} (le : second ≤ first)
    (fits : first < 2 ^ 64) : u64Sub first second = first - second := by
  unfold u64Sub
  omega

def ntPtrSize : Nat := 8
def memSizeField : Nat := 8
def memFlgUsed : Nat := 2 ^ 63
def memMinSize : Nat := 128
def memMaxSize : Nat := 0x1000000000
def memMinAlloc : Nat := 24
def memMinBucketSize : Nat := memMinAlloc
def memMaxBucketSize : Nat := 256
def memBucketCount : Nat := (memMaxBucketSize - memMinBucketSize) / 8 + 1

/-- The fields of `nt_mem_info_t`; `buckets` is the address of the array of
bucket pointers. -/
structure NtMemInfo where
  buckets : Nat
  loBound : Nat
  hiBound : Nat
  freeSize : Nat
  usedSize : Nat
  origSize : Nat
  totalSize : Nat
  shmId : Int
  allowOom : Int
  memDescr : Nat
  memParam : Nat

/-- The allocator's header together with the memory it manages. -/
structure Arena extends NtMemInfo where
  mem : Memory

/-- Ways in which a call does not return: it loops, or it ends the process. -/
inductive Stop where
  | hang
  | exit
  deriving DecidableEq, Repr

section Helpers

def freeChunk (mem : Memory) (ptr : Nat) : Bool :=
  mem.load ptr 8 &&& memFlgUsed == 0

def chunkSize (mem : Memory) (ptr : Nat) : Nat :=
  mem.load ptr 8 &&& (2 ^ 64 - 1 - memFlgUsed)

def memProperAllocSize (size : Nat) : Nat :=
  if size ≥ memMinAlloc then
    u64Add size ((8 - (size &&& 7)) &&& 7)
  else memMinAlloc

def memBucketBySize (size : Nat) : Nat :=
  if size < memMinBucketSize then 0
  else if size < memMaxBucketSize then (size - memMinBucketSize) >>> 3
  else memBucketCount - 1

def memSetChunkSize (mem : Memory) (chunk size : Nat) : Memory :=
  (mem.store chunk 8 size).store (chunk + memSizeField + size) 8 size

def memSetUsedChunkSize (mem : Memory) (chunk size : Nat) : Memory :=
  (mem.store chunk 8 (memFlgUsed ||| size)).store
    (chunk + memSizeField + size) 8 (memFlgUsed ||| size)

def memGetPrevChunk (mem : Memory) (chunk : Nat) : Nat :=
  mem.load (chunk + memSizeField) 8

def memSetPrevChunk (mem : Memory) (chunk prev : Nat) : Memory :=
  mem.store (chunk + memSizeField) 8 prev

def memGetNextChunk (mem : Memory) (chunk : Nat) : Nat :=
  mem.load (chunk + memSizeField + ntPtrSize) 8

def memSetNextChunk (mem : Memory) (chunk next : Nat) : Memory :=
  mem.store (chunk + memSizeField + ntPtrSize) 8 next

def memPtrToPrevField (chunk : Nat) : Nat :=
  if chunk ≠ 0 then chunk + memSizeField else 0

def memPtrToNextField (chunk firstChunk : Nat) : Nat :=
  if chunk ≠ 0 then chunk + memSizeField + ntPtrSize else firstChunk

end Helpers

section Lists

/-- The address of `info->buckets[index]`. -/
def NtMemInfo.bucketField (info : NtMemInfo) (index : Nat) : Nat :=
  info.buckets + ntPtrSize * index

/-- The pointer stored in `info->buckets[index]`. -/
def Arena.bucket (s : Arena) (index : Nat) : Nat :=
  s.mem.load (s.bucketField index) 8

def memLinkChunk (s : Arena) (chunk : Nat) : Arena :=
  let index := memBucketBySize (chunkSize s.mem chunk)
  let mem :=
    if s.bucket index ≠ 0 then memSetPrevChunk s.mem (s.bucket index) chunk
    else s.mem
  let mem := memSetPrevChunk mem chunk 0
  let mem := memSetNextChunk mem chunk (mem.load (s.bucketField index) 8)
  { s with mem := mem.store (s.bucketField index) 8 chunk }

def memUnlinkChunk (s : Arena) (chunk : Nat) : Arena :=
  let index := memBucketBySize (chunkSize s.mem chunk)
  let prevChunk := memGetPrevChunk s.mem chunk
  let nextChunk := memGetNextChunk s.mem chunk
  let nextInPrevChunk := memPtrToNextField prevChunk (s.bucketField index)
  let prevInNextChunk := memPtrToPrevField nextChunk
  let mem := s.mem.store nextInPrevChunk 8 nextChunk
  { s with
    mem :=
      if prevInNextChunk ≠ 0 then mem.store prevInNextChunk 8 prevChunk
      else mem }

end Lists

section Malloc

/-- `while (index < MEM_BUCKET_COUNT - 1 && NULL == info->buckets[index])
index++`, over at most the given number of buckets. -/
def skipEmptyBuckets (s : Arena) : Nat → Nat → Nat
  | 0, index => index
  | fuel + 1, index =>
      if index < memBucketCount - 1 ∧ s.bucket index = 0 then
        skipEmptyBuckets s fuel (index + 1)
      else index

/-- The first-fit scan of the last bucket, over at most the given number of
chunks. -/
def firstFit (mem : Memory) (size : Nat) : Nat → Nat → Option Nat
  | 0, _ => none
  | fuel + 1, chunk =>
      if chunk ≠ 0 ∧ chunkSize mem chunk < size then
        firstFit mem size fuel (memGetNextChunk mem chunk)
      else some chunk

/-- The code shared by `__mem_malloc` and the extending branch of
`__mem_realloc`: either use the full chunk or split it. -/
def useOrSplitChunk (s : Arena) (chunk size fullSize : Nat) : Arena :=
  if fullSize < u64Add size (2 * memSizeField + memMinAlloc) then
    { s with
      usedSize := u64Add s.usedSize fullSize
      freeSize := u64Sub s.freeSize fullSize
      mem := memSetUsedChunkSize s.mem chunk fullSize }
  else
    let newChunk := chunk + memSizeField + size + memSizeField
    let newChunkSize := u64Sub (u64Sub fullSize size) (2 * memSizeField)
    let s := { s with mem := memSetChunkSize s.mem newChunk newChunkSize }
    let s := memLinkChunk s newChunk
    { s with
      usedSize := u64Add s.usedSize size
      freeSize := u64Add (u64Sub s.freeSize fullSize) newChunkSize
      mem := memSetUsedChunkSize s.mem chunk size }

/-- `__mem_malloc`: the address of the chunk, or `NULL`.  The list of the last
bucket cannot have more chunks than the arena has bytes, which bounds the
scan. -/
def memMalloc (s : Arena) (size : Nat) : Except Stop (Nat × Arena) :=
  let size := memProperAllocSize size
  let index := skipEmptyBuckets s memBucketCount (memBucketBySize size)
  let found :=
    if index = memBucketCount - 1 then
      firstFit s.mem size (s.hiBound - s.loBound) (s.bucket index)
    else some (s.bucket index)
  match found with
  | none => .error .hang
  | some chunk =>
      if chunk = 0 then .ok (0, s)
      else
        .ok (chunk,
          useOrSplitChunk (memUnlinkChunk s chunk) chunk size
            (chunkSize s.mem chunk))

end Malloc

section Free

/-- `__mem_free`. -/
def memFree (s : Arena) (ptr : Nat) : Arena :=
  let chunk := ptr - memSizeField
  let size := chunkSize s.mem chunk
  let s :=
    { s with
      usedSize := u64Sub s.usedSize size
      freeSize := u64Add s.freeSize size }
  let nextChunk := chunk + memSizeField + size + memSizeField
  let prevFree := decide (s.loBound < chunk) &&
    freeChunk s.mem (chunk - memSizeField)
  let nextFree := decide (nextChunk < s.hiBound) && freeChunk s.mem nextChunk
  let prevChunk := chunk - memSizeField -
    chunkSize s.mem (chunk - memSizeField) - memSizeField
  if prevFree && nextFree then
    let s := { s with freeSize := u64Add s.freeSize (4 * memSizeField) }
    let size := u64Add size (u64Add (u64Add (4 * memSizeField)
      (chunkSize s.mem prevChunk)) (chunkSize s.mem nextChunk))
    let s := memUnlinkChunk s prevChunk
    let s := memUnlinkChunk s nextChunk
    memLinkChunk { s with mem := memSetChunkSize s.mem prevChunk size }
      prevChunk
  else if prevFree then
    let s := { s with freeSize := u64Add s.freeSize (2 * memSizeField) }
    let size := u64Add size (u64Add (2 * memSizeField)
      (chunkSize s.mem prevChunk))
    let s := memUnlinkChunk s prevChunk
    memLinkChunk { s with mem := memSetChunkSize s.mem prevChunk size }
      prevChunk
  else if nextFree then
    let s := { s with freeSize := u64Add s.freeSize (2 * memSizeField) }
    let size := u64Add size (u64Add (2 * memSizeField)
      (chunkSize s.mem nextChunk))
    let s := memUnlinkChunk s nextChunk
    memLinkChunk { s with mem := memSetChunkSize s.mem chunk size } chunk
  else
    memLinkChunk { s with mem := memSetChunkSize s.mem chunk size } chunk

end Free

section Realloc

/-- Give the tail of a used chunk to the free chunk on its right. -/
def shrinkIntoNext (s : Arena) (chunk size fullSize nextChunk : Nat) : Arena :=
  let s :=
    { s with
      usedSize := u64Sub s.usedSize (u64Sub fullSize size)
      freeSize := u64Add s.freeSize (u64Sub fullSize size) }
  let newChunk := chunk + memSizeField + size + memSizeField
  let newChunkSize := u64Add (chunkSize s.mem nextChunk) (u64Sub fullSize size)
  let s := memUnlinkChunk s nextChunk
  let s := { s with mem := memSetChunkSize s.mem newChunk newChunkSize }
  let s := memLinkChunk s newChunk
  { s with mem := memSetUsedChunkSize s.mem chunk size }

def shrinkBySplit (s : Arena) (chunk size fullSize : Nat) : Arena :=
  let s :=
    { s with
      usedSize := u64Sub s.usedSize (u64Sub fullSize size)
      freeSize := u64Add s.freeSize
        (u64Sub (u64Sub fullSize size) (2 * memSizeField)) }
  let newChunk := chunk + memSizeField + size + memSizeField
  let newChunkSize := u64Sub (u64Sub fullSize size) (2 * memSizeField)
  let s := { s with mem := memSetChunkSize s.mem newChunk newChunkSize }
  let s := memLinkChunk s newChunk
  { s with mem := memSetUsedChunkSize s.mem chunk size }

def extendIntoNext (s : Arena) (chunk size fullSize nextChunk : Nat) : Arena :=
  let nextSize := chunkSize s.mem nextChunk
  let s :=
    { s with
      usedSize := u64Sub s.usedSize fullSize
      freeSize := u64Add s.freeSize (u64Add fullSize (2 * memSizeField)) }
  let fullSize := u64Add fullSize (u64Add (2 * memSizeField) nextSize)
  useOrSplitChunk (memUnlinkChunk s nextChunk) chunk size fullSize

/-- The last resort of `__mem_realloc`: keep the contents in a block of the
process heap, free the chunk, and allocate again.  `heapServes` says whether
the process heap has such a block; `nt_malloc` ends the process otherwise. -/
def reallocThroughCopy (heapServes : Bool) (s : Arena)
    (old chunk size fullSize : Nat) : Except Stop (Nat × Arena) :=
  if heapServes then
    let tmp := fun offset => s.mem (chunk + memSizeField + offset)
    match memMalloc (memFree s old) size with
    | .error stop => .error stop
    | .ok (newChunk, s) =>
        if newChunk = 0 then .error .exit
        else
          .ok (newChunk,
            { s with
              mem := s.mem.fill (newChunk + memSizeField) fullSize tmp })
  else .error .exit

/-- The space there would be if the current chunk were freed before allocating
a new one. -/
def sizeWithNeighbours (s : Arena) (chunk fullSize nextChunk : Nat)
    (nextFree : Bool) : Nat :=
  let newChunkSize :=
    if nextFree then
      u64Add fullSize (u64Add (chunkSize s.mem nextChunk) (2 * memSizeField))
    else fullSize
  if decide (s.loBound < chunk) &&
      freeChunk s.mem (chunk - memSizeField) then
    u64Add newChunkSize
      (u64Add (chunkSize s.mem (chunk - memSizeField)) (2 * memSizeField))
  else newChunkSize

/-- The branches of `__mem_realloc` that allocate a new chunk. -/
def reallocElsewhere (heapServes : Bool) (s : Arena)
    (old chunk size fullSize nextChunk : Nat) (nextFree : Bool) :
    Except Stop (Nat × Arena) :=
  match memMalloc s size with
  | .error stop => .error stop
  | .ok (newChunk, s) =>
      if newChunk ≠ 0 then
        let s :=
          { s with
            mem := s.mem.copy (newChunk + memSizeField)
              (chunk + memSizeField) fullSize }
        .ok (newChunk, memFree s old)
      else
        if size > sizeWithNeighbours s chunk fullSize nextChunk nextFree then
          .ok (0, s)
        else reallocThroughCopy heapServes s old chunk size fullSize

/-- `__mem_realloc`. -/
def memRealloc (heapServes : Bool) (s : Arena) (old size : Nat) :
    Except Stop (Nat × Arena) :=
  let size := memProperAllocSize size
  let chunk := old - memSizeField
  let fullSize := chunkSize s.mem chunk
  let nextChunk := chunk + memSizeField + fullSize + memSizeField
  let nextFree := decide (nextChunk < s.hiBound) && freeChunk s.mem nextChunk
  if size ≤ fullSize then
    if size > fullSize / 4 then .ok (chunk, s)
    else if nextFree then
      .ok (chunk, shrinkIntoNext s chunk size fullSize nextChunk)
    else .ok (chunk, shrinkBySplit s chunk size fullSize)
  else if nextFree &&
      decide (u64Add (u64Add fullSize (2 * memSizeField))
        (chunkSize s.mem nextChunk) ≥ size) then
    .ok (chunk, extendIntoNext s chunk size fullSize nextChunk)
  else
    reallocElsewhere heapServes s old chunk size fullSize nextChunk nextFree

end Realloc

section Clear

/-- The last steps of both `nt_mem_create` and `nt_mem_clear`: one big chunk,
linked into its bucket. -/
def memSetFirstChunk (s : Arena) : Arena :=
  let field := s.bucketField (memBucketBySize s.totalSize)
  let mem := s.mem.store field 8 s.loBound
  let mem := memSetChunkSize mem (mem.load field 8) s.totalSize
  let mem := memSetPrevChunk mem (mem.load field 8) 0
  let mem := memSetNextChunk mem (mem.load field 8) 0
  { s with mem := mem, usedSize := 0, freeSize := s.totalSize }

/-- `nt_mem_clear`. -/
def ntMemClear (s : Arena) : Arena :=
  memSetFirstChunk
    { s with
      mem := s.mem.fill s.buckets (memBucketCount * ntPtrSize) fun _ => 0 }

end Clear

end NtShm
