import NtShm.MemRuns

/-!
# The accounts of the allocator

`used_size` and `free_size` are the sums of the payloads of the used and of the
free chunks.  Every branch that changes the counters keeps them right.
-/

namespace NtShm

open Tiling

/-! ## Payloads -/

def payloads (tag : ChunkTag) (chunks : List Chunk) : Nat :=
  ((chunks.filter fun chunk => chunk.tag = tag).map Chunk.size).sum

section Payloads

variable {tag : ChunkTag} {chunks before after : List Chunk} {size fullSize : Nat}

@[simp] theorem payloads_nil : payloads tag [] = 0 := rfl

@[simp] theorem payloads_cons_self :
    payloads tag (⟨tag, size⟩ :: chunks) = size + payloads tag chunks := by
  simp [payloads]

theorem payloads_cons_of_ne {other : ChunkTag} (ne : other ≠ tag) :
    payloads tag (⟨other, size⟩ :: chunks) = payloads tag chunks := by
  simp [payloads, ne]

@[simp] theorem payloads_used_cons_free :
    payloads .used (⟨.free, size⟩ :: chunks) = payloads .used chunks :=
  payloads_cons_of_ne (by decide)

@[simp] theorem payloads_free_cons_used :
    payloads .free (⟨.used, size⟩ :: chunks) = payloads .free chunks :=
  payloads_cons_of_ne (by decide)

@[simp] theorem payloads_append :
    payloads tag (before ++ after) = payloads tag before + payloads tag after := by
  simp [payloads]

/-- Each chunk takes 16 bytes besides its payload. -/
theorem span_eq_payloads (solid : ∀ chunk ∈ chunks, chunk.tag ≠ .hole) :
    span chunks =
      payloads .used chunks + payloads .free chunks + 16 * chunks.length := by
  induction chunks with
  | nil => rfl
  | cons chunk chunks ih =>
      have tail := ih fun other member => solid other (List.mem_cons_of_mem _ member)
      have head := solid chunk List.mem_cons_self
      rw [span_cons, tail, List.length_cons]
      obtain ⟨tag, size⟩ := chunk
      cases tag with
      | free => simp; omega
      | used => simp; omega
      | hole => exact absurd rfl head

theorem payloads_used_carve :
    payloads .used (carve size fullSize) = carvedSize size fullSize := by
  unfold carve carvedSize
  split_ifs <;> simp

theorem payloads_free_carve : payloads .free (carve size fullSize) =
    if fullSize < size + 40 then 0 else fullSize - size - 16 := by
  unfold carve
  split_ifs <;> simp

end Payloads

/-! ## Chunks are determined by the memory -/

/-- Whether a solid chunk is free says what it is. -/
theorem tag_unique {tag tag' : ChunkTag} (solid : tag ≠ .hole) (solid' : tag' ≠ .hole)
    (isFree : decide (tag = .free) = decide (tag' = .free)) : tag = tag' := by
  cases tag <;> cases tag' <;> simp_all

/-- Two chunk lists that the size words of a memory agree with are the same. -/
theorem chunks_unique {mem : Memory} {start : Nat} {chunks chunks' : List Chunk}
    (words : ∀ address chunk, At start chunks address chunk →
      chunkSize mem address = chunk.size ∧
        freeChunk mem address = decide (chunk.tag = .free) ∧ chunk.tag ≠ .hole)
    (words' : ∀ address chunk, At start chunks' address chunk →
      chunkSize mem address = chunk.size ∧
        freeChunk mem address = decide (chunk.tag = .free) ∧ chunk.tag ≠ .hole)
    (spans : span chunks = span chunks') : chunks = chunks' := by
  induction chunks generalizing start chunks' with
  | nil =>
      cases chunks' with
      | nil => rfl
      | cons chunk' chunks' =>
          simp only [span_nil, span_cons, Chunk.extent_eq] at spans
          omega
  | cons chunk chunks ih =>
      cases chunks' with
      | nil =>
          simp only [span_nil, span_cons, Chunk.extent_eq] at spans
          omega
      | cons chunk' chunks' =>
          have head := words start chunk (at_cons.mpr (Or.inl ⟨rfl, rfl⟩))
          have head' := words' start chunk' (at_cons.mpr (Or.inl ⟨rfl, rfl⟩))
          have same : chunk = chunk' := by
            obtain ⟨sizeEq, freeEq, solid⟩ := head
            obtain ⟨sizeEq', freeEq', solid'⟩ := head'
            have tagEq := tag_unique solid solid' (freeEq.symm.trans freeEq')
            have sizesEq := sizeEq.symm.trans sizeEq'
            obtain ⟨tag, size⟩ := chunk
            obtain ⟨tag', size'⟩ := chunk'
            exact congrArg₂ Chunk.mk tagEq sizesEq
          subst same
          rw [span_cons, span_cons, Nat.add_left_cancel_iff] at spans
          rw [@ih (start + extent chunk) chunks'
            (fun address other placed => words address other (at_cons.mpr (Or.inr placed)))
            (fun address other placed => words' address other (at_cons.mpr (Or.inr placed)))
            spans]

theorem Represents.chunks_eq {kept kept' : Nat → Prop} {content content' : Memory}
    {s : Arena} {chunks chunks' : List Chunk} (rep : Represents kept content s chunks)
    (settled : Settled chunks) (rep' : Represents kept' content' s chunks')
    (settled' : Settled chunks') : chunks = chunks' := by
  apply @chunks_unique s.mem s.loBound
  · intro address chunk placed
    have solid := settled.solid chunk placed.mem
    obtain ⟨sizeEq, -, freeEq, -⟩ := rep.chunkSize_of_placed placed solid
    exact ⟨sizeEq, freeEq, solid⟩
  · intro address chunk placed
    have solid := settled'.solid chunk placed.mem
    obtain ⟨sizeEq, -, freeEq, -⟩ := rep'.chunkSize_of_placed placed solid
    exact ⟨sizeEq, freeEq, solid⟩
  · rw [rep.tiles, rep'.tiles]

/-! ## The counters -/

structure Accounts (info : NtMemInfo) (chunks : List Chunk) : Prop where
  used : info.usedSize = payloads .used chunks
  free : info.freeSize = payloads .free chunks

section Counters

@[simp] theorem memLinkChunk_usedSize (s : Arena) (chunk : Nat) :
    (memLinkChunk s chunk).usedSize = s.usedSize := rfl

@[simp] theorem memLinkChunk_freeSize (s : Arena) (chunk : Nat) :
    (memLinkChunk s chunk).freeSize = s.freeSize := rfl

@[simp] theorem memUnlinkChunk_usedSize (s : Arena) (chunk : Nat) :
    (memUnlinkChunk s chunk).usedSize = s.usedSize := rfl

@[simp] theorem memUnlinkChunk_freeSize (s : Arena) (chunk : Nat) :
    (memUnlinkChunk s chunk).freeSize = s.freeSize := rfl

variable {s : Arena} {chunks before after rest : List Chunk}
  {size fullSize other node next : Nat}

theorem Represents.payloads_le {kept : Nat → Prop} {content : Memory}
    (rep : Represents kept content s chunks) (settled : Settled chunks) :
    payloads .used chunks + payloads .free chunks ≤ 2 ^ 36 := by
  have total := rep.tiles
  have small := rep.bounds.total_small
  have positive : chunks ≠ [] := by
    rintro rfl
    simp at total
  have length := List.length_pos_of_ne_nil positive
  rw [span_eq_payloads settled.solid] at total
  rw [memMaxSize_eq] at small
  omega

theorem useOrSplitChunk_counters (chunk : Nat) (fits : fullSize ≤ s.freeSize)
    (room : size ≤ fullSize) (small : s.usedSize + s.freeSize ≤ 2 ^ 40) :
    (useOrSplitChunk s chunk size fullSize).usedSize =
        s.usedSize + carvedSize size fullSize ∧
      (useOrSplitChunk s chunk size fullSize).freeSize = s.freeSize - fullSize +
        if fullSize < size + 40 then 0 else fullSize - size - 16 := by
  have limit : u64Add size (2 * memSizeField + memMinAlloc) = size + 40 :=
    u64Add_of_lt (by simp; omega)
  have left : u64Sub s.freeSize fullSize = s.freeSize - fullSize :=
    u64Sub_of_le fits (by omega)
  unfold useOrSplitChunk carvedSize
  rw [limit]
  by_cases whole : fullSize < size + 40
  · simp only [if_pos whole, left]
    exact ⟨u64Add_of_lt (by omega), rfl⟩
  · have rest : u64Sub (u64Sub fullSize size) 16 = fullSize - size - 16 := by
      rw [u64Sub_of_le room (by omega), u64Sub_of_le (by omega) (by omega)]
    simp only [if_neg whole, memSizeField_eq, Nat.reduceMul, rest, memLinkChunk_usedSize,
      memLinkChunk_freeSize, left]
    have used : u64Add s.usedSize size = s.usedSize + size := u64Add_of_lt (by omega)
    have free : u64Add (s.freeSize - fullSize) (fullSize - size - 16) =
      s.freeSize - fullSize + (fullSize - size - 16) := u64Add_of_lt (by omega)
    exact ⟨used, free⟩

variable {kept : Nat → Prop} {content : Memory}

namespace Represents

theorem accounts_malloc
    (rep : Represents kept content s (before ++ ⟨.free, fullSize⟩ :: after))
    (settled : Settled (before ++ ⟨.free, fullSize⟩ :: after))
    (accounts : Accounts s.toNtMemInfo (before ++ ⟨.free, fullSize⟩ :: after))
    (room : size ≤ fullSize) :
    Accounts (useOrSplitChunk (memUnlinkChunk s node) node size fullSize).toNtMemInfo
      (before ++ carve size fullSize ++ after) := by
  have small := rep.payloads_le settled
  obtain ⟨used, free⟩ := accounts
  simp only [payloads_append, payloads_cons_self, payloads_used_cons_free]
    at used free small
  obtain ⟨used', free'⟩ := @useOrSplitChunk_counters (memUnlinkChunk s node) size fullSize
    node (by rw [memUnlinkChunk_freeSize]; omega) room
    (by rw [memUnlinkChunk_usedSize, memUnlinkChunk_freeSize]; omega)
  rw [memUnlinkChunk_usedSize] at used'
  rw [memUnlinkChunk_freeSize] at free'
  constructor
  · rw [used', used, payloads_append, payloads_append, payloads_used_carve]
    omega
  · rw [free', free, payloads_append, payloads_append, payloads_free_carve]
    omega

theorem accounts_free
    (rep : Represents kept content s (before ++ ⟨.used, size⟩ :: after))
    (settled : Settled (before ++ ⟨.used, size⟩ :: after))
    (accounts : Accounts s.toNtMemInfo (before ++ ⟨.used, size⟩ :: after))
    (nodeEq : node = s.loBound + span before) :
    Accounts (memFree s (node + 8)).toNtMemInfo (release before size after) := by
  obtain ⟨left, right, -⟩ := settled.split
  have small := rep.payloads_le settled
  obtain ⟨used, free⟩ := accounts
  simp only [payloads_append, payloads_cons_self, payloads_free_cons_used]
    at used free small
  have taken : u64Sub s.usedSize size = s.usedSize - size :=
    u64Sub_of_le (by omega) (by omega)
  have given : ∀ more ≤ 32,
      u64Add (u64Add s.freeSize size) more = s.freeSize + size + more := by
    intro more _
    exact u64Add_of_add_lt (by omega)
  rcases rep.free_cases left.solid right.solid nodeEq with
    ⟨front, leftSize, rightSize, rest, prev, rfl, rfl, prevEq, result⟩ |
    ⟨front, leftSize, prev, rfl, rightKept, prevEq, result⟩ |
    ⟨rightSize, rest, rfl, leftKept, result⟩ | ⟨leftKept, rightKept, result⟩
  · rw [result, release_both]
    constructor
    · change u64Sub s.usedSize size = _
      rw [taken, used]
      simp only [payloads_append, payloads_used_cons_free, payloads_nil]
      omega
    · change u64Add (u64Add s.freeSize size) 32 = _
      rw [given 32 (by omega), free]
      simp only [payloads_append, payloads_cons_self, payloads_nil]
      omega
  · rw [result, release_left rightKept]
    constructor
    · change u64Sub s.usedSize size = _
      rw [taken, used]
      simp only [payloads_append, payloads_used_cons_free, payloads_nil]
      omega
    · change u64Add (u64Add s.freeSize size) 16 = _
      rw [given 16 (by omega), free]
      simp only [payloads_append, payloads_cons_self, payloads_nil]
      omega
  · rw [result, release_right leftKept]
    constructor
    · change u64Sub s.usedSize size = _
      rw [taken, used]
      simp only [payloads_append, payloads_used_cons_free]
      omega
    · change u64Add (u64Add s.freeSize size) 16 = _
      rw [given 16 (by omega), free]
      simp only [payloads_append, payloads_cons_self]
      omega
  · rw [result, release_alone leftKept rightKept]
    constructor
    · change u64Sub s.usedSize size = _
      rw [taken, used]
      simp only [payloads_append, payloads_used_cons_free]
      omega
    · change u64Add s.freeSize size = _
      rw [u64Add_of_lt (by omega), free]
      simp only [payloads_append, payloads_cons_self]
      omega

theorem accounts_shrinkIntoNext
    (rep : Represents kept content s
      (before ++ ⟨.used, fullSize⟩ :: ⟨.free, other⟩ :: rest))
    (settled : Settled (before ++ ⟨.used, fullSize⟩ :: ⟨.free, other⟩ :: rest))
    (accounts : Accounts s.toNtMemInfo
      (before ++ ⟨.used, fullSize⟩ :: ⟨.free, other⟩ :: rest))
    (room : size ≤ fullSize) :
    Accounts (NtShm.shrinkIntoNext s node size fullSize next).toNtMemInfo
      (before ++ ⟨.used, size⟩ :: ⟨.free, other + (fullSize - size)⟩ :: rest) := by
  have small := rep.payloads_le settled
  obtain ⟨used, free⟩ := accounts
  simp only [payloads_append, payloads_cons_self, payloads_used_cons_free,
    payloads_free_cons_used] at used free small
  have surplus : u64Sub fullSize size = fullSize - size := u64Sub_of_le room (by omega)
  constructor
  · change u64Sub s.usedSize (u64Sub fullSize size) = _
    rw [surplus, u64Sub_of_le (by omega) (by omega)]
    simp only [payloads_append, payloads_cons_self, payloads_used_cons_free]
    omega
  · change u64Add s.freeSize (u64Sub fullSize size) = _
    rw [surplus, u64Add_of_lt (by omega)]
    simp only [payloads_append, payloads_cons_self, payloads_free_cons_used]
    omega

theorem accounts_shrinkBySplit
    (rep : Represents kept content s (before ++ ⟨.used, fullSize⟩ :: after))
    (settled : Settled (before ++ ⟨.used, fullSize⟩ :: after))
    (accounts : Accounts s.toNtMemInfo (before ++ ⟨.used, fullSize⟩ :: after))
    (room : size + 40 ≤ fullSize) :
    Accounts (NtShm.shrinkBySplit s node size fullSize).toNtMemInfo
      (before ++ ⟨.used, size⟩ :: ⟨.free, fullSize - size - 16⟩ :: after) := by
  have small := rep.payloads_le settled
  obtain ⟨used, free⟩ := accounts
  simp only [payloads_append, payloads_cons_self, payloads_free_cons_used]
    at used free small
  have surplus : u64Sub fullSize size = fullSize - size :=
    u64Sub_of_le (by omega) (by omega)
  constructor
  · change u64Sub s.usedSize (u64Sub fullSize size) = _
    rw [surplus, u64Sub_of_le (by omega) (by omega)]
    simp only [payloads_append, payloads_cons_self, payloads_used_cons_free]
    omega
  · change u64Add s.freeSize (u64Sub (u64Sub fullSize size) 16) = _
    have restSize : u64Sub (fullSize - size) 16 = fullSize - size - 16 :=
      u64Sub_of_le (by omega) (by omega)
    rw [surplus, restSize, u64Add_of_lt (by omega)]
    simp only [payloads_append, payloads_cons_self, payloads_free_cons_used]
    omega

theorem accounts_extendIntoNext
    (rep : Represents kept content s
      (before ++ ⟨.used, fullSize⟩ :: ⟨.free, other⟩ :: rest))
    (settled : Settled (before ++ ⟨.used, fullSize⟩ :: ⟨.free, other⟩ :: rest))
    (accounts : Accounts s.toNtMemInfo
      (before ++ ⟨.used, fullSize⟩ :: ⟨.free, other⟩ :: rest))
    (nodeEq : node = s.loBound + span before) (nextEq : next = node + 8 + fullSize + 8)
    (room : size ≤ fullSize + 16 + other) :
    Accounts (NtShm.extendIntoNext s node size fullSize next).toNtMemInfo
      (before ++ carve size (fullSize + 16 + other) ++ rest) := by
  have small := rep.payloads_le settled
  obtain ⟨used, free⟩ := accounts
  simp only [payloads_append, payloads_cons_self, payloads_used_cons_free,
    payloads_free_cons_used] at used free small
  have nextPlaced : At s.loBound (before ++ ⟨.used, fullSize⟩ :: ⟨.free, other⟩ :: rest)
      next ⟨.free, other⟩ := by
    refine ⟨before ++ [⟨.used, fullSize⟩], rest, by simp, ?_⟩
    simp
    omega
  have nextSize : chunkSize s.mem next = other :=
    (rep.chunkSize_of_placed nextPlaced (by simp)).1
  have joined : u64Add fullSize (u64Add 16 other) = fullSize + 16 + other :=
    u64Add_add_of_lt (by omega)
  have credited : u64Add s.freeSize (u64Add fullSize 16) = s.freeSize + fullSize + 16 :=
    u64Add_add_of_lt (by omega)
  have debited : u64Sub s.usedSize fullSize = s.usedSize - fullSize :=
    u64Sub_of_le (by omega) (by omega)
  simp only [NtShm.extendIntoNext, memSizeField_eq, Nat.reduceMul, nextSize, joined,
    credited, debited]
  have settle : ∀ t : Arena, t.usedSize = s.usedSize - fullSize →
      t.freeSize = s.freeSize + fullSize + 16 →
      Accounts (useOrSplitChunk t node size (fullSize + 16 + other)).toNtMemInfo
        (before ++ carve size (fullSize + 16 + other) ++ rest) := by
    intro t usedEq freeEq
    obtain ⟨used', free'⟩ := @useOrSplitChunk_counters t size (fullSize + 16 + other) node
      (by omega) room (by omega)
    constructor
    · rw [used', payloads_append, payloads_append, payloads_used_carve]
      omega
    · rw [free', payloads_append, payloads_append, payloads_free_carve]
      omega
  exact settle _ rfl rfl

end Represents

end Counters

end NtShm
