import NtShm.MemCreate
import NtShm.MemSeparation

/-!
# The promise of `nt_mem_required_size`

A segment of the required size plus the sizes of some requests serves all these
requests, wherever it is attached.  While the requests are served, the arena is
some used chunks followed by one free chunk, which has room for all that is
still to come.
-/

namespace NtShm

open Tiling

/-- An `int` as a `size_t`. -/
def asSize (value : Int) : Nat := (value % 2 ^ 64).toNat

/-- The terms that `nt_mem_required_size` adds to `size`, in order; the last two
are `size_t` values of `int` operations. -/
def requiredTerms (descr param : CString) (additional rounding : Int) : List Nat :=
  [7,
    ntMemInfoSize,
    ntPtrSize - 1,
    ntPtrSize * memBucketCount,
    descr.length + 1,
    param.length + 1,
    memSizeField - 1 + 8,
    memSizeField - 1 + 8,
    asSize additional * memSizeField * 2,
    asSize rounding]

/-- `nt_mem_required_size`; the result is undefined where an `int` overflows. -/
def ntMemRequiredSize (chunksNum : Int) (descr param : CString) : Option Nat :=
  match intResult (chunksNum - 1), intResult (chunksNum * (memMinAlloc - 1 : Nat)) with
  | some additional, some rounding =>
      some ((requiredTerms descr param additional rounding).foldl u64Add 0)
  | _, _ => none

/-- Successive calls of `__mem_malloc`, and the chunks that they return. -/
def memMallocAll (s : Arena) : List Nat → Except Stop (List Nat × Arena)
  | [] => .ok ([], s)
  | size :: sizes =>
      match memMalloc s size with
      | .error stop => .error stop
      | .ok (chunk, s) =>
          match memMallocAll s sizes with
          | .error stop => .error stop
          | .ok (chunks, s) => .ok (chunk :: chunks, s)

theorem memMallocAll_cons {s s' s'' : Arena} {size chunk : Nat} {sizes chunks : List Nat}
    (first : memMalloc s size = .ok (chunk, s'))
    (others : memMallocAll s' sizes = .ok (chunks, s'')) :
    memMallocAll s (size :: sizes) = .ok (chunk :: chunks, s'') := by
  rw [memMallocAll, first]
  simp only [others]

section Sizes

variable {descr param : CString}

theorem foldl_u64Add {terms : List Nat} {size : Nat} (fits : size + terms.sum < 2 ^ 64) :
    terms.foldl u64Add size = size + terms.sum := by
  induction terms generalizing size with
  | nil => rfl
  | cons term terms ih =>
      rw [List.sum_cons] at fits ⊢
      have next : u64Add size term = size + term := u64Add_of_lt (by omega)
      rw [List.foldl_cons, next, ih (by omega), Nat.add_assoc]

theorem ntMemRequiredSize_eq {count : Nat} (positive : 1 ≤ count)
    (fits : 23 * count < 2 ^ 31)
    (addressable : descr.length + 1 + (param.length + 1) ≤ 2 ^ 63) :
    ntMemRequiredSize count descr param =
      some (358 + descr.length + param.length + 39 * count) := by
  have additional : intResult ((count : Int) - 1) = some ((count : Int) - 1) :=
    if_pos (by omega)
  have rounding : intResult ((count : Int) * (memMinAlloc - 1 : Nat)) =
      some ((count : Int) * 23) :=
    if_pos (by rw [memMinAlloc_eq]; omega)
  have overhead : asSize ((count : Int) - 1) = count - 1 := by
    unfold asSize
    omega
  have losses : asSize ((count : Int) * 23) = 23 * count := by
    unfold asSize
    omega
  have sum : (requiredTerms descr param (count - 1) (count * 23)).sum =
      358 + descr.length + param.length + 39 * count := by
    simp only [requiredTerms, overhead, losses, ntMemInfoSize, ntPtrSize_eq,
      memBucketCount_eq, memSizeField_eq, List.sum_cons, List.sum_nil]
    omega
  rw [ntMemRequiredSize, additional, rounding]
  simp only
  rw [foldl_u64Add (by omega), sum, Nat.zero_add]

/-- What a request costs, with the size fields of its chunk. -/
def chunkCost (size : Nat) : Nat := memProperAllocSize size + 2 * memSizeField

theorem chunkCost_le {size : Nat} (positive : 1 ≤ size) (small : size ≤ memMaxSize) :
    chunkCost size ≤ size + 39 := by
  have low : (8 - (size &&& 7)) &&& 7 ≤ 7 := Nat.and_le_right
  rw [memMaxSize_eq] at small
  unfold chunkCost memProperAllocSize
  rw [memMinAlloc_eq, memSizeField_eq]
  split_ifs with large
  · rw [u64Add_of_lt (by omega)]
    omega
  · omega

theorem sum_chunkCost_le {sizes : List Nat}
    (proper : ∀ size ∈ sizes, 1 ≤ size ∧ size ≤ memMaxSize) :
    (sizes.map chunkCost).sum ≤ sizes.sum + 39 * sizes.length := by
  induction sizes with
  | nil => simp
  | cons size sizes ih =>
      obtain ⟨positive, small⟩ := proper size List.mem_cons_self
      have head := chunkCost_le positive small
      have tail := ih fun other member => proper other (List.mem_cons_of_mem _ member)
      simp only [List.map_cons, List.sum_cons, List.length_cons]
      omega

theorem totalSize_of_create {mem : Memory} {shmId allowOom : Int} {base size : Nat}
    (segment : base + size ≤ 2 ^ 64) (base_pos : 0 < base) (small : size ≤ 2 ^ 36)
    (room : 385 + descr.length + param.length ≤ size) :
    FreshArena (memLayout mem shmId base size descr param allowOom).arena ∧
      size ≤ (memLayout mem shmId base size descr param allowOom).arena.totalSize +
        (368 + descr.length + param.length) := by
  obtain ⟨-, -, low, high, -⟩ := align8_base segment (by omega)
  have least : leastSegment base descr param ≤ size := by
    unfold leastSegment
    unfold roundUp8 at *
    omega
  obtain ⟨layout, fresh⟩ := @memLayout_of_room mem shmId allowOom base size descr param
    segment base_pos (by omega) small least
  refine ⟨fresh, ?_⟩
  have total := layout.total
  have loEq : align8 (roundUp8 base + 330 + descr.length + param.length) =
      (roundUp8 base + 330 + descr.length + param.length + 7) / 8 * 8 :=
    align8_eq (by omega)
  rw [memLayout_eq segment (by omega) small (by omega)] at total ⊢
  change align8 (roundUp8 base + 330 + descr.length + param.length) + _ + 16 =
    (base + size - 1) / 8 * 8 at total
  change size ≤ u64Sub (u64Sub _ _) 16 + _
  change _ + u64Sub (u64Sub _ _) 16 + 16 = _ at total
  omega

end Sizes

theorem split_last {front before after : List Chunk} {rest size : Nat}
    (occupied : ∀ chunk ∈ front, chunk.tag ≠ .free)
    (split : front ++ [⟨.free, rest⟩] = before ++ ⟨.free, size⟩ :: after) :
    before = front ∧ size = rest ∧ after = [] := by
  rcases List.eq_nil_or_concat after with rfl | ⟨middle, last, rfl⟩
  · obtain ⟨frontEq, lastEq⟩ := List.append_inj' split rfl
    simp only [List.cons.injEq, Chunk.mk.injEq, true_and, and_true] at lastEq
    exact ⟨frontEq.symm, lastEq.symm, rfl⟩
  · rw [List.concat_eq_append, ← List.cons_append, ← List.append_assoc] at split
    obtain ⟨rfl, -⟩ := List.append_inj' split rfl
    exact absurd rfl (occupied ⟨.free, size⟩ (by simp))

/-- The last chunk serves all requests whose costs it has room for. -/
theorem Represents.mallocAll {kept : Nat → Prop} {content : Memory} {s : Arena}
    {front : List Chunk} {rest : Nat} {sizes : List Nat}
    (rep : Represents kept content s (front ++ [⟨.free, rest⟩]))
    (occupied : ∀ chunk ∈ front, chunk.tag ≠ .free)
    (small : ∀ size ∈ sizes, size ≤ memMaxSize)
    (room : (sizes.map chunkCost).sum ≤ rest + 2 * memSizeField) :
    ∃ chunks s', memMallocAll s sizes = .ok (chunks, s') ∧ ∀ chunk ∈ chunks, chunk ≠ 0 := by
  induction sizes generalizing s front rest with
  | nil => exact ⟨[], s, rfl, by simp⟩
  | cons size sizes ih =>
      have bound := small size List.mem_cons_self
      have proper := memProperAllocSize_spec bound
      simp only [List.map_cons, List.sum_cons, chunkCost, memSizeField_eq] at room
      rcases rep.malloc_cases bound with
        ⟨-, noFit⟩ | ⟨before, fullSize, after, split, fits, found⟩
      · have := noFit _ rest (at_middle rfl)
        omega
      · obtain ⟨rfl, rfl, rfl⟩ := split_last occupied split
        have served := rep.malloc rfl proper.aligned proper.least fits
        have nonnull : s.loBound + span before ≠ 0 := by
          have := rep.bounds.lo_pos
          omega
        cases sizes with
        | nil => exact ⟨_, _, memMallocAll_cons found rfl, by simpa using nonnull⟩
        | cons next sizes =>
            have least := (memProperAllocSize_spec
              (small next (List.mem_cons_of_mem _ List.mem_cons_self))).least
            have more := room
            simp only [List.map_cons, List.sum_cons, chunkCost, memSizeField_eq] at more
            have cut : carve (memProperAllocSize size) fullSize =
                [⟨.used, memProperAllocSize size⟩,
                  ⟨.free, fullSize - memProperAllocSize size - 16⟩] :=
              if_neg (by omega)
            rw [cut, List.append_nil, List.append_cons] at served
            obtain ⟨chunks, s', others, nonnulls⟩ := ih served
              (by
                intro chunk member
                rcases List.mem_append.mp member with member | member
                · exact occupied chunk member
                · simp [List.mem_singleton.mp member])
              (fun other member => small other (List.mem_cons_of_mem _ member))
              (by simp only [memSizeField_eq]; omega)
            exact ⟨_, s', memMallocAll_cons found others,
              List.forall_mem_cons.mpr ⟨nonnull, nonnulls⟩⟩

def blocksOf (chunks : List Nat) : List Nat := (chunks.map (· + memSizeField)).reverse

/-- Each request has a chunk in use of its own, which is large enough and apart from the
others, and the arena is one that clients come to with just these blocks. -/
structure ServedAll (start s : Arena) (sizes chunks : List Nat) : Prop where
  count : chunks.length = sizes.length
  live : HeapRun start ⟨s, blocksOf chunks⟩
  nonnull : ∀ chunk ∈ chunks, chunk ≠ 0
  used : ∀ chunk ∈ chunks, freeChunk s.mem chunk = false
  separate : ∀ (index : Nat) (chunk size : Nat), chunks[index]? = some chunk →
    sizes[index]? = some size →
    SeparateBlock start s.mem ((blocksOf chunks).erase (chunk + memSizeField))
      (chunk + memSizeField) size

section Served

variable {start s s' : Arena} {sizes chunks live : List Nat}

theorem blocksOf_cons (chunk : Nat) (chunks : List Nat) :
    blocksOf (chunk :: chunks) = blocksOf chunks ++ [chunk + memSizeField] := by
  rw [blocksOf, List.map_cons, List.reverse_cons, blocksOf]

theorem HeapRun.mallocAll (fresh : FreshArena start) (run : HeapRun start ⟨s, live⟩)
    (small : ∀ size ∈ sizes, size ≤ memMaxSize)
    (served : memMallocAll s sizes = .ok (chunks, s')) (nonnull : ∀ chunk ∈ chunks, chunk ≠ 0) :
    chunks.length = sizes.length ∧ HeapRun start ⟨s', blocksOf chunks ++ live⟩ ∧
      PayloadsKept s.mem s'.mem live ∧
      ∀ (index : Nat) (chunk size : Nat), chunks[index]? = some chunk →
        sizes[index]? = some size → size ≤ payloadSize s'.mem (chunk + memSizeField) := by
  induction sizes generalizing s live chunks with
  | nil =>
      cases served
      exact ⟨rfl, run, fun _ _ => ⟨rfl, fun _ _ _ => rfl⟩, nofun⟩
  | cons size sizes ih =>
      rw [memMallocAll] at served
      split at served
      · cases served
      · next first s₁ returned =>
          split at served
          · cases served
          · next rest s₂ others =>
              cases served
              have bound := small size List.mem_cons_self
              have isSome := nonnull first List.mem_cons_self
              obtain ⟨_, serves, -⟩ := run.serves fresh
              have step := @HeapStep.malloc ⟨s, live⟩ size _ _ bound returned
              rw [if_neg isSome] at step
              obtain ⟨count, run', kept, rooms⟩ := ih (run.tail step)
                (fun other member => small other (List.mem_cons_of_mem _ member)) others
                fun chunk member => nonnull chunk (List.mem_cons_of_mem _ member)
              rcases serves.malloc bound with
                null | ⟨_, _, _, newSize, found, -, -, serves', listed, room, -, kept₁⟩
              · cases null.symm.trans returned
                exact (isSome rfl).elim
              · cases found.symm.trans returned
                have atFirst := kept (first + memSizeField) List.mem_cons_self
                refine ⟨congrArg Nat.succ count, ?_, ?_, ?_⟩
                · rwa [blocksOf_cons, List.append_assoc]
                · intro block isLive
                  have before := kept₁ block isLive
                  have after := kept block (List.mem_cons_of_mem _ isLive)
                  refine ⟨after.1.trans before.1, fun position low high => ?_⟩
                  exact (after.2 position low (by rwa [before.1])).trans
                    (before.2 position low high)
                · intro index chunk other isChunk isSize
                  cases index with
                  | zero =>
                      cases isChunk
                      cases isSize
                      rw [atFirst.1, memSizeField_eq, serves'.represents.payloadSize_of_used listed]
                      exact (memProperAllocSize_spec bound).covers.trans room
                  | succ index => exact rooms index chunk other isChunk isSize

theorem HeapRun.servedAll (fresh : FreshArena start)
    (small : ∀ size ∈ sizes, size ≤ memMaxSize)
    (served : memMallocAll start sizes = .ok (chunks, s))
    (nonnull : ∀ chunk ∈ chunks, chunk ≠ 0) : ServedAll start s sizes chunks := by
  obtain ⟨count, run, -, rooms⟩ :=
    HeapRun.mallocAll fresh (Relation.ReflTransGen.refl) small served nonnull
  rw [List.append_nil] at run
  obtain ⟨placed, serves, same⟩ := run.serves fresh
  have isLive {chunk : Nat} (member : chunk ∈ chunks) :
      chunk + memSizeField ∈ blocksOf chunks :=
    List.mem_reverse.mpr (List.mem_map_of_mem member)
  have isUsed {chunk : Nat} (member : chunk ∈ chunks) :
      ∃ size, (chunk, size) ∈ usedBlocks s.loBound placed := by
    obtain ⟨⟨node, size⟩, listed, same⟩ :=
      List.mem_map.mp (serves.live.mem_iff.mp (isLive member))
    rw [memSizeField_eq] at same
    cases Nat.add_right_cancel same
    exact ⟨size, listed⟩
  constructor
  case count => exact count
  case live => exact run
  case nonnull => exact nonnull
  case used =>
    intro chunk member
    obtain ⟨size, listed⟩ := isUsed member
    obtain ⟨-, -, freeEq, -⟩ :=
      serves.represents.chunkSize_of_placed (mem_usedBlocks.mp listed) (by simp)
    rw [freeEq]
    rfl
  case separate =>
    intro index chunk size isChunk isSize
    have member := List.mem_of_getElem? isChunk
    obtain ⟨newSize, listed⟩ := isUsed member
    have room := rooms index chunk size isChunk isSize
    rw [memSizeField_eq, serves.represents.payloadSize_of_used listed] at room
    have front : Serves ⟨s, (chunk + 8) :: (blocksOf chunks).erase (chunk + 8)⟩ placed :=
      ⟨serves.represents, serves.settled,
        (List.perm_cons_erase (isLive member)).symm.trans serves.live⟩
    exact front.separateBlock same listed room

end Served

/-- An arena that `nt_mem_create` makes from a segment of the required size plus
the sum of some sizes serves requests for these sizes, in this and so in any
order.  The strings lie in the half of the address space that a process has. -/
theorem ntMemRequiredSize_suffices {mem : Memory} {shmget allowOom : Int}
    {strerror : String} {base required : Nat} {descr param : CString} {sizes : List Nat}
    {created : MemCreated} (nonempty : 1 ≤ sizes.length)
    (fits : 23 * sizes.length < 2 ^ 31) (positive : ∀ size ∈ sizes, 1 ≤ size)
    (addressable : descr.length + 1 + (param.length + 1) ≤ 2 ^ 63)
    (requiredEq : ntMemRequiredSize sizes.length descr param = some required)
    (small : required + sizes.sum ≤ memMaxSize)
    (base_pos : 0 < base) (segment : base + (required + sizes.sum) ≤ 2 ^ 64)
    (returned : ntMemCreate mem shmget (some base) strerror (required + sizes.sum)
      (some descr) (some param) allowOom = .ok created) :
    ∃ chunks s, memMallocAll created.arena sizes = .ok (chunks, s) ∧
      ServedAll created.arena s sizes chunks := by
  rw [ntMemRequiredSize_eq nonempty fits addressable, Option.some.injEq] at requiredEq
  obtain ⟨-, -, rfl⟩ := ntMemCreate_ok returned
  obtain ⟨fresh, total⟩ := @totalSize_of_create descr param mem shmget allowOom base
    (required + sizes.sum) segment base_pos small (by omega)
  have proper : ∀ size ∈ sizes, 1 ≤ size ∧ size ≤ memMaxSize := by
    intro size member
    refine ⟨positive size member, ?_⟩
    obtain ⟨before, after, rfl⟩ := List.append_of_mem member
    rw [List.sum_append, List.sum_cons] at small
    omega
  have costs := sum_chunkCost_le proper
  obtain ⟨chunks, s, served, nonnull⟩ := @Represents.mallocAll _ _ _ [] _ sizes
    (fresh.represents mem) (by simp) (fun size member => (proper size member).2) (by
      rw [memSizeField_eq]
      omega)
  exact ⟨chunks, s, served,
    HeapRun.servedAll fresh (fun size member => (proper size member).2) served nonnull⟩

theorem ntMemRequiredSize_suffices_three :
    ∃ descr param : CString, ∃ created,
      ntMemRequiredSize 3 descr param = some 485 ∧
      ntMemCreate (fun _ => 0) 7 (some 4097) "" (485 + 141) (some descr) (some param) 1 =
        .ok created ∧
      ∃ chunks s, memMallocAll created.arena [100, 1, 40] = .ok (chunks, s) ∧
        ServedAll created.arena s [100, 1, 40] chunks := by
  let descr : CString := ⟨[100, 101, 115, 99, 114], by decide⟩
  let param : CString := ⟨[112, 97, 114, 97, 109], by decide⟩
  have requiredEq : ntMemRequiredSize ([100, 1, 40] : List Nat).length descr param =
      some 485 := rfl
  have returned : ntMemCreate (fun _ => 0) 7 (some 4097) ""
      (485 + ([100, 1, 40] : List Nat).sum) (some descr) (some param) 1 =
      .ok (memLayout (fun _ => 0) 7 4097 (485 + ([100, 1, 40] : List Nat).sum)
        descr param 1) := rfl
  exact ⟨descr, param, _, requiredEq, returned,
    ntMemRequiredSize_suffices (by decide) (by decide) (by decide) (by decide) requiredEq
      (by decide) (by decide) (by decide) returned⟩

end NtShm
