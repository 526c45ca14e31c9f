import NtShm.HashsetReleases
import NtShm.MemFunctions

/-!
# A hashset in an arena

The functions for memory of the hashsets in shared memory are those of an arena, in which
others have blocks too.  The array of slots and every entry are then live blocks that are
large enough, nothing else is held for the hashset, and it is a set over all runs.
-/

namespace NtShm

/-- A hashset, the arena of its functions for memory, the block for its slots, and the
blocks in the arena that are not of the hashset. -/
structure ShmHashset where
  hs : NtHashset
  heap : Heap
  slotsBlock : Option Nat
  others : List Nat

/-! ## The calls -/

namespace ShmHashset

/-- `nt_hashset_init_slots`. -/
def initSlots (s : ShmHashset) (initSize : Nat) : Except CallEnd (ShmHashset × Bool) :=
  if 0 < initSize then do
    let numSlots ← orFaults (nextPrime (asInt (initSize % 2 ^ 32)))
    let (slots, heap) ← ntMemMalloc s.heap (numSlots * ntPtrSize)
    let (hs, succeeds) ← orFaults (s.hs.initSlots initSize slots.isSome)
    pure ({ s with hs := hs, heap := heap, slotsBlock := slots }, succeeds)
  else do
    let (hs, succeeds) ← orFaults (s.hs.initSlots initSize true)
    pure ({ s with hs := hs, slotsBlock := none }, succeeds)

/-- `nt_hashset_create_ext`, and whether it has the slots that it asks for. -/
def create (heap : Heap) (initSize : Nat) (hashFunc : List UInt8 → UInt32)
    (compareFunc : List UInt8 → List UInt8 → Int) (cleanFunc : Bool) :
    Except CallEnd (ShmHashset × Bool) :=
  initSlots
    ⟨⟨none, 0, 0, hashFunc, compareFunc, cleanFunc, fun _ => none, []⟩, heap, none, heap.live⟩
    initSize

/-- The growth in `nt_hashset_insert_ext`, and whether there is memory for it. -/
def growSlots (s : ShmHashset) (heapServes : Bool) : Except CallEnd (ShmHashset × Bool) := do
  let incSlots ← orFaults (nextPrime (s.hs.numSlots * 3 / 2 : Nat))
  let (slots, heap) ← ntMemRealloc heapServes s.heap s.slotsBlock (incSlots * ntPtrSize)
  match slots with
  | none => pure ({ s with heap := heap }, false)
  | some slots => do
      let hs ← orFaults s.hs.growSlots
      pure ({ s with hs := hs, heap := heap, slotsBlock := some slots }, true)

def entryBlock (heap : Heap) (address : Nat) : HashsetBlock :=
  ⟨address, fun i => heap.arena.mem (address + dataOffset + i)⟩

/-- The new entry at the end of `nt_hashset_insert_ext`. -/
def addEntry (s : ShmHashset) (slot : Nat) (hash : UInt32) (data : List UInt8)
    (size offset : Nat) : Except CallEnd (ShmHashset × Option Nat) := do
  let (entry, heap) ← ntMemMalloc s.heap (u64Add dataOffset size)
  let (hs, result) ← orFaults
    (s.hs.addEntry slot hash data size offset (entry.map (entryBlock heap)))
  pure ({ s with hs := hs, heap := heap }, result)

/-- `nt_hashset_insert_ext`. -/
def insertExt (s : ShmHashset) (heapServes : Bool) (data : List UInt8) (size offset : Nat) :
    Except CallEnd (ShmHashset × Option Nat) := do
  let (s, succeeds) ←
    if s.hs.numSlots = 0 then s.initSlots ntHashsetDefaultSlots else pure (s, true)
  if succeeds then
    let hash := s.hs.hashFunc data
    let slot := hash.toNat % s.hs.numSlots
    let head ← orFaults (s.hs.slotAt slot)
    match ← orFaults (s.hs.find hash data s.hs.numData head) with
    | some entry => pure (s, some (entry + dataOffset))
    | none =>
        if s.hs.numData + 1 ≥ s.hs.numSlots * 4 / 5 then do
          let (s, grown) ← s.growSlots heapServes
          if grown then s.addEntry (hash.toNat % s.hs.numSlots) hash data size offset
          else pure (s, none)
        else s.addEntry slot hash data size offset
  else pure (s, none)

/-- The calls of `mem_free_func`, in their order. -/
def freeAll (slotsBlock : Option Nat) (heap : Heap) (events : List HashsetEvent) : Heap :=
  events.foldl
    (fun heap event =>
      match event with
      | .freeEntry entry => ntMemFree heap entry
      | .freeSlots => slotsBlock.elim heap (ntMemFree heap)
      | _ => heap)
    heap

def afterFrees (s : ShmHashset) (hs : NtHashset) : ShmHashset :=
  { s with hs := hs, heap := freeAll s.slotsBlock s.heap (hs.events.drop s.hs.events.length) }

/-- `nt_hashset_remove`. -/
def remove (s : ShmHashset) (data : List UInt8) : Except CallEnd ShmHashset := do
  let hs ← orFaults (ntHashsetRemove s.hs data)
  pure (s.afterFrees hs)

/-- `nt_hashset_remove_direct`. -/
def removeDirect (s : ShmHashset) (data : Nat) : Except CallEnd ShmHashset := do
  let hs ← orFaults (ntHashsetRemoveDirect s.hs data)
  pure (s.afterFrees hs)

/-- `nt_hashset_clear`. -/
def clear (s : ShmHashset) : Except CallEnd ShmHashset := do
  let hs ← orFaults (ntHashsetClear s.hs)
  pure (s.afterFrees hs)

/-- `nt_hashset_destroy`. -/
def destroy (s : ShmHashset) : Except CallEnd ShmHashset := do
  let hs ← orFaults (ntHashsetDestroy s.hs)
  pure { s.afterFrees hs with slotsBlock := none }

end ShmHashset

/-! ## The blocks of a hashset -/

/-- The hashset has a live block for its slots, if it has any, and one for each entry, and
these are large enough; the other live blocks belong to others. -/
structure ShmHashset.InArena (s : ShmHashset) : Prop where
  serves : ∃ chunks, Serves s.heap chunks
  blocks : ∃ table, HashsetShape s.hs table ∧
    s.heap.live.Perm (s.slotsBlock.toList ++ (table.flatten ++ s.others))
  slots : s.slotsBlock.isSome ↔ 0 < s.hs.numSlots
  slotsRoom : ∀ block, s.slotsBlock = some block →
    s.hs.numSlots * ntPtrSize ≤ payloadSize s.heap.arena.mem block
  entryRoom : ∀ entry record, s.hs.records entry = some record →
    dataOffset + record.2.length ≤ payloadSize s.heap.arena.mem entry

section Blocks

variable {s : ShmHashset} {hs hs' : NtHashset} {table table' : List (List Nat)}

theorem HashsetShape.perm_of_same_records (shape : HashsetShape hs table)
    (shape' : HashsetShape hs' table') (records : hs'.records = hs.records) :
    table'.flatten.Perm table.flatten := by
  rw [List.perm_ext_iff_of_nodup shape'.nodup shape.nodup]
  intro entry
  rw [← shape'.live, ← shape.live, records]

theorem HashsetShape.perm_of_added (shape : HashsetShape hs table)
    (shape' : HashsetShape hs' table') {block : Nat} {record : UInt32 × List UInt8}
    (fresh : hs.records block = none)
    (records : hs'.records = Function.update hs.records block (some record)) :
    table'.flatten.Perm (block :: table.flatten) := by
  have notIn : block ∉ table.flatten := by
    rw [← shape.live, fresh]
    exact Bool.false_ne_true
  rw [List.perm_ext_iff_of_nodup shape'.nodup (List.nodup_cons.mpr ⟨notIn, shape.nodup⟩)]
  intro entry
  rw [← shape'.live, records, List.mem_cons, ← shape.live]
  by_cases isNew : entry = block
  · subst isNew
    simp
  · simp [isNew]

theorem HashsetShape.perm_of_released (shape : HashsetShape hs table)
    (shape' : HashsetShape hs' table') {gone : List Nat} (released : Releases hs gone hs') :
    table.flatten.Perm (gone ++ table'.flatten) := by
  have apart : List.Disjoint gone table'.flatten := by
    intro entry isGone isLeft
    rw [← shape'.live, released.records, withoutEntries, if_pos isGone] at isLeft
    cases isLeft
  rw [List.perm_ext_iff_of_nodup shape.nodup
    (List.nodup_append'.mpr ⟨released.once, shape'.nodup, apart⟩)]
  intro entry
  rw [List.mem_append, ← shape.live, ← shape'.live, released.records, withoutEntries]
  by_cases isGone : entry ∈ gone
  · simp [isGone, released.live entry isGone]
  · simp [isGone]

theorem PayloadsKept.room {mem mem' : Memory} {blocks : List Nat}
    (kept : PayloadsKept mem mem' blocks) {block size : Nat} (isBlock : block ∈ blocks)
    (room : size ≤ payloadSize mem block) : size ≤ payloadSize mem' block := by
  rwa [(kept block isBlock).1]

theorem ShmHashset.InArena.entry_live (inArena : s.InArena) {entry : Nat}
    (isEntry : (s.hs.records entry).isSome) : entry ∈ s.heap.live := by
  obtain ⟨table, shape, perm⟩ := inArena.blocks
  rw [perm.mem_iff, List.mem_append, List.mem_append, ← shape.live]
  exact Or.inr (Or.inl isEntry)

theorem ShmHashset.InArena.slots_live (inArena : s.InArena) {block : Nat}
    (isSlots : s.slotsBlock = some block) : block ∈ s.heap.live := by
  obtain ⟨table, -, perm⟩ := inArena.blocks
  rw [perm.mem_iff, List.mem_append, isSlots]
  exact Or.inl (List.mem_singleton_self block)

theorem ShmHashset.InArena.fresh (inArena : s.InArena) {size block : Nat} {heap : Heap}
    (given : GivenOut s.heap s.heap.live size block heap) : s.hs.records block = none := by
  obtain ⟨chunks, serves⟩ := given.serves
  have once := serves.live_nodup
  rw [given.live, List.nodup_cons] at once
  by_contra isEntry
  exact once.1 (inArena.entry_live (Option.isSome_iff_ne_none.mpr isEntry))

end Blocks

/-! ## Inserting -/

section Inserting

variable {s : ShmHashset}

theorem storedBytes_length (block : HashsetBlock) {data : List UInt8} {size offset : Nat}
    (offsetFits : offset ≤ size) (sizeFits : size ≤ data.length) :
    (storedBytes block data size offset).length = size := by
  simp only [storedBytes, List.length_append, List.length_map, List.length_range,
    List.length_drop, List.length_take]
  omega

theorem growSlots_numSlots {hs hs' : NtHashset} {incSlots : Nat}
    (isNext : nextPrime (hs.numSlots * 3 / 2 : Nat) = some incSlots)
    (grows : hs.growSlots = some hs') : hs'.numSlots = incSlots := by
  rw [NtHashset.growSlots, isNext] at grows
  simp only [Option.bind_eq_bind, Option.bind_some, Option.bind_eq_some_iff] at grows
  obtain ⟨slots, -, rehashed, -, isResult⟩ := grows
  cases isResult
  rfl

structure ShmHashset.Bare (s : ShmHashset) : Prop where
  serves : ∃ chunks, Serves s.heap chunks
  live : s.heap.live.Perm s.others
  noSlots : s.slotsBlock = none
  noRecords : ∀ entry, s.hs.records entry = none

theorem ShmHashset.InArena.bare (inArena : s.InArena) (noSlots : s.hs.numSlots = 0) :
    s.Bare := by
  obtain ⟨table, shape, perm⟩ := inArena.blocks
  have noBlock : s.slotsBlock = none := by
    rw [← Option.not_isSome_iff_eq_none, inArena.slots, noSlots]
    exact Nat.lt_irrefl 0
  refine ⟨inArena.serves, ?_, noBlock, shape.records_none noSlots⟩
  rwa [noBlock, shape.table_nil noSlots] at perm

theorem ShmHashset.Bare.initSlots (bare : s.Bare) (initSize : Nat) :
    s.initSlots initSize = .error (.stops .exit) ∨
      (∃ s', s.initSlots initSize = .ok (s', false) ∧ s'.slotsBlock = none) ∨
      ∃ s', s.initSlots initSize = .ok (s', true) ∧
        s.hs.initSlots initSize true = some (s'.hs, true) ∧ s'.InArena ∧
        s'.others = s.others := by
  obtain ⟨hs', table', inits, shape', -, records', -, someSlots, -⟩ :=
    initSlots_spec bare.noRecords initSize
  have noEntries : table'.flatten = [] := by
    rw [List.eq_nil_iff_forall_not_mem]
    intro entry
    rw [← shape'.live, records', bare.noRecords]
    exact Bool.false_ne_true
  have entryRoom (mem : Memory) : ∀ entry record, hs'.records entry = some record →
      dataOffset + record.2.length ≤ payloadSize mem entry := by
    intro entry record isRecord
    rw [records', bare.noRecords] at isRecord
    cases isRecord
  rw [ShmHashset.initSlots]
  by_cases someSize : 0 < initSize
  · obtain ⟨numSlots, isNext, -⟩ := nextPrime_spec (asInt (initSize % 2 ^ 32))
    have isNumSlots : hs'.numSlots = numSlots := by
      simp only [NtHashset.initSlots, if_pos someSize, isNext, Option.bind_eq_bind,
        Option.bind_some, if_true, Option.some.injEq, Prod.mk.injEq, and_true] at inits
      rw [← inits]
    have failing : s.hs.initSlots initSize false =
        some ({ s.hs with numData := 0, numSlots := numSlots, slots := none }, false) := by
      rw [NtHashset.initSlots, if_pos someSize, isNext]
      rfl
    rw [if_pos someSize, isNext]
    simp only [orFaults_some, CallEnd.ok_bind]
    obtain ⟨chunks, serves⟩ := bare.serves
    rcases ntMemMalloc_spec serves (numSlots * ntPtrSize) with
      (exits | null) | ⟨block, heap, found, given⟩
    · left
      rw [exits, CallEnd.error_bind]
    · right; left
      rw [null, CallEnd.ok_bind, Option.isSome_none, failing]
      exact ⟨_, rfl, rfl⟩
    · right; right
      refine ⟨⟨hs', heap, some block, s.others⟩, ?_, inits, ?_, rfl⟩
      · rw [found, CallEnd.ok_bind, Option.isSome_some, inits]
        rfl
      · refine ⟨given.serves, ⟨table', shape', ?_⟩, ?_, ?_, entryRoom _⟩
        · rw [given.live, noEntries]
          exact bare.live.cons block
        · exact iff_of_true rfl (someSlots.mp someSize)
        · rintro block' ⟨⟩
          rw [isNumSlots]
          exact given.room
  · right; right
    refine ⟨⟨hs', s.heap, none, s.others⟩, ?_, inits, ?_, rfl⟩
    · rw [if_neg someSize, inits]
      rfl
    · refine ⟨bare.serves, ⟨table', shape', ?_⟩, ?_, ?_, entryRoom _⟩
      · rw [noEntries]
        exact bare.live
      · exact iff_of_false Bool.false_ne_true (fun some => someSize (someSlots.mpr some))
      · intro block isBlock
        cases isBlock

theorem ShmHashset.InArena.addEntry (inArena : s.InArena) (someSlots : 0 < s.hs.numSlots)
    (roomy : s.hs.numData + 1 < s.hs.numSlots * 4 / 5) (hash : UInt32) {data : List UInt8}
    {size offset : Nat} (offsetFits : offset ≤ size) (sizeFits : size ≤ data.length)
    (small : dataOffset + size < 2 ^ 64) :
    s.addEntry (hash.toNat % s.hs.numSlots) hash data size offset = .error (.stops .exit) ∨
      ∃ s' result entry,
        s.addEntry (hash.toNat % s.hs.numSlots) hash data size offset = .ok (s', result) ∧
        s.hs.addEntry (hash.toNat % s.hs.numSlots) hash data size offset entry =
          some (s'.hs, result) ∧
        (∀ block, entry = some block → s.hs.records block.address = none) ∧
        s'.InArena ∧ s'.others = s.others := by
  obtain ⟨chunks, serves⟩ := inArena.serves
  rw [ShmHashset.addEntry]
  have isSize : u64Add dataOffset size = dataOffset + size := Nat.mod_eq_of_lt small
  rcases ntMemMalloc_spec serves (u64Add dataOffset size) with
    (exits | null) | ⟨address, heap, found, given⟩
  · left
    rw [exits, CallEnd.error_bind]
  · right
    refine ⟨s, none, none, ?_, rfl, fun _ => nofun, inArena, rfl⟩
    rw [null]
    rfl
  · right
    have fresh := inArena.fresh given
    obtain ⟨table, shape, perm⟩ := inArena.blocks
    obtain ⟨hs', table', adds, shape', -, records', -, numSlots', -⟩ :=
      addEntry_spec shape someSlots roomy hash offsetFits sizeFits
        (show s.hs.records (ShmHashset.entryBlock heap address).address = none from fresh)
    change hs'.records = Function.update s.hs.records address _ at records'
    refine ⟨{ s with hs := hs', heap := heap }, _, some (ShmHashset.entryBlock heap address),
      ?_, adds, ?_, ?_, rfl⟩
    · simp only [found, CallEnd.ok_bind, Option.map_some, adds, orFaults_some]
      rfl
    · rintro block ⟨⟩
      exact fresh
    · constructor
      case serves => exact given.serves
      case blocks =>
        refine ⟨table', shape', ?_⟩
        have added := shape.perm_of_added shape' fresh records'
        have withNew : (address :: (s.slotsBlock.toList ++ (table.flatten ++ s.others))).Perm
            (s.slotsBlock.toList ++ (address :: table.flatten ++ s.others)) :=
          List.perm_middle.symm
        rw [given.live]
        exact (perm.cons address).trans
          (withNew.trans ((added.symm.append_right s.others).append_left _))
      case slots => rw [numSlots', inArena.slots]
      case slotsRoom =>
        intro block isSlots
        rw [numSlots']
        exact given.kept.room (inArena.slots_live isSlots) (inArena.slotsRoom block isSlots)
      case entryRoom =>
        intro entry record isRecord
        rw [records'] at isRecord
        by_cases isNew : entry = address
        · subst isNew
          rw [Function.update_self, Option.some.injEq] at isRecord
          rw [← isRecord, storedBytes_length _ offsetFits sizeFits, ← isSize]
          exact given.room
        · rw [Function.update_of_ne isNew] at isRecord
          exact given.kept.room (inArena.entry_live (by rw [isRecord]; rfl))
            (inArena.entryRoom entry record isRecord)

theorem ShmHashset.InArena.growSlots (inArena : s.InArena) (someSlots : 0 < s.hs.numSlots)
    (heapServes : Bool) :
    s.growSlots heapServes = .error (.stops .exit) ∨
      s.growSlots heapServes = .ok (s, false) ∨
      ∃ s', s.growSlots heapServes = .ok (s', true) ∧ s.hs.growSlots = some s'.hs ∧
        s'.InArena ∧ s'.others = s.others := by
  obtain ⟨chunks, serves⟩ := inArena.serves
  obtain ⟨table, shape, perm⟩ := inArena.blocks
  obtain ⟨old, isOld⟩ := Option.isSome_iff_exists.mp (inArena.slots.mpr someSlots)
  obtain ⟨hs', table', grows, shape', -, records', -, roomy', -⟩ := growSlots_spec shape someSlots
  obtain ⟨incSlots, isNext, -⟩ := nextPrime_spec (s.hs.numSlots * 3 / 2 : Nat)
  have isNumSlots := growSlots_numSlots isNext grows
  have held := inArena.slots_live isOld
  rw [isOld] at perm
  have rest : (s.heap.live.erase old).Perm (table.flatten ++ s.others) := by
    have erased := perm.erase old
    rwa [Option.toList_some, List.singleton_append, List.erase_cons_head] at erased
  rw [ShmHashset.growSlots, isNext, isOld]
  simp only [orFaults_some, CallEnd.ok_bind]
  rcases ntMemRealloc_spec serves held heapServes (incSlots * ntPtrSize) with
    (exits | null) | ⟨block, heap, found, given⟩
  · left
    rw [exits, CallEnd.error_bind]
  · right; left
    rw [null, CallEnd.ok_bind, ← isOld]
    rfl
  · right; right
    refine ⟨⟨hs', heap, some block, s.others⟩, ?_, grows, ?_, rfl⟩
    · rw [found, CallEnd.ok_bind, grows]
      rfl
    · constructor
      case serves => exact given.serves
      case blocks =>
        refine ⟨table', shape', ?_⟩
        have same := shape.perm_of_same_records shape' records'
        rw [given.live]
        exact (rest.trans (same.symm.append_right s.others)).cons block
      case slots => exact iff_of_true rfl (show 0 < hs'.numSlots by omega)
      case slotsRoom =>
        rintro block' ⟨⟩
        rw [isNumSlots]
        exact given.room
      case entryRoom =>
        intro entry record isRecord
        rw [records'] at isRecord
        have isEntry : entry ∈ table.flatten := by
          rw [← shape.live, isRecord]
          rfl
        exact given.kept.room (rest.mem_iff.mpr (List.mem_append_left _ isEntry))
          (inArena.entryRoom entry record isRecord)

/-- What an insert in the arena is to the hashset alone. -/
structure InsertsAs (s : ShmHashset) (data : List UInt8) (size offset : Nat) (s' : ShmHashset)
    (result : Option Nat) : Prop where
  inArena : s'.InArena
  others : s'.others = s.others
  inserts : ∃ allocs : HashsetAllocs,
    ntHashsetInsertExt s.hs data size offset allocs = some (s'.hs, result) ∧
    allocs.slots = true ∧
    ∀ block, allocs.entry = some block → s.hs.records block.address = none

section Branches

variable {hs grown : NtHashset} {data : List UInt8} {head : Option Nat} {size offset : Nat}
  (someSlots : 0 < hs.numSlots)
  (slotAt : hs.slotAt ((hs.hashFunc data).toNat % hs.numSlots) = some head)
include someSlots slotAt

theorem ntHashsetInsertExt_found {entry : Nat}
    (finds : hs.find (hs.hashFunc data) data hs.numData head = some (some entry))
    (allocs : HashsetAllocs) :
    ntHashsetInsertExt hs data size offset allocs = some (hs, some (entry + dataOffset)) := by
  rw [ntHashsetInsertExt, if_neg someSlots.ne']
  simp only [slotAt, Option.bind_eq_bind, Option.bind_some, if_true, finds]

variable (absent : hs.find (hs.hashFunc data) data hs.numData head = some none)
include absent

theorem ntHashsetInsertExt_adds (roomy : ¬ hs.numData + 1 ≥ hs.numSlots * 4 / 5)
    (allocs : HashsetAllocs) :
    ntHashsetInsertExt hs data size offset allocs =
      hs.addEntry ((hs.hashFunc data).toNat % hs.numSlots) (hs.hashFunc data) data size offset
        allocs.entry := by
  rw [ntHashsetInsertExt, if_neg someSlots.ne']
  simp only [slotAt, Option.bind_eq_bind, Option.bind_some, if_true, absent, if_neg roomy]

theorem ntHashsetInsertExt_grows (crowded : hs.numData + 1 ≥ hs.numSlots * 4 / 5)
    (grows : hs.growSlots = some grown) (slots : Bool) (entry : Option HashsetBlock) :
    ntHashsetInsertExt hs data size offset ⟨slots, true, entry⟩ =
      grown.addEntry ((hs.hashFunc data).toNat % grown.numSlots) (hs.hashFunc data) data size
        offset entry := by
  rw [ntHashsetInsertExt, if_neg someSlots.ne']
  simp only [slotAt, Option.bind_eq_bind, Option.bind_some, if_true, absent, if_pos crowded,
    grows]

theorem ntHashsetInsertExt_refused (crowded : hs.numData + 1 ≥ hs.numSlots * 4 / 5)
    (slots : Bool) (entry : Option HashsetBlock) :
    ntHashsetInsertExt hs data size offset ⟨slots, false, entry⟩ = some (hs, none) := by
  rw [ntHashsetInsertExt, if_neg someSlots.ne']
  simp only [slotAt, Option.bind_eq_bind, Option.bind_some, if_true, absent, if_pos crowded]
  rfl

end Branches

theorem ShmHashset.InArena.insertExt_of_slots (inArena : s.InArena)
    (someSlots : 0 < s.hs.numSlots) (heapServes : Bool) {data : List UInt8} {size offset : Nat}
    (offsetFits : offset ≤ size) (sizeFits : size ≤ data.length)
    (small : dataOffset + size < 2 ^ 64) :
    s.insertExt heapServes data size offset = .error (.stops .exit) ∨
      ∃ s' result, s.insertExt heapServes data size offset = .ok (s', result) ∧
        InsertsAs s data size offset s' result := by
  obtain ⟨table, shape, -⟩ := inArena.blocks
  have inRange := Nat.mod_lt (s.hs.hashFunc data).toNat someSlots
  obtain ⟨heads, head, -, -, isList, -, slotAt, along⟩ := shape.array inRange
  rw [ShmHashset.insertExt, if_neg someSlots.ne']
  simp only [pure, Except.pure, CallEnd.ok_bind, if_true, slotAt, orFaults_some]
  rcases NtHashset.find_spec (s.hs.hashFunc data) data along (shape.list_length_le isList) with
    ⟨-, entry, -, -, finds, -⟩ | ⟨absent, -⟩
  · right
    rw [finds]
    refine ⟨s, _, rfl, inArena, rfl, ⟨true, true, none⟩, ?_, rfl, fun _ => nofun⟩
    exact ntHashsetInsertExt_found someSlots slotAt finds _
  · rw [absent]
    simp only [orFaults_some, CallEnd.ok_bind]
    by_cases crowded : s.hs.numData + 1 ≥ s.hs.numSlots * 4 / 5
    · rw [if_pos crowded]
      rcases inArena.growSlots someSlots heapServes with
        exits | refused | ⟨s₁, grows, grows', inArena₁, others₁⟩
      · left
        rw [exits, CallEnd.error_bind]
      · right
        refine ⟨s, none, ?_, inArena, rfl, ⟨true, false, none⟩, ?_, rfl, fun _ => nofun⟩
        · rw [refused]
          rfl
        · exact ntHashsetInsertExt_refused someSlots slotAt absent crowded _ _
      · rw [grows]
        simp only [CallEnd.ok_bind, if_true]
        obtain ⟨hs₁, -, grows₁, -, -, records₁, -, roomy₁, -⟩ := growSlots_spec shape someSlots
        cases grows'.symm.trans grows₁
        rcases inArena₁.addEntry (by omega) roomy₁ (s.hs.hashFunc data) offsetFits sizeFits
          small with exits | ⟨s', result, entry, adds, adds', fresh, inArena', others'⟩
        · exact Or.inl exits
        · right
          refine ⟨s', result, adds, inArena', others'.trans others₁, ⟨true, true, entry⟩, ?_,
            rfl, ?_⟩
          · exact (ntHashsetInsertExt_grows someSlots slotAt absent crowded grows₁ _ _).trans
              adds'
          · intro block isBlock
            rw [← records₁]
            exact fresh block isBlock
    · rw [if_neg crowded]
      rcases inArena.addEntry someSlots (Nat.not_le.mp crowded) (s.hs.hashFunc data) offsetFits
        sizeFits small with exits | ⟨s', result, entry, adds, adds', fresh, inArena', others'⟩
      · exact Or.inl exits
      · right
        refine ⟨s', result, adds, inArena', others', ⟨true, true, entry⟩, ?_, rfl, fresh⟩
        exact (ntHashsetInsertExt_adds someSlots slotAt absent crowded _).trans adds'

/-- An insert never reaches for memory that is not of the hashset.  It is that of the
hashset alone, unless there is no memory for the first slots. -/
theorem ShmHashset.InArena.insertExt (inArena : s.InArena) (heapServes : Bool)
    {data : List UInt8} {size offset : Nat} (offsetFits : offset ≤ size)
    (sizeFits : size ≤ data.length) (small : dataOffset + size < 2 ^ 64) :
    s.insertExt heapServes data size offset = .error (.stops .exit) ∨
      ∃ s' result, s.insertExt heapServes data size offset = .ok (s', result) ∧
        (s'.slotsBlock = none ∧ result = none ∨ InsertsAs s data size offset s' result) := by
  by_cases noSlots : s.hs.numSlots = 0
  · have bare := inArena.bare noSlots
    rcases bare.initSlots ntHashsetDefaultSlots with
      exits | ⟨s₁, fails, noBlock⟩ | ⟨s₁, inits, inits', inArena₁, others₁⟩
    · left
      rw [ShmHashset.insertExt, if_pos noSlots, exits, CallEnd.error_bind]
    · right
      refine ⟨s₁, none, ?_, Or.inl ⟨noBlock, rfl⟩⟩
      rw [ShmHashset.insertExt, if_pos noSlots, fails]
      rfl
    · obtain ⟨hs₁, table₁, inits₁, -, -, records₁, -, someSlots₁, -⟩ :=
        initSlots_spec bare.noRecords ntHashsetDefaultSlots
      cases inits'.symm.trans inits₁
      have positive := someSlots₁.mp (by decide)
      have sameInsert : s.insertExt heapServes data size offset =
          s₁.insertExt heapServes data size offset := by
        rw [ShmHashset.insertExt, ShmHashset.insertExt, if_pos noSlots, if_neg positive.ne',
          inits]
        rfl
      rw [sameInsert]
      rcases inArena₁.insertExt_of_slots positive heapServes offsetFits sizeFits small with
        exits | ⟨s', result, inserts, inArena', others', allocs, alone, slots, fresh⟩
      · exact Or.inl exits
      · refine Or.inr ⟨s', result, inserts, Or.inr ⟨inArena', others'.trans others₁, allocs,
          ?_, slots, ?_⟩⟩
        · rw [← alone, ntHashsetInsertExt, ntHashsetInsertExt, if_pos noSlots,
            if_neg positive.ne', slots, inits₁]
        · intro block isBlock
          rw [← records₁]
          exact fresh block isBlock
  · rcases inArena.insertExt_of_slots (Nat.pos_of_ne_zero noSlots) heapServes offsetFits sizeFits
      small with exits | ⟨s', result, inserts, insertsAs⟩
    · exact Or.inl exits
    · exact Or.inr ⟨s', result, inserts, Or.inr insertsAs⟩

end Inserting

/-! ## Giving back -/

section GivingBack

variable {s : ShmHashset}

theorem freeAll_releases (slotsBlock : Option Nat) (cleanFunc : Bool) (gone : List Nat) :
    ∀ heap : Heap, ShmHashset.freeAll slotsBlock heap (gone.flatMap (releases cleanFunc)) =
      gone.foldl ntMemFree heap := by
  induction gone with
  | nil => exact fun _ => rfl
  | cons entry gone ih =>
      intro heap
      rw [List.flatMap_cons, ShmHashset.freeAll, List.foldl_append, List.foldl_cons, ← ih]
      cases cleanFunc <;> rfl

theorem freeBlocks_spec {gone rest : List Nat} :
    ∀ {heap : Heap}, (∃ chunks, Serves heap chunks) → heap.live.Perm (gone ++ rest) →
      (∃ chunks, Serves (gone.foldl ntMemFree heap) chunks) ∧
        (gone.foldl ntMemFree heap).live.Perm rest ∧
        PayloadsKept heap.arena.mem (gone.foldl ntMemFree heap).arena.mem rest := by
  induction gone with
  | nil => exact fun serves perm => ⟨serves, perm, fun _ _ => ⟨rfl, fun _ _ _ => rfl⟩⟩
  | cons block gone ih =>
      rintro heap ⟨chunks, serves⟩ perm
      have held : block ∈ heap.live := perm.mem_iff.mpr List.mem_cons_self
      obtain ⟨serves', -, kept⟩ := ntMemFree_spec serves held
      have erased : (heap.live.erase block).Perm (gone ++ rest) := by
        have erased := perm.erase block
        rwa [List.cons_append, List.erase_cons_head] at erased
      obtain ⟨serves'', perm'', kept''⟩ := @ih (ntMemFree heap block) serves' erased
      refine ⟨serves'', perm'', ?_⟩
      intro other isOther
      have before := kept other (erased.mem_iff.mpr (List.mem_append_right _ isOther))
      have after := kept'' other isOther
      refine ⟨after.1.trans before.1, ?_⟩
      intro position low high
      have high' : position < other + payloadSize (ntMemFree heap block).arena.mem other := by
        rwa [before.1]
      exact (after.2 position low high').trans (before.2 position low high)

theorem ShmHashset.InArena.release (inArena : s.InArena) {hs' : NtHashset} {gone : List Nat}
    (released : Releases s.hs gone hs') (shape' : ∃ table', HashsetShape hs' table')
    (numSlots : hs'.numSlots = s.hs.numSlots) : (s.afterFrees hs').InArena := by
  obtain ⟨table, shape, perm⟩ := inArena.blocks
  obtain ⟨table', shape'⟩ := shape'
  have parts := shape.perm_of_released shape' released
  have perm' : s.heap.live.Perm
      (gone ++ (s.slotsBlock.toList ++ (table'.flatten ++ s.others))) := by
    have split := (parts.append_right s.others).append_left s.slotsBlock.toList
    rw [List.append_assoc] at split
    exact perm.trans (split.trans (List.perm_append_comm_assoc _ _ _))
  obtain ⟨serves', live', kept⟩ := freeBlocks_spec inArena.serves perm'
  have frees : (s.afterFrees hs').heap = gone.foldl ntMemFree s.heap := by
    rw [ShmHashset.afterFrees, released.events, List.drop_left, freeAll_releases]
  constructor
  case serves => rwa [frees]
  case blocks => exact ⟨table', shape', by rwa [frees]⟩
  case slots =>
    change s.slotsBlock.isSome ↔ 0 < hs'.numSlots
    rw [numSlots]
    exact inArena.slots
  case slotsRoom =>
    intro block isSlots
    change hs'.numSlots * ntPtrSize ≤ _
    change s.slotsBlock = some block at isSlots
    rw [numSlots, frees]
    apply kept.room _ (inArena.slotsRoom block isSlots)
    rw [isSlots]
    exact List.mem_cons_self
  case entryRoom =>
    intro entry record isRecord
    change hs'.records entry = some record at isRecord
    have isEntry : entry ∈ table'.flatten := by
      rw [← shape'.live, isRecord]
      rfl
    rw [released.records, withoutEntries] at isRecord
    split at isRecord
    · cases isRecord
    · rw [frees]
      exact kept.room (List.mem_append_right _ (List.mem_append_left _ isEntry))
        (inArena.entryRoom entry record isRecord)

theorem ShmHashset.InArena.destroy (inArena : s.InArena) :
    ∃ s', s.destroy = .ok s' ∧ (∃ chunks, Serves s'.heap chunks) ∧ s'.others = s.others ∧
      s'.heap.live.Perm s.others ∧
      PayloadsKept s.heap.arena.mem s'.heap.arena.mem s.others := by
  obtain ⟨table, shape, perm⟩ := inArena.blocks
  obtain ⟨hs', destroys, -, events⟩ := ntHashsetDestroy_spec shape
  have perm' : s.heap.live.Perm ((table.flatten ++ s.slotsBlock.toList) ++ s.others) := by
    rw [List.append_assoc]
    exact perm.trans (List.perm_append_comm_assoc _ _ _)
  have slotsFreed (heap : Heap) : ShmHashset.freeAll s.slotsBlock heap
      (if 0 < s.hs.numSlots then [.freeSlots] else []) =
        s.slotsBlock.toList.foldl ntMemFree heap := by
    have slots := inArena.slots
    cases isBlock : s.slotsBlock with
    | none =>
        rw [isBlock] at slots
        rw [if_neg (mt slots.mpr Bool.false_ne_true)]
        rfl
    | some block =>
        rw [isBlock] at slots
        rw [if_pos (slots.mp rfl)]
        rfl
  have frees : ShmHashset.freeAll s.slotsBlock s.heap (hs'.events.drop s.hs.events.length) =
      (table.flatten ++ s.slotsBlock.toList).foldl ntMemFree s.heap := by
    rw [events, List.append_assoc, List.drop_left, List.foldl_append, ← slotsFreed,
      ← freeAll_releases s.slotsBlock s.hs.cleanFunc]
    exact List.foldl_append
  obtain ⟨serves', live', kept⟩ := freeBlocks_spec inArena.serves perm'
  refine ⟨{ s.afterFrees hs' with slotsBlock := none }, ?_, ?_, rfl, ?_, ?_⟩
  · rw [ShmHashset.destroy, destroys]
    rfl
  all_goals
    simp only [ShmHashset.afterFrees, frees]
    assumption

end GivingBack

end NtShm
