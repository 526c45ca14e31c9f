import NtShm.ByteMemory
import NtShm.Primes
import Mathlib.Logic.Function.Basic

/-!
# The hashset

`nt_hashset_t` is an array of slots, each the first link of a chain of entries.
A record is the bytes at a data pointer.  An operation has no result when it
would follow a NULL array, leave an array, or touch a block that is not
allocated.
-/

namespace NtShm

/-- `NT_HASHSET_ENTRY_T`; `data` has the bytes that were copied. -/
structure NtHashsetEntry where
  next : Option Nat
  hash : UInt32
  data : List UInt8

/-- What becomes of the memory of a hashset. -/
inductive HashsetEvent
  | mallocSlots
  | reallocSlots
  | freeSlots
  | mallocEntry (entry : Nat)
  | cleanEntry (entry : Nat)
  | freeEntry (entry : Nat)
  deriving DecidableEq

/-- `nt_hashset_t`, with the entries in memory by their addresses, and with the
calls so far of the functions for memory.  `slots` may be NULL, and so may
`clean_func`. -/
structure NtHashset where
  slots : Option (List (Option Nat))
  numSlots : Nat
  numData : Nat
  hashFunc : List UInt8 → UInt32
  compareFunc : List UInt8 → List UInt8 → Int
  cleanFunc : Bool
  entries : Nat → Option NtHashsetEntry
  events : List HashsetEvent

/-- A block for an entry: its address, and the bytes that lie there. -/
structure HashsetBlock where
  address : Nat
  junk : Nat → UInt8

/-- What the functions for memory answer during an insert: whether the slots can
be allocated and reallocated, and the block for the entry, which may be NULL. -/
structure HashsetAllocs where
  slots : Bool
  realloc : Bool
  entry : Option HashsetBlock

/-- `NT_HASHSET_DEFAULT_SLOTS`. -/
def ntHashsetDefaultSlots : Nat := 10

/-- `offsetof(NT_HASHSET_ENTRY_T, data)`: `SIZEOF_VOID_P` is defined nowhere, and
so there is no padding. -/
def dataOffset : Nat := 12

namespace NtHashset

/-- `slots[slot]`. -/
def slotAt (hs : NtHashset) (slot : Nat) : Option (Option Nat) :=
  hs.slots.bind fun slots => slots[slot]?

/-- `slots[slot] = link`. -/
def setSlot (hs : NtHashset) (slot : Nat) (link : Option Nat) : NtHashset :=
  { hs with slots := hs.slots.map fun slots => slots.set slot link }

/-- `entry->next = link`. -/
def setNext (hs : NtHashset) (entry : Nat) (link : Option Nat) : Option NtHashset := do
  let node ← hs.entries entry
  some { hs with
    entries := Function.update hs.entries entry (some { node with next := link }) }

/-- `__hashset_free_entry`. -/
def freeEntry (hs : NtHashset) (entry : Nat) : Option NtHashset := do
  let _ ← hs.entries entry
  some { hs with
    entries := Function.update hs.entries entry none
    events := hs.events ++
      (if hs.cleanFunc then [.cleanEntry entry] else []) ++ [.freeEntry entry] }

/-- `nt_hashset_init_slots`, and whether it succeeds.  `next_prime` takes an
`int`. -/
def initSlots (hs : NtHashset) (initSize : Nat) (succeeds : Bool) :
    Option (NtHashset × Bool) :=
  if 0 < initSize then do
    let numSlots ← nextPrime (asInt (initSize % 2 ^ 32))
    if succeeds then
      some ({ hs with
        numData := 0
        numSlots := numSlots
        slots := some (List.replicate numSlots none)
        events := hs.events ++ [.mallocSlots] }, true)
    else some ({ hs with numData := 0, numSlots := numSlots, slots := none }, false)
  else some ({ hs with numData := 0, numSlots := 0, slots := none }, true)

/-- Whether an entry is the one looked for. -/
def isMatch (hs : NtHashset) (hash : UInt32) (data : List UInt8)
    (node : NtHashsetEntry) : Bool :=
  node.hash = hash ∧ hs.compareFunc node.data data = 0

/-- The walk along a chain until an entry matches. -/
def find (hs : NtHashset) (hash : UInt32) (data : List UInt8) :
    Nat → Option Nat → Option (Option Nat)
  | _, none => some none
  | 0, some _ => none
  | fuel + 1, some entry => do
      let node ← hs.entries entry
      if hs.isMatch hash data node then some (some entry)
      else hs.find hash data fuel node.next

/-- `*prev_next = link`, where `prev_next` points to the slot or into an entry. -/
def setLink (hs : NtHashset) (slot : Nat) (prevNext link : Option Nat) :
    Option NtHashset :=
  match prevNext with
  | none => some (hs.setSlot slot link)
  | some entry => hs.setNext entry link

/-- The walk along the chain of a slot that moves entries to their new slots. -/
def rehashSlot (incSlots slot : Nat) :
    Nat → NtHashset → Option Nat → Option Nat → Option NtHashset
  | _, hs, _, none => some hs
  | 0, _, _, some _ => none
  | fuel + 1, hs, prevNext, some currEntry => do
      let node ← hs.entries currEntry
      let newSlot := node.hash.toNat % incSlots
      if slot ≠ newSlot then
        let tmp := node.next
        let head ← hs.slotAt newSlot
        let hs ← hs.setNext currEntry head
        let hs := hs.setSlot newSlot (some currEntry)
        let hs ← hs.setLink slot prevNext tmp
        rehashSlot incSlots slot fuel hs prevNext tmp
      else rehashSlot incSlots slot fuel hs (some currEntry) node.next

/-- The walk over the slots, with `left` of them to go. -/
def rehash (incSlots : Nat) : Nat → Nat → NtHashset → Option NtHashset
  | 0, _, hs => some hs
  | left + 1, slot, hs => do
      let head ← hs.slotAt slot
      let hs ← rehashSlot incSlots slot hs.numData hs none head
      rehash incSlots left (slot + 1) hs

/-- The growth in `nt_hashset_insert_ext`. -/
def growSlots (hs : NtHashset) : Option NtHashset := do
  let incSlots ← nextPrime (hs.numSlots * 3 / 2 : Nat)
  let slots ← hs.slots
  let hs := { hs with
    slots := some (slots ++ List.replicate (incSlots - hs.numSlots) none)
    events := hs.events ++ [.reallocSlots] }
  let hs ← rehash incSlots hs.numSlots 0 hs
  some { hs with numSlots := incSlots }

/-- The new entry at the end of `nt_hashset_insert_ext`.  The bytes before
`offset` stay as they were in the block. -/
def addEntry (hs : NtHashset) (slot : Nat) (hash : UInt32) (data : List UInt8)
    (size offset : Nat) (entry : Option HashsetBlock) :
    Option (NtHashset × Option Nat) :=
  match entry with
  | none => some (hs, none)
  | some block => do
      -- `size - offset` wraps around, or bytes past the record are read
      if size < offset ∨ data.length < size then none
      let head ← hs.slotAt slot
      let node : NtHashsetEntry := ⟨head, hash,
        (List.range offset).map block.junk ++ (data.take size).drop offset⟩
      let hs := { hs with
        entries := Function.update hs.entries block.address (some node)
        events := hs.events ++ [HashsetEvent.mallocEntry block.address]
        numData := hs.numData + 1 }
      some (hs.setSlot slot (some block.address), some (block.address + dataOffset))

/-- The walk of `nt_hashset_remove` after the first entry. -/
def removeAfter (hs : NtHashset) (hash : UInt32) (data : List UInt8) :
    Nat → Nat → Option Nat → Option NtHashset
  | _, _, none => some hs
  | 0, _, some _ => none
  | fuel + 1, prevEntry, some entry => do
      let node ← hs.entries entry
      if hs.isMatch hash data node then
        let hs ← hs.setNext prevEntry node.next
        let hs ← hs.freeEntry entry
        some { hs with numData := hs.numData - 1 }
      else hs.removeAfter hash data fuel entry node.next

/-- The walk of `nt_hashset_remove_direct` after the first entry. -/
def removeDirectAfter (hs : NtHashset) (dataEntry : Nat) (dataNext : Option Nat) :
    Nat → Nat → Option NtHashset
  | 0, _ => none
  | fuel + 1, iterEntry => do
      let node ← hs.entries iterEntry
      match node.next with
      | none => some hs
      | some next =>
          if next = dataEntry then
            let hs ← hs.setNext iterEntry dataNext
            let hs ← hs.freeEntry dataEntry
            some { hs with numData := hs.numData - 1 }
          else hs.removeDirectAfter dataEntry dataNext fuel next

/-- The loop of `nt_hashset_clear` over the chain of a slot. -/
def clearSlot (slot : Nat) : Nat → NtHashset → Option NtHashset
  | 0, hs => do
      let head ← hs.slotAt slot
      if head.isNone then some hs else none
  | fuel + 1, hs => do
      match ← hs.slotAt slot with
      | none => some hs
      | some entry =>
          let node ← hs.entries entry
          let hs ← (hs.setSlot slot node.next).freeEntry entry
          clearSlot slot fuel hs

/-- The loop of `nt_hashset_clear` over the slots. -/
def clearSlots : Nat → Nat → NtHashset → Option NtHashset
  | 0, _, hs => some hs
  | left + 1, slot, hs => do
      let hs ← clearSlot slot hs.numData hs
      clearSlots left (slot + 1) hs

end NtHashset

/-! ## The public interface -/

/-- `nt_hashset_create_ext`, which does not look at the result of
`nt_hashset_init_slots`. -/
def ntHashsetCreateExt (initSize : Nat) (hashFunc : List UInt8 → UInt32)
    (compareFunc : List UInt8 → List UInt8 → Int) (cleanFunc slots : Bool) :
    Option NtHashset := do
  let (hs, _) ← NtHashset.initSlots
    ⟨none, 0, 0, hashFunc, compareFunc, cleanFunc, fun _ => none, []⟩ initSize slots
  some hs

/-- `nt_hashset_insert_ext`: the hashset and the data pointer that is returned. -/
def ntHashsetInsertExt (hs : NtHashset) (data : List UInt8) (size offset : Nat)
    (allocs : HashsetAllocs) : Option (NtHashset × Option Nat) := do
  let (hs, succeeds) ←
    if hs.numSlots = 0 then hs.initSlots ntHashsetDefaultSlots allocs.slots
    else some (hs, true)
  if succeeds then
    let hash := hs.hashFunc data
    let slot := hash.toNat % hs.numSlots
    let head ← hs.slotAt slot
    match ← hs.find hash data hs.numData head with
    | some entry => some (hs, some (entry + dataOffset))
    | none =>
        if hs.numData + 1 ≥ hs.numSlots * 4 / 5 then
          if allocs.realloc then
            let hs ← hs.growSlots
            hs.addEntry (hash.toNat % hs.numSlots) hash data size offset allocs.entry
          else some (hs, none)
        else hs.addEntry slot hash data size offset allocs.entry
  else some (hs, none)

/-- `nt_hashset_insert`. -/
def ntHashsetInsert (hs : NtHashset) (data : List UInt8) (size : Nat)
    (allocs : HashsetAllocs) : Option (NtHashset × Option Nat) :=
  ntHashsetInsertExt hs data size 0 allocs

/-- `nt_hashset_search`. -/
def ntHashsetSearch (hs : NtHashset) (data : List UInt8) : Option (Option Nat) :=
  if hs.numSlots = 0 then some none
  else do
    let hash := hs.hashFunc data
    let head ← hs.slotAt (hash.toNat % hs.numSlots)
    let found ← hs.find hash data hs.numData head
    some (found.map (· + dataOffset))

/-- `nt_hashset_remove`. -/
def ntHashsetRemove (hs : NtHashset) (data : List UInt8) : Option NtHashset :=
  if hs.numSlots = 0 then some hs
  else do
    let hash := hs.hashFunc data
    let slot := hash.toNat % hs.numSlots
    match ← hs.slotAt slot with
    | none => some hs
    | some entry =>
        let node ← hs.entries entry
        if hs.isMatch hash data node then
          let hs ← (hs.setSlot slot node.next).freeEntry entry
          some { hs with numData := hs.numData - 1 }
        else hs.removeAfter hash data hs.numData entry node.next

/-- `nt_hashset_remove_direct`. -/
def ntHashsetRemoveDirect (hs : NtHashset) (data : Nat) : Option NtHashset :=
  if hs.numSlots = 0 then some hs
  else do
    let dataEntry := data - dataOffset
    let dataNode ← hs.entries dataEntry
    let slot := dataNode.hash.toNat % hs.numSlots
    match ← hs.slotAt slot with
    | none => some hs
    | some iterEntry =>
        if iterEntry = dataEntry then
          let hs ← (hs.setSlot slot dataNode.next).freeEntry dataEntry
          some { hs with numData := hs.numData - 1 }
        else hs.removeDirectAfter dataEntry dataNode.next hs.numData iterEntry

/-- The loop of `nt_hashset_destroy` over a chain. -/
def NtHashset.destroySlot : Nat → NtHashset → Option Nat → Option NtHashset
  | _, hs, none => some hs
  | 0, _, some _ => none
  | fuel + 1, hs, some entry => do
      let node ← hs.entries entry
      let hs ← hs.freeEntry entry
      destroySlot fuel hs node.next

/-- The loop of `nt_hashset_destroy` over the slots. -/
def NtHashset.destroySlots : Nat → Nat → NtHashset → Option NtHashset
  | 0, _, hs => some hs
  | left + 1, slot, hs => do
      let head ← hs.slotAt slot
      let hs ← destroySlot hs.numData hs head
      destroySlots left (slot + 1) hs

/-- `nt_hashset_destroy`.  The functions that it sets to NULL are left as they
are here. -/
def ntHashsetDestroy (hs : NtHashset) : Option NtHashset := do
  let hs ← NtHashset.destroySlots hs.numSlots 0 hs
  some { hs with
    numData := 0
    numSlots := 0
    slots := none
    events := hs.events ++ if hs.slots.isSome then [HashsetEvent.freeSlots] else [] }

/-- `nt_hashset_clear`. -/
def ntHashsetClear (hs : NtHashset) : Option NtHashset := do
  let hs ← NtHashset.clearSlots hs.numSlots 0 hs
  some { hs with numData := 0 }

/-! ## Iterators -/

/-- `nt_hashset_iter_t`; `slot` is also `ITER_START` or `ITER_FINISH`. -/
structure NtHashsetIter where
  slot : Int
  entry : Option Nat
  deriving DecidableEq

/-- `ITER_START`. -/
def iterStart : Int := -1

/-- `ITER_FINISH`. -/
def iterFinish : Int := -2

/-- `nt_hashset_iter_reset`, which leaves `entry` as it is. -/
def ntHashsetIterReset (entry : Option Nat) : NtHashsetIter := ⟨iterStart, entry⟩

/-- The loop of `nt_hashset_iter_next` over the next slots. -/
def iterNextSlot (hs : NtHashset) (entry : Option Nat) :
    Nat → Int → Option (NtHashsetIter × Option Nat)
  | 0, _ => none
  | fuel + 1, slot =>
      if slot + 1 = hs.numSlots then some (⟨iterFinish, entry⟩, none)
      else do
        match ← hs.slotAt (slot + 1).toNat with
        | some next => some (⟨slot + 1, some next⟩, some (next + dataOffset))
        | none => iterNextSlot hs entry fuel (slot + 1)

/-- `nt_hashset_iter_next`: the iterator and the data pointer it returns. -/
def ntHashsetIterNext (hs : NtHashset) (iter : NtHashsetIter) :
    Option (NtHashsetIter × Option Nat) :=
  if iter.slot = iterFinish then some (iter, none)
  else do
    let within ←
      if iter.slot ≠ iterStart then
        match iter.entry with
        | none => some none
        | some entry => (hs.entries entry).map NtHashsetEntry.next
      else some none
    match within with
    | some next => some (⟨iter.slot, some next⟩, some (next + dataOffset))
    | none => iterNextSlot hs iter.entry (hs.numSlots + 2) iter.slot

/-- The walk of `nt_hashset_iter_remove` to the entry before another. -/
def entryBefore (hs : NtHashset) (entry : Nat) : Nat → Option Nat → Option Nat
  | _, none => none
  | 0, some _ => none
  | fuel + 1, some prevEntry => do
      let node ← hs.entries prevEntry
      if node.next = some entry then some prevEntry
      else entryBefore hs entry fuel node.next

/-- `nt_hashset_iter_remove`: the hashset and the iterator, or `none` inside
where the iterator is bad and the program exits. -/
def ntHashsetIterRemove (hs : NtHashset) (iter : NtHashsetIter) :
    Option (Option (NtHashset × NtHashsetIter)) :=
  if iter.slot = iterStart ∨ iter.slot = iterFinish then some none
  else
    match iter.entry with
    | none => some none
    | some entry => do
        let slot := iter.slot.toNat
        let head ← hs.slotAt slot
        if head = some entry then
          let node ← hs.entries entry
          let hs ← (hs.setSlot slot node.next).freeEntry entry
          let hs := { hs with numData := hs.numData - 1 }
          some (some (hs, ⟨iter.slot - 1, none⟩))
        else
          let prevEntry ← entryBefore hs entry hs.numData head
          let node ← hs.entries entry
          let hs ← hs.setNext prevEntry node.next
          let hs ← hs.freeEntry entry
          let hs := { hs with numData := hs.numData - 1 }
          some (some (hs, ⟨iter.slot, some prevEntry⟩))

end NtShm
