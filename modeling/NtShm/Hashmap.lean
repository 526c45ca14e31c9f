import NtShm.Blocks
import NtShm.ByteMemory
import NtShm.Primes

/-!
# The hashmap of 64-bit keys

`nt_hashmap_t` is an array of slots, each with an array of entries.  An
operation has no result when it would follow a NULL array, leave an array or
read an entry that was not written.
-/

namespace NtShm

/-- `NT_HASHMAP_ENTRY_T`. -/
structure NtHashmapEntry where
  key : UInt64
  value : UInt64
  deriving DecidableEq

/-- `NT_HASHMAP_SLOT_T`; `entries` may be NULL. -/
structure NtHashmapSlot where
  entries : Option (Block NtHashmapEntry)
  entriesNum : Nat
  entriesAlloc : Nat
  deriving DecidableEq

/-- `nt_hashmap_t`.  `failures` says which of the coming calls of
`mem_malloc_func` and `mem_realloc_func` return NULL; later ones do not. -/
structure NtHashmap where
  slots : Option (List NtHashmapSlot)
  numSlots : Nat
  numData : Nat
  hashFunc : UInt64 → UInt32
  compareFunc : UInt64 → UInt64 → Int
  failures : List Bool

/-- `nt_default_uint64_compare_func`. -/
def ntDefaultUint64CompareFunc (d1 d2 : UInt64) : Int :=
  if d1 < d2 then -1 else if d1 > d2 then 1 else 0

/-- `NT_HASHMAP_DEFAULT_SLOTS`. -/
def ntHashmapDefaultSlots : Nat := 10

/-- A slot cleared by `memset`. -/
def NtHashmapSlot.zeroed : NtHashmapSlot := ⟨none, 0, 0⟩

/-- The result of an allocation: NULL if it fails. -/
def allocated {α : Type*} (failures : List Bool) (block : α) : Option α :=
  if failures.headD false then none else some block

namespace NtHashmapSlot

/-- `entries[index]`. -/
def read (slot : NtHashmapSlot) (index : Nat) : Option NtHashmapEntry :=
  slot.entries.bind fun block => block.read index

/-- `entries[index] = entry`. -/
def write (slot : NtHashmapSlot) (index : Nat) (entry : NtHashmapEntry) :
    Option NtHashmapSlot :=
  slot.entries.bind fun block =>
    (block.write index entry).map fun block => { slot with entries := some block }

/-- `__hashmap_ensure_free_entry`. -/
def ensureFreeEntry (slot : NtHashmapSlot) (failures : List Bool) :
    NtHashmapSlot × List Bool :=
  match slot.entries with
  | none => (⟨allocated failures (Block.allocate 6), 0, 6⟩, failures.tail)
  | some block =>
      if slot.entriesNum = slot.entriesAlloc then
        let alloc := slot.entriesAlloc * 2
        (⟨allocated failures (block.grow alloc), slot.entriesNum, alloc⟩,
          failures.tail)
      else (slot, failures)

/-- `entries[entries_num] = entry; entries_num++`. -/
def push (slot : NtHashmapSlot) (entry : NtHashmapEntry) : Option NtHashmapSlot :=
  (slot.write slot.entriesNum entry).map fun slot =>
    { slot with entriesNum := slot.entriesNum + 1 }

/-- `entries[index] = entries[entries_num - 1]; entries_num--`. -/
def dropAt (slot : NtHashmapSlot) (index : Nat) : Option NtHashmapSlot := do
  let last ← slot.read (slot.entriesNum - 1)
  let slot ← slot.write index last
  some { slot with entriesNum := slot.entriesNum - 1 }

/-- The loop that looks for a key: the index at which it stops, with `left`
entries to go. -/
def findFrom (slot : NtHashmapSlot) (compareFunc : UInt64 → UInt64 → Int)
    (key : UInt64) : Nat → Nat → Option Nat
  | 0, index => some index
  | left + 1, index => do
      let entry ← slot.read index
      if compareFunc entry.key key = 0 then some index
      else slot.findFrom compareFunc key left (index + 1)

def find (slot : NtHashmapSlot) (compareFunc : UInt64 → UInt64 → Int)
    (key : UInt64) : Option Nat :=
  slot.findFrom compareFunc key slot.entriesNum 0

end NtHashmapSlot

namespace NtHashmap

/-- `nt_hashmap_init_slots`.  `next_prime` takes an `int`. -/
def initSlots (hm : NtHashmap) (initSize : Nat) : Option NtHashmap :=
  if 0 < initSize then do
    let numSlots ← nextPrime (asInt (initSize % 2 ^ 32))
    let slots ← allocated hm.failures (List.replicate numSlots .zeroed)
    some { hm with
      numData := 0
      numSlots := numSlots
      slots := some slots
      failures := hm.failures.tail }
  else some { hm with numData := 0, numSlots := 0, slots := none }

/-- `hash % num_slots`. -/
def slotIndex (hm : NtHashmap) (key : UInt64) : Nat :=
  (hm.hashFunc key).toNat % hm.numSlots

/-- `slots[index]`. -/
def slotAt (hm : NtHashmap) (index : Nat) : Option NtHashmapSlot :=
  hm.slots.bind fun slots => slots[index]?

def setSlot (hm : NtHashmap) (index : Nat) (slot : NtHashmapSlot) : NtHashmap :=
  { hm with slots := hm.slots.map fun slots => slots.set index slot }

end NtHashmap

/-- The inner loop of the redistribution, at entry `index` of slot `s`. -/
def redistributeSlot (hashFunc : UInt64 → UInt32) (incSlots s : Nat) :
    Nat → Nat → List NtHashmapSlot → List Bool →
      Option (List NtHashmapSlot × List Bool)
  | 0, index, slots, failures => do
      let slot ← slots[s]?
      if index < slot.entriesNum then none else some (slots, failures)
  | left + 1, index, slots, failures => do
      let slot ← slots[s]?
      if index < slot.entriesNum then
        let entry ← slot.read index
        let newIndex := (hashFunc entry.key).toNat % incSlots
        if s ≠ newIndex then
          let newSlot ← slots[newIndex]?
          let (newSlot, failures) := newSlot.ensureFreeEntry failures
          let newSlot ← newSlot.push entry
          -- the hole is filled with the last entry, which is looked at next
          let slot ← slot.dropAt index
          redistributeSlot hashFunc incSlots s left index
            ((slots.set newIndex newSlot).set s slot) failures
        else redistributeSlot hashFunc incSlots s left (index + 1) slots failures
      else some (slots, failures)

/-- The outer loop of the redistribution, with `left` slots to go. -/
def redistribute (hashFunc : UInt64 → UInt32) (incSlots : Nat) :
    Nat → Nat → List NtHashmapSlot → List Bool →
      Option (List NtHashmapSlot × List Bool)
  | 0, _, slots, failures => some (slots, failures)
  | left + 1, s, slots, failures => do
      let slot ← slots[s]?
      let (slots, failures) ←
        redistributeSlot hashFunc incSlots s slot.entriesNum 0 slots failures
      redistribute hashFunc incSlots left (s + 1) slots failures

namespace NtHashmap

/-- The growth at the end of `nt_hashmap_set`. -/
def growSlots (hm : NtHashmap) : Option NtHashmap := do
  let incSlots ← nextPrime (hm.numSlots * 3 / 2 : Nat)
  let slots ← hm.slots
  -- `memset` writes the new slots, also where the array is NULL
  let slots ← allocated hm.failures
    (slots ++ List.replicate (incSlots - hm.numSlots) .zeroed)
  let (slots, failures) ← redistribute hm.hashFunc incSlots hm.numSlots 0 slots
    hm.failures.tail
  some { hm with slots := some slots, numSlots := incSlots, failures := failures }

end NtHashmap

/-- `nt_hashmap_create_ext`. -/
def ntHashmapCreateExt (initSize : Nat) (hashFunc : UInt64 → UInt32)
    (compareFunc : UInt64 → UInt64 → Int) (failures : List Bool) :
    Option NtHashmap :=
  NtHashmap.initSlots ⟨none, 0, 0, hashFunc, compareFunc, failures⟩ initSize

/-- `nt_hashmap_get`. -/
def ntHashmapGet (hm : NtHashmap) (key : UInt64) : Option UInt64 :=
  if hm.numSlots = 0 then some 0
  else do
    let slot ← hm.slotAt (hm.slotIndex key)
    let i ← slot.find hm.compareFunc key
    if i < slot.entriesNum then
      let entry ← slot.read i
      some entry.value
    else some 0

/-- `nt_hashmap_set`. -/
def ntHashmapSet (hm : NtHashmap) (key value : UInt64) : Option NtHashmap := do
  let hm ← if hm.numSlots = 0 then hm.initSlots ntHashmapDefaultSlots else some hm
  let slot ← hm.slotAt (hm.slotIndex key)
  let i ← slot.find hm.compareFunc key
  if i = slot.entriesNum then
    let (slot, failures) := slot.ensureFreeEntry hm.failures
    let slot ← slot.push ⟨key, value⟩
    let hm := { hm.setSlot (hm.slotIndex key) slot with
      failures := failures
      numData := hm.numData + 1 }
    if hm.numData ≥ hm.numSlots * 5 / 1 then hm.growSlots else some hm
  else
    let entry ← slot.read i
    let slot ← slot.write i { entry with value := value }
    some (hm.setSlot (hm.slotIndex key) slot)

/-- `nt_hashmap_remove`. -/
def ntHashmapRemove (hm : NtHashmap) (key : UInt64) : Option NtHashmap :=
  if hm.numSlots = 0 then some hm
  else do
    let slot ← hm.slotAt (hm.slotIndex key)
    let i ← slot.find hm.compareFunc key
    if i < slot.entriesNum then
      let slot ← slot.dropAt i
      some { hm.setSlot (hm.slotIndex key) slot with numData := hm.numData - 1 }
    else some hm

/-- `nt_hashmap_clear`, which frees every array of entries. -/
def ntHashmapClear (hm : NtHashmap) : Option NtHashmap :=
  if hm.numSlots = 0 then some { hm with numData := 0 }
  else do
    let slots ← hm.slots
    some { hm with
      slots := some (slots.map fun slot =>
        if slot.entries.isSome then .zeroed else slot)
      numData := 0 }

end NtShm
