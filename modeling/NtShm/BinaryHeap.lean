import NtShm.Hashmap

/-!
# The binary heap

`nt_binary_heap_t` is an array of elements in heap order.  With the direct
option it also keeps a hashmap from keys to positions.  Its allocation functions
do not return NULL.
-/

namespace NtShm

/-- `nt_binary_heap_elem_t`; `data` is an address. -/
structure NtBinaryHeapElem where
  key : UInt64
  data : Nat
  deriving DecidableEq

/-- `nt_binary_heap_t`; `elems` and `key_index` may be NULL. -/
structure NtBinaryHeap where
  elems : Option (Block NtBinaryHeapElem)
  elemsNum : Nat
  elemsAlloc : Nat
  options : Nat
  compareFunc : NtBinaryHeapElem → NtBinaryHeapElem → Int
  keyIndex : Option NtHashmap

/-- How an operation ends when it does not return: the exits, and an access
outside an array or through NULL. -/
inductive HeapStop
  | minimumOfEmpty
  | duplicateKey
  | updateUnsupported
  | updateNotFound (key : UInt64)
  | removeOfEmpty
  | removeUnsupported
  | removeNotFound (key : UInt64)
  | fault
  deriving DecidableEq

/-- What is logged before an exit. -/
def HeapStop.message : HeapStop → String
  | .minimumOfEmpty => "asking for a minimum in an empty heap"
  | .duplicateKey => "inserting a duplicate key into a heap with direct option"
  | .updateUnsupported => "direct update operation is not supported for this heap"
  | .updateNotFound key =>
      "element with key " ++ toString key ++ " not found in heap for update"
  | .removeOfEmpty => "removing a minimum from an empty heap"
  | .removeUnsupported => "direct remove operation is not supported for this heap"
  | .removeNotFound key =>
      "element with key " ++ toString key ++ " not found in heap for remove"
  | .fault => ""

def orFault {α : Type*} : Option α → Except HeapStop α
  | some value => .ok value
  | none => .error .fault

@[simp] theorem orFault_some {α : Type*} (value : α) :
    orFault (some value) = .ok value := rfl

/-- `NT_BINARY_HEAP_OPTION_DIRECT`. -/
def ntBinaryHeapOptionDirect : Nat := 1

/-- What `FAIL` is when compared with an unsigned 64-bit number. -/
def failAsUInt64 : UInt64 := 0xFFFFFFFFFFFFFFFF

namespace NtBinaryHeap

/-- `HAS_DIRECT_OPTION`. -/
def hasDirectOption (heap : NtBinaryHeap) : Bool :=
  heap.options &&& ntBinaryHeapOptionDirect ≠ 0

/-- `elems[index]`. -/
def read (heap : NtBinaryHeap) (index : Nat) : Except HeapStop NtBinaryHeapElem :=
  orFault (heap.elems.bind fun block => block.read index)

/-- `elems[index] = elem`. -/
def write (heap : NtBinaryHeap) (index : Nat) (elem : NtBinaryHeapElem) :
    Except HeapStop NtBinaryHeap := do
  let block ← orFault (heap.elems.bind fun block => block.write index elem)
  pure { heap with elems := some block }

/-- `nt_hashmap_set` on `key_index`. -/
def setIndex (heap : NtBinaryHeap) (key : UInt64) (index : Nat) :
    Except HeapStop NtBinaryHeap := do
  let keyIndex ← orFault (heap.keyIndex.bind fun hm =>
    ntHashmapSet hm key (UInt64.ofNat index))
  pure { heap with keyIndex := some keyIndex }

/-- `nt_hashmap_get` on `key_index`. -/
def getIndex (heap : NtBinaryHeap) (key : UInt64) : Except HeapStop UInt64 :=
  orFault (heap.keyIndex.bind fun hm => ntHashmapGet hm key)

/-- `nt_hashmap_remove` on `key_index`. -/
def removeIndex (heap : NtBinaryHeap) (key : UInt64) :
    Except HeapStop NtBinaryHeap := do
  let keyIndex ← orFault (heap.keyIndex.bind fun hm => ntHashmapRemove hm key)
  pure { heap with keyIndex := some keyIndex }

/-- `swap`. -/
def swap (heap : NtBinaryHeap) (index1 index2 : Nat) :
    Except HeapStop NtBinaryHeap := do
  let tmp ← heap.read index1
  let elem ← heap.read index2
  let heap ← heap.write index1 elem
  let heap ← heap.write index2 tmp
  if heap.hasDirectOption then
    let elem1 ← heap.read index1
    let heap ← heap.setIndex elem1.key index1
    let elem2 ← heap.read index2
    heap.setIndex elem2.key index2
  else pure heap

/-- `__binary_heap_ensure_free_space`. -/
def ensureFreeSpace (heap : NtBinaryHeap) : NtBinaryHeap :=
  let (elemsNum, tmpElemsAlloc) :=
    if heap.elems.isNone then (0, 32)
    else if heap.elemsNum = heap.elemsAlloc then
      (heap.elemsNum, max (heap.elemsAlloc + 1) (heap.elemsAlloc * 3 / 2))
    else (heap.elemsNum, heap.elemsAlloc)
  if elemsNum ≠ tmpElemsAlloc then
    { heap with
      elems := some ((heap.elems.getD []).grow tmpElemsAlloc)
      elemsNum := elemsNum
      elemsAlloc := tmpElemsAlloc }
  else { heap with elemsNum := elemsNum }

/-- The loop of `__binary_heap_bubble_up`, for at most `fuel` swaps. -/
def bubbleUpLoop : Nat → NtBinaryHeap → Nat → Except HeapStop (NtBinaryHeap × Nat)
  | 0, heap, index => if index ≠ 0 then .error .fault else .ok (heap, index)
  | fuel + 1, heap, index =>
      if index ≠ 0 then do
        let parent ← heap.read ((index - 1) / 2)
        let elem ← heap.read index
        if heap.compareFunc parent elem ≤ 0 then pure (heap, index)
        else
          let heap ← heap.swap ((index - 1) / 2) index
          bubbleUpLoop fuel heap ((index - 1) / 2)
      else .ok (heap, index)

/-- `__binary_heap_bubble_up`: the heap, and where the element is now. -/
def bubbleUp (heap : NtBinaryHeap) (index : Nat) :
    Except HeapStop (NtBinaryHeap × Nat) :=
  bubbleUpLoop index heap index

/-- The loop of `__binary_heap_bubble_down`, for at most `fuel` rounds. -/
def bubbleDownLoop : Nat → NtBinaryHeap → Nat → Except HeapStop (NtBinaryHeap × Nat)
  | 0, _, _ => .error .fault
  | fuel + 1, heap, index =>
      let left := 2 * index + 1
      let right := 2 * index + 2
      if left ≥ heap.elemsNum then pure (heap, index)
      else if right ≥ heap.elemsNum then do
        let elem ← heap.read index
        let leftElem ← heap.read left
        if heap.compareFunc elem leftElem > 0 then
          let heap ← heap.swap index left
          pure (heap, left)
        else pure (heap, index)
      else do
        let elem ← heap.read index
        let leftElem ← heap.read left
        let rightElem ← heap.read right
        if heap.compareFunc leftElem rightElem ≤ 0 then
          if heap.compareFunc elem leftElem > 0 then
            let heap ← heap.swap index left
            bubbleDownLoop fuel heap left
          else pure (heap, index)
        else
          if heap.compareFunc elem rightElem > 0 then
            let heap ← heap.swap index right
            bubbleDownLoop fuel heap right
          else pure (heap, index)

/-- `__binary_heap_bubble_down`: the heap, and where the element is now. -/
def bubbleDown (heap : NtBinaryHeap) (index : Nat) :
    Except HeapStop (NtBinaryHeap × Nat) :=
  bubbleDownLoop (heap.elemsNum + 1) heap index

end NtBinaryHeap

/-! ## The public interface -/

/-- `nt_binary_heap_create_ext`. -/
def ntBinaryHeapCreateExt
    (compareFunc : NtBinaryHeapElem → NtBinaryHeapElem → Int) (options : Nat)
    (ntDefaultUint64HashFunc : UInt64 → UInt32) : Except HeapStop NtBinaryHeap :=
  if options &&& ntBinaryHeapOptionDirect ≠ 0 then do
    let keyIndex ← orFault (ntHashmapCreateExt 512 ntDefaultUint64HashFunc
      ntDefaultUint64CompareFunc [])
    pure ⟨none, 0, 0, options, compareFunc, some keyIndex⟩
  else pure ⟨none, 0, 0, options, compareFunc, none⟩

/-- `nt_binary_heap_find_min`: the element it points to. -/
def ntBinaryHeapFindMin (heap : NtBinaryHeap) : Except HeapStop NtBinaryHeapElem :=
  if heap.elemsNum = 0 then .error .minimumOfEmpty else heap.read 0

/-- `nt_binary_heap_insert`. -/
def ntBinaryHeapInsert (heap : NtBinaryHeap) (elem : NtBinaryHeapElem) :
    Except HeapStop NtBinaryHeap := do
  if heap.hasDirectOption then
    let known ← heap.getIndex elem.key
    if failAsUInt64 ≠ known then throw .duplicateKey
  let heap := heap.ensureFreeSpace
  let index := heap.elemsNum
  let heap := { heap with elemsNum := heap.elemsNum + 1 }
  let heap ← heap.write index elem
  let (heap, index) ← heap.bubbleUp index
  if heap.hasDirectOption ∧ index = heap.elemsNum - 1 then
    heap.setIndex elem.key index
  else pure heap

/-- An `int` that a hashmap's value was assigned to. -/
def indexOfValue (value : UInt64) : Int := asInt (value.toNat % 2 ^ 32)

/-- An `int` used as an index. -/
def natIndex (index : Int) : Except HeapStop Nat :=
  if 0 ≤ index then .ok index.toNat else .error .fault

/-- `nt_binary_heap_update_direct`. -/
def ntBinaryHeapUpdateDirect (heap : NtBinaryHeap) (elem : NtBinaryHeapElem) :
    Except HeapStop NtBinaryHeap := do
  if !heap.hasDirectOption then throw .updateUnsupported
  let known ← heap.getIndex elem.key
  if fail ≠ indexOfValue known then
    let index ← natIndex (indexOfValue known)
    let heap ← heap.write index elem
    let (heap, up) ← heap.bubbleUp index
    if index = up then
      let (heap, _) ← heap.bubbleDown index
      pure heap
    else pure heap
  else throw (.updateNotFound elem.key)

/-- `nt_binary_heap_remove_min`. -/
def ntBinaryHeapRemoveMin (heap : NtBinaryHeap) : Except HeapStop NtBinaryHeap := do
  if heap.elemsNum = 0 then throw .removeOfEmpty
  let heap ←
    if heap.hasDirectOption then do
      let root ← heap.read 0
      heap.removeIndex root.key
    else pure heap
  let heap := { heap with elemsNum := heap.elemsNum - 1 }
  if heap.elemsNum ≠ 0 then
    let last ← heap.read heap.elemsNum
    let heap ← heap.write 0 last
    let (heap, index) ← heap.bubbleDown 0
    if heap.hasDirectOption ∧ index = 0 then
      let root ← heap.read index
      heap.setIndex root.key index
    else pure heap
  else pure heap

/-- `nt_binary_heap_remove_direct`. -/
def ntBinaryHeapRemoveDirect (heap : NtBinaryHeap) (key : UInt64) :
    Except HeapStop NtBinaryHeap := do
  if !heap.hasDirectOption then throw .removeUnsupported
  let known ← heap.getIndex key
  if fail ≠ indexOfValue known then
    let heap ← heap.removeIndex key
    -- an empty heap would have -1 elements next, and `elems[-1]` would be read
    if heap.elemsNum = 0 then throw .fault
    let heap := { heap with elemsNum := heap.elemsNum - 1 }
    if indexOfValue known ≠ heap.elemsNum then
      let index ← natIndex (indexOfValue known)
      let last ← heap.read heap.elemsNum
      let heap ← heap.write index last
      let (heap, up) ← heap.bubbleUp index
      if index = up then
        let (heap, down) ← heap.bubbleDown index
        if index = down then
          let moved ← heap.read index
          heap.setIndex moved.key index
        else pure heap
      else pure heap
    else pure heap
  else throw (.removeNotFound key)

/-- `nt_binary_heap_clear`. -/
def ntBinaryHeapClear (heap : NtBinaryHeap) : Except HeapStop NtBinaryHeap := do
  let heap :=
    if heap.elems.isSome then
      { heap with elems := none, elemsNum := 0, elemsAlloc := 0 }
    else heap
  if heap.hasDirectOption then
    let keyIndex ← orFault (heap.keyIndex.bind ntHashmapClear)
    pure { heap with keyIndex := some keyIndex }
  else pure heap

end NtShm
