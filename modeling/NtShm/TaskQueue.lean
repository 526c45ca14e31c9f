import Mathlib.Logic.Function.Basic

/-!
# The shared task queue

`cycle_t` lies in a segment that every party has mapped.  Its `head`, `tail`
and `next` fields hold absolute addresses, which a party follows in its own
mapping.  The calls of `task_queue_push` and `task_queue_pop` are cut into
atomic steps, and any number of parties take these steps in any order.
-/

namespace NtShm

/-- `task_t`; `data` is an address. -/
structure TaskT where
  clientFd : Int
  data : Nat
  dataLen : Int
  deriving DecidableEq

/-- `node_t`. -/
structure NodeT where
  task : TaskT
  next : Nat
  deriving DecidableEq

/-- `cycle_t`, with the values of the semaphores. -/
structure CycleT where
  head : Nat
  tail : Nat
  maxLength : Nat
  mutex : Nat
  slots : Nat
  items : Nat
  nodes : List NodeT
  deriving DecidableEq

/-- `sizeof(cycle_t)`. -/
def cycleSize : Nat := 120

/-- `sizeof(node_t)`. -/
def nodeSize : Nat := 32

/-- `&queue->nodes[index]`, where the segment is mapped at `queue`. -/
def nodeAddress (queue index : Nat) : Nat := queue + cycleSize + nodeSize * index

/-- The node at an address and its index, in the segment mapped at `base`. -/
def CycleT.nodeAt (queue : CycleT) (base address : Nat) : Option (Nat × NodeT) :=
  let offset := address - (base + cycleSize)
  if base + cycleSize ≤ address ∧ offset % nodeSize = 0 then
    queue.nodes[offset / nodeSize]?.map fun node => (offset / nodeSize, node)
  else none

theorem nodeAt_nodeAddress {queue : CycleT} {index : Nat} (base : Nat)
    (inRange : index < queue.nodes.length) :
    queue.nodeAt base (nodeAddress base index) =
      some (index, queue.nodes[index]) := by
  have offset : nodeAddress base index - (base + cycleSize) = 32 * index := by
    unfold nodeAddress nodeSize
    omega
  have above : base + cycleSize ≤ nodeAddress base index := by
    unfold nodeAddress
    omega
  have whole : 32 * index / 32 = index := by omega
  simp [CycleT.nodeAt, offset, above, nodeSize, whole, inRange]

/-- `task_queue_create` in the mapping at `queue`, where the nodes hold what
was in the shared memory object before. -/
def taskQueueCreate (queue maxLength : Nat) (stale : Nat → TaskT) : CycleT where
  head := nodeAddress queue 0
  tail := nodeAddress queue 0
  maxLength := maxLength
  mutex := 1
  slots := maxLength
  items := 0
  nodes := (List.range maxLength).map fun index =>
    { task := stale index
      next := nodeAddress queue ((index + 1) % maxLength) }

/-- `sem_wait`, when it does not block. -/
def semWait (value : Nat) : Option Nat := if 0 < value then some (value - 1) else none

theorem semWait_eq_some {value left : Nat} (waited : semWait value = some left) :
    value = left + 1 := by
  unfold semWait at waited
  split at waited
  · cases waited
    omega
  · cases waited

/-! ## The accesses between the waits and the posts -/

/-- `queue->tail->task = *task`, and the index of the node. -/
def CycleT.copyIn (queue : CycleT) (base : Nat) (task : TaskT) :
    Option (CycleT × Nat) :=
  (queue.nodeAt base queue.tail).map fun (index, node) =>
    ({ queue with nodes := queue.nodes.set index { node with task := task } },
      index)

/-- `queue->tail = queue->tail->next`. -/
def CycleT.advanceTail (queue : CycleT) (base : Nat) : Option CycleT :=
  (queue.nodeAt base queue.tail).map fun (_, node) =>
    { queue with tail := node.next }

/-- `*task = queue->head->task`, and the index of the node. -/
def CycleT.copyOut (queue : CycleT) (base : Nat) : Option (TaskT × Nat) :=
  (queue.nodeAt base queue.head).map fun (index, node) => (node.task, index)

/-- `queue->head = queue->head->next`. -/
def CycleT.advanceHead (queue : CycleT) (base : Nat) : Option CycleT :=
  (queue.nodeAt base queue.head).map fun (_, node) =>
    { queue with head := node.next }

/-! ## Parties -/

/-- Where a party is: between calls, or before one of the atomic steps of
`task_queue_push` or `task_queue_pop`, or stopped by an access outside the
segment. -/
inductive QueuePoint
  | idle
  | pushWaitSlots
  | pushWaitMutex
  | pushCopy
  | pushAdvance
  | pushPostMutex
  | pushPostItems
  | popWaitItems
  | popWaitMutex
  | popCopy
  | popAdvance
  | popPostMutex
  | popPostSlots
  | faulted
  deriving DecidableEq

namespace QueuePoint

/-- Between `sem_wait` and `sem_post` of the mutex. -/
def inside : QueuePoint → Bool
  | pushCopy | pushAdvance | pushPostMutex => true
  | popCopy | popAdvance | popPostMutex => true
  | _ => false

/-- A push that holds a slot and has not yet posted to `items`. -/
def holdsSlot : QueuePoint → Bool
  | pushWaitMutex | pushCopy | pushAdvance | pushPostMutex | pushPostItems => true
  | _ => false

/-- A pop that holds an item and has not yet posted to `slots`. -/
def holdsItem : QueuePoint → Bool
  | popWaitMutex | popCopy | popAdvance | popPostMutex | popPostSlots => true
  | _ => false

end QueuePoint

/-- What a party has of its own: its program point, and the task that `task`
points to. -/
structure QueueParty where
  point : QueuePoint
  task : TaskT
  deriving DecidableEq

structure QueueSystem (Party : Type*) where
  queue : CycleT
  parties : Party → QueueParty

inductive QueueEvent
  | pushed (node : Nat) (task : TaskT)
  | popped (node : Nat) (task : TaskT)
  deriving DecidableEq

section Steps

variable {Party : Type*} [DecidableEq Party]

/-- A party goes on to a program point; `queue` is the segment afterwards. -/
def QueueSystem.goTo (system : QueueSystem Party) (party : Party)
    (queue : CycleT) (point : QueuePoint) : QueueSystem Party :=
  { queue := queue
    parties := Function.update system.parties party
      { system.parties party with point := point } }

def QueueSystem.goWith (system : QueueSystem Party) (party : Party)
    (point : QueuePoint) (task : TaskT) : QueueSystem Party :=
  { system with
    parties := Function.update system.parties party ⟨point, task⟩ }

/-- One atomic step of one party, where `mapping` is the address at which each
party has the segment. -/
inductive QueueStep (mapping : Party → Nat) :
    QueueSystem Party → Option QueueEvent → QueueSystem Party → Prop
  | callPush {system} (party : Party) (task : TaskT) :
      (system.parties party).point = .idle →
      QueueStep mapping system none (system.goWith party .pushWaitSlots task)
  | waitSlots {system} (party : Party) {left : Nat} :
      (system.parties party).point = .pushWaitSlots →
      semWait system.queue.slots = some left →
      QueueStep mapping system none
        (system.goTo party { system.queue with slots := left } .pushWaitMutex)
  | lockPush {system} (party : Party) {left : Nat} :
      (system.parties party).point = .pushWaitMutex →
      semWait system.queue.mutex = some left →
      QueueStep mapping system none
        (system.goTo party { system.queue with mutex := left } .pushCopy)
  | copyIn {system} (party : Party) {queue : CycleT} {node : Nat} :
      (system.parties party).point = .pushCopy →
      system.queue.copyIn (mapping party) (system.parties party).task =
        some (queue, node) →
      QueueStep mapping system
        (some (.pushed node (system.parties party).task))
        (system.goTo party queue .pushAdvance)
  | advanceTail {system} (party : Party) {queue : CycleT} :
      (system.parties party).point = .pushAdvance →
      system.queue.advanceTail (mapping party) = some queue →
      QueueStep mapping system none (system.goTo party queue .pushPostMutex)
  | unlockPush {system} (party : Party) :
      (system.parties party).point = .pushPostMutex →
      QueueStep mapping system none
        (system.goTo party
          { system.queue with mutex := system.queue.mutex + 1 } .pushPostItems)
  | postItems {system} (party : Party) :
      (system.parties party).point = .pushPostItems →
      QueueStep mapping system none
        (system.goTo party
          { system.queue with items := system.queue.items + 1 } .idle)
  | callPop {system} (party : Party) :
      (system.parties party).point = .idle →
      QueueStep mapping system none
        (system.goTo party system.queue .popWaitItems)
  | waitItems {system} (party : Party) {left : Nat} :
      (system.parties party).point = .popWaitItems →
      semWait system.queue.items = some left →
      QueueStep mapping system none
        (system.goTo party { system.queue with items := left } .popWaitMutex)
  | lockPop {system} (party : Party) {left : Nat} :
      (system.parties party).point = .popWaitMutex →
      semWait system.queue.mutex = some left →
      QueueStep mapping system none
        (system.goTo party { system.queue with mutex := left } .popCopy)
  | copyOut {system} (party : Party) {task : TaskT} {node : Nat} :
      (system.parties party).point = .popCopy →
      system.queue.copyOut (mapping party) = some (task, node) →
      QueueStep mapping system (some (.popped node task))
        (system.goWith party .popAdvance task)
  | advanceHead {system} (party : Party) {queue : CycleT} :
      (system.parties party).point = .popAdvance →
      system.queue.advanceHead (mapping party) = some queue →
      QueueStep mapping system none (system.goTo party queue .popPostMutex)
  | unlockPop {system} (party : Party) :
      (system.parties party).point = .popPostMutex →
      QueueStep mapping system none
        (system.goTo party
          { system.queue with mutex := system.queue.mutex + 1 } .popPostSlots)
  | postSlots {system} (party : Party) :
      (system.parties party).point = .popPostSlots →
      QueueStep mapping system none
        (system.goTo party
          { system.queue with slots := system.queue.slots + 1 } .idle)
  -- a pointer that is not the address of a node in the party's own mapping
  | faultCopyIn {system} (party : Party) :
      (system.parties party).point = .pushCopy →
      system.queue.copyIn (mapping party) (system.parties party).task = none →
      QueueStep mapping system none (system.goTo party system.queue .faulted)
  | faultAdvanceTail {system} (party : Party) :
      (system.parties party).point = .pushAdvance →
      system.queue.advanceTail (mapping party) = none →
      QueueStep mapping system none (system.goTo party system.queue .faulted)
  | faultCopyOut {system} (party : Party) :
      (system.parties party).point = .popCopy →
      system.queue.copyOut (mapping party) = none →
      QueueStep mapping system none (system.goTo party system.queue .faulted)
  | faultAdvanceHead {system} (party : Party) :
      (system.parties party).point = .popAdvance →
      system.queue.advanceHead (mapping party) = none →
      QueueStep mapping system none (system.goTo party system.queue .faulted)

/-- Every finite run, with the accesses to the tasks in their order. -/
inductive QueueRun (mapping : Party → Nat) (initial : QueueSystem Party) :
    List QueueEvent → QueueSystem Party → Prop
  | start : QueueRun mapping initial [] initial
  | step {trace : List QueueEvent} {system system' : QueueSystem Party}
      {event : Option QueueEvent} :
      QueueRun mapping initial trace system →
      QueueStep mapping system event system' →
      QueueRun mapping initial (trace ++ event.toList) system'

end Steps

/-- The queue as `task_queue_create` leaves it, before any call. -/
def createdSystem (Party : Type*) (base maxLength : Nat) (stale : Nat → TaskT)
    (ownTask : Party → TaskT) : QueueSystem Party where
  queue := taskQueueCreate base maxLength stale
  parties := fun party => ⟨.idle, ownTask party⟩

end NtShm
