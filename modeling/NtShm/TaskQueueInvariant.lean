import NtShm.TaskQueue
import Mathlib.Data.List.Basic
import Mathlib.Algebra.BigOperators.Group.Finset.Piecewise
import Mathlib.Algebra.Order.BigOperators.Group.Finset
import Mathlib.Data.Fintype.Card

/-!
# The task queue is a bounded queue

The invariant has two parts.  One counts: the three semaphores and the numbers
of parties at each program point satisfy three linear equations.  The other is
about the ring: from `head` on, its nodes hold the contents of an abstract
bounded queue.  The counts say that a party about to copy in finds room, and
that a party about to copy out finds a task.
-/

namespace NtShm

/-! ## Bounded first-in first-out queues

The histories of a queue that holds at most `capacity` values, as lists of
events, each with the values that are in the queue after it. -/

/-- One push or one pop, with the value that went in or came out. -/
inductive FifoEvent (α : Type*)
  | pushed (value : α)
  | popped (value : α)

namespace FifoEvent

variable {α : Type*}

def pushedValue : FifoEvent α → Option α
  | .pushed value => some value
  | .popped _ => none

def poppedValue : FifoEvent α → Option α
  | .pushed _ => none
  | .popped value => some value

end FifoEvent

/-- A history of a bounded queue, and what is in the queue at its end. -/
inductive FifoRun {α : Type*} (capacity : Nat) : List (FifoEvent α) → List α → Prop
  | start : FifoRun capacity [] []
  | push {events : List (FifoEvent α)} {contents : List α} {value : α} :
      FifoRun capacity events contents → contents.length < capacity →
      FifoRun capacity (events ++ [.pushed value]) (contents ++ [value])
  | pop {events : List (FifoEvent α)} {contents : List α} {value : α} :
      FifoRun capacity events (value :: contents) →
      FifoRun capacity (events ++ [.popped value]) contents

namespace FifoRun

variable {α : Type*} {capacity : Nat} {events : List (FifoEvent α)}
  {contents : List α}

/-- Nothing is lost, duplicated or reordered. -/
theorem pushed_eq (run : FifoRun capacity events contents) :
    events.filterMap FifoEvent.pushedValue =
      events.filterMap FifoEvent.poppedValue ++ contents := by
  induction run with
  | start => rfl
  | push run room ih => simp [FifoEvent.pushedValue, FifoEvent.poppedValue, ih]
  | pop run ih => simp [FifoEvent.pushedValue, FifoEvent.poppedValue, ih]

theorem length_le (run : FifoRun capacity events contents) :
    contents.length ≤ capacity := by
  induction run with
  | start => exact Nat.zero_le _
  | push run room ih =>
      rw [List.length_append, List.length_singleton]
      omega
  | pop run ih =>
      rw [List.length_cons] at ih
      omega

theorem popped_prefix (run : FifoRun capacity events contents) :
    events.filterMap FifoEvent.poppedValue <+:
      events.filterMap FifoEvent.pushedValue :=
  ⟨contents, run.pushed_eq.symm⟩

end FifoRun

/-! ## Counting parties by program point

A system of any number of parties, each at one of a few program points, is
often described well enough by how many parties are at points of some kind.
When one party moves, every such count changes by what the party itself adds. -/

section Tallies

variable {Party Point : Type*} [Fintype Party]

def tally (points : Party → Point) (marked : Point → Bool) : Nat :=
  (Finset.univ.filter fun party => marked (points party) = true).card

theorem tally_eq_sum (points : Party → Point) (marked : Point → Bool) :
    tally points marked = ∑ party, (marked (points party)).toNat := by
  rw [tally, Finset.card_filter]
  apply Finset.sum_congr rfl
  intro party _
  cases marked (points party) <;> rfl

theorem tally_eq_zero {points : Party → Point} {marked : Point → Bool}
    (unmarked : ∀ party, marked (points party) = false) :
    tally points marked = 0 := by
  simp [tally, unmarked]

theorem tally_pos (points : Party → Point) {marked : Point → Bool}
    {party : Party} (here : marked (points party) = true) :
    0 < tally points marked := by
  apply Finset.card_pos.mpr
  exact ⟨party, by simp [here]⟩

/-- What one party adds to a count, before and after it moves. -/
theorem tally_move [DecidableEq Party] (points : Party → Point) {party : Party}
    {source : Point} (here : points party = source) (target : Point)
    (marked : Point → Bool) :
    tally (Function.update points party target) marked + (marked source).toNat =
      tally points marked + (marked target).toNat := by
  rw [tally_eq_sum, tally_eq_sum,
    ← Finset.add_sum_erase _ _ (Finset.mem_univ party),
    ← Finset.add_sum_erase _ _ (Finset.mem_univ party)]
  have others : ∑ other ∈ Finset.univ.erase party,
        (marked (Function.update points party target other)).toNat =
      ∑ other ∈ Finset.univ.erase party, (marked (points other)).toNat := by
    apply Finset.sum_congr rfl
    intro other isOther
    rw [Function.update_of_ne (Finset.ne_of_mem_erase isOther)]
  rw [others, Function.update_self, here]
  omega

theorem tally_add_le (points : Party → Point) {first second whole : Point → Bool}
    (bound : ∀ point, (first point).toNat + (second point).toNat ≤
      (whole point).toNat) :
    tally points first + tally points second ≤ tally points whole := by
  rw [tally_eq_sum, tally_eq_sum, tally_eq_sum, ← Finset.sum_add_distrib]
  apply Finset.sum_le_sum
  intro party _
  exact bound (points party)

theorem tally_le (points : Party → Point) {part whole : Point → Bool}
    (bound : ∀ point, (part point).toNat ≤ (whole point).toNat) :
    tally points part ≤ tally points whole := by
  rw [tally_eq_sum, tally_eq_sum]
  apply Finset.sum_le_sum
  intro party _
  exact bound (points party)

end Tallies

/-! ## Events -/

def QueueEvent.toFifo : QueueEvent → FifoEvent TaskT
  | .pushed _ task => .pushed task
  | .popped _ task => .popped task

def pushedTasks (trace : List QueueEvent) : List TaskT :=
  (trace.map QueueEvent.toFifo).filterMap FifoEvent.pushedValue

def poppedTasks (trace : List QueueEvent) : List TaskT :=
  (trace.map QueueEvent.toFifo).filterMap FifoEvent.poppedValue

/-- Which nodes hold a task that was written and not popped since. -/
def unread (trace : List QueueEvent) : Nat → Bool :=
  trace.foldl
    (fun state event =>
      match event with
      | .pushed node _ => Function.update state node true
      | .popped node _ => Function.update state node false)
    fun _ => false

@[simp] theorem unread_pushed (trace : List QueueEvent) (node : Nat)
    (task : TaskT) :
    unread (trace ++ [.pushed node task]) =
      Function.update (unread trace) node true := by
  simp [unread]

@[simp] theorem unread_popped (trace : List QueueEvent) (node : Nat)
    (task : TaskT) :
    unread (trace ++ [.popped node task]) =
      Function.update (unread trace) node false := by
  simp [unread]

/-- A push writes no unread node, and a pop reads an unread one. -/
def QueueEvent.Respects (trace : List QueueEvent) : QueueEvent → Prop
  | .pushed node _ => unread trace node = false
  | .popped node _ => unread trace node = true

/-! ## The ring -/

/-- The ring holds `contents`, where `first` and `last` are the positions of
`head` and `tail`, and `reading` and `writing` are how many parties have copied
but not yet advanced them. -/
structure RingView (maxLength base : Nat) (queue : CycleT)
    (trace : List QueueEvent) (contents : List TaskT)
    (first last reading writing : Nat) : Prop where
  fifo : FifoRun maxLength (trace.map QueueEvent.toFifo) contents
  size : queue.nodes.length = maxLength
  linked : ∀ index node, queue.nodes[index]? = some node →
    node.next = nodeAddress base ((index + 1) % maxLength)
  head : queue.head = nodeAddress base (first % maxLength)
  tail : queue.tail = nodeAddress base (last % maxLength)
  distance : first + reading + contents.length = last + writing
  stored : ∀ offset (inRange : offset < contents.length),
    (queue.nodes[(first + reading + offset) % maxLength]?).map NodeT.task =
      some contents[offset]
  unread_iff : ∀ index, unread trace index = true ↔
    ∃ offset, offset < contents.length ∧
      (first + reading + offset) % maxLength = index

theorem mod_ne_of_lt {first second length : Nat} (before : first < second)
    (near : second < first + length) : first % length ≠ second % length := by
  intro same
  have whole : (second - first) % length = 0 :=
    Nat.sub_mod_eq_zero_of_mod_eq same.symm
  rw [Nat.mod_eq_of_lt (by omega)] at whole
  omega

namespace RingView

variable {maxLength base : Nat} {queue queue' : CycleT} {trace : List QueueEvent}
  {contents : List TaskT} {first last reading writing : Nat}

theorem congr
    (view : RingView maxLength base queue trace contents first last reading writing)
    (head : queue'.head = queue.head) (tail : queue'.tail = queue.tail)
    (nodes : queue'.nodes = queue.nodes) :
    RingView maxLength base queue' trace contents first last reading writing where
  fifo := view.fifo
  size := nodes ▸ view.size
  linked := nodes ▸ view.linked
  head := head ▸ view.head
  tail := tail ▸ view.tail
  distance := view.distance
  stored := nodes ▸ view.stored
  unread_iff := view.unread_iff

variable (positive : 0 < maxLength)
include positive

theorem nodeAt_tail
    (view : RingView maxLength base queue trace contents first last reading writing) :
    ∃ node, queue.nodes[last % maxLength]? = some node ∧
      queue.nodeAt base queue.tail = some (last % maxLength, node) := by
  have inRange : last % maxLength < queue.nodes.length := by
    rw [view.size]
    exact Nat.mod_lt _ positive
  refine ⟨queue.nodes[last % maxLength], List.getElem?_eq_getElem inRange, ?_⟩
  rw [view.tail]
  exact nodeAt_nodeAddress base inRange

theorem nodeAt_head
    (view : RingView maxLength base queue trace contents first last reading writing) :
    ∃ node, queue.nodes[first % maxLength]? = some node ∧
      queue.nodeAt base queue.head = some (first % maxLength, node) := by
  have inRange : first % maxLength < queue.nodes.length := by
    rw [view.size]
    exact Nat.mod_lt _ positive
  refine ⟨queue.nodes[first % maxLength], List.getElem?_eq_getElem inRange, ?_⟩
  rw [view.head]
  exact nodeAt_nodeAddress base inRange

/-- Copying in writes the node after the contents, which no stored task is in. -/
theorem copyIn
    (view : RingView maxLength base queue trace contents first last reading 0)
    (room : contents.length < maxLength) (task : TaskT) :
    ∃ queue', queue.copyIn base task = some (queue', last % maxLength) ∧
      queue'.mutex = queue.mutex ∧ queue'.slots = queue.slots ∧
      queue'.items = queue.items ∧
      unread trace (last % maxLength) = false ∧
      RingView maxLength base queue' (trace ++ [.pushed (last % maxLength) task])
        (contents ++ [task]) first last reading 1 := by
  obtain ⟨node, isNode, atTail⟩ := view.nodeAt_tail positive
  have distance := view.distance
  have apart : ∀ offset, offset < contents.length →
      (first + reading + offset) % maxLength ≠ last % maxLength :=
    fun offset inRange => mod_ne_of_lt (by omega) (by omega)
  have inRange : last % maxLength < queue.nodes.length := by
    rw [view.size]
    exact Nat.mod_lt _ positive
  have atLast : first + reading + contents.length = last := distance
  refine ⟨{ queue with
      nodes := queue.nodes.set (last % maxLength) { node with task := task } },
    by rw [CycleT.copyIn, atTail]; rfl, rfl, rfl, rfl, ?_, ?_⟩
  · rw [← Bool.not_eq_true, view.unread_iff]
    rintro ⟨offset, stored, here⟩
    exact apart offset stored here
  · constructor
    case fifo =>
      rw [List.map_append]
      exact view.fifo.push room
    case size => simpa using view.size
    case linked =>
      intro index other isOther
      rw [List.getElem?_set] at isOther
      split at isOther
      · next same =>
          subst same
          cases isOther
          exact view.linked _ node isNode
      · exact view.linked index other isOther
    case head => exact view.head
    case tail => exact view.tail
    case distance =>
      rw [List.length_append, List.length_singleton]
      omega
    case stored =>
      intro offset inContents
      rw [List.length_append, List.length_singleton] at inContents
      by_cases old : offset < contents.length
      · rw [List.getElem?_set_ne (apart offset old).symm,
          List.getElem_append_left old]
        exact view.stored offset old
      · have new : offset = contents.length := by omega
        subst new
        simp [atLast, inRange]
    case unread_iff =>
      intro index
      rw [unread_pushed, Function.update_apply]
      split
      · next here =>
          subst here
          simp only [true_iff]
          exact ⟨contents.length, by simp, by rw [atLast]⟩
      · next elsewhere =>
          rw [view.unread_iff]
          constructor
          · rintro ⟨offset, stored, here⟩
            exact ⟨offset, by simp; omega, here⟩
          · rintro ⟨offset, stored, here⟩
            have old : offset ≠ contents.length := by
              rintro rfl
              rw [atLast] at here
              exact elsewhere here.symm
            rw [List.length_append, List.length_singleton] at stored
            exact ⟨offset, by omega, here⟩

theorem advanceTail
    (view : RingView maxLength base queue trace contents first last reading 1) :
    ∃ queue', queue.advanceTail base = some queue' ∧
      queue'.mutex = queue.mutex ∧ queue'.slots = queue.slots ∧
      queue'.items = queue.items ∧
      RingView maxLength base queue' trace contents first (last + 1) reading 0 := by
  obtain ⟨node, isNode, atTail⟩ := view.nodeAt_tail positive
  refine ⟨{ queue with tail := node.next },
    by rw [CycleT.advanceTail, atTail]; rfl, rfl, rfl, rfl, ?_⟩
  constructor
  case tail =>
    change node.next = _
    rw [view.linked _ node isNode, Nat.mod_add_mod]
  case distance =>
    have distance := view.distance
    omega
  case fifo => exact view.fifo
  case size => exact view.size
  case linked => exact view.linked
  case head => exact view.head
  case stored => exact view.stored
  case unread_iff => exact view.unread_iff

theorem copyOut {task : TaskT}
    (view : RingView maxLength base queue trace (task :: contents) first last 0
      writing) :
    queue.copyOut base = some (task, first % maxLength) ∧
      unread trace (first % maxLength) = true ∧
      RingView maxLength base queue (trace ++ [.popped (first % maxLength) task])
        contents first last 1 writing := by
  obtain ⟨node, isNode, atHead⟩ := view.nodeAt_head positive
  have distance := view.distance
  have fits := view.fifo.length_le
  rw [List.length_cons] at distance fits
  have apart : ∀ offset, offset < contents.length →
      first % maxLength ≠ (first + 1 + offset) % maxLength :=
    fun offset inRange => mod_ne_of_lt (by omega) (by omega)
  have shift : ∀ offset, first + 1 + offset = first + 0 + (offset + 1) := by
    intro offset
    omega
  have isTask : node.task = task := by
    have stored := view.stored 0 (by simp)
    simpa [isNode] using stored
  refine ⟨by simp [CycleT.copyOut, atHead, isTask], ?_, ?_⟩
  · rw [view.unread_iff]
    exact ⟨0, by simp, rfl⟩
  · constructor
    case fifo =>
      rw [List.map_append]
      exact view.fifo.pop
    case size => exact view.size
    case linked => exact view.linked
    case head => exact view.head
    case tail => exact view.tail
    case distance => omega
    case stored =>
      intro offset inRange
      rw [shift]
      exact view.stored (offset + 1) (by simpa using inRange)
    case unread_iff =>
      intro index
      rw [unread_popped, Function.update_apply]
      split
      · next here =>
          subst here
          simp only [Bool.false_eq_true, false_iff]
          rintro ⟨offset, inRange, here⟩
          exact apart offset inRange here.symm
      · next elsewhere =>
          rw [view.unread_iff]
          constructor
          · rintro ⟨offset, inRange, here⟩
            cases offset with
            | zero => exact absurd here.symm elsewhere
            | succ offset =>
                exact ⟨offset, by simpa using inRange, by rw [shift, here]⟩
          · rintro ⟨offset, inRange, here⟩
            exact ⟨offset + 1, by simpa using inRange, by rw [← shift, here]⟩

theorem advanceHead
    (view : RingView maxLength base queue trace contents first last 1 writing) :
    ∃ queue', queue.advanceHead base = some queue' ∧
      queue'.mutex = queue.mutex ∧ queue'.slots = queue.slots ∧
      queue'.items = queue.items ∧
      RingView maxLength base queue' trace contents (first + 1) last 0 writing := by
  obtain ⟨node, isNode, atHead⟩ := view.nodeAt_head positive
  refine ⟨{ queue with head := node.next },
    by rw [CycleT.advanceHead, atHead]; rfl, rfl, rfl, rfl, ?_⟩
  constructor
  case head =>
    change node.next = _
    rw [view.linked _ node isNode, Nat.mod_add_mod]
  case distance =>
    have distance := view.distance
    omega
  case fifo => exact view.fifo
  case size => exact view.size
  case linked => exact view.linked
  case tail => exact view.tail
  case stored => exact view.stored
  case unread_iff => exact view.unread_iff

end RingView

end NtShm
