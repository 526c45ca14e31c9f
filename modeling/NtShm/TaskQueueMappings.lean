import NtShm.TaskQueueRuns

/-!
# The task queue in two mappings

One process creates the queue in a mapping of its own, and another opens it in a
mapping of its own.  `task_queue_open` writes the addresses of its own mapping
into all the `next` fields, and leaves `head` and `tail` as they are, while the
parties of the first process go on.
-/

namespace NtShm

/-- `queue->nodes[index].next = &queue->nodes[(index + 1) % max_length]`. -/
def CycleT.relink (queue : CycleT) (base maxLength index : Nat) : CycleT :=
  { queue with
    nodes := queue.nodes.modify index fun node =>
      { node with next := nodeAddress base ((index + 1) % maxLength) } }

section Mappings

variable {Party : Type*} [DecidableEq Party]

/-- The address at which a party has the segment: those of the opening process
have it at `opened`, the others at `created`. -/
def mappingOf (opens : Party → Bool) (created opened : Nat) (party : Party) : Nat :=
  if opens party then opened else created

/-- Every finite run of the queue, with the number of nodes that
`task_queue_open` has linked again.  It links them one after another, and the
parties of its process do not call before it returns. -/
inductive MappedRun (opens : Party → Bool) (created opened maxLength : Nat)
    (initial : QueueSystem Party) :
    List QueueEvent → Nat → QueueSystem Party → Prop
  | start : MappedRun opens created opened maxLength initial [] 0 initial
  | relink {trace : List QueueEvent} {linked : Nat} {system : QueueSystem Party} :
      MappedRun opens created opened maxLength initial trace linked system →
      linked < maxLength →
      MappedRun opens created opened maxLength initial trace (linked + 1)
        { system with queue := system.queue.relink opened maxLength linked }
  | step {trace : List QueueEvent} {linked : Nat}
      {system system' : QueueSystem Party} {event : Option QueueEvent} :
      MappedRun opens created opened maxLength initial trace linked system →
      QueueStep (mappingOf opens created opened) system event system' →
      (linked = maxLength ∨ ∀ party, opens party = true →
        system'.parties party = system.parties party) →
      MappedRun opens created opened maxLength initial (trace ++ event.toList) linked
        system'

/-- The pointer is to a node in the mapping at `base`, and its successor is the
next node of the ring in this mapping. -/
def CycleT.InRing (queue : CycleT) (base maxLength pointer : Nat) : Prop :=
  ∃ index node, index < maxLength ∧ pointer = nodeAddress base index ∧
    queue.nodes[index]? = some node ∧
    node.next = nodeAddress base ((index + 1) % maxLength)

/-- Which party is about to follow `tail`, and which `head`. -/
def QueuePoint.followsTail : QueuePoint → Bool
  | pushCopy | pushAdvance => true
  | _ => false

def QueuePoint.followsHead : QueuePoint → Bool
  | popCopy | popAdvance => true
  | _ => false

/-- Every pointer that a party is about to follow is one of its own mapping, and
the tasks come out in the order in which they went in. -/
structure MappedProperly (mapping : Party → Nat) (maxLength : Nat)
    (system : QueueSystem Party) (trace : List QueueEvent) : Prop where
  tail : ∀ party, (system.parties party).point.followsTail = true →
    system.queue.InRing (mapping party) maxLength system.queue.tail
  head : ∀ party, (system.parties party).point.followsHead = true →
    system.queue.InRing (mapping party) maxLength system.queue.head
  faultless : ∀ party, (system.parties party).point ≠ .faulted
  order : poppedTasks trace <+: pushedTasks trace

end Mappings

theorem mappingOf_self {Party : Type*} (opens : Party → Bool) (base : Nat) :
    mappingOf opens base base = fun _ => base := by
  ext party
  exact ite_self base

theorem nodeAddress_injective (base : Nat) : Function.Injective (nodeAddress base) := by
  intro first second same
  unfold nodeAddress nodeSize at same
  omega

section OneMapping

variable {maxLength base : Nat} {queue : CycleT} {trace : List QueueEvent}
  {contents : List TaskT} {first last reading writing : Nat}

/-- To link the nodes again in the same mapping changes nothing. -/
theorem RingView.relink
    (view : RingView maxLength base queue trace contents first last reading writing)
    (index : Nat) : queue.relink base maxLength index = queue := by
  have nodes : (queue.nodes.modify index fun node =>
      { node with next := nodeAddress base ((index + 1) % maxLength) }) =
        queue.nodes := by
    ext position node
    rw [List.getElem?_modify]
    split
    · next here =>
        subst here
        cases isNode : queue.nodes[index]? with
        | none => simp
        | some node' =>
            rw [← view.linked index node' isNode]
            simp
    · simp
  rw [CycleT.relink, nodes]

theorem RingView.inRing (positive : 0 < maxLength)
    (view : RingView maxLength base queue trace contents first last reading writing)
    {pointer position : Nat} (isPointer : pointer = nodeAddress base (position % maxLength)) :
    queue.InRing base maxLength pointer := by
  have inRange := Nat.mod_lt position positive
  have inNodes : position % maxLength < queue.nodes.length := by rwa [view.size]
  have isNode := List.getElem?_eq_getElem inNodes
  exact ⟨_, _, inRange, isPointer, isNode, view.linked _ _ isNode⟩

end OneMapping

section Runs

variable {Party : Type*} [Fintype Party] {maxLength base : Nat}
  {system : QueueSystem Party} {trace : List QueueEvent}

theorem Kept.relink (kept : Kept maxLength base system trace) (index : Nat) :
    { system with queue := system.queue.relink base maxLength index } = system := by
  obtain ⟨contents, first, last, invariant⟩ := kept
  rw [invariant.ring.relink index]

theorem Kept.mappedProperly (positive : 0 < maxLength)
    (kept : Kept maxLength base system trace) :
    MappedProperly (fun _ => base) maxLength system trace := by
  obtain ⟨contents, first, last, invariant⟩ := kept
  have ring := invariant.ring
  constructor
  case tail => exact fun _ _ => ring.inRing positive ring.tail
  case head => exact fun _ _ => ring.inRing positive ring.head
  case faultless =>
    intro party faulted
    have present : 0 < system.count (QueuePoint.isAt .faulted) :=
      count_pos faulted rfl
    rw [invariant.counted.unfaulted] at present
    exact lt_irrefl _ present
  case order => exact ring.fifo.popped_prefix

variable [DecidableEq Party]

theorem MappedRun.kept {opens : Party → Bool} (positive : 0 < maxLength) {stale : Nat → TaskT}
    {ownTask : Party → TaskT} {linked : Nat}
    (run : MappedRun opens base base maxLength
      (createdSystem Party base maxLength stale ownTask) trace linked system) :
    Kept maxLength base system trace := by
  induction run with
  | start => exact createdSystem_kept stale ownTask
  | relink _ _ ih => rwa [ih.relink]
  | step _ step _ ih =>
      rw [mappingOf_self] at step
      exact (step.keeps positive ih).1

end Runs

section Pushes

variable {Party : Type*} [DecidableEq Party] {opens : Party → Bool} {creator : Party}

theorem parties_goTo {system : QueueSystem Party} (own : opens creator = false)
    (queue : CycleT) (point : QueuePoint) :
    ∀ party, opens party = true →
      (system.goTo creator queue point).parties party = system.parties party := by
  intro party isOpener
  apply Function.update_of_ne
  rintro rfl
  rw [own] at isOpener
  cases isOpener

theorem parties_goWith {system : QueueSystem Party} (own : opens creator = false)
    (point : QueuePoint) (task : TaskT) :
    ∀ party, opens party = true →
      (system.goWith creator point task).parties party = system.parties party := by
  intro party isOpener
  apply Function.update_of_ne
  rintro rfl
  rw [own] at isOpener
  cases isOpener

/-- Once the first node is linked in the other mapping, a push of the creating
process is about to follow `tail` to it. -/
theorem mappedRun_pushes {created opened maxLength : Nat} (positive : 0 < maxLength)
    (stale : Nat → TaskT) (ownTask : Party → TaskT) (own : opens creator = false) :
    ∃ system, MappedRun opens created opened maxLength
        (createdSystem Party created maxLength stale ownTask) [] 1 system ∧
      (system.parties creator).point = .pushCopy ∧
      system.queue.tail = nodeAddress created 0 ∧
      ∀ node, system.queue.nodes[0]? = some node →
        node.next = nodeAddress opened (1 % maxLength) := by
  obtain ⟨slots, rfl⟩ := Nat.exists_eq_add_of_lt positive
  let initial := createdSystem Party created (0 + slots + 1) stale ownTask
  let system₁ : QueueSystem Party :=
    { initial with queue := initial.queue.relink opened (0 + slots + 1) 0 }
  let system₂ := system₁.goWith creator .pushWaitSlots (ownTask creator)
  let system₃ := system₂.goTo creator { system₂.queue with slots := 0 + slots }
    .pushWaitMutex
  let system₄ := system₃.goTo creator { system₃.queue with mutex := 0 } .pushCopy
  have point₂ : (system₂.parties creator).point = .pushWaitSlots := by
    simp [system₂, QueueSystem.goWith]
  have point₃ : (system₃.parties creator).point = .pushWaitMutex := by
    simp [system₃, QueueSystem.goTo]
  have run₁ : MappedRun opens created opened (0 + slots + 1) initial [] 1 system₁ :=
    MappedRun.start.relink positive
  have run₂ : MappedRun opens created opened (0 + slots + 1) initial [] 1 system₂ :=
    run₁.step (.callPush creator _ rfl) (Or.inr (parties_goWith own _ _))
  have run₃ : MappedRun opens created opened (0 + slots + 1) initial [] 1 system₃ :=
    run₂.step (.waitSlots creator point₂ rfl) (Or.inr (parties_goTo own _ _))
  have run₄ : MappedRun opens created opened (0 + slots + 1) initial [] 1 system₄ :=
    run₃.step (.lockPush creator point₃ rfl) (Or.inr (parties_goTo own _ _))
  refine ⟨system₄, run₄, by simp [system₄, QueueSystem.goTo], rfl, fun node isNode => ?_⟩
  change ((taskQueueCreate created (0 + slots + 1) stale).nodes.modify 0 _)[0]? =
    some node at isNode
  simp only [List.getElem?_modify, if_true, Option.map_eq_map,
    Option.map_eq_some_iff] at isNode
  obtain ⟨node', -, rfl⟩ := isNode
  rfl

end Pushes

/-- The queue works in two mappings, whatever the order of the steps, if and only
if they are at the same address. -/
theorem mappedRun_properly_iff {Party : Type*} [Fintype Party] [DecidableEq Party]
    {created opened maxLength : Nat} (positive : 1 ≤ maxLength) (opens : Party → Bool)
    {creator : Party} (own : opens creator = false) (stale : Nat → TaskT)
    (ownTask : Party → TaskT) :
    (∀ trace linked system, MappedRun opens created opened maxLength
        (createdSystem Party created maxLength stale ownTask) trace linked system →
      MappedProperly (mappingOf opens created opened) maxLength system trace) ↔
      created = opened := by
  constructor
  · intro proper
    obtain ⟨system, run, point, isTail, isNext⟩ :=
      @mappedRun_pushes _ _ opens creator created opened maxLength positive stale ownTask own
    have follows : (system.parties creator).point.followsTail = true := by
      rw [point]
      rfl
    obtain ⟨index, node, -, isPointer, isNode, successor⟩ :=
      (proper _ _ _ run).tail creator follows
    have mapping : mappingOf opens created opened creator = created := by
      rw [mappingOf, own]
      rfl
    rw [mapping] at isPointer successor
    have isFirst : 0 = index := nodeAddress_injective created (isTail.symm.trans isPointer)
    subst isFirst
    have same := successor.symm.trans (isNext node isNode)
    rw [Nat.zero_add] at same
    unfold nodeAddress at same
    omega
  · rintro rfl trace linked system run
    rw [mappingOf_self]
    exact (run.kept positive).mappedProperly positive

/-- The first push of a process that has opened the queue elsewhere follows
`tail` out of its mapping. -/
theorem mappedProperly_fails_opened :
    ∃ system : QueueSystem (Fin 2),
      MappedRun (fun party => party = 1) 4096 8192 1
        (createdSystem (Fin 2) 4096 1 (fun _ => ⟨0, 0, 0⟩) fun _ => ⟨-1, 0, 0⟩) [] 1
        system ∧
      (system.parties 1).point = .faulted ∧
      ¬ MappedProperly (mappingOf (fun party => decide (party = 1)) 4096 8192) 1 system
        [] := by
  have run : MappedRun (fun party => decide (party = (1 : Fin 2))) 4096 8192 1
      (createdSystem (Fin 2) 4096 1 (fun _ => ⟨0, 0, 0⟩) fun _ => ⟨-1, 0, 0⟩) [] 1 _ :=
    .step (.step (.step (.step (.relink .start (by decide))
      (.callPush 1 ⟨5, 70000, 12⟩ rfl) (.inl rfl)) (.waitSlots 1 rfl rfl) (.inl rfl))
      (.lockPush 1 rfl rfl) (.inl rfl)) (.faultCopyIn 1 rfl rfl) (.inl rfl)
  exact ⟨_, run, rfl, fun proper => proper.faultless 1 rfl⟩

theorem mappedRun_properly_iff_sameAddress :
    (∀ trace linked system, MappedRun (fun party => decide (party = (1 : Fin 2))) 4096
        4096 3 (createdSystem (Fin 2) 4096 3 (fun _ => ⟨0, 0, 0⟩) fun _ => ⟨-1, 0, 0⟩)
        trace linked system →
      MappedProperly (mappingOf (fun party => decide (party = 1)) 4096 4096) 3 system
        trace) ↔ 4096 = 4096 :=
  @mappedRun_properly_iff (Fin 2) _ _ 4096 4096 3 (by decide) _ 0 (by decide) _ _

end NtShm
