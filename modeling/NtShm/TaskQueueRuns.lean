import NtShm.TaskQueueInvariant

/-!
# Runs of the task queue

Every step of every party keeps the counts and the ring, so every run of any
number of parties is a run of the abstract bounded queue.
-/

namespace NtShm

section Counts

variable {Party : Type*} [Fintype Party]

def QueueSystem.count (system : QueueSystem Party) (marked : QueuePoint → Bool) :
    Nat :=
  tally (fun party => (system.parties party).point) marked

variable {system : QueueSystem Party} {party : Party} {source : QueuePoint}

theorem count_pos {marked : QueuePoint → Bool}
    (here : (system.parties party).point = source)
    (isMarked : marked source = true) : 0 < system.count marked := by
  apply tally_pos (fun party => (system.parties party).point)
  rwa [here]

variable [DecidableEq Party]

theorem count_goTo (here : (system.parties party).point = source)
    (queue : CycleT) (target : QueuePoint) (marked : QueuePoint → Bool) :
    (system.goTo party queue target).count marked + (marked source).toNat =
      system.count marked + (marked target).toNat := by
  have points : (fun other =>
      ((system.goTo party queue target).parties other).point) =
        Function.update (fun other => (system.parties other).point) party
          target := by
    funext other
    by_cases same : other = party
    · subst same
      simp [QueueSystem.goTo]
    · simp [QueueSystem.goTo, same]
  unfold QueueSystem.count
  rw [points]
  exact tally_move (fun other => (system.parties other).point) here target marked

theorem count_goWith (here : (system.parties party).point = source)
    (target : QueuePoint) (task : TaskT) (marked : QueuePoint → Bool) :
    (system.goWith party target task).count marked + (marked source).toNat =
      system.count marked + (marked target).toNat := by
  have points : (fun other =>
      ((system.goWith party target task).parties other).point) =
        Function.update (fun other => (system.parties other).point) party
          target := by
    funext other
    by_cases same : other = party
    · subst same
      simp [QueueSystem.goWith]
    · simp [QueueSystem.goWith, same]
  unfold QueueSystem.count
  rw [points]
  exact tally_move (fun other => (system.parties other).point) here target marked

end Counts

namespace QueuePoint

/-- A push that has copied its task in and not yet posted to `items`. -/
def copiedIn : QueuePoint → Bool
  | pushAdvance | pushPostMutex | pushPostItems => true
  | _ => false

/-- A pop that holds an item and has not yet copied its task out. -/
def willCopyOut : QueuePoint → Bool
  | popWaitMutex | popCopy => true
  | _ => false

def isAt (point other : QueuePoint) : Bool := decide (other = point)

end QueuePoint

section Invariant

variable {Party : Type*} [Fintype Party]

/-- What the semaphores say, where `stored` tasks are in the ring: a task is
there from the copy of a push to the copy of a pop. -/
structure Counted (maxLength : Nat) (system : QueueSystem Party)
    (stored : Nat) : Prop where
  mutex : system.queue.mutex + system.count QueuePoint.inside = 1
  slots : system.queue.slots + system.queue.items + system.count QueuePoint.holdsSlot +
    system.count QueuePoint.holdsItem = maxLength
  stored_eq : stored = system.queue.items + system.count QueuePoint.copiedIn +
    system.count QueuePoint.willCopyOut
  unfaulted : system.count (QueuePoint.isAt .faulted) = 0

structure QueueInvariant (maxLength base : Nat) (system : QueueSystem Party)
    (trace : List QueueEvent) (contents : List TaskT) (first last : Nat) :
    Prop where
  counted : Counted maxLength system contents.length
  ring : RingView maxLength base system.queue trace contents first last
    (system.count (QueuePoint.isAt .popAdvance)) (system.count (QueuePoint.isAt .pushAdvance))

/-- Some contents of the ring satisfy the invariant. -/
def Kept (maxLength base : Nat) (system : QueueSystem Party)
    (trace : List QueueEvent) : Prop :=
  ∃ contents first last,
    QueueInvariant maxLength base system trace contents first last

variable {maxLength base : Nat} {system system' : QueueSystem Party}
  {trace : List QueueEvent} {contents : List TaskT} {first last : Nat}
  {source target : QueuePoint}

theorem Counted.move {stored stored' : Nat}
    (counted : Counted maxLength system stored)
    (moved : ∀ marked, system'.count marked + (marked source).toNat =
      system.count marked + (marked target).toNat)
    (faultless : source ≠ .faulted ∧ target ≠ .faulted)
    (mutex : system'.queue.mutex + target.inside.toNat =
      system.queue.mutex + source.inside.toNat)
    (slots : system'.queue.slots + system'.queue.items +
        target.holdsSlot.toNat + target.holdsItem.toNat =
      system.queue.slots + system.queue.items +
        source.holdsSlot.toNat + source.holdsItem.toNat)
    (balance : stored' + system.queue.items + source.copiedIn.toNat +
        source.willCopyOut.toNat =
      stored + system'.queue.items + target.copiedIn.toNat +
        target.willCopyOut.toNat) :
    Counted maxLength system' stored' where
  mutex := by
    have change := moved QueuePoint.inside
    have before := counted.mutex
    omega
  slots := by
    have slotChange := moved QueuePoint.holdsSlot
    have itemChange := moved QueuePoint.holdsItem
    have before := counted.slots
    omega
  stored_eq := by
    have inChange := moved QueuePoint.copiedIn
    have outChange := moved QueuePoint.willCopyOut
    have before := counted.stored_eq
    omega
  unfaulted := by
    have change := moved (QueuePoint.isAt .faulted)
    simpa [QueuePoint.isAt, faultless.1, faultless.2, counted.unfaulted]
      using change

theorem count_isAt_still (point : QueuePoint)
    (moved : ∀ marked, system'.count marked + (marked source).toNat =
      system.count marked + (marked target).toNat)
    (notSource : source ≠ point) (notTarget : target ≠ point) :
    system'.count (QueuePoint.isAt point) = system.count (QueuePoint.isAt point) := by
  have change := moved (QueuePoint.isAt point)
  simpa [QueuePoint.isAt, notSource, notTarget] using change

theorem count_isAt_left {point : QueuePoint}
    (moved : ∀ marked, system'.count marked + (marked point).toNat =
      system.count marked + (marked target).toNat) (leaves : target ≠ point) :
    system'.count (QueuePoint.isAt point) + 1 =
      system.count (QueuePoint.isAt point) := by
  have change := moved (QueuePoint.isAt point)
  simpa [QueuePoint.isAt, leaves] using change

theorem count_isAt_arrived {point : QueuePoint}
    (moved : ∀ marked, system'.count marked + (marked source).toNat =
      system.count marked + (marked point).toNat) (arrives : source ≠ point) :
    system'.count (QueuePoint.isAt point) =
      system.count (QueuePoint.isAt point) + 1 := by
  have change := moved (QueuePoint.isAt point)
  simpa [QueuePoint.isAt, arrives] using change

/-- A party inside the critical section is alone there. -/
theorem Counted.alone {stored : Nat} {party : Party}
    (counted : Counted maxLength system stored)
    (here : (system.parties party).point = source)
    (isInside : source.inside = true) :
    system.count (QueuePoint.isAt source) = 1 ∧
      ∀ point : QueuePoint, point.inside = true → point ≠ source →
        system.count (QueuePoint.isAt point) = 0 := by
  have mutex := counted.mutex
  have present : 0 < system.count (QueuePoint.isAt source) :=
    count_pos here (by simp [QueuePoint.isAt])
  have bound : system.count (QueuePoint.isAt source) ≤
      system.count QueuePoint.inside := by
    apply tally_le
    intro point
    by_cases atSource : point = source
    · simp [QueuePoint.isAt, atSource, isInside]
    · simp [QueuePoint.isAt, atSource]
  refine ⟨by omega, fun point inside other => ?_⟩
  have both : system.count (QueuePoint.isAt source) +
      system.count (QueuePoint.isAt point) ≤ system.count QueuePoint.inside := by
    apply tally_add_le
    intro third
    by_cases atSource : third = source
    · subst atSource
      simp [QueuePoint.isAt, isInside, other.symm]
    · by_cases atPoint : third = point
      · subst atPoint
        simp [QueuePoint.isAt, inside, other]
      · simp [QueuePoint.isAt, atSource, atPoint]
  omega

/-- A push before its copy finds room. -/
theorem Counted.room {stored : Nat} {party : Party}
    (counted : Counted maxLength system stored)
    (here : (system.parties party).point = .pushCopy) : stored < maxLength := by
  have slots := counted.slots
  have stored_eq := counted.stored_eq
  have present : 0 < system.count (QueuePoint.isAt .pushCopy) :=
    count_pos here (by simp [QueuePoint.isAt])
  have pushes : system.count (QueuePoint.isAt .pushCopy) +
      system.count QueuePoint.copiedIn ≤ system.count QueuePoint.holdsSlot := by
    apply tally_add_le
    intro point
    cases point <;> decide
  have pops : system.count QueuePoint.willCopyOut ≤
      system.count QueuePoint.holdsItem := by
    apply tally_le
    intro point
    cases point <;> decide
  omega

/-- A pop before its copy finds a task. -/
theorem Counted.nonempty {stored : Nat} {party : Party}
    (counted : Counted maxLength system stored)
    (here : (system.parties party).point = .popCopy) : 0 < stored := by
  have stored_eq := counted.stored_eq
  have present : 0 < system.count QueuePoint.willCopyOut := count_pos here rfl
  omega

theorem QueueInvariant.quiet
    (invariant : QueueInvariant maxLength base system trace contents first last)
    (moved : ∀ marked, system'.count marked + (marked source).toNat =
      system.count marked + (marked target).toNat)
    (ring : system'.queue.head = system.queue.head ∧
      system'.queue.tail = system.queue.tail ∧
      system'.queue.nodes = system.queue.nodes)
    (fromElsewhere : source ∉ [.pushAdvance, .popAdvance, .faulted])
    (toElsewhere : target ∉ [.pushAdvance, .popAdvance, .faulted])
    (mutex : system'.queue.mutex + target.inside.toNat =
      system.queue.mutex + source.inside.toNat)
    (slots : system'.queue.slots + system'.queue.items +
        target.holdsSlot.toNat + target.holdsItem.toNat =
      system.queue.slots + system.queue.items +
        source.holdsSlot.toNat + source.holdsItem.toNat)
    (balance : system.queue.items + source.copiedIn.toNat +
        source.willCopyOut.toNat =
      system'.queue.items + target.copiedIn.toNat + target.willCopyOut.toNat) :
    Kept maxLength base system' (trace ++ none.toList) ∧
      ∀ access ∈ (none : Option QueueEvent), access.Respects trace := by
  simp only [List.mem_cons, List.not_mem_nil, or_false, not_or]
    at fromElsewhere toElsewhere
  refine ⟨⟨contents, first, last, ?_, ?_⟩, by simp⟩
  · exact invariant.counted.move moved ⟨fromElsewhere.2.2, toElsewhere.2.2⟩ mutex
      slots (by omega)
  · rw [count_isAt_still _ moved fromElsewhere.1 toElsewhere.1,
      count_isAt_still _ moved fromElsewhere.2.1 toElsewhere.2.1,
      Option.toList_none, List.append_nil]
    exact invariant.ring.congr ring.1 ring.2.1 ring.2.2

variable [DecidableEq Party]

namespace QueueInvariant

variable {party : Party}

theorem copyIn (positive : 0 < maxLength)
    (invariant : QueueInvariant maxLength base system trace contents first last)
    (here : (system.parties party).point = .pushCopy) :
    ∃ queue node,
      system.queue.copyIn base (system.parties party).task = some (queue, node) ∧
      Kept maxLength base (system.goTo party queue .pushAdvance)
        (trace ++ [.pushed node (system.parties party).task]) ∧
      (QueueEvent.pushed node (system.parties party).task).Respects trace := by
  have counted := invariant.counted
  have ring := invariant.ring
  have writing : system.count (QueuePoint.isAt .pushAdvance) = 0 :=
    (counted.alone here rfl).2 .pushAdvance rfl (by decide)
  rw [writing] at ring
  obtain ⟨queue, copies, mutex, slots, items, free, ring⟩ :=
    ring.copyIn positive (counted.room here) (system.parties party).task
  have moved := count_goTo here queue .pushAdvance
  refine ⟨queue, _, copies,
    ⟨contents ++ [(system.parties party).task], first, last, ?_, ?_⟩, free⟩
  · apply counted.move moved (by decide)
    · exact congrArg (· + 1) mutex
    · change queue.slots + queue.items + 1 + 0 = _ + _ + 1 + 0
      rw [slots, items]
    · change _ + _ + 0 + 0 = _ + queue.items + 1 + 0
      rw [items, List.length_append, List.length_singleton]
      omega
  · rw [count_isAt_still .popAdvance moved (by decide) (by decide),
      count_isAt_arrived moved (by decide), writing]
    exact ring

theorem advanceTail (positive : 0 < maxLength)
    (invariant : QueueInvariant maxLength base system trace contents first last)
    (here : (system.parties party).point = .pushAdvance) :
    ∃ queue, system.queue.advanceTail base = some queue ∧
      Kept maxLength base (system.goTo party queue .pushPostMutex) trace := by
  have counted := invariant.counted
  have ring := invariant.ring
  have writing := (counted.alone here rfl).1
  rw [writing] at ring
  obtain ⟨queue, advances, mutex, slots, items, ring⟩ := ring.advanceTail positive
  have moved := count_goTo here queue .pushPostMutex
  have left := count_isAt_left moved (by decide)
  refine ⟨queue, advances, contents, first, last + 1, ?_, ?_⟩
  · apply counted.move moved (by decide)
    · exact congrArg (· + 1) mutex
    · change queue.slots + queue.items + 1 + 0 = _ + _ + 1 + 0
      rw [slots, items]
    · change _ + _ + 1 + 0 = _ + queue.items + 1 + 0
      rw [items]
  · rw [count_isAt_still .popAdvance moved (by decide) (by decide)]
    rw [writing] at left
    rw [Nat.succ.inj left]
    exact ring

theorem copyOut (positive : 0 < maxLength)
    (invariant : QueueInvariant maxLength base system trace contents first last)
    (here : (system.parties party).point = .popCopy) :
    ∃ task node, system.queue.copyOut base = some (task, node) ∧
      Kept maxLength base (system.goWith party .popAdvance task)
        (trace ++ [.popped node task]) ∧
      (QueueEvent.popped node task).Respects trace := by
  have counted := invariant.counted
  have ring := invariant.ring
  have reading : system.count (QueuePoint.isAt .popAdvance) = 0 :=
    (counted.alone here rfl).2 .popAdvance rfl (by decide)
  rw [reading] at ring
  obtain ⟨oldest, rest, rfl⟩ : ∃ oldest rest, contents = oldest :: rest :=
    List.exists_cons_of_length_pos (counted.nonempty here)
  obtain ⟨copies, written, ring⟩ := ring.copyOut positive
  have moved := count_goWith here .popAdvance oldest
  refine ⟨oldest, _, copies, ⟨rest, first, last, ?_, ?_⟩, written⟩
  · apply counted.move moved (by decide) rfl rfl
    change rest.length + system.queue.items + 0 + 1 =
      (oldest :: rest).length + system.queue.items + 0 + 0
    rw [List.length_cons]
    omega
  · rw [count_isAt_still .pushAdvance moved (by decide) (by decide),
      count_isAt_arrived moved (by decide), reading]
    exact ring

theorem advanceHead (positive : 0 < maxLength)
    (invariant : QueueInvariant maxLength base system trace contents first last)
    (here : (system.parties party).point = .popAdvance) :
    ∃ queue, system.queue.advanceHead base = some queue ∧
      Kept maxLength base (system.goTo party queue .popPostMutex) trace := by
  have counted := invariant.counted
  have ring := invariant.ring
  have reading := (counted.alone here rfl).1
  rw [reading] at ring
  obtain ⟨queue, advances, mutex, slots, items, ring⟩ := ring.advanceHead positive
  have moved := count_goTo here queue .popPostMutex
  have left := count_isAt_left moved (by decide)
  refine ⟨queue, advances, contents, first + 1, last, ?_, ?_⟩
  · apply counted.move moved (by decide)
    · exact congrArg (· + 1) mutex
    · change queue.slots + queue.items + 0 + 1 = _ + _ + 0 + 1
      rw [slots, items]
    · change _ + _ + 0 + 0 = _ + queue.items + 0 + 0
      rw [items]
  · rw [count_isAt_still .pushAdvance moved (by decide) (by decide)]
    rw [reading] at left
    rw [Nat.succ.inj left]
    exact ring

end QueueInvariant

/-- Every step of every party keeps the invariant. -/
theorem QueueStep.keeps (positive : 0 < maxLength) {event : Option QueueEvent}
    (kept : Kept maxLength base system trace)
    (step : QueueStep (fun _ => base) system event system') :
    Kept maxLength base system' (trace ++ event.toList) ∧
      ∀ access ∈ event, access.Respects trace := by
  obtain ⟨contents, first, last, invariant⟩ := kept
  cases step with
  | callPush party task here =>
      exact invariant.quiet (count_goWith here .pushWaitSlots task) ⟨rfl, rfl, rfl⟩
        (by decide) (by decide) rfl rfl rfl
  | @waitSlots party left here waited =>
      have value := semWait_eq_some waited
      refine invariant.quiet (count_goTo here _ .pushWaitMutex) ⟨rfl, rfl, rfl⟩
        (by decide) (by decide) rfl ?_ rfl
      change left + system.queue.items + 1 + 0 =
        system.queue.slots + system.queue.items + 0 + 0
      omega
  | lockPush party here waited =>
      refine invariant.quiet (count_goTo here _ .pushCopy) ⟨rfl, rfl, rfl⟩
        (by decide) (by decide) ?_ rfl rfl
      exact (semWait_eq_some waited).symm
  | copyIn party here copied =>
      obtain ⟨queue, node, copies, keeps, free⟩ := invariant.copyIn positive here
      obtain ⟨rfl, rfl⟩ := Prod.mk.inj (Option.some.inj (copied.symm.trans copies))
      exact ⟨keeps, by simpa using free⟩
  | advanceTail party here advanced =>
      obtain ⟨queue, advances, keeps⟩ := invariant.advanceTail positive here
      obtain rfl := Option.some.inj (advanced.symm.trans advances)
      exact ⟨by simpa using keeps, by simp⟩
  | unlockPush party here =>
      exact invariant.quiet (count_goTo here _ .pushPostItems) ⟨rfl, rfl, rfl⟩
        (by decide) (by decide) rfl rfl rfl
  | postItems party here =>
      refine invariant.quiet (count_goTo here _ .idle) ⟨rfl, rfl, rfl⟩
        (by decide) (by decide) rfl ?_ rfl
      change system.queue.slots + (system.queue.items + 1) + 0 + 0 =
        system.queue.slots + system.queue.items + 1 + 0
      omega
  | callPop party here =>
      exact invariant.quiet (count_goTo here _ .popWaitItems) ⟨rfl, rfl, rfl⟩
        (by decide) (by decide) rfl rfl rfl
  | @waitItems party left here waited =>
      have value := semWait_eq_some waited
      refine invariant.quiet (count_goTo here _ .popWaitMutex) ⟨rfl, rfl, rfl⟩
        (by decide) (by decide) rfl ?_ ?_
      · change system.queue.slots + left + 0 + 1 =
          system.queue.slots + system.queue.items + 0 + 0
        omega
      · change system.queue.items + 0 + 0 = left + 0 + 1
        omega
  | lockPop party here waited =>
      refine invariant.quiet (count_goTo here _ .popCopy) ⟨rfl, rfl, rfl⟩
        (by decide) (by decide) ?_ rfl rfl
      exact (semWait_eq_some waited).symm
  | copyOut party here copied =>
      obtain ⟨task, node, copies, keeps, written⟩ := invariant.copyOut positive here
      obtain ⟨rfl, rfl⟩ := Prod.mk.inj (Option.some.inj (copied.symm.trans copies))
      exact ⟨keeps, by simpa using written⟩
  | advanceHead party here advanced =>
      obtain ⟨queue, advances, keeps⟩ := invariant.advanceHead positive here
      obtain rfl := Option.some.inj (advanced.symm.trans advances)
      exact ⟨by simpa using keeps, by simp⟩
  | unlockPop party here =>
      exact invariant.quiet (count_goTo here _ .popPostSlots) ⟨rfl, rfl, rfl⟩
        (by decide) (by decide) rfl rfl rfl
  | postSlots party here =>
      refine invariant.quiet (count_goTo here _ .idle) ⟨rfl, rfl, rfl⟩
        (by decide) (by decide) rfl ?_ rfl
      change system.queue.slots + 1 + system.queue.items + 0 + 0 =
        system.queue.slots + system.queue.items + 0 + 1
      omega
  -- the pointers are never outside the ring, so these four do not happen
  | faultCopyIn party here faulted =>
      obtain ⟨queue, node, copies, -⟩ := invariant.copyIn positive here
      cases copies.symm.trans faulted
  | faultAdvanceTail party here faulted =>
      obtain ⟨queue, advances, -⟩ := invariant.advanceTail positive here
      cases advances.symm.trans faulted
  | faultCopyOut party here faulted =>
      obtain ⟨task, node, copies, -⟩ := invariant.copyOut positive here
      cases copies.symm.trans faulted
  | faultAdvanceHead party here faulted =>
      obtain ⟨queue, advances, -⟩ := invariant.advanceHead positive here
      cases advances.symm.trans faulted

omit [DecidableEq Party] in
theorem createdSystem_kept (stale : Nat → TaskT)
    (ownTask : Party → TaskT) :
    Kept maxLength base (createdSystem Party base maxLength stale ownTask) [] := by
  have nobody : ∀ marked : QueuePoint → Bool, marked .idle = false →
      (createdSystem Party base maxLength stale ownTask).count marked = 0 :=
    fun marked unmarked => tally_eq_zero fun _ => unmarked
  refine ⟨[], 0, 0, ?_, ?_⟩
  · constructor
    case mutex =>
      rw [nobody _ rfl]
      rfl
    case slots =>
      rw [nobody QueuePoint.holdsSlot rfl, nobody QueuePoint.holdsItem rfl]
      rfl
    case stored_eq =>
      rw [nobody QueuePoint.copiedIn rfl, nobody QueuePoint.willCopyOut rfl]
      rfl
    case unfaulted => exact nobody _ rfl
  · rw [nobody _ rfl, nobody _ rfl]
    constructor
    case fifo => exact .start
    case size => simp [createdSystem, taskQueueCreate]
    case linked =>
      intro index node isNode
      simp only [createdSystem, taskQueueCreate, List.getElem?_map,
        Option.map_eq_some_iff] at isNode
      obtain ⟨position, isPosition, rfl⟩ := isNode
      obtain ⟨inRange, rfl⟩ := List.getElem?_eq_some_iff.mp isPosition
      simp
    case head => simp [createdSystem, taskQueueCreate]
    case tail => simp [createdSystem, taskQueueCreate]
    case distance => rfl
    case stored => simp
    case unread_iff => simp [unread]

theorem QueueRun.kept (positive : 0 < maxLength) {stale : Nat → TaskT}
    {ownTask : Party → TaskT}
    (run : QueueRun (fun _ => base)
      (createdSystem Party base maxLength stale ownTask) trace system) :
    Kept maxLength base system trace := by
  induction run with
  | start => exact createdSystem_kept stale ownTask
  | step run step ih => exact (step.keeps positive ih).1

end Invariant

/-- What a moment of a run of the queue must satisfy: the tasks come out in the
order in which they went in, no next step overwrites an unread node or reads
one that is not, and the semaphores account for every slot. -/
structure FifoRespected {Party : Type*} [Fintype Party] [DecidableEq Party]
    (mapping : Party → Nat) (maxLength : Nat) (system : QueueSystem Party)
    (trace : List QueueEvent) : Prop where
  order : poppedTasks trace <+: pushedTasks trace
  respects : ∀ access system', QueueStep mapping system (some access) system' →
    access.Respects trace
  counts : system.queue.slots + system.queue.items +
    system.count QueuePoint.holdsSlot + system.count QueuePoint.holdsItem =
      maxLength
  faultless : ∀ party, (system.parties party).point ≠ .faulted

/-- The task queue is a bounded queue for any number of parties, in any order
of their steps. -/
theorem queueRun_fifo {Party : Type*} [Fintype Party] [DecidableEq Party]
    {base maxLength : Nat} (positive : 1 ≤ maxLength) (stale : Nat → TaskT)
    (ownTask : Party → TaskT) {trace : List QueueEvent}
    {system : QueueSystem Party}
    (run : QueueRun (fun _ => base)
      (createdSystem Party base maxLength stale ownTask) trace system) :
    FifoRespected (fun _ => base) maxLength system trace := by
  have kept := run.kept positive
  obtain ⟨contents, first, last, invariant⟩ := id kept
  constructor
  case order => exact invariant.ring.fifo.popped_prefix
  case respects =>
    intro access system' step
    exact (step.keeps positive kept).2 access rfl
  case counts => exact invariant.counted.slots
  case faultless =>
    intro party faulted
    have present : 0 < system.count (QueuePoint.isAt .faulted) :=
      count_pos faulted rfl
    rw [invariant.counted.unfaulted] at present
    exact lt_irrefl _ present

def twoNodeSystem : QueueSystem (Fin 3) :=
  createdSystem (Fin 3) 4096 2 (fun _ => ⟨0, 0, 0⟩) fun _ => ⟨-1, 0, 0⟩

/-- Two parties push at the same time and a third one pops in between. -/
theorem twoNodeSystem_run :
    ∃ system, QueueRun (fun _ => 4096) twoNodeSystem
      [.pushed 0 ⟨5, 70000, 12⟩, .pushed 1 ⟨6, 80000, 13⟩, .popped 0 ⟨5, 70000, 12⟩,
        .popped 1 ⟨6, 80000, 13⟩] system := by
  have first : QueueRun (fun _ => 4096) twoNodeSystem [.pushed 0 ⟨5, 70000, 12⟩] _ :=
    .step (.step (.step (.step (.step (.step .start (.callPush 0 ⟨5, 70000, 12⟩ rfl))
      (.callPush 1 ⟨6, 80000, 13⟩ rfl)) (.waitSlots 0 rfl rfl)) (.waitSlots 1 rfl rfl))
      (.lockPush 0 rfl rfl)) (.copyIn 0 rfl rfl)
  have second : QueueRun (fun _ => 4096) twoNodeSystem
      [.pushed 0 ⟨5, 70000, 12⟩, .pushed 1 ⟨6, 80000, 13⟩] _ :=
    .step (.step (.step (.step (.step (.step first (.callPop 2 rfl)) (.advanceTail 0 rfl rfl))
      (.unlockPush 0 rfl)) (.lockPush 1 rfl rfl)) (.postItems 0 rfl)) (.copyIn 1 rfl rfl)
  have third : QueueRun (fun _ => 4096) twoNodeSystem
      [.pushed 0 ⟨5, 70000, 12⟩, .pushed 1 ⟨6, 80000, 13⟩, .popped 0 ⟨5, 70000, 12⟩] _ :=
    .step (.step (.step (.step (.step second (.waitItems 2 rfl rfl)) (.advanceTail 1 rfl rfl))
      (.unlockPush 1 rfl)) (.lockPop 2 rfl rfl)) (.copyOut 2 rfl rfl)
  exact ⟨_, .step (.step (.step (.step (.step (.step (.step (.step third
    (.advanceHead 2 rfl rfl)) (.unlockPop 2 rfl)) (.postItems 1 rfl)) (.postSlots 2 rfl))
    (.callPop 0 rfl)) (.waitItems 0 rfl rfl)) (.lockPop 0 rfl rfl)) (.copyOut 0 rfl rfl)⟩
theorem queueRun_fifo_twoPushes :
    ∃ system, QueueRun (fun _ => 4096) twoNodeSystem
        [.pushed 0 ⟨5, 70000, 12⟩, .pushed 1 ⟨6, 80000, 13⟩, .popped 0 ⟨5, 70000, 12⟩,
          .popped 1 ⟨6, 80000, 13⟩] system ∧
      FifoRespected (fun _ => 4096) 2 system
        [.pushed 0 ⟨5, 70000, 12⟩, .pushed 1 ⟨6, 80000, 13⟩, .popped 0 ⟨5, 70000, 12⟩,
          .popped 1 ⟨6, 80000, 13⟩] := by
  obtain ⟨system, run⟩ := twoNodeSystem_run
  exact ⟨system, run, queueRun_fifo (by decide) _ _ run⟩

end NtShm
