import NtShm.TaskQueueRuns

/-!
# Interrupted waits on the task queue

A `sem_wait` that a signal handler interrupts returns -1 and leaves its
semaphore as it is.  `task_queue_push` and `task_queue_pop` do not look at the
result and go on as if they had waited.
-/

namespace NtShm

section Signals

variable {Party : Type*} [DecidableEq Party]

/-- A wait that returns -1. -/
inductive InterruptedStep :
    QueueSystem Party → QueueSystem Party → Prop
  | waitSlots {system} (party : Party) :
      (system.parties party).point = .pushWaitSlots →
      InterruptedStep system (system.goTo party system.queue .pushWaitMutex)
  | lockPush {system} (party : Party) :
      (system.parties party).point = .pushWaitMutex →
      InterruptedStep system (system.goTo party system.queue .pushCopy)
  | waitItems {system} (party : Party) :
      (system.parties party).point = .popWaitItems →
      InterruptedStep system (system.goTo party system.queue .popWaitMutex)
  | lockPop {system} (party : Party) :
      (system.parties party).point = .popWaitMutex →
      InterruptedStep system (system.goTo party system.queue .popCopy)

/-- Every finite run in which waits may be interrupted, with the number of those
that were. -/
inductive SignalledRun (mapping : Party → Nat) (initial : QueueSystem Party) :
    List QueueEvent → Nat → QueueSystem Party → Prop
  | start : SignalledRun mapping initial [] 0 initial
  | step {trace : List QueueEvent} {interrupted : Nat}
      {system system' : QueueSystem Party} {event : Option QueueEvent} :
      SignalledRun mapping initial trace interrupted system →
      QueueStep mapping system event system' →
      SignalledRun mapping initial (trace ++ event.toList) interrupted system'
  | interrupt {trace : List QueueEvent} {interrupted : Nat}
      {system system' : QueueSystem Party} :
      SignalledRun mapping initial trace interrupted system →
      InterruptedStep system system' →
      SignalledRun mapping initial trace (interrupted + 1) system'

/-- No next step overwrites a task that was not popped, or reads a node that was
popped already, and the tasks that were popped are those that were pushed first,
each of them once. -/
structure TasksIntact (mapping : Party → Nat) (system : QueueSystem Party)
    (trace : List QueueEvent) : Prop where
  respects : ∀ access system', QueueStep mapping system (some access) system' →
    access.Respects trace
  order : poppedTasks trace <+: pushedTasks trace

variable {mapping : Party → Nat} {initial system : QueueSystem Party}
  {trace : List QueueEvent} {interrupted : Nat}

theorem SignalledRun.uninterrupted
    (run : SignalledRun mapping initial trace interrupted system)
    (none : interrupted = 0) : QueueRun mapping initial trace system := by
  induction run with
  | start => exact .start
  | step _ step ih => exact .step (ih none) step
  | interrupt => cases none

theorem QueueRun.signalled (run : QueueRun mapping initial trace system) :
    SignalledRun mapping initial trace 0 system := by
  induction run with
  | start => exact .start
  | step _ step ih => exact ih.step step

theorem Kept.intact [Fintype Party] {base maxLength : Nat} (positive : 0 < maxLength)
    (kept : Kept maxLength base system trace) :
    TasksIntact (fun _ => base) system trace := by
  obtain ⟨contents, first, last, invariant⟩ := id kept
  constructor
  case respects =>
    intro access system' step
    exact (step.keeps positive kept).2 access rfl
  case order => exact invariant.ring.fifo.popped_prefix

/-- As long as no wait is interrupted, the tasks are intact. -/
theorem signalledRun_intact [Fintype Party] {base maxLength : Nat}
    (positive : 1 ≤ maxLength) (stale : Nat → TaskT) (ownTask : Party → TaskT)
    (run : SignalledRun (fun _ => base)
      (createdSystem Party base maxLength stale ownTask) trace 0 system) :
    TasksIntact (fun _ => base) system trace :=
  ((run.uninterrupted rfl).kept positive).intact positive

end Signals

/-! ## What an interruption leaves -/

section Accounts

variable {Party : Type*} [Fintype Party] {system system' : QueueSystem Party}
  {party : Party} {source : QueuePoint}

def CycleT.values (queue : CycleT) : Nat := queue.slots + queue.items + queue.mutex

/-- What a party at a program point has taken from the semaphores; one that was
stopped had taken two. -/
def QueuePoint.taken (point : QueuePoint) : Nat :=
  point.holdsSlot.toNat + point.holdsItem.toNat + point.inside.toNat +
    2 * (QueuePoint.isAt .faulted point).toNat

/-- What is in the semaphores, and what the parties have taken from them. -/
def QueueSystem.account (system : QueueSystem Party) : Nat :=
  system.queue.values + system.count QueuePoint.holdsSlot +
    system.count QueuePoint.holdsItem + system.count QueuePoint.inside +
    2 * system.count (QueuePoint.isAt .faulted)

variable [DecidableEq Party]

theorem account_goTo (more : Nat) (here : (system.parties party).point = source)
    (queue : CycleT) (target : QueuePoint)
    (balance : queue.values + target.taken =
      system.queue.values + source.taken + more) :
    (system.goTo party queue target).account = system.account + more := by
  have slots := count_goTo here queue target QueuePoint.holdsSlot
  have items := count_goTo here queue target QueuePoint.holdsItem
  have inside := count_goTo here queue target QueuePoint.inside
  have faulted := count_goTo here queue target (QueuePoint.isAt .faulted)
  have values : (system.goTo party queue target).queue.values = queue.values := rfl
  unfold QueuePoint.taken at balance
  unfold QueueSystem.account
  omega

theorem account_goWith (here : (system.parties party).point = source)
    (target : QueuePoint) (task : TaskT) (balance : target.taken = source.taken) :
    (system.goWith party target task).account = system.account := by
  have slots := count_goWith here target task QueuePoint.holdsSlot
  have items := count_goWith here target task QueuePoint.holdsItem
  have inside := count_goWith here target task QueuePoint.inside
  have faulted := count_goWith here target task (QueuePoint.isAt .faulted)
  have values : (system.goWith party target task).queue.values =
    system.queue.values := rfl
  unfold QueuePoint.taken at balance
  unfold QueueSystem.account
  omega

/-- What a step takes from a semaphore it gives to the party, and the other way
round. -/
theorem QueueStep.account_eq {mapping : Party → Nat} {event : Option QueueEvent}
    (step : QueueStep mapping system event system') :
    system'.account = system.account := by
  cases step with
  | callPush party task here => exact account_goWith here .pushWaitSlots task rfl
  | @waitSlots party left here waited =>
      apply account_goTo 0 here
      change left + system.queue.items + system.queue.mutex + 1 =
        system.queue.slots + system.queue.items + system.queue.mutex + 0
      rw [semWait_eq_some waited]
      omega
  | lockPush party here waited =>
      apply account_goTo 0 here
      change _ = system.queue.slots + system.queue.items + system.queue.mutex + 1
      rw [semWait_eq_some waited]
      rfl
  | @copyIn party queue node here copied =>
      obtain ⟨⟨index, found⟩, -, same⟩ := Option.map_eq_some_iff.mp copied
      cases same
      exact account_goTo 0 here _ .pushAdvance rfl
  | @advanceTail party queue here advanced =>
      obtain ⟨⟨index, found⟩, -, same⟩ := Option.map_eq_some_iff.mp advanced
      cases same
      exact account_goTo 0 here _ .pushPostMutex rfl
  | unlockPush party here => exact account_goTo 0 here _ .pushPostItems rfl
  | postItems party here =>
      apply account_goTo 0 here
      change system.queue.slots + (system.queue.items + 1) + system.queue.mutex + 0 =
        system.queue.slots + system.queue.items + system.queue.mutex + 1
      omega
  | callPop party here => exact account_goTo 0 here _ .popWaitItems rfl
  | @waitItems party left here waited =>
      apply account_goTo 0 here
      change system.queue.slots + left + system.queue.mutex + 1 =
        system.queue.slots + system.queue.items + system.queue.mutex + 0
      rw [semWait_eq_some waited]
      omega
  | lockPop party here waited =>
      apply account_goTo 0 here
      change _ = system.queue.slots + system.queue.items + system.queue.mutex + 1
      rw [semWait_eq_some waited]
      rfl
  | @copyOut party task node here copied =>
      exact account_goWith here .popAdvance task rfl
  | @advanceHead party queue here advanced =>
      obtain ⟨⟨index, found⟩, -, same⟩ := Option.map_eq_some_iff.mp advanced
      cases same
      exact account_goTo 0 here _ .popPostMutex rfl
  | unlockPop party here => exact account_goTo 0 here _ .popPostSlots rfl
  | postSlots party here =>
      apply account_goTo 0 here
      change system.queue.slots + 1 + system.queue.items + system.queue.mutex + 0 =
        system.queue.slots + system.queue.items + system.queue.mutex + 1
      omega
  | faultCopyIn party here => exact account_goTo 0 here _ .faulted rfl
  | faultAdvanceTail party here => exact account_goTo 0 here _ .faulted rfl
  | faultCopyOut party here => exact account_goTo 0 here _ .faulted rfl
  | faultAdvanceHead party here => exact account_goTo 0 here _ .faulted rfl

/-- An interrupted wait gives to the party what it did not take. -/
theorem InterruptedStep.account_eq (step : InterruptedStep system system') :
    system'.account = system.account + 1 := by
  cases step with
  | waitSlots party here => exact account_goTo 1 here _ .pushWaitMutex rfl
  | lockPush party here => exact account_goTo 1 here _ .pushCopy rfl
  | waitItems party here => exact account_goTo 1 here _ .popWaitMutex rfl
  | lockPop party here => exact account_goTo 1 here _ .popCopy rfl

/-- Every interrupted wait leaves one too many in the semaphores or with the
parties, and no step takes it back. -/
theorem SignalledRun.account_eq {mapping : Party → Nat} {base maxLength : Nat}
    {stale : Nat → TaskT} {ownTask : Party → TaskT} {trace : List QueueEvent}
    {interrupted : Nat} (run : SignalledRun mapping
      (createdSystem Party base maxLength stale ownTask) trace interrupted system) :
    system.account = maxLength + 1 + interrupted := by
  induction run with
  | start =>
      have nobody : ∀ marked : QueuePoint → Bool, marked .idle = false →
          (createdSystem Party base maxLength stale ownTask).count marked = 0 :=
        fun marked unmarked => tally_eq_zero fun _ => unmarked
      rw [QueueSystem.account, nobody _ rfl, nobody _ rfl, nobody _ rfl, nobody _ rfl]
      rfl
  | step _ step ih => exact step.account_eq.trans ih
  | interrupt _ step ih => rw [step.account_eq, ih, Nat.add_assoc]

end Accounts

def oneNodeSystem : QueueSystem (Fin 2) :=
  createdSystem (Fin 2) 4096 1 (fun _ => ⟨0, 0, 0⟩) fun _ => ⟨-1, 0, 0⟩

theorem signalledRun_intact_twoPushes :
    ∃ system, SignalledRun (fun _ => 4096) twoNodeSystem
        [.pushed 0 ⟨5, 70000, 12⟩, .pushed 1 ⟨6, 80000, 13⟩, .popped 0 ⟨5, 70000, 12⟩,
          .popped 1 ⟨6, 80000, 13⟩] 0 system ∧
      TasksIntact (fun _ => 4096) system
        [.pushed 0 ⟨5, 70000, 12⟩, .pushed 1 ⟨6, 80000, 13⟩, .popped 0 ⟨5, 70000, 12⟩,
          .popped 1 ⟨6, 80000, 13⟩] := by
  obtain ⟨system, run⟩ := twoNodeSystem_run
  exact ⟨system, run.signalled, signalledRun_intact (by decide) _ _ run.signalled⟩

/-- A push whose wait for a slot is interrupted overwrites a task that was not
popped, and a pop whose wait for an item is interrupted returns what nobody
pushed. -/
theorem tasksIntact_fails_interrupted :
    (∃ system, SignalledRun (fun _ => 4096) oneNodeSystem
        [.pushed 0 ⟨5, 70000, 12⟩] 1 system ∧
      (∃ system', QueueStep (fun _ => 4096) system (some (.pushed 0 ⟨6, 80000, 13⟩))
        system') ∧
      ¬ TasksIntact (fun _ => 4096) system [.pushed 0 ⟨5, 70000, 12⟩]) ∧
    (∃ system, SignalledRun (fun _ => 4096) oneNodeSystem [.popped 0 ⟨0, 0, 0⟩] 1
        system ∧
      ¬ TasksIntact (fun _ => 4096) system [.popped 0 ⟨0, 0, 0⟩]) := by
  constructor
  · have pushed : SignalledRun (fun _ => 4096) oneNodeSystem
        [.pushed 0 ⟨5, 70000, 12⟩] 0 _ :=
      .step (.step (.step (.step (.step (.step (.step .start
        (.callPush 0 ⟨5, 70000, 12⟩ rfl)) (.waitSlots 0 rfl rfl))
        (.lockPush 0 rfl rfl)) (.copyIn 0 rfl rfl)) (.advanceTail 0 rfl rfl))
        (.unlockPush 0 rfl)) (.postItems 0 rfl)
    have run : SignalledRun (fun _ => 4096) oneNodeSystem
        [.pushed 0 ⟨5, 70000, 12⟩] 1 _ :=
      .step (.interrupt (.step pushed
        (.callPush 1 ⟨6, 80000, 13⟩ rfl)) (.waitSlots 1 rfl)) (.lockPush 1 rfl rfl)
    refine ⟨_, run, ⟨_, .copyIn 1 rfl rfl⟩, fun intact => ?_⟩
    cases intact.respects (.pushed 0 ⟨6, 80000, 13⟩) _ (.copyIn 1 rfl rfl)
  · have run : SignalledRun (fun _ => 4096) oneNodeSystem [.popped 0 ⟨0, 0, 0⟩] 1 _ :=
      .step (.step (.interrupt (.step .start
        (.callPop 0 rfl)) (.waitItems 0 rfl)) (.lockPop 0 rfl rfl)) (.copyOut 0 rfl rfl)
    refine ⟨_, run, fun intact => ?_⟩
    obtain ⟨rest, order⟩ := intact.order
    cases order

end NtShm
