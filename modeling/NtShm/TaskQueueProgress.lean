import NtShm.TaskQueueRuns
import Mathlib.Algebra.Module.NatInt
import Mathlib.Tactic.FinCases

/-!
# No call of the task queue is stuck

Apart from new calls, a system of parties can take only so many steps.  When none is left,
the parties that are still in a call are all pushes at a full queue or all pops at an empty
one.
-/

namespace NtShm

/-- How many steps a call takes from a program point on, at most. -/
def QueuePoint.left : QueuePoint → Nat
  | idle | faulted => 0
  | pushWaitSlots | popWaitItems => 6
  | pushWaitMutex | popWaitMutex => 5
  | pushCopy | popCopy => 4
  | pushAdvance | popAdvance => 3
  | pushPostMutex | popPostMutex => 2
  | pushPostItems | popPostSlots => 1

section Progress

variable {Party : Type*} [DecidableEq Party] {mapping : Party → Nat}
  {system system' : QueueSystem Party}

/-- A step by which no party begins a call. -/
def InnerStep (mapping : Party → Nat) (system system' : QueueSystem Party) : Prop :=
  (∃ event, QueueStep mapping system event system') ∧
    ∀ party, (system.parties party).point = .idle →
      system'.parties party = system.parties party

/-- Such steps, one after the other, and how many. -/
inductive InnerRun (mapping : Party → Nat) (initial : QueueSystem Party) :
    Nat → QueueSystem Party → Prop
  | start : InnerRun mapping initial 0 initial
  | step {n : Nat} {system system' : QueueSystem Party} :
      InnerRun mapping initial n system → InnerStep mapping system system' →
      InnerRun mapping initial (n + 1) system'

/-- A step moves one party, which begins a call or comes nearer to the end of one. -/
theorem QueueStep.moves {event : Option QueueEvent}
    (step : QueueStep mapping system event system') :
    ∃ party target, system'.parties = Function.update system.parties party target ∧
      ((system.parties party).point = .idle ∧ target.point ≠ .idle ∨
        target.point.left < (system.parties party).point.left) := by
  cases step with
  | callPush party task here => exact ⟨party, _, rfl, .inl ⟨here, nofun⟩⟩
  | callPop party here => exact ⟨party, _, rfl, .inl ⟨here, nofun⟩⟩
  | waitSlots party here | lockPush party here | copyIn party here | advanceTail party here
  | unlockPush party here | postItems party here | waitItems party here | lockPop party here
  | copyOut party here | advanceHead party here | unlockPop party here | postSlots party here
  | faultCopyIn party here | faultAdvanceTail party here | faultCopyOut party here
  | faultAdvanceHead party here =>
      refine ⟨party, _, rfl, .inr ?_⟩
      rw [here]
      simp [QueuePoint.left]

def QueueSystem.left [Fintype Party] (system : QueueSystem Party) : Nat :=
  ∑ party, (system.parties party).point.left

theorem InnerStep.left_lt [Fintype Party] (step : InnerStep mapping system system') :
    system'.left < system.left := by
  obtain ⟨⟨event, step⟩, quiet⟩ := step
  obtain ⟨party, target, parties, begins | nearer⟩ := step.moves
  · have same := quiet party begins.1
    rw [parties, Function.update_self] at same
    rw [same] at begins
    exact absurd begins.1 begins.2
  · apply Finset.sum_lt_sum
    · intro other _
      rw [parties]
      by_cases moved : other = party
      · rw [moved, Function.update_self]
        exact nearer.le
      · rw [Function.update_of_ne moved]
    · refine ⟨party, Finset.mem_univ party, ?_⟩
      rw [parties, Function.update_self]
      exact nearer

theorem InnerRun.bound [Fintype Party] {n : Nat} (run : InnerRun mapping system n system') :
    n + system'.left ≤ system.left := by
  induction run with
  | start => exact Nat.le_of_eq (Nat.zero_add _)
  | step run step ih =>
      have nearer := step.left_lt
      omega

omit [DecidableEq Party] in
theorem QueueSystem.left_le [Fintype Party] (system : QueueSystem Party) :
    system.left ≤ 6 * Fintype.card Party := by
  have each : ∀ party ∈ Finset.univ, (system.parties party).point.left ≤ 6 := by
    intro party _
    cases (system.parties party).point <;> decide
  have all := Finset.sum_le_card_nsmul _ _ 6 each
  rw [nsmul_eq_mul, Nat.cast_id, Nat.mul_comm] at all
  exact all

theorem InnerRun.extend {initial : QueueSystem Party} {trace : List QueueEvent} {n : Nat}
    (run : QueueRun mapping initial trace system) (inner : InnerRun mapping system n system') :
    ∃ trace', QueueRun mapping initial trace' system' := by
  induction inner with
  | start => exact ⟨trace, run⟩
  | step _ step ih =>
      obtain ⟨trace', run⟩ := ih
      obtain ⟨event, step⟩ := step.1
      exact ⟨_, run.step step⟩

/-! ## Where no step is left -/

/-- No party is in a call, or those that are all wait at a full queue to push, or all wait
at an empty one to pop. -/
inductive QueueSettled (maxLength : Nat) (system : QueueSystem Party) : Prop
  | idle (all : ∀ party, (system.parties party).point = .idle)
  | full (slots : system.queue.slots = 0) (items : system.queue.items = maxLength)
      (all : ∀ party, (system.parties party).point = .idle ∨
        (system.parties party).point = .pushWaitSlots)
  | empty (items : system.queue.items = 0) (slots : system.queue.slots = maxLength)
      (all : ∀ party, (system.parties party).point = .idle ∨
        (system.parties party).point = .popWaitItems)

theorem QueueStep.isInner {event : Option QueueEvent} {party : Party} {queue : CycleT}
    {target : QueueParty}
    (step : QueueStep mapping system event
      ⟨queue, Function.update system.parties party target⟩)
    (busy : (system.parties party).point ≠ .idle) :
    InnerStep mapping system ⟨queue, Function.update system.parties party target⟩ := by
  refine ⟨⟨event, step⟩, fun other idle => ?_⟩
  have apart : other ≠ party := by
    rintro rfl
    exact busy idle
  exact Function.update_of_ne apart _ _

theorem QueueStep.goTo_isInner {event : Option QueueEvent} {party : Party} {queue : CycleT}
    {point : QueuePoint} (step : QueueStep mapping system event (system.goTo party queue point))
    (busy : (system.parties party).point ≠ .idle) :
    InnerStep mapping system (system.goTo party queue point) :=
  step.isInner busy

theorem QueueStep.goWith_isInner {event : Option QueueEvent} {party : Party} {task : TaskT}
    {point : QueuePoint} (step : QueueStep mapping system event (system.goWith party point task))
    (busy : (system.parties party).point ≠ .idle) :
    InnerStep mapping system (system.goWith party point task) :=
  step.isInner busy

theorem QueueStep.inner {event : Option QueueEvent} {party : Party} {queue : CycleT}
    {target : QueueParty}
    (step : QueueStep mapping system event
      ⟨queue, Function.update system.parties party target⟩)
    (busy : (system.parties party).point ≠ .idle) :
    ∃ system', InnerStep mapping system system' :=
  ⟨_, step.isInner busy⟩

variable {party : Party}

/-- In the critical section nothing is waited for. -/
theorem inner_of_inside (inside : (system.parties party).point.inside = true) :
    ∃ system', InnerStep mapping system system' := by
  have busy : (system.parties party).point ≠ .idle := by
    intro idle
    rw [idle] at inside
    cases inside
  cases here : (system.parties party).point with
  | pushCopy =>
      cases copies : system.queue.copyIn (mapping party) (system.parties party).task with
      | none => exact (QueueStep.faultCopyIn party here copies).inner busy
      | some copied => exact (QueueStep.copyIn party here copies).inner busy
  | pushAdvance =>
      cases advances : system.queue.advanceTail (mapping party) with
      | none => exact (QueueStep.faultAdvanceTail party here advances).inner busy
      | some queue => exact (QueueStep.advanceTail party here advances).inner busy
  | pushPostMutex => exact (QueueStep.unlockPush party here).inner busy
  | popCopy =>
      cases copies : system.queue.copyOut (mapping party) with
      | none => exact (QueueStep.faultCopyOut party here copies).inner busy
      | some copied => exact (QueueStep.copyOut party here copies).inner busy
  | popAdvance =>
      cases advances : system.queue.advanceHead (mapping party) with
      | none => exact (QueueStep.faultAdvanceHead party here advances).inner busy
      | some queue => exact (QueueStep.advanceHead party here advances).inner busy
  | popPostMutex => exact (QueueStep.unlockPop party here).inner busy
  | idle | pushWaitSlots | pushWaitMutex | pushPostItems | popWaitItems | popWaitMutex
  | popPostSlots | faulted =>
      rw [here] at inside
      cases inside

variable [Fintype Party] {maxLength stored : Nat}

/-- Who waits for the mutex waits for a party that is in the critical section. -/
theorem Counted.inner_of_mutex (counted : Counted maxLength system stored)
    (waits : (system.parties party).point = .pushWaitMutex ∨
      (system.parties party).point = .popWaitMutex) :
    ∃ system', InnerStep mapping system system' := by
  have mutex := counted.mutex
  by_cases free : 0 < system.queue.mutex
  · have locks : semWait system.queue.mutex = some (system.queue.mutex - 1) := if_pos free
    rcases waits with here | here
    · exact (QueueStep.lockPush party here locks).inner (by rw [here]; nofun)
    · exact (QueueStep.lockPop party here locks).inner (by rw [here]; nofun)
  · have occupied : 0 < system.count QueuePoint.inside := by omega
    obtain ⟨other, isInside⟩ := Finset.card_pos.mp occupied
    exact inner_of_inside (Finset.mem_filter.mp isInside).2

omit [DecidableEq Party] in
theorem Counted.not_faulted (counted : Counted maxLength system stored) (party : Party) :
    (system.parties party).point ≠ .faulted := by
  intro faulted
  have present : 0 < system.count (QueuePoint.isAt .faulted) := count_pos faulted rfl
  rw [counted.unfaulted] at present
  exact lt_irrefl _ present

theorem Counted.waits (counted : Counted maxLength system stored)
    (stopped : ∀ system', ¬InnerStep mapping system system') (party : Party) :
    (system.parties party).point = .idle ∨
      (system.parties party).point = .pushWaitSlots ∧ system.queue.slots = 0 ∨
      (system.parties party).point = .popWaitItems ∧ system.queue.items = 0 := by
  have stuck : ¬∃ system', InnerStep mapping system system' := fun ⟨system', step⟩ =>
    stopped system' step
  cases here : (system.parties party).point with
  | idle => exact .inl rfl
  | pushWaitSlots =>
      refine .inr (.inl ⟨rfl, ?_⟩)
      by_contra some
      exact stuck ((QueueStep.waitSlots party here (if_pos (Nat.pos_of_ne_zero some))).inner
        (by rw [here]; nofun))
  | popWaitItems =>
      refine .inr (.inr ⟨rfl, ?_⟩)
      by_contra some
      exact stuck ((QueueStep.waitItems party here (if_pos (Nat.pos_of_ne_zero some))).inner
        (by rw [here]; nofun))
  | pushWaitMutex => exact absurd (counted.inner_of_mutex (.inl here)) stuck
  | popWaitMutex => exact absurd (counted.inner_of_mutex (.inr here)) stuck
  | pushPostItems =>
      exact absurd ((QueueStep.postItems party here).inner (by rw [here]; nofun)) stuck
  | popPostSlots =>
      exact absurd ((QueueStep.postSlots party here).inner (by rw [here]; nofun)) stuck
  | pushCopy | pushAdvance | pushPostMutex | popCopy | popAdvance | popPostMutex =>
      exact absurd (inner_of_inside (by rw [here]; rfl)) stuck
  | faulted => exact absurd here (counted.not_faulted party)

theorem Counted.settled (positive : 1 ≤ maxLength) (counted : Counted maxLength system stored)
    (stopped : ∀ system', ¬InnerStep mapping system system') :
    QueueSettled maxLength system := by
  have waits := counted.waits stopped
  have slots := counted.slots
  have none (marked : QueuePoint → Bool) (idle : marked .idle = false)
      (push : marked .pushWaitSlots = false) (pop : marked .popWaitItems = false) :
      system.count marked = 0 := by
    apply tally_eq_zero
    intro party
    rcases waits party with here | ⟨here, -⟩ | ⟨here, -⟩ <;> rw [here] <;> assumption
  rw [none QueuePoint.holdsSlot rfl rfl rfl, none QueuePoint.holdsItem rfl rfl rfl] at slots
  by_cases full : system.queue.slots = 0
  · refine .full full (by omega) fun party => ?_
    rcases waits party with idle | ⟨push, -⟩ | ⟨-, noItems⟩
    · exact .inl idle
    · exact .inr push
    · omega
  · by_cases empty : system.queue.items = 0
    · refine .empty empty (by omega) fun party => ?_
      rcases waits party with idle | ⟨-, noSlots⟩ | ⟨pop, -⟩
      · exact .inl idle
      · omega
      · exact .inr pop
    · refine .idle fun party => ?_
      rcases waits party with idle | ⟨-, noSlots⟩ | ⟨-, noItems⟩
      · exact idle
      · omega
      · omega

omit [DecidableEq Party] [Fintype Party] in
theorem QueueSettled.waits (settled : QueueSettled maxLength system) (party : Party) :
    (system.parties party).point = .idle ∨
      (system.parties party).point = .pushWaitSlots ∧ system.queue.slots = 0 ∨
      (system.parties party).point = .popWaitItems ∧ system.queue.items = 0 := by
  cases settled with
  | idle all => exact .inl (all party)
  | full slots items all => exact (all party).imp_right fun push => .inl ⟨push, slots⟩
  | empty items slots all => exact (all party).imp_right fun pop => .inr ⟨pop, items⟩

omit [Fintype Party] in
theorem QueueSettled.stopped (settled : QueueSettled maxLength system)
    (next : QueueSystem Party) : ¬InnerStep mapping system next := by
  rintro ⟨⟨event, step⟩, quiet⟩
  cases step with
  | callPush party task idle =>
      have same := congrArg QueueParty.point (quiet party idle)
      rw [idle] at same
      simp [QueueSystem.goWith] at same
  | callPop party idle =>
      have same := congrArg QueueParty.point (quiet party idle)
      rw [idle] at same
      simp [QueueSystem.goTo] at same
  | waitSlots party here waited =>
      have some := semWait_eq_some waited
      rcases settled.waits party with idle | ⟨-, none⟩ | ⟨pop, -⟩
      · cases here.symm.trans idle
      · omega
      · cases here.symm.trans pop
  | waitItems party here waited =>
      have some := semWait_eq_some waited
      rcases settled.waits party with idle | ⟨push, -⟩ | ⟨-, none⟩
      · cases here.symm.trans idle
      · cases here.symm.trans push
      · omega
  | lockPush party here | copyIn party here | advanceTail party here | unlockPush party here
  | postItems party here | lockPop party here | copyOut party here | advanceHead party here
  | unlockPop party here | postSlots party here | faultCopyIn party here
  | faultAdvanceTail party here | faultCopyOut party here | faultAdvanceHead party here =>
      rcases settled.waits party with idle | ⟨push, -⟩ | ⟨pop, -⟩
      · cases here.symm.trans idle
      · cases here.symm.trans push
      · cases here.symm.trans pop

end Progress

/-- From every reachable state, the calls that were begun end after so many steps, except
for pushes that all wait at a full queue or pops that all wait at an empty one. -/
theorem queueRun_settles {Party : Type*} [Fintype Party] [DecidableEq Party]
    {base maxLength : Nat} (positive : 1 ≤ maxLength) (stale : Nat → TaskT)
    (ownTask : Party → TaskT) {trace : List QueueEvent} {system system' : QueueSystem Party}
    (run : QueueRun (fun _ => base)
      (createdSystem Party base maxLength stale ownTask) trace system) {n : Nat}
    (inner : InnerRun (fun _ => base) system n system') :
    n ≤ 6 * Fintype.card Party ∧
      ((∀ next, ¬InnerStep (fun _ => base) system' next) ↔ QueueSettled maxLength system') := by
  obtain ⟨trace', run'⟩ := inner.extend run
  obtain ⟨contents, first, last, invariant⟩ := run'.kept positive
  have bound := inner.bound
  have most := system.left_le
  exact ⟨by omega, invariant.counted.settled positive, QueueSettled.stopped⟩

def calledSystem : QueueSystem (Fin 3) :=
  ((twoNodeSystem.goWith 0 .pushWaitSlots ⟨5, 70000, 12⟩).goTo 1 twoNodeSystem.queue
    .popWaitItems).goTo 2 twoNodeSystem.queue .popWaitItems

/-- The push and the first pop end, and the second pop waits at the empty queue. -/
theorem queueRun_settles_twoPops :
    QueueRun (fun _ => 4096) twoNodeSystem [] calledSystem ∧
    ∃ system, InnerRun (fun _ => 4096) calledSystem 12 system ∧ 12 ≤ 6 * Fintype.card (Fin 3) ∧
      (system.parties 1).task = ⟨5, 70000, 12⟩ ∧ (system.parties 2).point = .popWaitItems ∧
      (∀ next, ¬InnerStep (fun _ => 4096) system next) ∧ QueueSettled 2 system := by
  have called : QueueRun (fun _ => 4096) twoNodeSystem [] calledSystem :=
    .step (.step (.step .start (.callPush 0 ⟨5, 70000, 12⟩ rfl)) (.callPop 1 rfl))
      (.callPop 2 rfl)
  have pushed : InnerRun (fun _ => 4096) calledSystem 6 _ :=
    .step (.step (.step (.step (.step (.step .start
      ((QueueStep.waitSlots 0 rfl rfl).goTo_isInner (by decide)))
      ((QueueStep.lockPush 0 rfl rfl).goTo_isInner (by decide)))
      ((QueueStep.copyIn 0 rfl rfl).goTo_isInner (by decide)))
      ((QueueStep.advanceTail 0 rfl rfl).goTo_isInner (by decide)))
      ((QueueStep.unlockPush 0 rfl).goTo_isInner (by decide)))
      ((QueueStep.postItems 0 rfl).goTo_isInner (by decide))
  have popped : InnerRun (fun _ => 4096) calledSystem 12 _ :=
    .step (.step (.step (.step (.step (.step pushed
      ((QueueStep.waitItems 1 rfl rfl).goTo_isInner (by decide)))
      ((QueueStep.lockPop 1 rfl rfl).goTo_isInner (by decide)))
      ((QueueStep.copyOut 1 rfl rfl).goWith_isInner (by decide)))
      ((QueueStep.advanceHead 1 rfl rfl).goTo_isInner (by decide)))
      ((QueueStep.unlockPop 1 rfl).goTo_isInner (by decide)))
      ((QueueStep.postSlots 1 rfl).goTo_isInner (by decide))
  obtain ⟨few, stopped_iff⟩ := queueRun_settles (by decide) _ _ called popped
  refine ⟨called, _, popped, few, rfl, rfl, (and_iff_right_of_imp stopped_iff.mpr).mpr ?_⟩
  refine .empty rfl rfl fun party => ?_
  fin_cases party
  · exact .inl rfl
  · exact .inl rfl
  · exact .inr rfl

end NtShm
