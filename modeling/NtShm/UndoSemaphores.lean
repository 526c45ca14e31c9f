import Mathlib.Algebra.Order.BigOperators.Group.List
import Mathlib.Data.List.GetD
import Mathlib.Tactic.Linarith
import Mathlib.Tactic.Ring

/-!
# Semaphores that are undone

A semaphore keeps, for every process, what the process took from it.  When a process ends,
however it ends, that is given back, so the value and what all processes took always add
up to what they were at first.
-/

namespace NtShm

/-- A value, and what is given back when each process ends. -/
structure UndoSemaphore where
  value : Int
  adjust : List Int

namespace UndoSemaphore

variable {s : UndoSemaphore} {p q : Nat}

def wait (s : UndoSemaphore) (p : Nat) : Option UndoSemaphore :=
  if 0 < s.value then some ⟨s.value - 1, s.adjust.set p (s.adjust.getD p 0 + 1)⟩ else none

def post (s : UndoSemaphore) (p : Nat) : UndoSemaphore :=
  ⟨s.value + 1, s.adjust.set p (s.adjust.getD p 0 - 1)⟩

def leave (s : UndoSemaphore) (p : Nat) : UndoSemaphore :=
  ⟨s.value + s.adjust.getD p 0, s.adjust.set p 0⟩

def join (s : UndoSemaphore) : UndoSemaphore := ⟨s.value, s.adjust ++ [0]⟩

def total (s : UndoSemaphore) : Int := s.value + s.adjust.sum

theorem sum_set {list : List Int} (number : Int) (inRange : p < list.length) :
    (list.set p number).sum = list.sum + (number - list.getD p 0) := by
  induction list generalizing p with
  | nil => cases inRange
  | cons first list ih =>
      cases p with
      | zero =>
          rw [List.set_cons_zero, List.sum_cons, List.sum_cons, List.getD_cons_zero]
          ring
      | succ p =>
          rw [List.set_cons_succ, List.sum_cons, List.sum_cons, List.getD_cons_succ,
            ih (Nat.lt_of_succ_lt_succ inRange)]
          ring

theorem wait_eq_some {taken : UndoSemaphore} :
    s.wait p = some taken ↔
      0 < s.value ∧ (⟨s.value - 1, s.adjust.set p (s.adjust.getD p 0 + 1)⟩ : UndoSemaphore) =
        taken := by
  rw [wait, Option.ite_none_right_eq_some, Option.some_inj]

theorem total_wait {taken : UndoSemaphore} (inRange : p < s.adjust.length)
    (takes : s.wait p = some taken) : taken.total = s.total := by
  obtain ⟨-, rfl⟩ := wait_eq_some.mp takes
  change s.value - 1 + (s.adjust.set p (s.adjust.getD p 0 + 1)).sum = s.value + s.adjust.sum
  rw [sum_set _ inRange]
  ring

theorem total_post (inRange : p < s.adjust.length) : (s.post p).total = s.total := by
  change s.value + 1 + (s.adjust.set p (s.adjust.getD p 0 - 1)).sum = s.value + s.adjust.sum
  rw [sum_set _ inRange]
  ring

theorem total_leave (inRange : p < s.adjust.length) : (s.leave p).total = s.total := by
  change s.value + s.adjust.getD p 0 + (s.adjust.set p 0).sum = s.value + s.adjust.sum
  rw [sum_set _ inRange]
  ring

theorem total_join : s.join.total = s.total := by
  change s.value + (s.adjust ++ [0]).sum = s.value + s.adjust.sum
  rw [List.sum_append, List.sum_singleton, add_zero]

theorem taken (one : s.total = 1) (none : s.value = 0) :
    ∃ p, ∃ inRange : p < s.adjust.length, 0 < s.adjust[p] := by
  by_contra free
  push Not at free
  have few := List.sum_le_card_nsmul s.adjust 0 fun number isNumber => by
    obtain ⟨p, inRange, rfl⟩ := List.mem_iff_getElem.mp isNumber
    exact free p inRange
  rw [nsmul_zero] at few
  unfold total at one
  omega

end UndoSemaphore

end NtShm
