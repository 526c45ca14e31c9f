import Mathlib.Data.List.Basic
import Mathlib.Tactic.SplitIfs

/-!
# Computations that need all the answers they ask for

A computation asks for answers, which a list says to be refusals or not; past the
end of the list none is refused.  It demands a number of answers if it has a result
exactly when none of them is refused, and then leaves the others.
-/

namespace NtShm

variable {α β : Type*}

/-- The computation gives the result unless one of its first `count` answers is
refused. -/
def Demands (f : List Bool → Option (α × List Bool)) (count : Nat) (result : α) : Prop :=
  ∀ refusals, f refusals =
    if true ∈ refusals.take count then none else some (result, refusals.drop count)

/-- If the computation succeeds without refusals, it demands some number of answers. -/
def Metered (f : List Bool → Option (α × List Bool)) : Prop :=
  ∀ result rest, f [] = some (result, rest) → ∃ count, Demands f count result

section Metering

variable {f f' : List Bool → Option (α × List Bool)}
  {g : α → List Bool → Option (β × List Bool)} {m n : Nat} {a : α} {b : β}

theorem Demands.nil (demands : Demands f n a) : f [] = some (a, []) := by
  rw [demands]
  simp

theorem Demands.bind (first : Demands f m a) (second : Demands (g a) n b) :
    Demands (fun refusals => (f refusals).bind fun (a, refusals) => g a refusals) (m + n) b := by
  intro refusals
  by_cases early : true ∈ refusals.take m
  · simp only [first refusals, List.take_add, List.mem_append, early, true_or, if_true,
      Option.bind_none]
  · simp only [first refusals, List.take_add, List.mem_append, early, false_or, if_false,
      Option.bind_some, second (refusals.drop m), List.drop_drop]

theorem Metered.congr (metered : Metered f) (same : ∀ refusals, f' refusals = f refusals) :
    Metered f' := by
  rwa [show f' = f from funext same]

theorem Metered.stuck : Metered fun _ => (none : Option (α × List Bool)) := by
  rintro result rest ⟨⟩

theorem Metered.ready (result : Option α) : Metered fun refusals => result.map (·, refusals) := by
  rintro a rest succeeds
  obtain ⟨_, isResult, same⟩ := Option.map_eq_some_iff.mp succeeds
  cases same
  refine ⟨0, fun refusals => ?_⟩
  rw [isResult]
  simp

theorem Metered.given {γ : Type*} (read : Option γ) {f : γ → List Bool → Option (α × List Bool)}
    (metered : ∀ c, read = some c → Metered (f c)) :
    Metered fun refusals => read.bind fun c => f c refusals := by
  cases isRead : read with
  | none => exact Metered.stuck
  | some c => exact metered c isRead

theorem Metered.ite {c : Prop} [Decidable c] (pos : c → Metered f) (neg : ¬ c → Metered f') :
    Metered fun refusals => if c then f refusals else f' refusals := by
  by_cases holds : c
  · exact (pos holds).congr fun _ => if_pos holds
  · exact (neg holds).congr fun _ => if_neg holds

theorem Metered.bind (first : Metered f) (second : ∀ a, Metered (g a)) :
    Metered fun refusals => (f refusals).bind fun (a, refusals) => g a refusals := by
  rintro b rest succeeds
  obtain ⟨⟨a, rest'⟩, isFirst, isSecond⟩ := Option.bind_eq_some_iff.mp succeeds
  obtain ⟨m, demands⟩ := first a rest' isFirst
  cases isFirst.symm.trans demands.nil
  obtain ⟨n, demands'⟩ := second a b rest isSecond
  exact ⟨m + n, demands.bind demands'⟩

end Metering

end NtShm
