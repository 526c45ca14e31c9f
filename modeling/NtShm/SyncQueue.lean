import NtShm.BinaryHeap
import Mathlib.Data.Prod.Lex

/-!
# Order of the sync queue

Items of the queue are compared by the timestamps of their oldest values, with one
subtraction of two `int`s.
-/

namespace NtShm

/-! ## Comparison functions -/

section Comparisons

variable {α β : Type*} [LinearOrder β] {compareFunc : α → α → Option Int} {key : α → β}
  {elems : Set α}

/-- The result of a comparison says how the keys are ordered. -/
def ComparedAs (result : Int) (first second : β) : Prop :=
  (result < 0 ↔ first < second) ∧ (0 < result ↔ second < first)

/-- The comparison is defined on the elements, its sign changes when they are swapped,
and what comes first stays first from one to the next. -/
structure ComparesInOrder (compareFunc : α → α → Option Int) (elems : Set α) : Prop where
  defined : ∀ first ∈ elems, ∀ second ∈ elems, ∃ result, compareFunc first second = some result
  antisymm : ∀ first ∈ elems, ∀ second ∈ elems, ∀ result swapped,
    compareFunc first second = some result → compareFunc second first = some swapped →
    swapped.sign = -result.sign
  trans : ∀ first ∈ elems, ∀ second ∈ elems, ∀ third ∈ elems, ∀ result result' across,
    compareFunc first second = some result → compareFunc second third = some result' →
    compareFunc first third = some across → result ≤ 0 → result' ≤ 0 → across ≤ 0

def ComparesBy (compareFunc : α → α → Option Int) (key : α → β) (elems : Set α) : Prop :=
  ∀ first ∈ elems, ∀ second ∈ elems,
    ∃ result, compareFunc first second = some result ∧ ComparedAs result (key first) (key second)

theorem ComparedAs.le_zero_iff {result : Int} {first second : β}
    (compared : ComparedAs result first second) : result ≤ 0 ↔ first ≤ second := by
  rw [← not_lt, compared.2, not_lt]

theorem ComparedAs.sign_swap {result swapped : Int} {first second : β}
    (compared : ComparedAs result first second) (compared' : ComparedAs swapped second first) :
    swapped.sign = -result.sign := by
  rcases lt_trichotomy first second with before | rfl | after
  · rw [Int.sign_eq_neg_one_of_neg (compared.1.mpr before),
      Int.sign_eq_one_of_pos (compared'.2.mpr before), neg_neg]
  · have isZero := compared.le_zero_iff.mpr le_rfl
    have isZero' := compared'.le_zero_iff.mpr le_rfl
    have notBefore := mt compared.1.mp (lt_irrefl first)
    have notBefore' := mt compared'.1.mp (lt_irrefl first)
    have same : result = 0 := by omega
    have same' : swapped = 0 := by omega
    rw [same, same', Int.sign_zero, neg_zero]
  · rw [Int.sign_eq_one_of_pos (compared.2.mpr after),
      Int.sign_eq_neg_one_of_neg (compared'.1.mpr after)]

theorem ComparesBy.inOrder (byKey : ComparesBy compareFunc key elems) :
    ComparesInOrder compareFunc elems := by
  have compared : ∀ first ∈ elems, ∀ second ∈ elems, ∀ result,
      compareFunc first second = some result → ComparedAs result (key first) (key second) := by
    intro first isFirst second isSecond result compares
    obtain ⟨result', compares', compared⟩ := byKey first isFirst second isSecond
    cases compares.symm.trans compares'
    exact compared
  constructor
  · intro first isFirst second isSecond
    obtain ⟨result, compares, -⟩ := byKey first isFirst second isSecond
    exact ⟨result, compares⟩
  · intro first isFirst second isSecond result swapped compares compares'
    exact (compared first isFirst second isSecond result compares).sign_swap
      (compared second isSecond first isFirst swapped compares')
  · intro first isFirst second isSecond third isThird result result' across compares compares'
      comparesAcross before before'
    rw [(compared first isFirst second isSecond result compares).le_zero_iff] at before
    rw [(compared second isSecond third isThird result' compares').le_zero_iff] at before'
    rw [(compared first isFirst third isThird across comparesAcross).le_zero_iff]
    exact before.trans before'

end Comparisons

/-! ## Timestamps -/

/-- `nt_timespec_t`. -/
structure NtTimespec where
  sec : Int32
  ns : Int32
  deriving DecidableEq

/-- `nt_sync_data_t`, as far as it is compared. -/
structure NtSyncData where
  ts : NtTimespec

/-- `nt_sync_item_t`, as far as it is compared; `tail` is an address. -/
structure NtSyncItem where
  tail : Nat

structure SyncMemory where
  item : Nat → NtSyncItem
  data : Nat → NtSyncData

/-- What becomes of an `int` that overflows: it is undefined, or keeps its low 32 bits. -/
inductive IntOverflow
  | undefined
  | wraps

/-- The difference of two `int`s. -/
def IntOverflow.sub (first second : Int32) : IntOverflow → Option Int
  | .undefined => intResult (first.toInt - second.toInt)
  | .wraps => some (first - second).toInt

/-- `nt_timespec_compare`. -/
def ntTimespecCompare (overflow : IntOverflow) (t1 t2 : NtTimespec) : Option Int :=
  if t1.sec = t2.sec then overflow.sub t1.ns t2.ns else overflow.sub t1.sec t2.sec

/-- The timestamp of the oldest value of the item that an element of the queue stands
for. -/
def SyncMemory.oldest (mem : SyncMemory) (elem : NtBinaryHeapElem) : NtTimespec :=
  (mem.data (mem.item elem.data).tail).ts

/-- `sync_queue_elem_compare_func`. -/
def syncQueueElemCompareFunc (overflow : IntOverflow) (mem : SyncMemory)
    (e1 e2 : NtBinaryHeapElem) : Option Int :=
  ntTimespecCompare overflow (mem.oldest e1) (mem.oldest e2)

def NtTimespec.lexicographic (ts : NtTimespec) : Lex (Int × Int) :=
  toLex (ts.sec.toInt, ts.ns.toInt)

/-- The comparison is a total preorder on the elements, and it is the lexicographic
order of their timestamps. -/
structure SyncQueueOrdered (overflow : IntOverflow) (mem : SyncMemory)
    (elems : Set NtBinaryHeapElem) : Prop where
  inOrder : ComparesInOrder (syncQueueElemCompareFunc overflow mem) elems
  lexicographic : ComparesBy (syncQueueElemCompareFunc overflow mem)
    (fun elem => (mem.oldest elem).lexicographic) elems

/-- The difference of two `int`s is an `int`. -/
def DifferenceFits (first second : Int32) : Prop :=
  -2 ^ 31 ≤ first.toInt - second.toInt ∧ first.toInt - second.toInt < 2 ^ 31

instance (first second : Int32) : Decidable (DifferenceFits first second) :=
  inferInstanceAs (Decidable (_ ∧ _))

/-- The difference that is taken for two timestamps is an `int`: of the nanoseconds
where the seconds are the same, else of the seconds. -/
def NtTimespec.Near (t1 t2 : NtTimespec) : Prop :=
  if t1.sec = t2.sec then DifferenceFits t1.ns t2.ns else DifferenceFits t1.sec t2.sec

section Order

variable {overflow : IntOverflow} {t1 t2 : NtTimespec}

theorem intResult_compared_iff {first second : Int32} :
    (∃ result, intResult (first.toInt - second.toInt) = some result ∧
      ComparedAs result first.toInt second.toInt) ↔ DifferenceFits first second := by
  constructor
  · rintro ⟨result, isResult, -⟩
    exact intResult_isSome.mp (by rw [isResult]; rfl)
  · rintro ⟨low, high⟩
    exact ⟨_, intResult_eq_some low high, sub_neg, sub_pos⟩

/-- A difference that wraps around has the wrong sign. -/
theorem wraps_compared_iff {first second : Int32} :
    ComparedAs (first - second).toInt first.toInt second.toInt ↔
      DifferenceFits first second := by
  have low := first.le_toInt
  have high := first.toInt_lt
  have low' := second.le_toInt
  have high' := second.toInt_lt
  rw [ComparedAs, DifferenceFits, Int32.toInt_sub, Int.bmod_def]
  constructor
  · rintro ⟨before, after⟩
    omega
  · rintro ⟨notBelow, notAbove⟩
    omega

/-- A subtraction compares two `int`s exactly when their difference is an `int`. -/
theorem IntOverflow.compared_iff (overflow : IntOverflow) {first second : Int32} :
    (∃ result, overflow.sub first second = some result ∧
      ComparedAs result first.toInt second.toInt) ↔ DifferenceFits first second := by
  cases overflow with
  | undefined => exact intResult_compared_iff
  | wraps =>
      rw [← wraps_compared_iff]
      constructor
      · rintro ⟨result, isResult, compared⟩
        cases isResult
        exact compared
      · intro compared
        exact ⟨_, rfl, compared⟩

theorem comparedAs_lexicographic (result : Int) :
    ComparedAs result t1.lexicographic t2.lexicographic ↔
      if t1.sec = t2.sec then ComparedAs result t1.ns.toInt t2.ns.toInt
      else ComparedAs result t1.sec.toInt t2.sec.toInt := by
  unfold ComparedAs NtTimespec.lexicographic
  rw [Prod.Lex.toLex_lt_toLex, Prod.Lex.toLex_lt_toLex]
  by_cases same : t1.sec = t2.sec
  · simp [same]
  · have differs : t1.sec.toInt ≠ t2.sec.toInt := fun eq => same (Int32.toInt_inj.mp eq)
    simp [same, differs, differs.symm]

theorem ntTimespecCompare_right_iff (overflow : IntOverflow) (t1 t2 : NtTimespec) :
    (∃ result, ntTimespecCompare overflow t1 t2 = some result ∧
      ComparedAs result t1.lexicographic t2.lexicographic) ↔ t1.Near t2 := by
  unfold ntTimespecCompare NtTimespec.Near
  by_cases same : t1.sec = t2.sec
  · simp only [comparedAs_lexicographic, if_pos same]
    exact overflow.compared_iff
  · simp only [comparedAs_lexicographic, if_neg same]
    exact overflow.compared_iff

/-- The elements are ordered exactly when every two of them have near timestamps. -/
theorem syncQueueElemCompareFunc_right_iff (overflow : IntOverflow) (mem : SyncMemory)
    (elems : Set NtBinaryHeapElem) :
    SyncQueueOrdered overflow mem elems ↔
      ∀ first ∈ elems, ∀ second ∈ elems, (mem.oldest first).Near (mem.oldest second) := by
  constructor
  · intro ordered first isFirst second isSecond
    exact (ntTimespecCompare_right_iff overflow _ _).mp
      (ordered.lexicographic first isFirst second isSecond)
  · intro near
    have byKey : ComparesBy (syncQueueElemCompareFunc overflow mem)
        (fun elem => (mem.oldest elem).lexicographic) elems := by
      intro first isFirst second isSecond
      exact (ntTimespecCompare_right_iff overflow _ _).mpr (near first isFirst second isSecond)
    exact ⟨byKey.inOrder, byKey⟩

end Order

/-- The oldest value of the item at 0 is from the last second that an `int` holds, and
of the other items from the second before the epoch. -/
def farApart : SyncMemory where
  item address := ⟨address⟩
  data address := ⟨⟨if address = 0 then 2147483647 else -1, 0⟩⟩

/-- Either of two items comes before the other, or the comparison is not defined. -/
theorem syncQueueElemCompareFunc_overflows :
    syncQueueElemCompareFunc .wraps farApart ⟨0, 0⟩ ⟨1, 1⟩ = some (-2147483648) ∧
      syncQueueElemCompareFunc .wraps farApart ⟨1, 1⟩ ⟨0, 0⟩ = some (-2147483648) ∧
      syncQueueElemCompareFunc .undefined farApart ⟨0, 0⟩ ⟨1, 1⟩ = none ∧
      ∀ overflow, ¬ SyncQueueOrdered overflow farApart Set.univ := by
  have wraps : syncQueueElemCompareFunc .wraps farApart ⟨0, 0⟩ ⟨1, 1⟩ = some (-2147483648) := by
    decide
  have wraps' : syncQueueElemCompareFunc .wraps farApart ⟨1, 1⟩ ⟨0, 0⟩ = some (-2147483648) := by
    decide
  have undefined : syncQueueElemCompareFunc .undefined farApart ⟨0, 0⟩ ⟨1, 1⟩ = none := by
    decide
  refine ⟨wraps, wraps', undefined, fun overflow ordered => ?_⟩
  cases overflow with
  | undefined =>
      obtain ⟨result, compares⟩ := ordered.inOrder.defined ⟨0, 0⟩ trivial ⟨1, 1⟩ trivial
      cases compares.symm.trans undefined
  | wraps =>
      have swaps := ordered.inOrder.antisymm ⟨0, 0⟩ trivial ⟨1, 1⟩ trivial _ _ wraps wraps'
      revert swaps
      decide

end NtShm
