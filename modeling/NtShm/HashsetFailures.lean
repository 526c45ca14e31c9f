import NtShm.HashsetIteration
import NtShm.HashsetRuns

/-!
# Hashsets when allocations fail

A hashset stays usable whichever entries cannot be allocated and whichever
arrays cannot grow.  Only where the first array of slots cannot be allocated,
`num_slots` is left positive over a NULL array.
-/

namespace NtShm

/-- A number of calls of `nt_hashset_iter_next`. -/
def iterate (hs : NtHashset) : Nat → NtHashsetIter → Option NtHashsetIter
  | 0, iter => some iter
  | count + 1, iter => do
      let (iter, _) ← ntHashsetIterNext hs iter
      iterate hs count iter

theorem iterate_isSome {hs : NtHashset} {table : List (List Nat)}
    (shape : HashsetShape hs table) (count : Nat) :
    ∀ {iter rest}, IterRest table iter rest → (iterate hs count iter).isSome := by
  induction count with
  | zero => exact fun _ => rfl
  | succ count ih =>
      intro iter rest remain
      obtain ⟨-, iter', isNext, finished⟩ | ⟨slot, before, entry, after, iter', isNext, here, -⟩ :=
        ntHashsetIterNext_rest shape remain
      · rw [iterate, isNext]
        exact ih (Or.inl ⟨finished, rfl⟩)
      · rw [iterate, isNext]
        exact ih (Or.inr (Or.inr ⟨slot, before, entry, after, here, rfl⟩))

/-- The hashset is well formed, and every further call on it works: an insert
that returns NULL changes nothing that is stored. -/
structure HashsetUsable (hs : NtHashset) : Prop where
  shape : ∃ table, HashsetShape hs table
  slots : hs.slots = none → hs.numSlots = 0
  inserts : ∀ data size offset allocs,
    (HashsetOp.insertExt data size offset allocs).Proper hs →
    (hs.numSlots = 0 → allocs.slots = true) →
    ∃ hs' result, ntHashsetInsertExt hs data size offset allocs = some (hs', result) ∧
      (result = none → hs'.records = hs.records ∧ hs'.numData = hs.numData)
  searches : ∀ data, (ntHashsetSearch hs data).isSome
  removes : ∀ data, (ntHashsetRemove hs data).isSome
  removesDirect : ∀ entry, (hs.entries entry).isSome →
    (ntHashsetRemoveDirect hs (entry + dataOffset)).isSome
  clears : (ntHashsetClear hs).isSome
  iterates : ∀ entry count, (iterate hs count (ntHashsetIterReset entry)).isSome

/-- The first array of slots can be allocated wherever a call asks for it. -/
def HashsetOp.SlotsSucceed (hs : NtHashset) : HashsetOp → Prop
  | .insertExt _ _ _ allocs => hs.numSlots = 0 → allocs.slots = true
  | _ => True

section Failures

variable {hashFunc : List UInt8 → UInt32}
  {compareFunc : List UInt8 → List UInt8 → Int} {hs : NtHashset}
  {table : List (List Nat)}

theorem Inserted.unchanged {data : List UInt8} {size offset : Nat}
    {allocs : HashsetAllocs} {hs' : NtHashset} {result : Option Nat}
    (inserted : Inserted hs data size offset allocs hs' result)
    (refused : result = none) : hs'.records = hs.records ∧ hs'.numData = hs.numData := by
  cases inserted with
  | present => cases refused
  | refused _ records num => exact ⟨records, num⟩
  | added => cases refused

theorem HashsetShape.insert (shape : HashsetShape hs table) {data : List UInt8}
    {size offset : Nat} {allocs : HashsetAllocs}
    (proper : (HashsetOp.insertExt data size offset allocs).Proper hs)
    (slots : hs.numSlots = 0 → allocs.slots = true) :
    ∃ hs' result table',
      ntHashsetInsertExt hs data size offset allocs = some (hs', result) ∧
      HashsetShape hs' table' ∧
      (result = none → hs'.records = hs.records ∧ hs'.numData = hs.numData) := by
  obtain ⟨hs', result, table', inserts, shape', -, inserted, -⟩ :=
    ntHashsetInsertExt_spec shape data size offset allocs slots
      (fun block isBlock => ⟨(proper block isBlock).1, (proper block isBlock).2.1⟩)
      (fun block isBlock => records_eq_none (proper block isBlock).2.2)
  exact ⟨hs', result, table', inserts, shape', inserted.unchanged⟩

theorem HashsetShape.usable (shape : HashsetShape hs table) : HashsetUsable hs := by
  constructor
  case shape => exact ⟨table, shape⟩
  case slots =>
    intro isNull
    rcases shape.slots with ⟨-, rfl⟩ | ⟨heads, isHeads, -⟩
    · exact shape.size
    · rw [isNull] at isHeads
      cases isHeads
  case inserts =>
    intro data size offset allocs proper slots
    obtain ⟨hs', result, -, inserts, -, unchanged⟩ := shape.insert proper slots
    exact ⟨hs', result, inserts, unchanged⟩
  case searches =>
    intro data
    obtain ⟨found, searches, -⟩ := ntHashsetSearch_spec shape data
    rw [searches]
    rfl
  case removes =>
    intro data
    obtain ⟨found, hs', removes, -⟩ := ntHashsetRemove_spec shape data
    rw [removes]
    rfl
  case removesDirect =>
    intro entry live
    obtain ⟨record, isRecord⟩ := isSome_records live
    obtain ⟨hs', removes, -⟩ := ntHashsetRemoveDirect_spec shape isRecord
    rw [removes]
    rfl
  case clears =>
    obtain ⟨hs', -, -, clears, -⟩ := ntHashsetClear_spec shape
    rw [clears]
    rfl
  case iterates =>
    intro entry count
    exact iterate_isSome shape count (iterRest_reset entry)

theorem HashsetOp.run_shape {op : HashsetOp} {hs' : NtHashset}
    (shape : HashsetShape hs table) (proper : op.Proper hs)
    (slots : op.SlotsSucceed hs) (runs : op.run hs = some hs') :
    ∃ table', HashsetShape hs' table' := by
  cases op with
  | insertExt data size offset allocs =>
      obtain ⟨hs'', result, table', inserts, shape', -⟩ := shape.insert proper slots
      rw [HashsetOp.run, inserts] at runs
      cases runs
      exact ⟨table', shape'⟩
  | search data =>
      obtain ⟨found, searches, -⟩ := ntHashsetSearch_spec shape data
      rw [HashsetOp.run, searches] at runs
      cases runs
      exact ⟨table, shape⟩
  | remove data =>
      obtain ⟨found, hs'', removes, -, removed⟩ := ntHashsetRemove_spec shape data
      cases runs.symm.trans removes
      cases found with
      | none =>
          have unchanged : hs' = hs := removed
          exact ⟨table, unchanged ▸ shape⟩
      | some entry => exact Removed.shape removed
  | removeDirect data =>
      obtain ⟨entry, rfl, live⟩ := proper
      obtain ⟨record, isRecord⟩ := isSome_records live
      obtain ⟨hs'', removes, removed⟩ := ntHashsetRemoveDirect_spec shape isRecord
      cases runs.symm.trans removes
      exact removed.shape
  | clear =>
      obtain ⟨hs'', table', -, clears, shape', -⟩ := ntHashsetClear_spec shape
      cases runs.symm.trans clears
      exact ⟨table', shape'⟩

/-- A hashset stays usable in every run in which the first array of slots can be
allocated, whichever other allocations fail. -/
theorem hashsetRun_usable {cleanFunc : Bool} {initSize : Nat} {slots : Bool}
    (creation : 0 < initSize → slots = true) {history : List HashsetOp}
    (run : HashsetRun hashFunc compareFunc cleanFunc
      (fun hs op => op.Proper hs ∧ op.SlotsSucceed hs) initSize slots history hs) :
    HashsetUsable hs := by
  have shape : ∃ table, HashsetShape hs table := by
    induction run with
    | create creates =>
        obtain ⟨hs, table, creates', shape, -⟩ := ntHashsetCreateExt_spec initSize
          hashFunc compareFunc cleanFunc slots creation
        cases creates.symm.trans creates'
        exact ⟨table, shape⟩
    | step _ permitted runs ih =>
        obtain ⟨table, shape⟩ := ih
        exact HashsetOp.run_shape shape permitted.1 permitted.2 runs
  obtain ⟨table, shape⟩ := shape
  exact shape.usable

end Failures

/-- Creation cannot allocate the slots, and the next insert follows NULL. -/
theorem hashsetUsable_fails_created :
    ∃ created, ntHashsetCreateExt 1 (fun _ => 0) compareBytes false false =
        some created ∧
      HashsetRun (fun _ => 0) compareBytes false (fun hs op => op.Proper hs) 1 false []
        created ∧
      ntHashsetInsert created [1] 1 ⟨true, true, some ⟨100, fun _ => 0⟩⟩ = none ∧
      ¬ HashsetUsable created := by
  obtain ⟨numSlots, isNext, prime, -⟩ := nextPrime_spec (asInt (1 % 2 ^ 32))
  have someSlots : numSlots ≠ 0 := prime.pos.ne'
  have creates : ntHashsetCreateExt 1 (fun _ => 0) compareBytes false false =
      some ⟨none, numSlots, 0, fun _ => 0, compareBytes, false, fun _ => none, []⟩ := by
    rw [ntHashsetCreateExt, NtHashset.initSlots, if_pos (by decide), isNext]
    rfl
  refine ⟨_, creates, HashsetRun.create creates, ?_, ?_⟩
  · rw [ntHashsetInsert, ntHashsetInsertExt, if_neg someSlots]
    rfl
  · intro usable
    exact someSlots (usable.slots rfl)

theorem hashsetRun_usable_refused :
    ∃ created hs result,
      ntHashsetCreateExt 0 (fun _ => 0) compareBytes false false = some created ∧
      ntHashsetInsert created [1] 1 ⟨true, true, none⟩ = some (hs, result) ∧
      HashsetUsable created ∧ HashsetUsable hs := by
  obtain ⟨created, -, creates, -⟩ :=
    ntHashsetCreateExt_spec 0 (fun _ => 0) compareBytes false false (by simp)
  have start : HashsetRun _ _ _ (fun hs op => op.Proper hs ∧ op.SlotsSucceed hs) _ _ []
    created := HashsetRun.create creates
  have usable := hashsetRun_usable (by simp) start
  let op : HashsetOp := .insertExt [1] 1 0 ⟨true, true, none⟩
  have permitted : op.Proper created ∧ op.SlotsSucceed created :=
    ⟨by rintro block ⟨⟩, fun _ => rfl⟩
  obtain ⟨hs, result, inserts, -⟩ := usable.inserts [1] 1 0 _ permitted.1 fun _ => rfl
  have runs : op.run created = some hs := by
    rw [HashsetOp.run, inserts]
    rfl
  have next := start.step permitted runs
  exact ⟨created, hs, result, creates, inserts, usable, hashsetRun_usable (by simp) next⟩

end NtShm
