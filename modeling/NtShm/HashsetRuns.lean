import NtShm.HashsetSets

/-!
# Runs of the hashset

Sequences of calls from the creation of a hashset on, with what the functions
for memory answer in them.  As long as all allocations succeed, a search answers
from the history of the calls.
-/

namespace NtShm

/-- A call on a hashset; `nt_hashset_insert` has the offset 0.  `removeDirect`
has a data pointer. -/
inductive HashsetOp
  | insertExt (data : List UInt8) (size offset : Nat) (allocs : HashsetAllocs)
  | search (data : List UInt8)
  | remove (data : List UInt8)
  | removeDirect (data : Nat)
  | clear

namespace HashsetOp

def run (hs : NtHashset) : HashsetOp → Option NtHashset
  | .insertExt data size offset allocs =>
      (ntHashsetInsertExt hs data size offset allocs).map Prod.fst
  | .search data => (ntHashsetSearch hs data).map fun _ => hs
  | .remove data => ntHashsetRemove hs data
  | .removeDirect data => ntHashsetRemoveDirect hs data
  | .clear => ntHashsetClear hs

/-- What a caller and the allocator keep to: the record is as long as said, the
block for an entry is not in use, and pointers are to the data of entries. -/
def Proper (hs : NtHashset) : HashsetOp → Prop
  | .insertExt data size offset allocs => ∀ block, allocs.entry = some block →
      offset ≤ size ∧ size ≤ data.length ∧ hs.entries block.address = none
  | .removeDirect data => ∃ entry, data = entry + dataOffset ∧
      (hs.entries entry).isSome
  | _ => True

/-- All allocations succeed, and `compare` ignores the bytes that an insert does
not copy. -/
def Succeeds (compareFunc : List UInt8 → List UInt8 → Int) : HashsetOp → Prop
  | .insertExt data size offset allocs => allocs.slots = true ∧
      allocs.realloc = true ∧ ∃ block, allocs.entry = some block ∧
        compareFunc (storedBytes block data size offset) data = 0
  | _ => True

/-- What a call makes of the data pointers for records. -/
def presentAfter (compareFunc : List UInt8 → List UInt8 → Int)
    (present : List UInt8 → Option Nat) : HashsetOp → List UInt8 → Option Nat
  | .insertExt data _ _ allocs, record =>
      if compareFunc data record = 0 then
        (present record).or
          (allocs.entry.map fun block => block.address + dataOffset)
      else present record
  | .search _, record => present record
  | .remove data, record =>
      if compareFunc data record = 0 then none else present record
  | .removeDirect data, record =>
      if present record = some data then none else present record
  | .clear, _ => none

end HashsetOp

/-- The data pointer from the earliest insert of an equal record since such a
record was last removed. -/
def presentIn (compareFunc : List UInt8 → List UInt8 → Int)
    (history : List HashsetOp) : List UInt8 → Option Nat :=
  history.foldl (HashsetOp.presentAfter compareFunc) fun _ => none

/-- The hashsets that come from a sequence of calls, each permitted where it
happens.  `slots` says whether the creation can allocate slots. -/
inductive HashsetRun (hashFunc : List UInt8 → UInt32)
    (compareFunc : List UInt8 → List UInt8 → Int) (cleanFunc : Bool)
    (permitted : NtHashset → HashsetOp → Prop) (initSize : Nat) (slots : Bool) :
    List HashsetOp → NtHashset → Prop
  | create {hs} :
      ntHashsetCreateExt initSize hashFunc compareFunc cleanFunc slots = some hs →
      HashsetRun hashFunc compareFunc cleanFunc permitted initSize slots [] hs
  | step {history hs op hs'} :
      HashsetRun hashFunc compareFunc cleanFunc permitted initSize slots history hs →
      permitted hs op → op.run hs = some hs' →
      HashsetRun hashFunc compareFunc cleanFunc permitted initSize slots
        (history ++ [op]) hs'

section Steps

variable {hashFunc : List UInt8 → UInt32}
  {compareFunc : List UInt8 → List UInt8 → Int} {hs : NtHashset}
  {present : List UInt8 → Option Nat}

theorem ntHashsetCreateExt_spec (initSize : Nat) (hashFunc : List UInt8 → UInt32)
    (compareFunc : List UInt8 → List UInt8 → Int) (cleanFunc slots : Bool)
    (succeeds : 0 < initSize → slots = true) :
    ∃ hs table, ntHashsetCreateExt initSize hashFunc compareFunc cleanFunc slots =
        some hs ∧ HashsetShape hs table ∧ hs.hashFunc = hashFunc ∧
      hs.compareFunc = compareFunc ∧ (∀ entry, hs.records entry = none) ∧
      hs.cleanFunc = cleanFunc ∧ (0 < initSize ↔ 0 < hs.numSlots) ∧
      hs.events = if 0 < initSize then [.mallocSlots] else [] := by
  let bare : NtHashset :=
    ⟨none, 0, 0, hashFunc, compareFunc, cleanFunc, fun _ => none, []⟩
  have noRecords : ∀ entry, bare.records entry = none := fun _ => rfl
  obtain ⟨hs, table, inits, shape, functions, records, -, someSlots, events⟩ :=
    initSlots_spec noRecords initSize
  have inits' : bare.initSlots initSize slots = some (hs, true) := by
    by_cases someSize : 0 < initSize
    · rw [succeeds someSize, inits]
    · rw [NtHashset.initSlots, if_neg someSize] at inits ⊢
      exact inits
  refine ⟨hs, table, ?_, shape, functions.hash, functions.compare, fun entry => ?_,
    functions.clean, someSlots, events⟩
  · rw [ntHashsetCreateExt, inits']
    rfl
  · rw [records, noRecords]

theorem records_eq_none {entry : Nat} (free : hs.entries entry = none) :
    hs.records entry = none := by
  rw [NtHashset.records, recordsOf, free]
  rfl

theorem isSome_records {entry : Nat} (live : (hs.entries entry).isSome) :
    ∃ record, hs.records entry = some record := by
  obtain ⟨node, isNode⟩ := Option.isSome_iff_exists.mp live
  exact ⟨_, recordsOf_eq_some isNode⟩

namespace RepresentsSet

theorem insert (equality : RecordEquality hashFunc compareFunc)
    (represents : RepresentsSet hashFunc compareFunc hs present) {data : List UInt8}
    {size offset : Nat} {allocs : HashsetAllocs}
    (proper : (HashsetOp.insertExt data size offset allocs).Proper hs)
    (succeeds : (HashsetOp.insertExt data size offset allocs).Succeeds compareFunc) :
    ∃ hs' result, ntHashsetInsertExt hs data size offset allocs =
        some (hs', some result) ∧
      HashsetOp.presentAfter compareFunc present
        (.insertExt data size offset allocs) data = some result ∧
      ((present data).isSome → hs' = hs) ∧
      RepresentsSet hashFunc compareFunc hs'
        (HashsetOp.presentAfter compareFunc present
          (.insertExt data size offset allocs)) := by
  obtain ⟨table, shape⟩ := represents.shape
  obtain ⟨slots, reallocs, block, isBlock, copied⟩ := succeeds
  have reflexive := equality.equivalence.refl data
  obtain ⟨hs', result, table', inserts, shape', functions, inserted, -⟩ :=
    ntHashsetInsertExt_spec shape data size offset allocs (fun _ => slots)
      (fun block isBlock => ⟨(proper block isBlock).1, (proper block isBlock).2.1⟩)
      (fun block isBlock => records_eq_none (proper block isBlock).2.2)
  cases inserted with
  | @present entry finds =>
      have known := represents.finds_iff equality finds
      refine ⟨hs, entry + dataOffset, inserts, ?_, fun _ => rfl, ?_⟩
      · rw [HashsetOp.presentAfter, if_pos reflexive, known]
        rfl
      · have same : HashsetOp.presentAfter compareFunc present
            (.insertExt data size offset allocs) = present := by
          ext other : 1
          rw [HashsetOp.presentAfter]
          split
          · next equal =>
              rw [← represents.present_congr equality equal, known]
              rfl
          · rfl
        rwa [same]
  | refused _ _ _ failed =>
      cases failed with
      | inl noRealloc =>
          rw [reallocs] at noRealloc
          cases noRealloc
      | inr noEntry =>
          rw [isBlock] at noEntry
          cases noEntry
  | @added _ block' finds isBlock' records num =>
      cases isBlock.symm.trans isBlock'
      have absent : present data = none := represents.finds_iff equality finds
      rw [represents.hash] at records
      have withNew : ∀ other, HashsetOp.presentAfter compareFunc present
          (.insertExt data size offset allocs) other =
          if compareFunc data other = 0 then some (block.address + dataOffset)
          else present other := by
        intro other
        rw [HashsetOp.presentAfter]
        split
        · next equal =>
            rw [← represents.present_congr equality equal, absent, isBlock]
            rfl
        · rfl
      refine ⟨hs', _, inserts, ?_, ?_, ?_⟩
      · rw [withNew, if_pos reflexive]
      · intro isPresent
        rw [absent] at isPresent
        cases isPresent
      · exact represents.added equality functions ⟨table', shape'⟩
          (records_eq_none (proper block isBlock).2.2) absent copied records withNew

theorem remove (equality : RecordEquality hashFunc compareFunc)
    (represents : RepresentsSet hashFunc compareFunc hs present)
    (data : List UInt8) :
    ∃ hs', ntHashsetRemove hs data = some hs' ∧
      (∀ entry, hs'.records entry =
        if present data = some (entry + dataOffset) then none
        else hs.records entry) ∧
      RepresentsSet hashFunc compareFunc hs'
        (HashsetOp.presentAfter compareFunc present (.remove data)) := by
  obtain ⟨table, shape⟩ := represents.shape
  obtain ⟨found, hs', removes, finds, removed⟩ := ntHashsetRemove_spec shape data
  have known := represents.finds_iff equality finds
  refine ⟨hs', removes, ?_⟩
  cases found with
  | none =>
      have unchanged : hs' = hs := removed
      subst unchanged
      refine ⟨fun entry => ?_, ?_⟩
      · rw [known]
        rfl
      · have same : HashsetOp.presentAfter compareFunc present (.remove data) =
            present := by
          ext other : 1
          rw [HashsetOp.presentAfter]
          split
          · next equal =>
              rw [← represents.present_congr equality equal, known]
              rfl
          · rfl
        rwa [same]
  | some entry =>
      obtain ⟨record, isRecord, matches'⟩ := finds
      rw [represents.matches_iff equality isRecord] at matches'
      have gone : Removed hs entry hs' := removed
      refine ⟨fun other => ?_, ?_⟩
      · rw [known, gone.records, Function.update_apply]
        simp [eq_comm]
      · apply represents.removed equality gone isRecord
        intro other
        rw [HashsetOp.presentAfter]
        have sameClass : compareFunc data other = 0 ↔ compareFunc record.2 other = 0 :=
          ⟨equality.equivalence.trans matches',
            equality.equivalence.trans (equality.equivalence.symm matches')⟩
        simp only [sameClass]

theorem removeDirect (equality : RecordEquality hashFunc compareFunc)
    (represents : RepresentsSet hashFunc compareFunc hs present) {entry : Nat}
    {record : UInt32 × List UInt8} (isRecord : hs.records entry = some record) :
    ∃ hs', ntHashsetRemoveDirect hs (entry + dataOffset) = some hs' ∧
      hs'.records = Function.update hs.records entry none ∧
      RepresentsSet hashFunc compareFunc hs'
        (HashsetOp.presentAfter compareFunc present
          (.removeDirect (entry + dataOffset))) := by
  obtain ⟨table, shape⟩ := represents.shape
  obtain ⟨hs', removes, gone⟩ := ntHashsetRemoveDirect_spec shape isRecord
  refine ⟨hs', removes, gone.records, represents.removed equality gone isRecord ?_⟩
  intro other
  rw [HashsetOp.presentAfter]
  have sameClass : present other = some (entry + dataOffset) ↔
      compareFunc record.2 other = 0 := by
    rw [represents.maps]
    constructor
    · rintro ⟨entry', record', isPointer, isRecord', equal⟩
      cases Nat.add_right_cancel isPointer
      cases isRecord.symm.trans isRecord'
      exact equal
    · exact fun equal => ⟨entry, record, rfl, isRecord, equal⟩
  simp only [sameClass]

theorem clear (represents : RepresentsSet hashFunc compareFunc hs present) :
    ∃ hs', ntHashsetClear hs = some hs' ∧ (∀ entry, hs'.records entry = none) ∧
      RepresentsSet hashFunc compareFunc hs' fun _ => none := by
  obtain ⟨table, shape⟩ := represents.shape
  obtain ⟨hs', table', -, clears, shape', functions, noRecords, -⟩ :=
    ntHashsetClear_spec shape
  refine ⟨hs', clears, noRecords, represents.transfer functions ⟨table', shape'⟩ ?_ ?_⟩
  · intro entry record isRecord
    rw [noRecords] at isRecord
    cases isRecord
  · intro data pointer
    refine iff_of_false (by simp) ?_
    rintro ⟨entry, record, -, isRecord, -⟩
    rw [noRecords] at isRecord
    cases isRecord

theorem step (equality : RecordEquality hashFunc compareFunc)
    (represents : RepresentsSet hashFunc compareFunc hs present) {op : HashsetOp}
    (proper : op.Proper hs) (succeeds : op.Succeeds compareFunc) {hs' : NtHashset}
    (runs : op.run hs = some hs') :
    RepresentsSet hashFunc compareFunc hs' (op.presentAfter compareFunc present) := by
  cases op with
  | insertExt data size offset allocs =>
      obtain ⟨hs'', result, inserts, -, -, represents'⟩ :=
        represents.insert equality proper succeeds
      rw [HashsetOp.run, inserts] at runs
      cases runs
      exact represents'
  | search data =>
      obtain ⟨table, shape⟩ := represents.shape
      obtain ⟨found, searches, -⟩ := ntHashsetSearch_spec shape data
      rw [HashsetOp.run, searches] at runs
      cases runs
      exact represents
  | remove data =>
      obtain ⟨hs'', removes, -, represents'⟩ := represents.remove equality data
      cases runs.symm.trans removes
      exact represents'
  | removeDirect data =>
      obtain ⟨entry, rfl, live⟩ := proper
      obtain ⟨record, isRecord⟩ := isSome_records live
      obtain ⟨hs'', removes, -, represents'⟩ :=
        represents.removeDirect equality isRecord
      cases runs.symm.trans removes
      exact represents'
  | clear =>
      obtain ⟨hs'', clears, -, represents'⟩ := represents.clear
      cases runs.symm.trans clears
      exact represents'

end RepresentsSet

end Steps

def PermittedSuccess (compareFunc : List UInt8 → List UInt8 → Int)
    (hs : NtHashset) (op : HashsetOp) : Prop :=
  op.Proper hs ∧ op.Succeeds compareFunc

/-- The hashset is a set: its chains are in order, and every call does what it
should for the records present. -/
structure HashsetCorrect (compareFunc : List UInt8 → List UInt8 → Int)
    (hs : NtHashset) (present : List UInt8 → Option Nat) : Prop where
  shape : ∃ table, HashsetShape hs table
  distinct : ∀ entry other node node', hs.entries entry = some node →
    hs.entries other = some node' → compareFunc node.data node'.data = 0 →
    entry = other
  searches : ∀ data, ntHashsetSearch hs data = some (present data)
  inserts : ∀ data size offset allocs,
    PermittedSuccess compareFunc hs (.insertExt data size offset allocs) →
    ∃ hs' result, ntHashsetInsertExt hs data size offset allocs =
        some (hs', some result) ∧
      HashsetOp.presentAfter compareFunc present
        (.insertExt data size offset allocs) data = some result ∧
      ((present data).isSome → hs' = hs)
  removes : ∀ data, ∃ hs', ntHashsetRemove hs data = some hs' ∧
    ∀ entry, hs'.records entry =
      if present data = some (entry + dataOffset) then none else hs.records entry
  removesDirect : ∀ entry, (hs.entries entry).isSome →
    ∃ hs', ntHashsetRemoveDirect hs (entry + dataOffset) = some hs' ∧
      hs'.records = Function.update hs.records entry none
  clears : ∃ hs', ntHashsetClear hs = some hs' ∧ ∀ entry, hs'.records entry = none

section Runs

variable {hashFunc : List UInt8 → UInt32}
  {compareFunc : List UInt8 → List UInt8 → Int} {hs : NtHashset}

theorem RepresentsSet.correct (equality : RecordEquality hashFunc compareFunc)
    {present : List UInt8 → Option Nat}
    (represents : RepresentsSet hashFunc compareFunc hs present) :
    HashsetCorrect compareFunc hs present := by
  constructor
  case shape => exact represents.shape
  case distinct =>
    intro entry other node node' isNode isNode' equal
    exact represents.distinct equality (recordsOf_eq_some isNode)
      (recordsOf_eq_some isNode') equal
  case searches =>
    intro data
    obtain ⟨table, shape⟩ := represents.shape
    obtain ⟨found, searches, finds⟩ := ntHashsetSearch_spec shape data
    rw [searches, represents.finds_iff equality finds]
  case inserts =>
    intro data size offset allocs permitted
    obtain ⟨hs', result, inserts, isResult, unchanged, -⟩ :=
      represents.insert equality permitted.1 permitted.2
    exact ⟨hs', result, inserts, isResult, unchanged⟩
  case removes =>
    intro data
    obtain ⟨hs', removes, records, -⟩ := represents.remove equality data
    exact ⟨hs', removes, records⟩
  case removesDirect =>
    intro entry live
    obtain ⟨record, isRecord⟩ := isSome_records live
    obtain ⟨hs', removes, records, -⟩ := represents.removeDirect equality isRecord
    exact ⟨hs', removes, records⟩
  case clears =>
    obtain ⟨hs', clears, noRecords, -⟩ := represents.clear
    exact ⟨hs', clears, noRecords⟩

theorem HashsetRun.represents {cleanFunc : Bool} {initSize : Nat}
    {history : List HashsetOp} (equality : RecordEquality hashFunc compareFunc)
    (run : HashsetRun hashFunc compareFunc cleanFunc (PermittedSuccess compareFunc)
      initSize true history hs) :
    RepresentsSet hashFunc compareFunc hs (presentIn compareFunc history) := by
  induction run with
  | create creates =>
      obtain ⟨hs, table, creates', shape, sameHash, sameCompare, noRecords, -⟩ :=
        ntHashsetCreateExt_spec initSize hashFunc compareFunc cleanFunc true
          fun _ => rfl
      cases creates.symm.trans creates'
      refine ⟨sameHash, sameCompare, ⟨table, shape⟩, ?_, ?_⟩
      · intro entry record isRecord
        rw [noRecords] at isRecord
        cases isRecord
      · intro data pointer
        refine iff_of_false (by simp [presentIn]) ?_
        rintro ⟨entry, record, -, isRecord, -⟩
        rw [noRecords] at isRecord
        cases isRecord
  | step _ permitted runs ih =>
      rw [presentIn, List.foldl_append]
      exact ih.step equality permitted.1 permitted.2 runs

/-- The hashset is a set over all runs in which allocations succeed. -/
theorem hashsetRun_correct (equality : RecordEquality hashFunc compareFunc)
    (cleanFunc : Bool) (initSize : Nat) :
    (∃ created, ntHashsetCreateExt initSize hashFunc compareFunc cleanFunc true =
      some created) ∧
    ∀ history hs, HashsetRun hashFunc compareFunc cleanFunc
        (PermittedSuccess compareFunc) initSize true history hs →
      HashsetCorrect compareFunc hs (presentIn compareFunc history) := by
  refine ⟨?_, fun history hs run => (run.represents equality).correct equality⟩
  obtain ⟨created, -, creates, -⟩ :=
    ntHashsetCreateExt_spec initSize hashFunc compareFunc cleanFunc true fun _ => rfl
  exact ⟨created, creates⟩

end Runs

def compareBytes (first second : List UInt8) : Int :=
  if first = second then 0 else 1

theorem compareBytes_equality (hashFunc : List UInt8 → UInt32) :
    RecordEquality hashFunc compareBytes := by
  have same : (fun first second => compareBytes first second = 0) = Eq := by
    funext first second
    simp [compareBytes]
  constructor
  case equivalence =>
    rw [same]
    exact eq_equivalence
  case hashes =>
    intro first second equal
    exact congrArg hashFunc (congrFun₂ same first second ▸ equal : first = second)

/-- A record of one byte is inserted, for which there is the block at `address`. -/
def insertByte (byte : UInt8) (address : Nat) : HashsetOp :=
  .insertExt [byte] 1 0 ⟨true, true, some ⟨address, fun _ => 0⟩⟩

/-- Three insertions of which the first two let the slots grow, and a removal from
the middle of the chain. -/
def fourCalls : List HashsetOp :=
  [insertByte 1 100, insertByte 2 200, insertByte 3 300, .remove [2]]

/-- What calls make of a hashset that has two slots at first and one hash for all. -/
def hashsetAfter (history : List HashsetOp) : Option NtHashset := do
  let created ← ntHashsetCreateExt 1 (fun _ => 4) compareBytes true true
  history.foldlM HashsetOp.run created

abbrev OneHashRun : List HashsetOp → NtHashset → Prop :=
  HashsetRun (fun _ => 4) compareBytes true (PermittedSuccess compareBytes) 1 true

theorem OneHashRun.after {history : List HashsetOp} {hs : NtHashset}
    (run : OneHashRun history hs) : hashsetAfter history = some hs := by
  induction run with
  | create creates => simp [hashsetAfter, creates]
  | step _ _ runs ih =>
      rw [hashsetAfter, Option.bind_eq_bind, Option.bind_eq_some_iff] at ih ⊢
      obtain ⟨created, creates, folds⟩ := ih
      refine ⟨created, creates, ?_⟩
      rw [List.foldlM_append, folds]
      simpa using runs

theorem OneHashRun.insertByte {history : List HashsetOp} {hs : NtHashset}
    (run : OneHashRun history hs) (byte : UInt8) (address : Nat)
    (free : (hashsetAfter history).bind (fun hs => hs.entries address) = none) :
    ∃ hs', OneHashRun (history ++ [NtShm.insertByte byte address]) hs' := by
  rw [run.after, Option.bind_some] at free
  have permitted : PermittedSuccess compareBytes hs (NtShm.insertByte byte address) := by
    refine ⟨?_, rfl, rfl, _, rfl, if_pos rfl⟩
    rintro block ⟨⟩
    exact ⟨Nat.zero_le 1, le_refl 1, free⟩
  have equality := compareBytes_equality fun _ => 4
  obtain ⟨hs', result, inserts, -⟩ :=
    ((run.represents equality).correct equality).inserts _ _ _ _ permitted
  refine ⟨hs', run.step permitted ?_⟩
  rw [NtShm.insertByte, HashsetOp.run, inserts]
  rfl

theorem fourCalls_run : ∃ hs, OneHashRun fourCalls hs := by
  have creatable : (hashsetAfter []).isSome := by decide +kernel
  obtain ⟨created, creates⟩ := Option.isSome_iff_exists.mp creatable
  have start : OneHashRun [] created := .create (by simpa [hashsetAfter] using creates)
  obtain ⟨first, run⟩ := start.insertByte 1 100 (by decide +kernel)
  obtain ⟨second, run⟩ := run.insertByte 2 200 (by decide +kernel)
  obtain ⟨third, run⟩ := run.insertByte 3 300 (by decide +kernel)
  have equality := compareBytes_equality fun _ => 4
  obtain ⟨hs, removes, -⟩ := ((run.represents equality).correct equality).removes [2]
  exact ⟨hs, run.step ⟨trivial, trivial⟩ removes⟩

theorem hashsetRun_correct_fourCalls :
    ∃ hs, OneHashRun fourCalls hs ∧ hs.numSlots = 5 ∧ hs.numData = 2 ∧
      ntHashsetSearch hs [1] = some (some 112) ∧ ntHashsetSearch hs [2] = some none ∧
      ntHashsetSearch hs [3] = some (some 312) := by
  obtain ⟨hs, run⟩ := fourCalls_run
  have sizes : (hashsetAfter fourCalls).map (fun hs => (hs.numSlots, hs.numData)) =
      some (5, 2) := by decide +kernel
  rw [run.after, Option.map_some, Option.some.injEq, Prod.mk.injEq] at sizes
  have correct := (hashsetRun_correct (compareBytes_equality fun _ => 4) true 1).2 _ hs run
  refine ⟨hs, run, sizes.1, sizes.2, ?_, ?_, ?_⟩ <;> rw [correct.searches] <;> decide

end NtShm
