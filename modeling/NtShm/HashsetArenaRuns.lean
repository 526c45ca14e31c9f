import NtShm.HashsetArena

/-!
# Runs of a hashset in an arena

Calls on the hashset are mixed with what others do in the arena, in any order.  The
hashset is a set over all such runs, in blocks of its own that nobody else changes.
-/

namespace NtShm

/-! ## The others -/

/-- Others allocate, and reallocate, free and write what is theirs. -/
inductive OthersStep (s : ShmHashset) : ShmHashset → Prop
  | malloc {size block heap} : ntMemMalloc s.heap size = .ok (some block, heap) →
      OthersStep s { s with heap := heap, others := block :: s.others }
  | realloc {heapServes old size block heap} : old ∈ s.others →
      ntMemRealloc heapServes s.heap (some old) size = .ok (some block, heap) →
      OthersStep s { s with heap := heap, others := block :: s.others.erase old }
  | free {old} : old ∈ s.others →
      OthersStep s { s with heap := ntMemFree s.heap old, others := s.others.erase old }
  | write {block mem} : block ∈ s.others →
      (∀ position, position < block ∨ block + payloadSize s.heap.arena.mem block ≤ position →
        mem position = s.heap.arena.mem position) →
      OthersStep s { s with heap := ⟨{ s.heap.arena with mem := mem }, s.heap.live⟩ }

def ShmHashset.own (s : ShmHashset) : List Nat :=
  s.heap.live.filter fun block => block ∉ s.others

section Others

variable {s s' : ShmHashset}

theorem PayloadsKept.mono {mem mem' : Memory} {blocks blocks' : List Nat}
    (kept : PayloadsKept mem mem' blocks) (fewer : blocks' ⊆ blocks) :
    PayloadsKept mem mem' blocks' :=
  fun block isBlock => kept block (fewer isBlock)

theorem Serves.write_kept {heap : Heap} {chunks : List Chunk} (serves : Serves heap chunks)
    {block : Nat} {mem : Memory} (held : block ∈ heap.live)
    (outside : ∀ position, position < block ∨
      block + payloadSize heap.arena.mem block ≤ position →
        mem position = heap.arena.mem position) :
    (∀ other ∈ heap.live, payloadSize mem other = payloadSize heap.arena.mem other) ∧
      PayloadsKept heap.arena.mem mem (heap.live.filter (· ≠ block)) := by
  have serves' := serves.write held outside
  have sizes : ∀ other ∈ heap.live,
      payloadSize mem other = payloadSize heap.arena.mem other := by
    intro other isLive
    obtain ⟨⟨node, size⟩, listed, rfl⟩ := List.mem_map.mp (serves.live.mem_iff.mp isLive)
    rw [serves.represents.payloadSize_of_used listed]
    exact serves'.represents.payloadSize_of_used listed
  refine ⟨sizes, ?_⟩
  intro other isOther
  obtain ⟨isLive, apart⟩ := List.mem_filter.mp isOther
  refine ⟨sizes other isLive, ?_⟩
  intro position low high
  have ne : block ≠ other := fun same => by simp [same] at apart
  have disjoint := serves.live_apart held isLive ne
  apply outside
  omega

theorem ShmHashset.InArena.nodup (inArena : s.InArena) {own : List Nat}
    (perm : s.heap.live.Perm (own ++ s.others)) : (own ++ s.others).Nodup := by
  obtain ⟨chunks, serves⟩ := inArena.serves
  exact perm.nodup_iff.mp serves.live_nodup

theorem ShmHashset.InArena.own_of_perm (inArena : s.InArena) {own : List Nat}
    (perm : s.heap.live.Perm (own ++ s.others)) {block : Nat} (isOwn : block ∈ own) :
    block ∈ s.own := by
  have apart := (List.nodup_append'.mp (inArena.nodup perm)).2.2
  refine List.mem_filter.mpr ⟨perm.mem_iff.mpr (List.mem_append_left _ isOwn), ?_⟩
  rw [decide_eq_true_eq]
  exact apart isOwn

theorem ShmHashset.InArena.of_sizes (inArena : s.InArena) {heap : Heap} {others : List Nat}
    (serves : ∃ chunks, Serves heap chunks)
    (perm : ∀ own : List Nat, s.heap.live.Perm (own ++ s.others) →
      heap.live.Perm (own ++ others))
    (sizes : ∀ block ∈ s.own, payloadSize heap.arena.mem block =
      payloadSize s.heap.arena.mem block) :
    ShmHashset.InArena { s with heap := heap, others := others } := by
  obtain ⟨table, shape, live⟩ := inArena.blocks
  have isOwn : ∀ block ∈ s.slotsBlock.toList ++ table.flatten, block ∈ s.own := by
    intro block isBlock
    rw [← List.append_assoc] at live
    exact inArena.own_of_perm live isBlock
  constructor
  case serves => exact serves
  case blocks =>
    refine ⟨table, shape, ?_⟩
    rw [← List.append_assoc] at live ⊢
    exact perm _ live
  case slots => exact inArena.slots
  case slotsRoom =>
    intro block isSlots
    change s.slotsBlock = some block at isSlots
    rw [sizes block (isOwn block (by rw [isSlots]; exact List.mem_cons_self))]
    exact inArena.slotsRoom block isSlots
  case entryRoom =>
    intro entry record isRecord
    change s.hs.records entry = some record at isRecord
    have isEntry : entry ∈ table.flatten := by
      rw [← shape.live, isRecord]
      rfl
    rw [sizes entry (isOwn entry (List.mem_append_right _ isEntry))]
    exact inArena.entryRoom entry record isRecord

theorem ShmHashset.InArena.others_live (inArena : s.InArena) {block : Nat}
    (isOther : block ∈ s.others) : block ∈ s.heap.live := by
  obtain ⟨table, -, perm⟩ := inArena.blocks
  rw [perm.mem_iff]
  exact List.mem_append_right _ (List.mem_append_right _ isOther)

theorem ShmHashset.InArena.erase_perm (inArena : s.InArena) {old : Nat} (held : old ∈ s.others)
    {own : List Nat} (perm : s.heap.live.Perm (own ++ s.others)) :
    (s.heap.live.erase old).Perm (own ++ s.others.erase old) := by
  have apart := (List.nodup_append'.mp (inArena.nodup perm)).2.2
  have erased := perm.erase old
  rwa [List.erase_append_right _ (fun isOwn => apart isOwn held)] at erased

/-- What others do leaves the blocks of the hashset as they are. -/
theorem OthersStep.inArena (step : OthersStep s s') (inArena : s.InArena) :
    s'.InArena ∧ s'.hs = s.hs ∧
      PayloadsKept s.heap.arena.mem s'.heap.arena.mem s.own := by
  obtain ⟨chunks, serves⟩ := inArena.serves
  have ownLive : s.own ⊆ s.heap.live := fun _ isOwn => (List.mem_filter.mp isOwn).1
  have ownErase {old : Nat} (held : old ∈ s.others) : s.own ⊆ s.heap.live.erase old := by
    intro block isOwn
    obtain ⟨isLive, notOther⟩ := List.mem_filter.mp isOwn
    refine (List.mem_erase_of_ne ?_).mpr isLive
    rintro rfl
    exact of_decide_eq_true notOther held
  cases step with
  | @malloc size block heap returned =>
      rcases ntMemMalloc_spec serves size with
        (exits | null) | ⟨block', heap', found, given⟩
      · cases exits.symm.trans returned
      · cases null.symm.trans returned
      · cases found.symm.trans returned
        have kept := given.kept.mono ownLive
        refine ⟨inArena.of_sizes given.serves ?_ fun block isOwn => (kept block isOwn).1, rfl,
          kept⟩
        intro own perm
        rw [given.live]
        exact (perm.cons block).trans List.perm_middle.symm
  | @realloc heapServes old size block heap held returned =>
      rcases ntMemRealloc_spec serves (inArena.others_live held) heapServes size with
        (exits | null) | ⟨block', heap', found, given⟩
      · cases exits.symm.trans returned
      · cases null.symm.trans returned
      · cases found.symm.trans returned
        have kept := given.kept.mono (ownErase held)
        refine ⟨inArena.of_sizes given.serves ?_ fun block isOwn => (kept block isOwn).1, rfl,
          kept⟩
        intro own perm
        rw [given.live]
        exact ((inArena.erase_perm held perm).cons block).trans List.perm_middle.symm
  | @free old held =>
      obtain ⟨serves', -, kept⟩ := ntMemFree_spec serves (inArena.others_live held)
      have kept := kept.mono (ownErase held)
      refine ⟨inArena.of_sizes serves' ?_ fun block isOwn => (kept block isOwn).1, rfl, kept⟩
      exact fun own perm => inArena.erase_perm held perm
  | @write block mem held outside =>
      obtain ⟨sizes, kept⟩ := serves.write_kept (inArena.others_live held) outside
      refine ⟨inArena.of_sizes ⟨chunks, serves.write (inArena.others_live held) outside⟩
        (fun _ perm => perm) fun other isOwn => sizes other (ownLive isOwn), rfl, kept.mono ?_⟩
      intro other isOwn
      obtain ⟨isLive, notOther⟩ := List.mem_filter.mp isOwn
      refine List.mem_filter.mpr ⟨isLive, ?_⟩
      rw [decide_eq_true_eq]
      rintro rfl
      exact of_decide_eq_true notOther held

end Others

/-! ## Runs -/

/-- What a caller of an insert keeps to: the record is as long as said, and `compare`
ignores the bytes that are not copied. -/
structure Insertable (compareFunc : List UInt8 → List UInt8 → Int) (data : List UInt8)
    (size offset : Nat) : Prop where
  offsetFits : offset ≤ size
  sizeFits : size ≤ data.length
  small : dataOffset + size < 2 ^ 64
  copied : ∀ block, compareFunc (storedBytes block data size offset) data = 0

def afterInsert (compareFunc : List UInt8 → List UInt8 → Int)
    (present : List UInt8 → Option Nat) (data : List UInt8) (result : Option Nat)
    (record : List UInt8) : Option Nat :=
  if result.isSome ∧ compareFunc data record = 0 then result else present record

/-- A hashset that was created in an arena which others use, with the data pointer of each
record.  An insert may be refused, but not the first slots. -/
inductive ShmRun (start : Arena) (hashFunc : List UInt8 → UInt32)
    (compareFunc : List UInt8 → List UInt8 → Int) (cleanFunc : Bool) (initSize : Nat) :
    ShmHashset → (List UInt8 → Option Nat) → Prop
  | create {heap s} : HeapRun start heap →
      ShmHashset.create heap initSize hashFunc compareFunc cleanFunc = .ok (s, true) →
      ShmRun start hashFunc compareFunc cleanFunc initSize s fun _ => none
  | insert {s present s' result data size offset heapServes} :
      ShmRun start hashFunc compareFunc cleanFunc initSize s present →
      Insertable compareFunc data size offset →
      s.insertExt heapServes data size offset = .ok (s', result) → s'.slotsBlock.isSome →
      ShmRun start hashFunc compareFunc cleanFunc initSize s'
        (afterInsert compareFunc present data result)
  | remove {s present s' data} :
      ShmRun start hashFunc compareFunc cleanFunc initSize s present →
      s.remove data = .ok s' →
      ShmRun start hashFunc compareFunc cleanFunc initSize s' fun record =>
        if compareFunc data record = 0 then none else present record
  | removeDirect {s present s' entry} :
      ShmRun start hashFunc compareFunc cleanFunc initSize s present →
      (s.hs.entries entry).isSome → s.removeDirect (entry + dataOffset) = .ok s' →
      ShmRun start hashFunc compareFunc cleanFunc initSize s' fun record =>
        if present record = some (entry + dataOffset) then none else present record
  | clear {s present s'} :
      ShmRun start hashFunc compareFunc cleanFunc initSize s present → s.clear = .ok s' →
      ShmRun start hashFunc compareFunc cleanFunc initSize s' fun _ => none
  | writes {s present block mem} :
      ShmRun start hashFunc compareFunc cleanFunc initSize s present → block ∈ s.own →
      (∀ position, position < block ∨ block + payloadSize s.heap.arena.mem block ≤ position →
        mem position = s.heap.arena.mem position) →
      ShmRun start hashFunc compareFunc cleanFunc initSize
        { s with heap := ⟨{ s.heap.arena with mem := mem }, s.heap.live⟩ } present
  | others {s present s'} :
      ShmRun start hashFunc compareFunc cleanFunc initSize s present → OthersStep s s' →
      ShmRun start hashFunc compareFunc cleanFunc initSize s' present

section Runs

variable {start : Arena} {hashFunc : List UInt8 → UInt32}
  {compareFunc : List UInt8 → List UInt8 → Int} {cleanFunc : Bool} {initSize : Nat}
  {s s' : ShmHashset} {present : List UInt8 → Option Nat}

theorem RepresentsSet.inserted (equality : RecordEquality hashFunc compareFunc)
    (represents : RepresentsSet hashFunc compareFunc s.hs present) {data : List UInt8}
    {size offset : Nat} (insertable : Insertable compareFunc data size offset)
    {result : Option Nat} (insertsAs : InsertsAs s data size offset s' result) :
    RepresentsSet hashFunc compareFunc s'.hs
      (afterInsert compareFunc present data result) := by
  obtain ⟨allocs, alone, slots, fresh⟩ := insertsAs.inserts
  obtain ⟨table, shape⟩ := represents.shape
  obtain ⟨hs', result', table', inserts, shape', functions, inserted, -⟩ :=
    ntHashsetInsertExt_spec shape data size offset allocs (fun _ => slots)
      (fun _ _ => ⟨insertable.offsetFits, insertable.sizeFits⟩) fresh
  generalize s'.hs = after at alone ⊢
  cases alone.symm.trans inserts
  cases inserted with
  | @present entry finds =>
      have known := represents.finds_iff equality finds
      have same : afterInsert compareFunc present data (some (entry + dataOffset)) = present := by
        ext record : 1
        rw [afterInsert]
        split
        · next equal =>
            rw [← represents.present_congr equality equal.2, known]
            rfl
        · rfl
      rwa [same]
  | refused _ records =>
      have same : afterInsert compareFunc present data none = present := by
        ext record : 1
        exact if_neg fun both => Bool.false_ne_true both.1
      rw [same]
      apply represents.transfer functions ⟨table', shape'⟩
      · rw [records]
        exact represents.hashes
      · rw [records]
        exact represents.maps
  | @added _ block finds isBlock records =>
      rw [represents.hash] at records
      have absent : present data = none := represents.finds_iff equality finds
      apply represents.added equality functions ⟨table', shape'⟩ (fresh block isBlock) absent
        (insertable.copied block) records
      intro other
      rw [afterInsert]
      simp only [Option.isSome_some, true_and]

theorem ShmHashset.InArena.removed (inArena : s.InArena) {entry : Nat} {hs' : NtHashset}
    (live : (s.hs.records entry).isSome) (gone : Removed s.hs entry hs') :
    (s.afterFrees hs').InArena :=
  inArena.release (gone.releases live) gone.shape gone.numSlots

theorem ShmHashset.afterFrees_self (s : ShmHashset) : s.afterFrees s.hs = s := by
  rw [afterFrees, List.drop_length]
  rfl

theorem ShmHashset.InArena.remove (inArena : s.InArena)
    (equality : RecordEquality hashFunc compareFunc)
    (represents : RepresentsSet hashFunc compareFunc s.hs present) (data : List UInt8) :
    ∃ s', s.remove data = .ok s' ∧ s'.InArena ∧
      RepresentsSet hashFunc compareFunc s'.hs fun record =>
        if compareFunc data record = 0 then none else present record := by
  obtain ⟨table, shape⟩ := represents.shape
  obtain ⟨found, hs', removes, finds, removed⟩ := ntHashsetRemove_spec shape data
  obtain ⟨hs'', removes', -, represents'⟩ := represents.remove equality data
  cases removes.symm.trans removes'
  refine ⟨s.afterFrees hs', ?_, ?_, represents'⟩
  · rw [ShmHashset.remove, removes]
    rfl
  · cases found with
    | none =>
        have unchanged : hs' = s.hs := removed
        rwa [unchanged, ShmHashset.afterFrees_self]
    | some entry =>
        obtain ⟨record, isRecord, -⟩ := finds
        exact inArena.removed (by rw [isRecord]; rfl) removed

theorem ShmHashset.InArena.removeDirect (inArena : s.InArena)
    (equality : RecordEquality hashFunc compareFunc)
    (represents : RepresentsSet hashFunc compareFunc s.hs present) {entry : Nat}
    (live : (s.hs.entries entry).isSome) :
    ∃ s', s.removeDirect (entry + dataOffset) = .ok s' ∧ s'.InArena ∧
      RepresentsSet hashFunc compareFunc s'.hs fun record =>
        if present record = some (entry + dataOffset) then none else present record := by
  obtain ⟨table, shape⟩ := represents.shape
  obtain ⟨record, isRecord⟩ := isSome_records live
  obtain ⟨hs', removes, removed⟩ := ntHashsetRemoveDirect_spec shape isRecord
  obtain ⟨hs'', removes', -, represents'⟩ := represents.removeDirect equality isRecord
  cases removes.symm.trans removes'
  refine ⟨s.afterFrees hs', ?_, inArena.removed (by rw [isRecord]; rfl) removed, represents'⟩
  rw [ShmHashset.removeDirect, removes]
  rfl

theorem ShmHashset.InArena.clear (inArena : s.InArena)
    (represents : RepresentsSet hashFunc compareFunc s.hs present) :
    ∃ s', s.clear = .ok s' ∧ s'.InArena ∧ s'.slotsBlock = s.slotsBlock ∧
      s'.others = s.others ∧ (∀ entry, s'.hs.records entry = none) ∧
      RepresentsSet hashFunc compareFunc s'.hs fun _ => none := by
  obtain ⟨table, shape⟩ := represents.shape
  obtain ⟨hs', table', gone, clears, shape', functions, noRecords, numSlots, -, same, events⟩ :=
    ntHashsetClear_spec shape
  obtain ⟨hs'', clears', -, represents'⟩ := represents.clear
  cases clears.symm.trans clears'
  refine ⟨s.afterFrees hs', ?_, ?_, rfl, rfl, noRecords, represents'⟩
  · rw [ShmHashset.clear, clears]
    rfl
  · exact inArena.release (shape.releases_all same noRecords events functions.clean)
      ⟨table', shape'⟩ numSlots

/-- The invariant of a run. -/
theorem ShmRun.held (fresh : FreshArena start) (equality : RecordEquality hashFunc compareFunc)
    (run : ShmRun start hashFunc compareFunc cleanFunc initSize s present) :
    s.InArena ∧ RepresentsSet hashFunc compareFunc s.hs present := by
  induction run with
  | @create heap s before creates =>
      obtain ⟨chunks, serves, -⟩ := HeapRun.serves fresh before
      have bare : ShmHashset.Bare ⟨⟨none, 0, 0, hashFunc, compareFunc, cleanFunc, fun _ => none,
          []⟩, heap, none, heap.live⟩ :=
        ⟨⟨chunks, serves⟩, List.Perm.refl _, rfl, fun _ => rfl⟩
      obtain ⟨hs', table', inits, shape', functions, records', -⟩ :=
        initSlots_spec bare.noRecords initSize
      rcases bare.initSlots initSize with exits | ⟨s', fails, -⟩ | ⟨s', inits', alone, inArena, -⟩
      · cases exits.symm.trans creates
      · cases fails.symm.trans creates
      · cases inits'.symm.trans creates
        generalize s.hs = created at alone ⊢
        cases inits.symm.trans alone
        refine ⟨inArena, functions.hash, functions.compare, ⟨table', shape'⟩, ?_, ?_⟩
        · intro entry record isRecord
          rw [records', bare.noRecords] at isRecord
          cases isRecord
        · intro data pointer
          refine iff_of_false nofun ?_
          rintro ⟨entry, record, -, isRecord, -⟩
          rw [records', bare.noRecords] at isRecord
          cases isRecord
  | insert _ insertable inserts someSlots ih =>
      obtain ⟨inArena, represents⟩ := ih
      rcases inArena.insertExt _ insertable.offsetFits insertable.sizeFits insertable.small with
        exits | ⟨s', result, inserts', ⟨noSlots, -⟩ | insertsAs⟩
      · cases exits.symm.trans inserts
      · cases inserts'.symm.trans inserts
        rw [noSlots] at someSlots
        cases someSlots
      · cases inserts'.symm.trans inserts
        exact ⟨insertsAs.inArena, represents.inserted equality insertable insertsAs⟩
  | remove _ removes ih =>
      obtain ⟨s', removes', inArena, represents⟩ := ih.1.remove equality ih.2 _
      cases removes'.symm.trans removes
      exact ⟨inArena, represents⟩
  | removeDirect _ live removes ih =>
      obtain ⟨s', removes', inArena, represents⟩ := ih.1.removeDirect equality ih.2 live
      cases removes'.symm.trans removes
      exact ⟨inArena, represents⟩
  | clear _ clears ih =>
      obtain ⟨s', clears', inArena, -, -, -, represents⟩ := ih.1.clear ih.2
      cases clears'.symm.trans clears
      exact ⟨inArena, represents⟩
  | @writes s present block mem _ isOwn outside ih =>
      obtain ⟨chunks, serves⟩ := ih.1.serves
      have ownLive : s.own ⊆ s.heap.live := fun _ isOwn => (List.mem_filter.mp isOwn).1
      obtain ⟨sizes, -⟩ := serves.write_kept (ownLive isOwn) outside
      exact ⟨ih.1.of_sizes ⟨chunks, serves.write (ownLive isOwn) outside⟩ (fun _ perm => perm)
        fun other isOther => sizes other (ownLive isOther), ih.2⟩
  | others _ step ih =>
      obtain ⟨inArena, same, -⟩ := step.inArena ih.1
      exact ⟨inArena, same ▸ ih.2⟩

end Runs

end NtShm
