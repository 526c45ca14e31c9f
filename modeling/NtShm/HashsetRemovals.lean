import NtShm.HashsetShapes

/-!
# Taking entries out of a hashset

Entries leave through the first link of a chain or through the link of the entry
before, are cleaned and then freed.  Searches, both removals and the clearing of
all chains are described by what they do to the records.
-/

namespace NtShm

/-- What `__hashset_free_entry` does with an entry. -/
def releases (cleanFunc : Bool) (entry : Nat) : List HashsetEvent :=
  (if cleanFunc then [.cleanEntry entry] else []) ++ [.freeEntry entry]

structure Removed (hs : NtHashset) (entry : Nat) (hs' : NtHashset) : Prop where
  shape : ∃ table', HashsetShape hs' table'
  functions : SameFunctions hs hs'
  records : hs'.records = Function.update hs.records entry none
  num : hs'.numData + 1 = hs.numData
  numSlots : hs'.numSlots = hs.numSlots
  events : hs'.events = hs.events ++ releases hs.cleanFunc entry

section Removals

variable {hs : NtHashset} {table : List (List Nat)} {slot entry : Nat}
  {node : NtHashsetEntry}

theorem NtHashset.freeEntry_eq (isNode : hs.entries entry = some node) :
    hs.freeEntry entry = some { hs with
      entries := Function.update hs.entries entry none
      events := hs.events ++ releases hs.cleanFunc entry } := by
  rw [freeEntry, isNode]
  simp [releases]

theorem NtHashset.setNext_eq (isNode : hs.entries entry = some node)
    (link : Option Nat) :
    hs.setNext entry link = some { hs with
      entries := Function.update hs.entries entry
        (some { node with next := link }) } := by
  rw [setNext, isNode]
  rfl

theorem HashsetShape.without (shape : HashsetShape hs table)
    {before after : List Nat}
    (isList : table[slot]? = some (before ++ entry :: after))
    {heads : List (Option Nat)} {entries : Nat → Option NtHashsetEntry}
    (chained : Chained NtHashsetEntry.next heads entries
      (table.set slot (before ++ after)))
    (same : recordsOf entries = recordsOf hs.entries) :
    HashsetShape { hs with
      slots := some heads
      entries := Function.update entries entry none
      numData := hs.numData - 1
      events := hs.events ++ releases hs.cleanFunc entry }
        (table.set slot (before ++ after)) ∧
    Removed hs entry { hs with
      slots := some heads
      entries := Function.update entries entry none
      numData := hs.numData - 1
      events := hs.events ++ releases hs.cleanFunc entry } := by
  have inTable := (List.getElem?_eq_some_iff.mp isList).1
  have perm := flatten_set_remove isList
  obtain ⟨gone, -⟩ := notMem_of_nodup_set shape.nodup isList
  have counted : hs.numData = (table.set slot (before ++ after)).flatten.length + 1 := by
    rw [shape.num, perm.length_eq, List.length_cons]
  have sameRecords : recordsOf (Function.update entries entry none) =
      Function.update hs.records entry none := by
    rw [recordsOf_update, same]
    rfl
  have shape' : HashsetShape { hs with
      slots := some heads
      entries := Function.update entries entry none
      numData := hs.numData - 1
      events := hs.events ++ releases hs.cleanFunc entry }
        (table.set slot (before ++ after)) := by
    constructor
    case slots =>
      refine Or.inr ⟨heads, rfl, ?_, chained.update gone none⟩
      apply List.ne_nil_of_length_pos
      rw [List.length_set]
      exact Nat.zero_lt_of_lt inTable
    case size => exact shape.size.trans List.length_set.symm
    case num => exact Nat.sub_eq_of_eq_add counted
    case live =>
      intro other
      have asRecords : NtHashset.records { hs with
          slots := some heads
          entries := Function.update entries entry none
          numData := hs.numData - 1
          events := hs.events ++ releases hs.cleanFunc entry } =
        Function.update hs.records entry none := sameRecords
      rw [asRecords]
      by_cases isEntry : other = entry
      · rw [isEntry, Function.update_self]
        exact iff_of_false (by simp) gone
      · rw [Function.update_of_ne isEntry, shape.live, perm.mem_iff, List.mem_cons]
        exact or_iff_right isEntry
    case placed =>
      intro other list isOther member isMember record isRecord
      rw [List.length_set]
      change recordsOf (Function.update entries entry none) member = some record
        at isRecord
      rw [sameRecords] at isRecord
      have notEntry : member ≠ entry := by
        rintro rfl
        rw [Function.update_self] at isRecord
        cases isRecord
      rw [Function.update_of_ne notEntry] at isRecord
      by_cases isSlot : other = slot
      · subst isSlot
        rw [List.getElem?_set_self inTable, Option.some.injEq] at isOther
        apply shape.placed other _ isList member _ record isRecord
        rw [← isOther, List.mem_append] at isMember
        rw [List.mem_append, List.mem_cons]
        exact isMember.imp_right Or.inr
      · rw [List.getElem?_set_ne (Ne.symm isSlot)] at isOther
        exact shape.placed other list isOther member isMember record isRecord
    case load =>
      intro someSlots
      exact (Nat.sub_le _ _).trans_lt (shape.load someSlots)
  refine ⟨shape', ⟨_, shape'⟩, ⟨rfl, rfl, rfl⟩, sameRecords, ?_, rfl, rfl⟩
  change hs.numData - 1 + 1 = hs.numData
  omega

theorem HashsetShape.removeFirst (shape : HashsetShape hs table)
    {after : List Nat} (isList : table[slot]? = some (entry :: after))
    (isNode : hs.entries entry = some node) :
    ∃ hs', (do
        let hs ← (hs.setSlot slot node.next).freeEntry entry
        some { hs with numData := hs.numData - 1 }) = some hs' ∧
      HashsetShape hs' (table.set slot after) ∧ Removed hs entry hs' := by
  have isList' : table[slot]? = some ([] ++ entry :: after) := isList
  rcases shape.slots with ⟨-, rfl⟩ | ⟨heads, isHeads, -, chained⟩
  · simp at isList
  · refine ⟨_, ?_, shape.without isList' (chained.unlinkFirst isList isNode) rfl⟩
    have isNode' : (hs.setSlot slot node.next).entries entry = some node := isNode
    rw [NtHashset.freeEntry_eq isNode']
    simp [NtHashset.setSlot, isHeads]

theorem HashsetShape.removeNext (shape : HashsetShape hs table)
    {before after : List Nat} {previous : Nat}
    (isList : table[slot]? = some (before ++ previous :: entry :: after))
    (isNode : hs.entries entry = some node) :
    ∃ hs', (do
        let hs ← hs.setNext previous node.next
        let hs ← hs.freeEntry entry
        some { hs with numData := hs.numData - 1 }) = some hs' ∧
      HashsetShape hs' (table.set slot (before ++ previous :: after)) ∧
      Removed hs entry hs' := by
  have isList' : table[slot]? = some ((before ++ [previous]) ++ entry :: after) := by
    rw [isList, List.append_assoc]
    rfl
  rcases shape.slots with ⟨-, rfl⟩ | ⟨heads, isHeads, -, chained⟩
  · simp at isList
  · obtain ⟨head, -, along⟩ := chained.chain slot _ isList
    have inList : previous ∈ before ++ previous :: entry :: after := by simp
    obtain ⟨prevNode, isPrev⟩ := along.exists_node inList
    have apart : entry ≠ previous := by
      rintro rfl
      have once := (List.nodup_append.mp (chained.list_nodup isList)).2.1
      exact (List.nodup_cons.mp once).1 List.mem_cons_self
    have isNode' : (Function.update hs.entries previous
        (some { prevNode with next := node.next })) entry = some node := by
      rw [Function.update_of_ne apart, isNode]
    have regroup : before ++ [previous] ++ after = before ++ previous :: after := by simp
    have chained' : Chained NtHashsetEntry.next heads
        (Function.update hs.entries previous
          (some { prevNode with next := node.next })) _ :=
      chained.unlinkAfter isList isNode rfl
    rw [← regroup] at chained' ⊢
    refine ⟨_, ?_, shape.without isList' chained' (recordsOf_relink isPrev _)⟩
    simp only [NtHashset.setNext_eq isPrev, Option.bind_eq_bind, Option.bind_some]
    rw [NtHashset.freeEntry_eq isNode']
    simp [isHeads]

/-! ## Searching and removing -/

theorem ntHashsetSearch_spec (shape : HashsetShape hs table) (data : List UInt8) :
    ∃ found, ntHashsetSearch hs data = some (found.map (· + dataOffset)) ∧
      hs.Finds data found := by
  rw [ntHashsetSearch]
  split
  · next noSlots =>
      exact ⟨none, rfl, shape.finds_none noSlots data⟩
  · next someSlots =>
      have inRange := Nat.mod_lt (hs.hashFunc data).toNat (Nat.pos_of_ne_zero someSlots)
      obtain ⟨heads, head, -, -, isList, -, slotAt, along⟩ := shape.array inRange
      simp only [slotAt, Option.bind_eq_bind, Option.bind_some]
      cases NtHashset.find_spec (hs.hashFunc data) data along
          (shape.list_length_le isList) with
      | inl found =>
          obtain ⟨before, entry, after, node, finds, -, isNode, matches'⟩ := found
          rw [finds]
          exact ⟨some entry, rfl, _, recordsOf_eq_some isNode, matches'⟩
      | inr absent =>
          rw [absent.1]
          exact ⟨none, rfl, shape.finds_none_of_chain absent.2⟩

def RemovedAny (hs : NtHashset) (found : Option Nat) (hs' : NtHashset) : Prop :=
  match found with
  | none => hs' = hs
  | some entry => Removed hs entry hs'

theorem removeAfter_spec (shape : HashsetShape hs table) (hash : UInt32)
    (data : List UInt8) {fuel : Nat} :
    ∀ {before rest : List Nat} {previous : Nat} {curr : Option Nat},
      table[slot]? = some (before ++ previous :: rest) →
      Path NtHashsetEntry.next hs.entries curr rest none → rest.length ≤ fuel →
      ∃ found hs', hs.removeAfter hash data fuel previous curr = some hs' ∧
        RemovedAny hs found hs' ∧
        (∀ entry, found = some entry → ∃ record, hs.records entry = some record ∧
          hs.Matches hash data record) ∧
        (found = none → ∀ entry ∈ rest, ∀ record, hs.records entry = some record →
          ¬ hs.Matches hash data record) := by
  induction fuel with
  | zero =>
      intro before rest previous curr _ along enough
      have empty : rest = [] := List.length_eq_zero_iff.mp (by omega)
      subst empty
      have isEnd : curr = none := along
      subst isEnd
      exact ⟨none, hs, rfl, rfl, by simp, by simp⟩
  | succ fuel ih =>
      intro before rest previous curr isList along enough
      cases rest with
      | nil =>
          have isEnd : curr = none := along
          subst isEnd
          exact ⟨none, hs, rfl, rfl, by simp, by simp⟩
      | cons entry rest =>
          obtain ⟨rfl, node, isNode, along⟩ := along
          rw [List.length_cons] at enough
          rw [NtHashset.removeAfter, isNode, Option.bind_eq_bind, Option.bind_some]
          by_cases matched : hs.isMatch hash data node = true
          · obtain ⟨hs', removes, -, removed⟩ := shape.removeNext isList isNode
            rw [if_pos matched]
            refine ⟨some entry, hs', removes, removed, ?_, by simp⟩
            rintro other ⟨⟩
            exact ⟨_, recordsOf_eq_some isNode, NtHashset.isMatch_iff.mp matched⟩
          · have isList' : table[slot]? =
                some ((before ++ [previous]) ++ entry :: rest) := by
              rw [isList, List.append_assoc]
              rfl
            rw [if_neg matched]
            obtain ⟨found, hs', removes, removed, present, absent⟩ :=
              ih isList' along (by omega)
            refine ⟨found, hs', removes, removed, present, fun isNone => ?_⟩
            rw [List.forall_mem_cons]
            refine ⟨fun record isRecord matches' => ?_, absent isNone⟩
            cases (recordsOf_eq_some isNode).symm.trans isRecord
            exact matched (NtHashset.isMatch_iff.mpr matches')

theorem ntHashsetRemove_spec (shape : HashsetShape hs table) (data : List UInt8) :
    ∃ found hs', ntHashsetRemove hs data = some hs' ∧ hs.Finds data found ∧
      RemovedAny hs found hs' := by
  rw [ntHashsetRemove]
  split
  · next noSlots =>
      exact ⟨none, hs, rfl, shape.finds_none noSlots data, rfl⟩
  · next someSlots =>
      have inRange := Nat.mod_lt (hs.hashFunc data).toNat (Nat.pos_of_ne_zero someSlots)
      obtain ⟨heads, head, -, -, isList, -, slotAt, along⟩ := shape.array inRange
      have noneIn := @HashsetShape.finds_none_of_chain hs table shape data
      simp only [slotAt, Option.bind_eq_bind, Option.bind_some]
      generalize table.getD ((hs.hashFunc data).toNat % hs.numSlots) [] = list
        at isList along noneIn
      cases list with
      | nil =>
          have isEnd : head = none := along
          subst isEnd
          exact ⟨none, hs, rfl, noneIn (by simp), rfl⟩
      | cons entry rest =>
          obtain ⟨rfl, node, isNode, along⟩ := along
          have record := recordsOf_eq_some isNode
          simp only [isNode, Option.bind_some]
          by_cases matched : hs.isMatch (hs.hashFunc data) data node = true
          · obtain ⟨hs', removes, -, removed⟩ := shape.removeFirst isList isNode
            rw [if_pos matched]
            exact ⟨some entry, hs', removes,
              ⟨_, record, NtHashset.isMatch_iff.mp matched⟩, removed⟩
          · have isList' : table[(hs.hashFunc data).toNat % hs.numSlots]? =
                some ([] ++ entry :: rest) := isList
            have fits := shape.list_length_le isList
            rw [List.length_cons] at fits
            rw [if_neg matched]
            obtain ⟨found, hs', removes, removed, present, absent⟩ :=
              removeAfter_spec shape (hs.hashFunc data) data isList' along
                (Nat.le_of_succ_le fits)
            refine ⟨found, hs', removes, ?_, removed⟩
            cases found with
            | some other => exact present other rfl
            | none =>
                apply noneIn
                rw [List.forall_mem_cons]
                refine ⟨fun other isRecord matches' => ?_, absent rfl⟩
                cases record.symm.trans isRecord
                exact matched (NtHashset.isMatch_iff.mpr matches')

/-! ## Removing by the address -/

theorem removeDirectAfter_spec (shape : HashsetShape hs table)
    (isNode : hs.entries entry = some node) {fuel : Nat} :
    ∀ {before rest : List Nat} {iterEntry : Nat} {head : Option Nat},
      table[slot]? = some (before ++ iterEntry :: rest) →
      Path NtHashsetEntry.next hs.entries head (iterEntry :: rest) none →
      entry ∈ rest → rest.length ≤ fuel →
      ∃ hs', hs.removeDirectAfter entry node.next fuel iterEntry = some hs' ∧
        Removed hs entry hs' := by
  induction fuel with
  | zero =>
      intro before rest iterEntry head _ _ isLater enough
      rw [List.length_eq_zero_iff.mp (Nat.le_zero.mp enough)] at isLater
      cases isLater
  | succ fuel ih =>
      intro before rest iterEntry head isList along isLater enough
      obtain ⟨-, iterNode, isIter, along⟩ := along
      cases rest with
      | nil => cases isLater
      | cons next rest =>
          obtain ⟨isNext, -⟩ := id along
          rw [List.length_cons] at enough
          rw [NtHashset.removeDirectAfter, isIter, Option.bind_eq_bind, Option.bind_some]
          simp only [isNext]
          by_cases here : next = entry
          · subst here
            rw [if_pos rfl]
            obtain ⟨hs', removes, -, removed⟩ := shape.removeNext isList isNode
            exact ⟨hs', removes, removed⟩
          · have isList' : table[slot]? =
                some ((before ++ [iterEntry]) ++ next :: rest) := by
              rw [isList, List.append_assoc]
              rfl
            have later : entry ∈ rest := by
              rw [List.mem_cons] at isLater
              exact isLater.resolve_left (Ne.symm here)
            rw [if_neg here]
            exact ih isList' along later (by omega)

theorem ntHashsetRemoveDirect_spec (shape : HashsetShape hs table)
    {record : UInt32 × List UInt8} (isRecord : hs.records entry = some record) :
    ∃ hs', ntHashsetRemoveDirect hs (entry + dataOffset) = some hs' ∧
      Removed hs entry hs' := by
  obtain ⟨node, isNode, rfl⟩ := Option.map_eq_some_iff.mp isRecord
  have inList := shape.mem_of_records isRecord
  have someSlots : 0 < hs.numSlots := by
    by_contra noSlots
    rw [shape.records_none (by omega)] at isRecord
    cases isRecord
  have inRange := Nat.mod_lt node.hash.toNat someSlots
  obtain ⟨heads, head, -, -, isList, -, slotAt, along⟩ := shape.array inRange
  have asHash : node.record.1 = node.hash := rfl
  rw [asHash] at inList
  have fits := shape.list_length_le isList
  rw [ntHashsetRemoveDirect, if_neg (Nat.ne_of_gt someSlots)]
  simp only [Nat.add_sub_cancel, isNode, slotAt, Option.bind_eq_bind, Option.bind_some]
  generalize table.getD (node.hash.toNat % hs.numSlots) [] = list
    at isList along inList fits
  cases list with
  | nil => cases inList
  | cons first rest =>
      obtain ⟨rfl, -⟩ := id along
      by_cases here : first = entry
      · subst here
        simp only [if_pos]
        obtain ⟨hs', removes, -, removed⟩ := shape.removeFirst isList isNode
        exact ⟨hs', removes, removed⟩
      · have isList' : table[node.hash.toNat % hs.numSlots]? =
            some ([] ++ first :: rest) := isList
        rw [List.mem_cons] at inList
        rw [List.length_cons] at fits
        simp only [if_neg here]
        exact removeDirectAfter_spec shape isNode isList' along
          (inList.resolve_left (Ne.symm here)) (Nat.le_of_succ_le fits)

/-! ## Clearing -/

def withoutEntries (records : Nat → Option (UInt32 × List UInt8)) (gone : List Nat)
    (entry : Nat) : Option (UInt32 × List UInt8) :=
  if entry ∈ gone then none else records entry

theorem withoutEntries_update (records : Nat → Option (UInt32 × List UInt8))
    (first : Nat) (gone : List Nat) :
    withoutEntries (Function.update records first none) gone =
      withoutEntries records (first :: gone) := by
  funext entry
  unfold withoutEntries
  by_cases later : entry ∈ gone
  · rw [if_pos later, if_pos (List.mem_cons_of_mem _ later)]
  · by_cases isFirst : entry = first
    · rw [if_neg later, isFirst, Function.update_self, if_pos List.mem_cons_self]
    · rw [if_neg later, Function.update_of_ne isFirst, if_neg]
      rw [List.mem_cons]
      exact not_or.mpr ⟨isFirst, later⟩

theorem withoutEntries_nil (records : Nat → Option (UInt32 × List UInt8)) :
    withoutEntries records [] = records := by
  funext entry
  exact if_neg List.not_mem_nil

theorem clearSlot_of_empty {fuel : Nat} (slotAt : hs.slotAt slot = some none) :
    NtHashset.clearSlot slot fuel hs = some hs := by
  cases fuel <;> rw [NtHashset.clearSlot, slotAt] <;> rfl

theorem clearSlot_nil {heads : List (Option Nat)} (fuel : Nat)
    (isHeads : hs.slots = some heads)
    (chained : Chained NtHashsetEntry.next heads hs.entries table)
    (isList : table[slot]? = some []) :
    ∃ heads' entries',
      NtHashset.clearSlot slot fuel hs = some { hs with
        slots := some heads'
        entries := entries'
        events := hs.events ++ [].flatMap (releases hs.cleanFunc) } ∧
      Chained NtHashsetEntry.next heads' entries' (table.set slot []) ∧
      recordsOf entries' = withoutEntries (recordsOf hs.entries) [] := by
  obtain ⟨head, isHead, isEnd⟩ := chained.chain slot _ isList
  have isNone : head = none := isEnd
  subst isNone
  have slotAt : hs.slotAt slot = some none := by
    rw [NtHashset.slotAt, isHeads, Option.bind_some, isHead]
  refine ⟨heads, hs.entries, ?_, ?_, (withoutEntries_nil _).symm⟩
  · rw [clearSlot_of_empty slotAt, ← isHeads]
    simp
  · obtain ⟨inTable, same⟩ := List.getElem?_eq_some_iff.mp isList
    rw [← same, List.set_getElem_self]
    exact chained

theorem clearSlot_spec (slot : Nat) (fuel : Nat) :
    ∀ {hs : NtHashset} {heads table} {list : List Nat},
      hs.slots = some heads →
      Chained NtHashsetEntry.next heads hs.entries table →
      table[slot]? = some list → list.length ≤ fuel →
      ∃ heads' entries',
        NtHashset.clearSlot slot fuel hs = some { hs with
          slots := some heads'
          entries := entries'
          events := hs.events ++ list.flatMap (releases hs.cleanFunc) } ∧
        Chained NtHashsetEntry.next heads' entries' (table.set slot []) ∧
        recordsOf entries' = withoutEntries (recordsOf hs.entries) list := by
  induction fuel with
  | zero =>
      intro hs heads table list isHeads chained isList enough
      rw [List.length_eq_zero_iff.mp (Nat.le_zero.mp enough)] at isList ⊢
      exact clearSlot_nil 0 isHeads chained isList
  | succ fuel ih =>
      intro hs heads table list isHeads chained isList enough
      cases list with
      | nil => exact clearSlot_nil (fuel + 1) isHeads chained isList
      | cons first rest =>
          obtain ⟨head, isHead, rfl, node, isNode, -⟩ := chained.chain slot _ isList
          have slotAt : hs.slotAt slot = some (some first) := by
            rw [NtHashset.slotAt, isHeads, Option.bind_some, isHead]
          have inTable := (List.getElem?_eq_some_iff.mp isList).1
          have isList' : table[slot]? = some ([] ++ first :: rest) := isList
          have gone := (notMem_of_nodup_set chained.nodup isList').1
          have chained₁ := (chained.unlinkFirst isList isNode).update gone none
          have isRest : (table.set slot rest)[slot]? = some rest :=
            List.getElem?_set_self inTable
          rw [List.length_cons] at enough
          obtain ⟨heads', entries', clears, chained', records'⟩ :=
            @ih { hs with
              slots := some (heads.set slot node.next)
              entries := Function.update hs.entries first none
              events := hs.events ++ releases hs.cleanFunc first }
              _ _ _ rfl chained₁ isRest (by omega)
          refine ⟨heads', entries', ?_, ?_, ?_⟩
          · have isNode' : (hs.setSlot slot node.next).entries first = some node := isNode
            rw [NtHashset.clearSlot, slotAt]
            simp only [isNode, Option.bind_eq_bind, Option.bind_some]
            rw [NtHashset.freeEntry_eq isNode', Option.bind_some]
            simp only [NtHashset.setSlot, isHeads, Option.map_some]
            rw [clears, List.flatMap_cons, List.append_assoc]
          · rwa [List.set_set] at chained'
          · rw [records', recordsOf_update]
            exact withoutEntries_update _ _ _

theorem withoutEntries_append (records : Nat → Option (UInt32 × List UInt8))
    (gone gone' : List Nat) :
    withoutEntries (withoutEntries records gone) gone' =
      withoutEntries records (gone ++ gone') := by
  funext entry
  unfold withoutEntries
  by_cases later : entry ∈ gone' <;> by_cases earlier : entry ∈ gone <;>
    simp [later, earlier]

theorem clearSlots_spec (left : Nat) :
    ∀ {hs : NtHashset} {heads table} {slot : Nat},
      hs.slots = some heads →
      Chained NtHashsetEntry.next heads hs.entries table →
      (∀ earlier, earlier < slot → table[earlier]? = some []) →
      slot + left = table.length → table.flatten.length ≤ hs.numData →
      ∃ heads' entries' gone,
        NtHashset.clearSlots left slot hs = some { hs with
          slots := some heads'
          entries := entries'
          events := hs.events ++ gone.flatMap (releases hs.cleanFunc) } ∧
        Chained NtHashsetEntry.next heads' entries'
          (List.replicate table.length []) ∧
        gone.Perm table.flatten ∧
        recordsOf entries' = withoutEntries (recordsOf hs.entries) gone := by
  induction left with
  | zero =>
      intro hs heads table slot isHeads chained cleared reached _
      have allEmpty : table = List.replicate table.length [] := by
        rw [List.eq_replicate_iff]
        refine ⟨rfl, fun list isList => ?_⟩
        obtain ⟨index, inTable, rfl⟩ := List.getElem_of_mem isList
        have isEmpty := cleared index (by omega)
        rw [List.getElem?_eq_getElem inTable] at isEmpty
        exact Option.some.inj isEmpty
      refine ⟨heads, hs.entries, [], ?_, allEmpty ▸ chained, ?_, ?_⟩
      · rw [NtHashset.clearSlots, ← isHeads]
        simp
      · rw [allEmpty]
        simp
      · exact (withoutEntries_nil _).symm
  | succ left ih =>
      intro hs heads table slot isHeads chained cleared reached enough
      have inTable : slot < table.length := by omega
      have isList := List.getElem?_eq_getElem inTable
      have fits : table[slot].length ≤ hs.numData :=
        (List.sublist_flatten_of_mem (List.getElem_mem inTable)).length_le.trans enough
      obtain ⟨heads₁, entries₁, clears₁, chained₁, records₁⟩ :=
        clearSlot_spec slot hs.numData isHeads chained isList fits
      have without := flatten_set_perm isList []
      rw [List.append_nil] at without
      have cleared₁ : ∀ earlier, earlier < slot + 1 →
          (table.set slot [])[earlier]? = some [] := by
        intro earlier before
        by_cases here : earlier = slot
        · rw [here, List.getElem?_set_self inTable]
        · rw [List.getElem?_set_ne (Ne.symm here)]
          exact cleared earlier (by omega)
      have enough₁ : (table.set slot []).flatten.length ≤ hs.numData := by
        have lengths := without.length_eq
        rw [List.length_append] at lengths
        omega
      obtain ⟨heads', entries', gone, clears, chained', same, records'⟩ :=
        @ih { hs with
          slots := some heads₁
          entries := entries₁
          events := hs.events ++ table[slot].flatMap (releases hs.cleanFunc) }
          _ _ (slot + 1) rfl chained₁ cleared₁ (by rw [List.length_set]; omega) enough₁
      refine ⟨heads', entries', table[slot] ++ gone, ?_, ?_, ?_, ?_⟩
      · rw [NtHashset.clearSlots, clears₁]
        simp only [Option.bind_eq_bind, Option.bind_some]
        rw [clears, List.flatMap_append, List.append_assoc]
      · rwa [List.length_set] at chained'
      · calc table[slot] ++ gone
            |>.Perm (gone ++ table[slot]) := List.perm_append_comm
          _ |>.Perm ((table.set slot []).flatten ++ table[slot]) := same.append_right _
          _ |>.Perm table.flatten := without
      · rw [records', records₁, withoutEntries_append]

theorem ntHashsetClear_spec (shape : HashsetShape hs table) :
    ∃ hs' table', ∃ gone : List Nat, ntHashsetClear hs = some hs' ∧ HashsetShape hs' table' ∧
      SameFunctions hs hs' ∧ (∀ entry, hs'.records entry = none) ∧
      hs'.numSlots = hs.numSlots ∧ hs'.numData = 0 ∧ gone.Perm table.flatten ∧
      hs'.events = hs.events ++ gone.flatMap (releases hs.cleanFunc) := by
  have noneLeft : ∀ gone : List Nat, gone.Perm table.flatten → ∀ entry,
      withoutEntries hs.records gone entry = none := by
    intro gone same entry
    unfold withoutEntries
    split
    · rfl
    · next kept =>
        rw [same.mem_iff, ← shape.live] at kept
        simpa using kept
  rcases shape.slots with ⟨isNull, rfl⟩ | ⟨heads, isHeads, someSlots, chained⟩
  · have noSlots : hs.numSlots = 0 := shape.size
    have noData : hs.numData = 0 := shape.num
    have clears : ntHashsetClear hs = some hs := by
      rw [ntHashsetClear, noSlots]
      change some { hs with numData := 0 } = some hs
      rw [← noData]
    have noRecords : ∀ entry, hs.records entry = none := fun entry => by
      simpa [withoutEntries_nil] using noneLeft [] (List.Perm.refl _) entry
    exact ⟨hs, [], [], clears, shape, SameFunctions.refl hs, noRecords, rfl, noData,
      List.Perm.refl _, by simp⟩
  · obtain ⟨heads', entries', gone, clears, chained', same, records'⟩ :=
      clearSlots_spec table.length isHeads chained (by simp) (Nat.zero_add _)
        shape.num.ge
    have noRecords : ∀ entry, recordsOf entries' entry = none := by
      intro entry
      rw [records']
      exact noneLeft gone same entry
    refine ⟨{ hs with
        slots := some heads'
        entries := entries'
        events := hs.events ++ gone.flatMap (releases hs.cleanFunc)
        numData := 0 }, List.replicate table.length [], gone, ?_, ?_, ⟨rfl, rfl, rfl⟩,
      noRecords, rfl, rfl, same, rfl⟩
    · rw [← shape.size] at clears
      rw [ntHashsetClear, clears]
      rfl
    · constructor
      case slots =>
        refine Or.inr ⟨heads', rfl, ?_, chained'⟩
        simpa [List.replicate_eq_nil_iff] using someSlots
      case size => exact shape.size.trans (by simp)
      case num => simp
      case live =>
        intro entry
        refine iff_of_false ?_ (by simp)
        change ¬ (recordsOf entries' entry).isSome = true
        simp [noRecords entry]
      case placed =>
        intro slot list isList entry isEntry
        rw [List.eq_of_mem_replicate (List.mem_of_getElem? isList)] at isEntry
        cases isEntry
      case load =>
        intro positive
        exact (Nat.zero_le _).trans_lt (shape.load positive)

end Removals

end NtShm
