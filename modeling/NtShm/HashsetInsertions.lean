import NtShm.HashsetShapes

/-!
# Adding entries to a hashset

An insert allocates the slots of an empty hashset, looks for the record, grows
the array when it would become crowded, and puts a new entry in front of its
chain.  It may be refused where an allocation fails.
-/

namespace NtShm

section Insertions

variable {hs : NtHashset} {table : List (List Nat)}

theorem initSlots_spec (noRecords : ∀ entry, hs.records entry = none)
    (initSize : Nat) :
    ∃ hs' table', hs.initSlots initSize true = some (hs', true) ∧
      HashsetShape hs' table' ∧ SameFunctions hs hs' ∧ hs'.records = hs.records ∧
      hs'.numData = 0 ∧ (0 < initSize ↔ 0 < hs'.numSlots) ∧
      hs'.events = hs.events ++ if 0 < initSize then [.mallocSlots] else [] := by
  rw [NtHashset.initSlots]
  by_cases someSize : 0 < initSize
  · simp only [if_pos someSize]
    obtain ⟨numSlots, isNext, prime, -⟩ := nextPrime_spec (asInt (initSize % 2 ^ 32))
    have positive := prime.two_le
    rw [isNext]
    refine ⟨_, List.replicate numSlots [], rfl, ?_, ⟨rfl, rfl, rfl⟩, rfl, rfl,
      iff_of_true someSize prime.pos, rfl⟩
    constructor
    case slots =>
      refine Or.inr ⟨_, rfl, ?_, ?_⟩
      · simp [List.replicate_eq_nil_iff, prime.pos.ne']
      · constructor
        case size => simp
        case chain =>
          intro slot list isList
          rw [List.getElem?_replicate] at isList ⊢
          split at isList
          · next inRange =>
              cases isList
              exact ⟨none, if_pos inRange, rfl⟩
          · cases isList
        case nodup => simp
    case size => simp
    case num => simp
    case live =>
      intro entry
      exact iff_of_false (by
        change ¬ (hs.records entry).isSome = true
        simp [noRecords entry]) (by simp)
    case placed =>
      intro slot list isList entry isEntry
      rw [List.eq_of_mem_replicate (List.mem_of_getElem? isList)] at isEntry
      cases isEntry
    case load =>
      intro _
      change 0 < numSlots * 4 / 5
      omega
  · simp only [if_neg someSize]
    refine ⟨_, [], rfl, ?_, ⟨rfl, rfl, rfl⟩, rfl, rfl,
      iff_of_false someSize (lt_irrefl 0), (List.append_nil _).symm⟩
    refine ⟨Or.inl ⟨rfl, rfl⟩, rfl, rfl, fun entry => ?_, by simp, by simp⟩
    exact iff_of_false (by
      change ¬ (hs.records entry).isSome = true
      simp [noRecords entry]) (by simp)

/-- Half as many slots more make room for one entry more. -/
theorem load_lt_of_grown {numSlots incSlots : Nat} (two : 2 ≤ numSlots)
    (grown : numSlots * 3 / 2 ≤ incSlots) : numSlots * 4 / 5 < incSlots * 4 / 5 := by
  by_cases small : numSlots < 4
  · have cases : numSlots = 2 ∨ numSlots = 3 := by omega
    cases cases with
    | inl two => rw [two] at grown ⊢; omega
    | inr three => rw [three] at grown ⊢; omega
  · have byTwo : numSlots + 2 ≤ incSlots := by omega
    omega

theorem HashsetShape.rehashed (shape : HashsetShape hs table)
    {heads : List (Option Nat)} {entries : Nat → Option NtHashsetEntry}
    {table' : List (List Nat)} (nonempty : table' ≠ [])
    (chained : Chained NtHashsetEntry.next heads entries table')
    (same : recordsOf entries = recordsOf hs.entries)
    (perm : table'.flatten.Perm table.flatten)
    (placed : Rehashed entries table.length table.length table')
    (roomy : hs.numData < table'.length * 4 / 5) (events : List HashsetEvent) :
    HashsetShape { hs with
      slots := some heads
      entries := entries
      events := events
      numSlots := table'.length } table' where
  slots := Or.inr ⟨heads, rfl, nonempty, chained⟩
  size := rfl
  num := shape.num.trans perm.length_eq.symm
  live := by
    intro entry
    rw [perm.mem_iff, ← shape.live]
    change (recordsOf entries entry).isSome = true ↔ _
    rw [same]
    rfl
  placed := fun slot list isList entry isEntry =>
    placed slot list (lt_or_ge slot table.length) isList entry isEntry
  load := fun _ => roomy

theorem growSlots_spec (shape : HashsetShape hs table) (someSlots : 0 < hs.numSlots) :
    ∃ hs' table', hs.growSlots = some hs' ∧ HashsetShape hs' table' ∧
      SameFunctions hs hs' ∧ hs'.records = hs.records ∧ hs'.numData = hs.numData ∧
      hs'.numData + 1 < hs'.numSlots * 4 / 5 ∧
      hs'.events = hs.events ++ [.reallocSlots] := by
  obtain ⟨incSlots, isNext, -, atLeast, -⟩ := nextPrime_spec (hs.numSlots * 3 / 2 : Nat)
  have load := shape.load someSlots
  have atLeast' : hs.numSlots * 3 / 2 ≤ incSlots := by exact_mod_cast atLeast
  have roomier := load_lt_of_grown (by omega) atLeast'
  have more : table.length ≤ incSlots := by
    rw [← shape.size]
    omega
  rcases shape.slots with ⟨-, rfl⟩ | ⟨heads, isHeads, -, chained⟩
  · exact absurd shape.size someSlots.ne'
  · obtain ⟨fresh, isFresh⟩ : ∃ fresh, incSlots = table.length + fresh :=
      ⟨incSlots - table.length, by omega⟩
    have length : (table ++ List.replicate fresh []).length = incSlots := by
      simp [isFresh]
    have rehashed : Rehashed hs.entries table.length 0
        (table ++ List.replicate fresh []) := by
      intro slot list reached isList entry isEntry
      rw [List.getElem?_append_right (by omega)] at isList
      rw [List.eq_of_mem_replicate (List.mem_of_getElem? isList)] at isEntry
      cases isEntry
    let grown : NtHashset := { hs with
      slots := some (heads ++ List.replicate fresh none)
      events := hs.events ++ [.reallocSlots] }
    obtain ⟨heads', entries', table', rehashes, same, chained', size', perm, rehashed'⟩ :=
      rehash_spec grown table.length table.length (chained.extend fresh) rehashed
        (Nat.zero_add _) (by simp) (by
          rw [flatten_append_replicate_nil]
          exact shape.num.ge)
    rw [flatten_append_replicate_nil] at perm
    rw [length] at rehashes size'
    have nonempty' : table' ≠ [] := by
      apply List.ne_nil_of_length_pos
      omega
    have shape' := shape.rehashed nonempty' chained' same perm
      (fun slot list reached isList entry isEntry =>
        (rehashed' slot list reached isList entry isEntry).congr same)
      (by omega) (hs.events ++ [.reallocSlots])
    rw [size'] at shape'
    refine ⟨_, table', ?_, shape', ⟨rfl, rfl, rfl⟩, same, rfl, ?_, rfl⟩
    · rw [NtHashset.growSlots, isNext, isHeads]
      simp only [Option.bind_eq_bind, Option.bind_some]
      have difference : incSlots - hs.numSlots = fresh := by
        rw [shape.size]
        omega
      have rehashes' : NtHashset.rehash incSlots table.length 0 grown =
        some (grown.withChains heads' entries') := rehashes
      rw [← shape.size] at rehashes'
      rw [difference, rehashes']
      rfl
    · change hs.numData + 1 < incSlots * 4 / 5
      omega

/-- The bytes of a new entry: those before `offset` are left from the block. -/
def storedBytes (block : HashsetBlock) (data : List UInt8) (size offset : Nat) :
    List UInt8 :=
  (List.range offset).map block.junk ++ (data.take size).drop offset

theorem addEntry_spec (shape : HashsetShape hs table) (someSlots : 0 < hs.numSlots)
    (roomy : hs.numData + 1 < hs.numSlots * 4 / 5) (hash : UInt32)
    {data : List UInt8} {size offset : Nat} (offsetFits : offset ≤ size)
    (sizeFits : size ≤ data.length) {block : HashsetBlock}
    (fresh : hs.records block.address = none) :
    ∃ hs' table', hs.addEntry (hash.toNat % hs.numSlots) hash data size offset
        (some block) = some (hs', some (block.address + dataOffset)) ∧
      HashsetShape hs' table' ∧ SameFunctions hs hs' ∧
      hs'.records = Function.update hs.records block.address
        (some (hash, storedBytes block data size offset)) ∧
      hs'.numData = hs.numData + 1 ∧ hs'.numSlots = hs.numSlots ∧
      hs'.events = hs.events ++ [.mallocEntry block.address] := by
  have inRange := Nat.mod_lt hash.toNat someSlots
  have inTable : hash.toNat % hs.numSlots < table.length := shape.size ▸ inRange
  obtain ⟨heads, head, isHeads, chained, isList, isHead, slotAt, -⟩ := shape.array inRange
  have absent : block.address ∉ table.flatten := by
    rw [← shape.live, fresh]
    simp
  let node : NtHashsetEntry := ⟨head, hash, storedBytes block data size offset⟩
  have linked : node.next = head := rfl
  have chained' := chained.push isList absent isHead linked
  have records' : recordsOf (Function.update hs.entries block.address (some node)) =
      Function.update hs.records block.address (some node.record) :=
    recordsOf_update _
  have perm := flatten_set_cons isList block.address
  refine ⟨{ hs with
      slots := some (heads.set (hash.toNat % hs.numSlots) (some block.address))
      entries := Function.update hs.entries block.address (some node)
      events := hs.events ++ [HashsetEvent.mallocEntry block.address]
      numData := hs.numData + 1 },
    table.set (hash.toNat % hs.numSlots)
      (block.address :: table.getD (hash.toNat % hs.numSlots) []),
    ?_, ?_, ⟨rfl, rfl, rfl⟩, records', rfl, rfl, rfl⟩
  · rw [NtHashset.addEntry, if_neg (by omega), slotAt]
    simp only [NtHashset.setSlot, isHeads, Option.bind_eq_bind, Option.bind_some,
      Option.map_some]
    rfl
  · constructor
    case slots =>
      refine Or.inr ⟨_, rfl, ?_, chained'⟩
      apply List.ne_nil_of_length_pos
      rw [List.length_set]
      omega
    case size => exact shape.size.trans List.length_set.symm
    case num =>
      rw [perm.length_eq, List.length_cons, ← shape.num]
    case live =>
      intro entry
      change (recordsOf _ entry).isSome = true ↔ _
      rw [records', perm.mem_iff, List.mem_cons]
      by_cases isNew : entry = block.address
      · rw [isNew, Function.update_self]
        simp
      · rw [Function.update_of_ne isNew, shape.live]
        exact (or_iff_right isNew).symm
    case placed =>
      intro slot list isOther entry isEntry record isRecord
      change recordsOf _ entry = some record at isRecord
      rw [records'] at isRecord
      rw [List.length_set]
      by_cases isNew : entry = block.address
      · subst isNew
        rw [Function.update_self, Option.some.injEq] at isRecord
        have isFirst : block.address ∈ block.address ::
            table.getD (hash.toNat % hs.numSlots) [] := List.mem_cons_self
        have here := slot_unique chained'.nodup isOther
          (List.getElem?_set_self inTable) isEntry isFirst
        rw [← isRecord, here, ← shape.size]
        rfl
      · rw [Function.update_of_ne isNew] at isRecord
        by_cases here : slot = hash.toNat % hs.numSlots
        · rw [here, List.getElem?_set_self inTable, Option.some.injEq] at isOther
          rw [← isOther, List.mem_cons] at isEntry
          rw [here]
          exact shape.placed _ _ isList entry (isEntry.resolve_left isNew) record
            isRecord
        · rw [List.getElem?_set_ne (Ne.symm here)] at isOther
          exact shape.placed slot list isOther entry isEntry record isRecord
    case load => exact fun _ => roomy

inductive Inserted (hs : NtHashset) (data : List UInt8) (size offset : Nat)
    (allocs : HashsetAllocs) : NtHashset → Option Nat → Prop
  | present {entry} : hs.Finds data (some entry) →
      Inserted hs data size offset allocs hs (some (entry + dataOffset))
  | refused {hs'} : hs.Finds data none → hs'.records = hs.records →
      hs'.numData = hs.numData → (allocs.realloc = false ∨ allocs.entry = none) →
      Inserted hs data size offset allocs hs' none
  | added {hs' block} : hs.Finds data none → allocs.entry = some block →
      hs'.records = Function.update hs.records block.address
        (some (hs.hashFunc data, storedBytes block data size offset)) →
      hs'.numData = hs.numData + 1 →
      Inserted hs data size offset allocs hs' (some (block.address + dataOffset))

/-- The calls of the functions for memory in an insert: those for the slots, and
then one for the entry where it is added. -/
inductive InsertCalls (hs hs' : NtHashset) (slotCalls : List HashsetEvent) : Prop
  | kept : hs'.records = hs.records → hs'.events = hs.events ++ slotCalls →
      InsertCalls hs hs' slotCalls
  | added {address record} : hs.records address = none →
      hs'.records = Function.update hs.records address (some record) →
      hs'.events = hs.events ++ slotCalls ++ [.mallocEntry address] →
      InsertCalls hs hs' slotCalls

theorem NtHashset.Finds.congr {hs' : NtHashset} {data : List UInt8}
    {found : Option Nat} (functions : SameFunctions hs hs')
    (records : hs'.records = hs.records) (finds : hs.Finds data found) :
    hs'.Finds data found := by
  cases found with
  | none =>
      intro entry record isRecord matches'
      rw [records] at isRecord
      apply finds entry record isRecord
      rw [NtHashset.Matches, ← functions.hash, ← functions.compare]
      exact matches'
  | some entry =>
      obtain ⟨record, isRecord, matches'⟩ := finds
      refine ⟨record, records ▸ isRecord, ?_⟩
      rw [NtHashset.Matches, functions.hash, functions.compare]
      exact matches'

theorem ntHashsetInsertExt_of_slots (shape : HashsetShape hs table)
    (someSlots : 0 < hs.numSlots) (data : List UInt8) (size offset : Nat)
    (allocs : HashsetAllocs)
    (fits : ∀ block, allocs.entry = some block → offset ≤ size ∧ size ≤ data.length)
    (fresh : ∀ block, allocs.entry = some block → hs.records block.address = none) :
    ∃ hs' result table',
      ntHashsetInsertExt hs data size offset allocs = some (hs', result) ∧
      HashsetShape hs' table' ∧ SameFunctions hs hs' ∧
      Inserted hs data size offset allocs hs' result ∧ 0 < hs'.numSlots ∧
      ∃ count, InsertCalls hs hs' (List.replicate count .reallocSlots) := by
  have inRange := Nat.mod_lt (hs.hashFunc data).toNat someSlots
  obtain ⟨heads, head, -, -, isList, -, slotAt, along⟩ := shape.array inRange
  rw [ntHashsetInsertExt, if_neg someSlots.ne']
  simp only [slotAt, Option.bind_eq_bind, Option.bind_some, if_true]
  cases NtHashset.find_spec (hs.hashFunc data) data along
      (shape.list_length_le isList) with
  | inl found =>
      obtain ⟨before, entry, after, node, finds, -, isNode, matches'⟩ := found
      rw [finds]
      exact ⟨hs, _, table, rfl, shape, SameFunctions.refl hs,
        Inserted.present ⟨_, recordsOf_eq_some isNode, matches'⟩, someSlots, 0,
        .kept rfl (List.append_nil _).symm⟩
  | inr absent =>
      have notFound := shape.finds_none_of_chain absent.2
      rw [absent.1]
      simp only [Option.bind_some]
      by_cases crowded : hs.numData + 1 ≥ hs.numSlots * 4 / 5
      · rw [if_pos crowded]
        cases reallocated : allocs.realloc with
        | false =>
            exact ⟨hs, none, table, rfl, shape, SameFunctions.refl hs,
              Inserted.refused notFound rfl rfl (Or.inl reallocated), someSlots, 0,
              .kept rfl (List.append_nil _).symm⟩
        | true =>
            obtain ⟨grown, table₁, grows, shape₁, functions₁, records₁, num₁, roomy,
                events₁⟩ := growSlots_spec shape someSlots
            have someSlots₁ : 0 < grown.numSlots := by omega
            rw [if_pos rfl, grows]
            simp only [Option.bind_some]
            cases isBlock : allocs.entry with
            | none =>
                exact ⟨grown, none, table₁, rfl, shape₁, functions₁,
                  Inserted.refused notFound records₁ num₁ (Or.inr isBlock), someSlots₁, 1,
                  .kept records₁ events₁⟩
            | some block =>
                obtain ⟨offsetFits, sizeFits⟩ := fits block isBlock
                have fresh₁ : grown.records block.address = none := by
                  rw [records₁, fresh block isBlock]
                obtain ⟨hs', table', adds, shape', functions', records', num', slots',
                    events'⟩ :=
                  addEntry_spec shape₁ someSlots₁ roomy (hs.hashFunc data) offsetFits
                    sizeFits fresh₁
                rw [records₁] at records'
                refine ⟨hs', _, table', adds, shape', functions₁.trans functions',
                  Inserted.added notFound isBlock records' (by rw [num', num₁]), ?_, 1,
                  .added (fresh block isBlock) records' ?_⟩
                · rwa [slots']
                · rw [events', events₁]
                  rfl
      · rw [if_neg crowded]
        cases isBlock : allocs.entry with
        | none =>
            exact ⟨hs, none, table, rfl, shape, SameFunctions.refl hs,
              Inserted.refused notFound rfl rfl (Or.inr isBlock), someSlots, 0,
              .kept rfl (List.append_nil _).symm⟩
        | some block =>
            obtain ⟨offsetFits, sizeFits⟩ := fits block isBlock
            obtain ⟨hs', table', adds, shape', functions', records', num', slots',
                events'⟩ :=
              addEntry_spec shape someSlots (not_le.mp crowded) (hs.hashFunc data)
                offsetFits sizeFits (fresh block isBlock)
            refine ⟨hs', _, table', adds, shape', functions',
              Inserted.added notFound isBlock records' num', by rwa [slots'], 0,
              .added (fresh block isBlock) records' ?_⟩
            rw [events']
            simp

theorem ntHashsetInsertExt_of_noSlots (shape : HashsetShape hs table)
    (noSlots : hs.numSlots = 0) (data : List UInt8) (size offset : Nat)
    (allocs : HashsetAllocs) (slots : allocs.slots = true) :
    ∃ hs₁ table₁, ntHashsetInsertExt hs data size offset allocs =
        ntHashsetInsertExt hs₁ data size offset allocs ∧
      HashsetShape hs₁ table₁ ∧ SameFunctions hs hs₁ ∧ hs₁.records = hs.records ∧
      hs₁.numData = 0 ∧ 0 < hs₁.numSlots ∧ hs₁.events = hs.events ++ [.mallocSlots] := by
  obtain ⟨hs₁, table₁, inits, shape₁, functions₁, records₁, num₁, someSlots₁, events₁⟩ :=
    initSlots_spec (shape.records_none noSlots) ntHashsetDefaultSlots
  have positive := someSlots₁.mp (by decide)
  refine ⟨hs₁, table₁, ?_, shape₁, functions₁, records₁, num₁, positive, events₁⟩
  rw [ntHashsetInsertExt, ntHashsetInsertExt, if_pos noSlots, if_neg positive.ne',
    slots, inits]

/-- An insert, also into a hashset without slots. -/
theorem ntHashsetInsertExt_spec (shape : HashsetShape hs table)
    (data : List UInt8) (size offset : Nat) (allocs : HashsetAllocs)
    (slots : hs.numSlots = 0 → allocs.slots = true)
    (fits : ∀ block, allocs.entry = some block → offset ≤ size ∧ size ≤ data.length)
    (fresh : ∀ block, allocs.entry = some block → hs.records block.address = none) :
    ∃ hs' result table',
      ntHashsetInsertExt hs data size offset allocs = some (hs', result) ∧
      HashsetShape hs' table' ∧ SameFunctions hs hs' ∧
      Inserted hs data size offset allocs hs' result ∧ 0 < hs'.numSlots ∧
      ∃ count, InsertCalls hs hs' ((if hs.numSlots = 0 then [.mallocSlots] else []) ++
        List.replicate count .reallocSlots) := by
  by_cases noSlots : hs.numSlots = 0
  · have noRecords := shape.records_none noSlots
    obtain ⟨hs₁, table₁, same, shape₁, functions₁, records₁, num₁, positive, events₁⟩ :=
      ntHashsetInsertExt_of_noSlots shape noSlots data size offset allocs (slots noSlots)
    obtain ⟨hs', result, table', inserts, shape', functions', inserted, positive', count,
        calls⟩ :=
      ntHashsetInsertExt_of_slots shape₁ positive data size offset allocs fits
        (fun block isBlock => by rw [records₁, noRecords])
    refine ⟨hs', result, table', same.trans inserts, shape',
      functions₁.trans functions', ?_, positive', count, ?_⟩
    case refine_2 =>
      rw [if_pos noSlots]
      cases calls with
      | kept records' events' =>
          refine .kept (records'.trans records₁) ?_
          rw [events', events₁, List.append_assoc]
      | added fresh' records' events' =>
          rw [records₁] at fresh' records'
          refine .added fresh' records' ?_
          rw [events', events₁]
          simp
    have notFound := shape.finds_none noSlots data
    have noData : hs.numData = 0 := by
      rw [shape.num, shape.table_nil noSlots]
      rfl
    cases inserted with
    | present finds =>
        obtain ⟨record, isRecord, -⟩ := finds
        rw [records₁, noRecords] at isRecord
        cases isRecord
    | refused _ records' num' failed =>
        exact Inserted.refused notFound (records'.trans records₁)
          (by rw [num', num₁, noData]) failed
    | added _ isBlock records' num' =>
        apply Inserted.added notFound isBlock
        · rw [records', records₁, functions₁.hash]
        · rw [num', num₁, noData]
  · obtain ⟨hs', result, table', inserts, shape', functions', inserted, positive', calls⟩ :=
      ntHashsetInsertExt_of_slots shape (Nat.pos_of_ne_zero noSlots) data size offset
        allocs fits fresh
    rw [if_neg noSlots]
    exact ⟨hs', result, table', inserts, shape', functions', inserted, positive', calls⟩

end Insertions

end NtShm
