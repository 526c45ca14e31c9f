import NtShm.Chains
import NtShm.Hashset

/-!
# The rehash of a hashset

Growing the array moves entries between chains of the same array while the
chains are walked.  Every entry ends in the slot of its hash, in some order, and
none is lost, repeated or changed but for its link.
-/

namespace NtShm

def NtHashsetEntry.record (node : NtHashsetEntry) : UInt32 × List UInt8 :=
  (node.hash, node.data)

/-- The stored hashes and bytes by address. -/
def recordsOf (entries : Nat → Option NtHashsetEntry) (entry : Nat) :
    Option (UInt32 × List UInt8) :=
  (entries entry).map NtHashsetEntry.record

def NtHashset.records (hs : NtHashset) : Nat → Option (UInt32 × List UInt8) :=
  recordsOf hs.entries

section Records

variable {entries : Nat → Option NtHashsetEntry} {entry : Nat}
  {node : NtHashsetEntry}

theorem recordsOf_eq_some (isNode : entries entry = some node) :
    recordsOf entries entry = some node.record := by
  rw [recordsOf, isNode, Option.map_some]

theorem recordsOf_update (value : Option NtHashsetEntry) :
    recordsOf (Function.update entries entry value) =
      Function.update (recordsOf entries) entry
        (value.map NtHashsetEntry.record) := by
  funext other
  unfold recordsOf
  by_cases here : other = entry
  · rw [here, Function.update_self, Function.update_self]
  · rw [Function.update_of_ne here, Function.update_of_ne here]

theorem recordsOf_relink (isNode : entries entry = some node)
    (link : Option Nat) :
    recordsOf (Function.update entries entry (some { node with next := link })) =
      recordsOf entries := by
  rw [recordsOf_update]
  apply Function.update_eq_self_iff.mpr
  exact (recordsOf_eq_some isNode).symm

end Records

def NtHashset.withChains (hs : NtHashset) (heads : List (Option Nat))
    (entries : Nat → Option NtHashsetEntry) : NtHashset :=
  { hs with slots := some heads, entries := entries }

def BelongsTo (entries : Nat → Option NtHashsetEntry) (incSlots entry slot : Nat) :
    Prop :=
  ∀ record, recordsOf entries entry = some record →
    record.1.toNat % incSlots = slot

section Rehash

variable {hs : NtHashset} {heads : List (Option Nat)}
  {entries : Nat → Option NtHashsetEntry} {table : List (List Nat)}

theorem NtHashset.slotAt_withChains (slot : Nat) :
    (hs.withChains heads entries).slotAt slot = heads[slot]? := rfl

theorem NtHashset.setNext_withChains {entry : Nat} {node : NtHashsetEntry}
    (isNode : entries entry = some node) (link : Option Nat) :
    (hs.withChains heads entries).setNext entry link =
      some (hs.withChains heads
        (Function.update entries entry (some { node with next := link }))) := by
  have isNode' : (hs.withChains heads entries).entries entry = some node := isNode
  rw [setNext, isNode']
  rfl

def PrecededBy (prevNext : Option Nat) (kept : List Nat) : Prop :=
  (prevNext = none ∧ kept = []) ∨
    ∃ front previous, prevNext = some previous ∧ kept = front ++ [previous]

theorem PrecededBy.concat (kept : List Nat) (entry : Nat) :
    PrecededBy (some entry) (kept ++ [entry]) :=
  Or.inr ⟨kept, entry, rfl, rfl⟩

theorem moveEntry_spec (hs : NtHashset) {slot newSlot curr : Nat} {kept rest list : List Nat}
    {prevNext head : Option Nat} {node : NtHashsetEntry}
    (chained : Chained NtHashsetEntry.next heads entries table)
    (isList : table[slot]? = some (kept ++ curr :: rest))
    (isNew : table[newSlot]? = some list) (differs : slot ≠ newSlot)
    (preceded : PrecededBy prevNext kept) (isNode : entries curr = some node)
    (isHead : heads[newSlot]? = some head) :
    ∃ heads' entries',
      (do
        let hs ← (hs.withChains heads entries).setNext curr head
        let hs := hs.setSlot newSlot (some curr)
        hs.setLink slot prevNext node.next) = some (hs.withChains heads' entries') ∧
      recordsOf entries' = recordsOf entries ∧
      Path NtHashsetEntry.next entries' node.next rest none ∧
      Chained NtHashsetEntry.next heads' entries'
        ((table.set slot (kept ++ rest)).set newSlot (curr :: list)) := by
  obtain ⟨first, -, along⟩ := chained.chain slot _ isList
  have restAlong : Path NtHashsetEntry.next entries node.next rest none := by
    obtain ⟨middle, -, -, node', isNode', restAlong⟩ := path_append.mp along
    cases isNode.symm.trans isNode'
    exact restAlong
  have parts := List.nodup_append.mp (chained.list_nodup isList)
  have notInRest : curr ∉ rest := (List.nodup_cons.mp parts.2.1).1
  have isNew' : (table.set slot (kept ++ rest))[newSlot]? = some list := by
    rw [List.getElem?_set_ne differs, isNew]
  obtain ⟨fresh, -⟩ := notMem_of_nodup_set chained.nodup isList
  rw [NtHashset.setNext_withChains isNode, Option.bind_eq_bind, Option.bind_some]
  rcases preceded with ⟨rfl, rfl⟩ | ⟨front, previous, rfl, rfl⟩
  · refine ⟨(heads.set newSlot (some curr)).set slot node.next, _, rfl,
      recordsOf_relink isNode _, restAlong.update notInRest _, ?_⟩
    rw [List.set_comm _ _ (Ne.symm differs)]
    have isHead' : (heads.set slot node.next)[newSlot]? = some head := by
      rw [List.getElem?_set_ne differs, isHead]
    exact Chained.push (chained.unlinkFirst isList isNode) isNew' fresh isHead' rfl
  · have isList' : table[slot]? = some (front ++ previous :: curr :: rest) := by
      rw [isList, List.append_assoc]
      rfl
    have inKept : previous ∈ front ++ [previous] := by simp
    obtain ⟨prevNode, isPrev⟩ :=
      along.exists_node (List.mem_append_left _ inKept)
    have apart : previous ≠ curr :=
      parts.2.2 previous inKept curr List.mem_cons_self
    have prevNotInRest : previous ∉ rest := fun later =>
      parts.2.2 previous inKept previous (List.mem_cons_of_mem _ later) rfl
    have isPrev' : (Function.update entries curr
        (some { node with next := head })) previous = some prevNode := by
      rw [Function.update_of_ne apart, isPrev]
    refine ⟨heads.set newSlot (some curr), _,
      NtHashset.setNext_withChains isPrev' node.next, ?_, ?_, ?_⟩
    · rw [recordsOf_relink isPrev', recordsOf_relink isNode]
    · exact (restAlong.update notInRest _).update prevNotInRest _
    · have regroup : front ++ [previous] ++ rest = front ++ previous :: rest := by
        simp
      rw [regroup] at isNew' fresh ⊢
      rw [Function.update_comm (Ne.symm apart)]
      apply Chained.push _ isNew' fresh isHead rfl
      exact chained.unlinkAfter isList' isNode rfl

structure SlotRehashed (entries : Nat → Option NtHashsetEntry)
    (incSlots slot : Nat) (table table' : List (List Nat)) : Prop where
  size : table'.length = table.length
  same : table'.flatten.Perm table.flatten
  here : ∀ list, table'[slot]? = some list → ∀ entry ∈ list,
    BelongsTo entries incSlots entry slot
  others : ∀ other list, other ≠ slot → table'[other]? = some list →
    ∀ entry ∈ list, BelongsTo entries incSlots entry other ∨
      ∃ old, table[other]? = some old ∧ entry ∈ old

theorem belongsTo_of_node {entry incSlots slot : Nat} {node : NtHashsetEntry}
    (isNode : entries entry = some node)
    (belongs : node.hash.toNat % incSlots = slot) :
    BelongsTo entries incSlots entry slot := by
  intro record isRecord
  cases (recordsOf_eq_some isNode).symm.trans isRecord
  exact belongs

/-- Only the records decide where an entry belongs. -/
theorem BelongsTo.congr {entries' : Nat → Option NtHashsetEntry}
    {entry incSlots slot : Nat} (same : recordsOf entries' = recordsOf entries)
    (belongs : BelongsTo entries incSlots entry slot) :
    BelongsTo entries' incSlots entry slot := by
  intro record isRecord
  rw [same] at isRecord
  exact belongs record isRecord

/-- Nothing is left to move where all the entries of the slot belong to it. -/
theorem SlotRehashed.refl {incSlots slot : Nat} {kept : List Nat}
    (isList : table[slot]? = some kept)
    (keptBelong : ∀ entry ∈ kept, BelongsTo entries incSlots entry slot) :
    SlotRehashed entries incSlots slot table table where
  size := rfl
  same := List.Perm.refl _
  here := by
    intro list isList' entry isEntry
    cases isList.symm.trans isList'
    exact keptBelong entry isEntry
  others := fun _ list _ isOther _ isEntry => Or.inr ⟨list, isOther, isEntry⟩

theorem SlotRehashed.after_move {entries₁ : Nat → Option NtHashsetEntry}
    {incSlots slot newSlot curr : Nat} {kept rest list : List Nat}
    {table' : List (List Nat)}
    (done : SlotRehashed entries₁ incSlots slot
      ((table.set slot (kept ++ rest)).set newSlot (curr :: list)) table')
    (same : recordsOf entries₁ = recordsOf entries)
    (isList : table[slot]? = some (kept ++ curr :: rest))
    (isNew : table[newSlot]? = some list) (differs : slot ≠ newSlot)
    (belongs : BelongsTo entries incSlots curr newSlot) :
    SlotRehashed entries incSlots slot table table' where
  size := by
    rw [done.size, List.length_set, List.length_set]
  same := by
    have isNew' : (table.set slot (kept ++ rest))[newSlot]? = some list := by
      rw [List.getElem?_set_ne differs, isNew]
    exact done.same.trans
      ((flatten_set_cons isNew' curr).trans (flatten_set_remove isList).symm)
  here := by
    intro stored isStored entry isEntry
    exact (done.here stored isStored entry isEntry).congr same.symm
  others := by
    intro other stored elsewhere isStored entry isEntry
    cases done.others other stored elsewhere isStored entry isEntry with
    | inl belongsThere => exact Or.inl (belongsThere.congr same.symm)
    | inr remains =>
        obtain ⟨old, isOld, inOld⟩ := remains
        by_cases isNewSlot : other = newSlot
        · subst isNewSlot
          have inNew := (List.getElem?_eq_some_iff.mp isNew).1
          rw [List.getElem?_set_self (by simpa), Option.some.injEq] at isOld
          rw [← isOld, List.mem_cons] at inOld
          cases inOld with
          | inl isCurr => exact Or.inl (isCurr ▸ belongs)
          | inr inList => exact Or.inr ⟨list, isNew, inList⟩
        · rw [List.getElem?_set_ne (Ne.symm isNewSlot),
            List.getElem?_set_ne (Ne.symm elsewhere)] at isOld
          exact Or.inr ⟨old, isOld, inOld⟩

theorem rehashSlot_spec (hs : NtHashset) (slot : Nat) (fuel : Nat) :
    ∀ {heads entries table} {kept rest : List Nat} {prevNext curr : Option Nat},
      Chained NtHashsetEntry.next heads entries table →
      table[slot]? = some (kept ++ rest) →
      PrecededBy prevNext kept →
      Path NtHashsetEntry.next entries curr rest none →
      (∀ entry ∈ kept, BelongsTo entries table.length entry slot) →
      rest.length ≤ fuel →
      ∃ heads' entries' table',
        NtHashset.rehashSlot table.length slot fuel (hs.withChains heads entries)
          prevNext curr = some (hs.withChains heads' entries') ∧
        recordsOf entries' = recordsOf entries ∧
        Chained NtHashsetEntry.next heads' entries' table' ∧
        SlotRehashed entries table.length slot table table' := by
  induction fuel with
  | zero =>
      intro heads entries table kept rest prevNext curr chained isList _ along
        keptBelong enough
      have noRest : rest = [] := List.length_eq_zero_iff.mp (by omega)
      subst noRest
      have isEnd : curr = none := along
      subst isEnd
      rw [List.append_nil] at isList
      exact ⟨heads, entries, table, rfl, rfl, chained, .refl isList keptBelong⟩
  | succ fuel ih =>
      intro heads entries table kept rest prevNext curr chained isList preceded along
        keptBelong enough
      cases rest with
      | nil =>
          have isEnd : curr = none := along
          subst isEnd
          rw [List.append_nil] at isList
          exact ⟨heads, entries, table, rfl, rfl, chained, .refl isList keptBelong⟩
      | cons currEntry rest =>
          obtain ⟨rfl, node, isNode, along⟩ := along
          have isNode' : (hs.withChains heads entries).entries currEntry = some node :=
            isNode
          rw [List.length_cons] at enough
          rw [NtHashset.rehashSlot, isNode', Option.bind_eq_bind, Option.bind_some]
          by_cases stays : slot = node.hash.toNat % table.length
          · have isList' : table[slot]? = some ((kept ++ [currEntry]) ++ rest) := by
              rw [isList, List.append_assoc]
              rfl
            rw [if_neg (not_not.mpr stays)]
            apply ih chained isList' (PrecededBy.concat kept currEntry) along
            · intro entry isEntry
              rw [List.mem_append, List.mem_singleton] at isEntry
              cases isEntry with
              | inl isKept => exact keptBelong entry isKept
              | inr isCurr =>
                  exact isCurr ▸ belongsTo_of_node isNode stays.symm
            · omega
          · rw [if_pos stays]
            have inTable := (List.getElem?_eq_some_iff.mp isList).1
            have newIn : node.hash.toNat % table.length < table.length :=
              Nat.mod_lt _ (Nat.zero_lt_of_lt inTable)
            generalize isNewSlot : node.hash.toNat % table.length = newSlot
              at stays newIn ⊢
            have isNew := List.getElem?_eq_getElem newIn
            obtain ⟨head, isHead, -⟩ := chained.chain newSlot _ isNew
            obtain ⟨heads₁, entries₁, moves, same₁, along₁, chained₁⟩ :=
              moveEntry_spec hs chained isList isNew stays preceded isNode isHead
            have isList₁ : ((table.set slot (kept ++ rest)).set newSlot
                (currEntry :: table[newSlot]))[slot]? = some (kept ++ rest) := by
              rw [List.getElem?_set_ne (Ne.symm stays), List.getElem?_set_self inTable]
            have size₁ : ((table.set slot (kept ++ rest)).set newSlot
                (currEntry :: table[newSlot])).length = table.length := by simp
            obtain ⟨heads', entries', table', rehashes, same', chained', done⟩ :=
              ih chained₁ isList₁ preceded along₁ (fun entry isEntry =>
                size₁.symm ▸ (keptBelong entry isEntry).congr same₁) (by omega)
            rw [size₁] at rehashes done
            refine ⟨heads', entries', table', ?_, same'.trans same₁, chained', ?_⟩
            · simp only [NtHashset.slotAt_withChains, isHead, Option.bind_eq_bind,
                Option.bind_some] at moves ⊢
              rw [← Option.bind_assoc, moves, Option.bind_some, rehashes]
            · exact done.after_move same₁ isList isNew stays
                (belongsTo_of_node isNode isNewSlot)

/-- Every entry belongs where it is, in slots walked over and in new ones. -/
def Rehashed (entries : Nat → Option NtHashsetEntry) (numSlots walked : Nat)
    (table : List (List Nat)) : Prop :=
  ∀ slot list, slot < walked ∨ numSlots ≤ slot → table[slot]? = some list →
    ∀ entry ∈ list, BelongsTo entries table.length entry slot

theorem rehash_spec (hs : NtHashset) (numSlots : Nat) (left : Nat) :
    ∀ {heads entries table} {slot : Nat},
      Chained NtHashsetEntry.next heads entries table →
      Rehashed entries numSlots slot table →
      slot + left = numSlots → numSlots ≤ table.length →
      table.flatten.length ≤ hs.numData →
      ∃ heads' entries' table',
        NtHashset.rehash table.length left slot (hs.withChains heads entries) =
          some (hs.withChains heads' entries') ∧
        recordsOf entries' = recordsOf entries ∧
        Chained NtHashsetEntry.next heads' entries' table' ∧
        table'.length = table.length ∧ table'.flatten.Perm table.flatten ∧
        Rehashed entries numSlots numSlots table' := by
  induction left with
  | zero =>
      intro heads entries table slot chained rehashed walked _ _
      have isLast : slot = numSlots := by omega
      subst isLast
      exact ⟨heads, entries, table, rfl, rfl, chained, rfl, List.Perm.refl _, rehashed⟩
  | succ left ih =>
      intro heads entries table slot chained rehashed walked more enough
      have inTable : slot < table.length := by omega
      have isList := List.getElem?_eq_getElem inTable
      obtain ⟨head, isHead, along⟩ := chained.chain slot _ isList
      have fits : table[slot].length ≤ hs.numData :=
        (List.sublist_flatten_of_mem (List.getElem_mem inTable)).length_le.trans enough
      obtain ⟨heads₁, entries₁, table₁, rehashes₁, same₁, chained₁, done⟩ :=
        rehashSlot_spec hs slot hs.numData chained isList
          (Or.inl ⟨rfl, rfl⟩) along (by simp) fits
      have rehashed₁ : Rehashed entries₁ numSlots (slot + 1) table₁ := by
        intro other list reached isOther entry isEntry
        rw [done.size]
        by_cases isSlot : other = slot
        · subst isSlot
          exact (done.here list isOther entry isEntry).congr same₁
        · cases done.others other list isSlot isOther entry isEntry with
          | inl belongs => exact belongs.congr same₁
          | inr remains =>
              obtain ⟨old, isOld, inOld⟩ := remains
              exact (rehashed other old (by omega) isOld entry inOld).congr same₁
      obtain ⟨heads', entries', table', rehashes', same', chained', size', perm',
          rehashed'⟩ :=
        ih chained₁ rehashed₁ (by omega) (done.size.symm ▸ more)
          (done.same.length_eq.symm ▸ enough)
      rw [done.size] at rehashes' size'
      refine ⟨heads', entries', table', ?_, same'.trans same₁, chained', size',
        perm'.trans done.same, ?_⟩
      · rw [NtHashset.rehash, NtHashset.slotAt_withChains, isHead]
        simp only [Option.bind_eq_bind, Option.bind_some]
        have numData : (hs.withChains heads entries).numData = hs.numData := rfl
        rw [numData, rehashes₁, Option.bind_some, rehashes']
      · intro other list reached isOther entry isEntry
        exact (rehashed' other list reached isOther entry isEntry).congr same₁.symm

end Rehash

end NtShm
