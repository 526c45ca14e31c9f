import NtShm.HashsetGrowth

/-!
# The shape of a hashset

A hashset has a table of chains with every entry in the slot of its hash, counts
its entries, and is never crowded.  Looking for a record, taking an entry out,
adding one and growing keep the shape; on the records they act as on a map.
-/

namespace NtShm

/-- The hashset has the chains of a table, every entry in its slot. -/
structure HashsetShape (hs : NtHashset) (table : List (List Nat)) : Prop where
  slots : (hs.slots = none ∧ table = []) ∨
    ∃ heads, hs.slots = some heads ∧ table ≠ [] ∧
      Chained NtHashsetEntry.next heads hs.entries table
  size : hs.numSlots = table.length
  num : hs.numData = table.flatten.length
  live : ∀ entry, (hs.records entry).isSome ↔ entry ∈ table.flatten
  placed : ∀ (slot : Nat) list, table[slot]? = some list → ∀ entry ∈ list,
    BelongsTo hs.entries table.length entry slot
  load : 0 < hs.numSlots → hs.numData < hs.numSlots * 4 / 5

def NtHashset.Matches (hs : NtHashset) (hash : UInt32) (data : List UInt8)
    (record : UInt32 × List UInt8) : Prop :=
  record.1 = hash ∧ hs.compareFunc record.2 data = 0

/-- What a search comes to: an entry that matches, or none if no entry does. -/
def NtHashset.Finds (hs : NtHashset) (data : List UInt8) : Option Nat → Prop
  | some entry => ∃ record, hs.records entry = some record ∧
      hs.Matches (hs.hashFunc data) data record
  | none => ∀ entry record, hs.records entry = some record →
      ¬ hs.Matches (hs.hashFunc data) data record

structure SameFunctions (hs hs' : NtHashset) : Prop where
  hash : hs'.hashFunc = hs.hashFunc
  compare : hs'.compareFunc = hs.compareFunc
  clean : hs'.cleanFunc = hs.cleanFunc

theorem SameFunctions.refl (hs : NtHashset) : SameFunctions hs hs := ⟨rfl, rfl, rfl⟩

theorem SameFunctions.trans {hs₁ hs₂ hs₃ : NtHashset}
    (first : SameFunctions hs₁ hs₂) (second : SameFunctions hs₂ hs₃) :
    SameFunctions hs₁ hs₃ :=
  ⟨second.hash.trans first.hash, second.compare.trans first.compare,
    second.clean.trans first.clean⟩

section Shapes

variable {hs : NtHashset} {table : List (List Nat)}

theorem NtHashset.isMatch_iff {hash : UInt32} {data : List UInt8}
    {node : NtHashsetEntry} :
    hs.isMatch hash data node = true ↔ hs.Matches hash data node.record := by
  simp [isMatch, Matches, NtHashsetEntry.record]

namespace HashsetShape

theorem array (shape : HashsetShape hs table) {slot : Nat}
    (inRange : slot < hs.numSlots) :
    ∃ heads head, hs.slots = some heads ∧
      Chained NtHashsetEntry.next heads hs.entries table ∧
      table[slot]? = some (table.getD slot []) ∧ heads[slot]? = some head ∧
      hs.slotAt slot = some head ∧
      Path NtHashsetEntry.next hs.entries head (table.getD slot []) none := by
  have inTable : slot < table.length := shape.size ▸ inRange
  have isList : table[slot]? = some (table.getD slot []) := by
    rw [List.getD_eq_getElem?_getD, List.getElem?_eq_getElem inTable]
    rfl
  rcases shape.slots with ⟨-, rfl⟩ | ⟨heads, isHeads, -, chained⟩
  · cases inTable
  · obtain ⟨head, isHead, along⟩ := chained.chain slot _ isList
    refine ⟨heads, head, isHeads, chained, isList, isHead, ?_, along⟩
    rw [NtHashset.slotAt, isHeads, Option.bind_some, isHead]

theorem nodup (shape : HashsetShape hs table) : table.flatten.Nodup := by
  rcases shape.slots with ⟨-, rfl⟩ | ⟨heads, -, -, chained⟩
  · exact List.nodup_nil
  · exact chained.nodup

theorem list_length_le (shape : HashsetShape hs table) {slot : Nat}
    {list : List Nat} (isList : table[slot]? = some list) :
    list.length ≤ hs.numData := by
  rw [shape.num]
  exact (List.sublist_flatten_of_mem (List.mem_of_getElem? isList)).length_le

theorem mem_of_records (shape : HashsetShape hs table) {entry : Nat}
    {record : UInt32 × List UInt8} (isRecord : hs.records entry = some record) :
    entry ∈ table.getD (record.1.toNat % hs.numSlots) [] := by
  have stored := (shape.live entry).mp (by rw [isRecord]; rfl)
  obtain ⟨list, isList, inList⟩ := List.mem_flatten.mp stored
  obtain ⟨slot, inTable, rfl⟩ := List.getElem_of_mem isList
  have placed := shape.placed slot _ (List.getElem?_eq_getElem inTable) entry inList
    record isRecord
  rw [shape.size, placed, List.getD_eq_getElem _ _ inTable]
  exact inList

theorem table_nil (shape : HashsetShape hs table) (noSlots : hs.numSlots = 0) :
    table = [] := by
  rw [← List.length_eq_zero_iff, ← shape.size, noSlots]

theorem records_none (shape : HashsetShape hs table) (noSlots : hs.numSlots = 0)
    (entry : Nat) : hs.records entry = none := by
  have live := shape.live entry
  rw [shape.table_nil noSlots] at live
  simpa using live

theorem finds_none (shape : HashsetShape hs table) (noSlots : hs.numSlots = 0)
    (data : List UInt8) : hs.Finds data none := by
  intro entry record isRecord
  rw [shape.records_none noSlots] at isRecord
  cases isRecord

/-- What the chain of the hash does not have is not stored. -/
theorem finds_none_of_chain (shape : HashsetShape hs table) {data : List UInt8}
    (absent : ∀ entry ∈ table.getD ((hs.hashFunc data).toNat % hs.numSlots) [],
      ∀ record, hs.records entry = some record →
        ¬ hs.Matches (hs.hashFunc data) data record) : hs.Finds data none := by
  intro entry record isRecord matches'
  have inList := shape.mem_of_records isRecord
  rw [matches'.1] at inList
  exact absent entry inList record isRecord matches'

end HashsetShape

theorem NtHashset.find_spec (hash : UInt32) (data : List UInt8) {fuel : Nat} :
    ∀ {head : Option Nat} {list : List Nat},
      Path NtHashsetEntry.next hs.entries head list none → list.length ≤ fuel →
      (∃ before entry after node, hs.find hash data fuel head = some (some entry) ∧
        list = before ++ entry :: after ∧ hs.entries entry = some node ∧
        hs.Matches hash data node.record) ∨
      (hs.find hash data fuel head = some none ∧ ∀ entry ∈ list, ∀ record,
        hs.records entry = some record → ¬ hs.Matches hash data record) := by
  induction fuel with
  | zero =>
      intro head list along enough
      have empty : list = [] := List.length_eq_zero_iff.mp (by omega)
      subst empty
      have isEnd : head = none := along
      exact Or.inr ⟨by rw [isEnd]; rfl, by simp⟩
  | succ fuel ih =>
      intro head list along enough
      cases list with
      | nil =>
          have isEnd : head = none := along
          exact Or.inr ⟨by rw [isEnd]; rfl, by simp⟩
      | cons entry list =>
          obtain ⟨rfl, node, isNode, along⟩ := along
          rw [List.length_cons] at enough
          rw [find, isNode, Option.bind_eq_bind, Option.bind_some]
          by_cases matched : hs.isMatch hash data node = true
          · rw [if_pos matched]
            exact Or.inl ⟨[], entry, list, node, rfl, rfl, isNode,
              isMatch_iff.mp matched⟩
          · rw [if_neg matched]
            cases ih along (by omega) with
            | inl found =>
                obtain ⟨before, other, after, node', finds, rfl, isNode', matches'⟩ :=
                  found
                exact Or.inl ⟨entry :: before, other, after, node', finds, rfl, isNode',
                  matches'⟩
            | inr absent =>
                refine Or.inr ⟨absent.1, fun other isOther record isRecord => ?_⟩
                rw [List.mem_cons] at isOther
                cases isOther with
                | inl isFirst =>
                    subst isFirst
                    cases (recordsOf_eq_some isNode).symm.trans isRecord
                    exact fun matches' => matched (isMatch_iff.mpr matches')
                | inr later => exact absent.2 other later record isRecord

end Shapes

end NtShm
