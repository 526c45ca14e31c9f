import NtShm.ByteMemory
import NtShm.CStrings
import NtShm.Hashmap
import NtShm.HashsetRuns
import Mathlib.Tactic.WLOG

/-!
# Values under strings in a hashset

`nt_hashset_insert_kv` keeps a pair of pointers, to a copy of the key and to a
copy of the value.  The hashset hashes the first pointer of a pair and compares
it with the first word of an entry, which an insert leaves as it was in the
block.  A key that was inserted is therefore not found again.
-/

namespace NtShm

/-! ## Words in a record -/

def wordBytes (word : Nat) : List UInt8 :=
  (Memory.store (fun _ => 0) 0 8 word).bytes 0 8

def wordAt (data : List UInt8) (offset : Nat) : Nat :=
  Memory.load (fun position => data.getD position 0) offset 8

/-- `nt_hash_modfnv`. -/
def ntHashModfnv (data : List UInt8) (len : Nat) (seed : UInt32) : UInt32 :=
  let hash := (data.take len).foldl
    (fun hash byte => (hash ^^^ byte.toUInt32) * 16777619) (2166136261 ^^^ seed)
  let hash := hash + hash <<< 13
  let hash := hash ^^^ hash >>> 7
  let hash := hash + hash <<< 3
  let hash := hash ^^^ hash >>> 17
  hash + hash <<< 5

/-- `NT_DEFAULT_HASH_SEED`. -/
def ntDefaultHashSeed : UInt32 := 0

/-- `nt_default_uint64_hash_func`. -/
def ntDefaultUint64HashFunc (data : List UInt8) : UInt32 :=
  ntHashModfnv data 8 ntDefaultHashSeed

/-- `nt_default_uint64_compare_func` on the words that two records start with. -/
def compareFirstWords (d1 d2 : List UInt8) : Int :=
  ntDefaultUint64CompareFunc (UInt64.ofNat (wordAt d1 0)) (UInt64.ofNat (wordAt d2 0))

/-! ## The calls -/

/-- `nt_hashset_kv_t`: the addresses of a key and of a value. -/
structure NtHashsetKv where
  key : Nat
  val : Nat

/-- The bytes of a pair; `offsetof(nt_hashset_kv_t, val)` is 8. -/
def NtHashsetKv.bytes (kv : NtHashsetKv) : List UInt8 :=
  wordBytes kv.key ++ wordBytes kv.val

/-- A hashset, and the blocks that `malloc` and `strdup` gave out. -/
structure KvStore where
  hs : NtHashset
  heap : Nat → Option (List UInt8)

/-- A call of `nt_hashset_insert_kv`, with the addresses that `malloc` and
`strdup` return in it and what the functions for memory of the hashset do. -/
structure KvInsert where
  key : CString
  val : List UInt8
  size : Nat
  kvEntry : Nat
  keyCopy : Nat
  valCopy : Nat
  allocs : HashsetAllocs

/-- `key_len + size`, a `size_t`. -/
def KvInsert.storedSize (insert : KvInsert) : Nat :=
  (insert.key.length + insert.size) % 2 ^ 64

/-- `strdup`, where it returns this address. -/
def strdup (heap : Nat → Option (List UInt8)) (text : CString) (address : Nat) :
    Nat → Option (List UInt8) :=
  Function.update heap address (some (text.bytes ++ [0]))

/-- `nt_hashset_insert_kv`.  There is no result where it reads past the value, or
has `mem_free_func` free a block of `malloc`. -/
def ntHashsetInsertKv (store : KvStore) (insert : KvInsert) :
    Option (KvStore × Option Nat) := do
  if insert.val.length < insert.size then none
  let kvEntry : NtHashsetKv := ⟨insert.keyCopy, insert.valCopy⟩
  let heap := strdup store.heap insert.key insert.keyCopy
  let heap := Function.update heap insert.valCopy (some (insert.val.take insert.size))
  let heap := Function.update heap insert.kvEntry (some kvEntry.bytes)
  let (hs, insertedData) ←
    ntHashsetInsertExt store.hs kvEntry.bytes insert.storedSize 8 insert.allocs
  if insertedData.isNone then none
  some (⟨hs, heap⟩, insertedData)

/-- `nt_hashset_get_kv`, where `strdup` returns `keyCopy`.  There is no result
where it reads past the entry it found. -/
def ntHashsetGetKv (store : KvStore) (key : CString) (keyCopy : Nat) :
    Option (KvStore × Option Nat) := do
  let searchKv : NtHashsetKv := ⟨keyCopy, 0⟩
  let store := { store with heap := strdup store.heap key keyCopy }
  match ← ntHashsetSearch store.hs searchKv.bytes with
  | none => some (store, none)
  | some foundKv =>
      let node ← store.hs.entries (foundKv - dataOffset)
      if node.data.length < 16 then none
      some (store, some (wordAt node.data 8))

/-- `NT_SYNC_ITEMS_INIT_SIZE`. -/
def ntSyncItemsInitSize : Nat := 1000

/-- `cache->sync_items` as `init_sync_cache` creates it. -/
def createSyncItems (heap : Nat → Option (List UInt8)) : Option KvStore := do
  let hs ← ntHashsetCreateExt ntSyncItemsInitSize ntDefaultUint64HashFunc
    compareFirstWords false true
  some ⟨hs, heap⟩

def insertKvs : KvStore → List KvInsert → Option KvStore
  | store, [] => some store
  | store, insert :: later => do
      let (store, _) ← ntHashsetInsertKv store insert
      insertKvs store later

/-! ## What is asked of them -/

/-- The functions for memory of the hashset succeed: `sync_index_mem` does not
allow to be out of memory, and the process exits where it is. -/
def KvInsert.Allocates (insert : KvInsert) (block : HashsetBlock) : Prop :=
  insert.allocs = ⟨true, true, some block⟩

/-- The value has at least one byte, and as many as said. -/
def KvInsert.Proper (insert : KvInsert) : Prop :=
  1 ≤ insert.size ∧ insert.size ≤ insert.val.length ∧
    ∃ block, insert.Allocates block

/-- The blocks that an insert gets from `malloc` and `strdup`. -/
def KvInsert.addresses (insert : KvInsert) : List Nat :=
  [insert.kvEntry, insert.keyCopy, insert.valCopy]

def HashsetBlock.firstWord (block : HashsetBlock) : Nat :=
  Memory.load block.junk 0 8

/-- The later insert has a block of its own for an entry, and its copy of the key
is not at the address that lay in the block of the earlier one. -/
def KvInsert.Apart (earlier later : KvInsert) : Prop :=
  ∀ block, earlier.Allocates block →
    later.keyCopy ≠ block.firstWord ∧
      ∀ block', later.Allocates block' → block.address ≠ block'.address

/-- The addresses that inserts and a get receive are fresh and pairwise distinct:
none is allocated, and a copy of a key is at no address that memory held
before. -/
structure FreshAddresses (heap : Nat → Option (List UInt8)) (history : List KvInsert)
    (keyCopy : Nat) : Prop where
  distinct : (keyCopy :: history.flatMap KvInsert.addresses).Nodup
  words : ∀ address ∈ keyCopy :: history.flatMap KvInsert.addresses, address < 2 ^ 64
  unallocated : ∀ address ∈ keyCopy :: history.flatMap KvInsert.addresses,
    heap address = none
  apart : history.Pairwise KvInsert.Apart
  unseen : ∀ insert ∈ history, ∀ block, insert.Allocates block →
    keyCopy ≠ block.firstWord

/-- After the inserts, a get of the key returns the address of a copy of the
value first inserted under it, or NULL if there is none. -/
def KvRetrieved (heap : Nat → Option (List UInt8)) (history : List KvInsert)
    (key : CString) (keyCopy : Nat) : Prop :=
  ∃ created store store' found, createSyncItems heap = some created ∧
    insertKvs created history = some store ∧
    ntHashsetGetKv store key keyCopy = some (store', found) ∧
    match history.find? fun insert => insert.key.bytes = key.bytes with
    | none => found = none
    | some insert => ∃ address, found = some address ∧
        store'.heap address = some (insert.val.take insert.size)

/-- The bytes that an insert copies are those of a pair. -/
def KvInsert.Fits (insert : KvInsert) : Prop :=
  8 ≤ insert.storedSize ∧ insert.storedSize ≤ 16

section Words

theorem wordAt_lt (data : List UInt8) (offset : Nat) : wordAt data offset < 2 ^ 64 :=
  Memory.load_lt _ _ 8

theorem length_wordBytes (word : Nat) : (wordBytes word).length = 8 := by
  simp [wordBytes, Memory.bytes]

/-- The first word of a pair is the address of its key. -/
theorem wordAt_bytes {kv : NtHashsetKv} (fits : kv.key < 2 ^ 64) :
    wordAt kv.bytes 0 = kv.key := by
  have stored : (Memory.store (fun _ => 0) 0 8 kv.key).load 0 8 = kv.key :=
    Memory.load_store_same fits
  rw [← stored, wordAt]
  apply Memory.load_congr
  intro position _ inRange
  have inKey : position < (wordBytes kv.key).length := by
    rw [length_wordBytes]
    exact inRange
  rw [NtHashsetKv.bytes, List.getD_append _ _ _ _ inKey]
  simp [wordBytes, Memory.bytes, inRange]

theorem wordAt_storedBytes (block : HashsetBlock) (data : List UInt8) (size : Nat) :
    wordAt (storedBytes block data size 8) 0 = block.firstWord := by
  apply Memory.load_congr
  intro position _ inRange
  have inJunk : position < ((List.range 8).map block.junk).length := by
    simpa using inRange
  rw [storedBytes, List.getD_append _ _ _ _ inJunk]
  simp [inRange]

theorem compareFirstWords_ne {d1 d2 : List UInt8} (differ : wordAt d1 0 ≠ wordAt d2 0) :
    compareFirstWords d1 d2 ≠ 0 := by
  have differ' : UInt64.ofNat (wordAt d1 0) ≠ UInt64.ofNat (wordAt d2 0) := by
    intro same
    apply differ
    have values := congrArg UInt64.toNat same
    rwa [UInt64.toNat_ofNat_of_lt' (wordAt_lt d1 0),
      UInt64.toNat_ofNat_of_lt' (wordAt_lt d2 0)] at values
  rw [compareFirstWords, ntDefaultUint64CompareFunc]
  split_ifs with less greater
  · decide
  · decide
  · have same := UInt64.le_antisymm (UInt64.not_lt.mp greater) (UInt64.not_lt.mp less)
    exact absurd same differ'

end Words

/-! ## What the inserts leave -/

/-- The entries of the hashset come from these inserts, and each starts with the
word that lay in its block. -/
structure KvShape (store : KvStore) (history : List KvInsert) : Prop where
  table : ∃ table, HashsetShape store.hs table
  compare : store.hs.compareFunc = compareFirstWords
  entries : ∀ entry record, store.hs.records entry = some record →
    ∃ insert ∈ history, ∃ block, insert.Allocates block ∧ entry = block.address ∧
      wordAt record.2 0 = block.firstWord

section Inserts

variable {store : KvStore} {history : List KvInsert}

/-- No entry starts with an address that was not in memory before. -/
theorem KvShape.finds_none (shape : KvShape store history) {kv : NtHashsetKv}
    (fits : kv.key < 2 ^ 64)
    (unseen : ∀ insert ∈ history, ∀ block, insert.Allocates block →
      kv.key ≠ block.firstWord) {found : Option Nat}
    (finds : store.hs.Finds kv.bytes found) : found = none := by
  cases found with
  | none => rfl
  | some entry =>
      obtain ⟨record, isRecord, -, equal⟩ := finds
      obtain ⟨insert, isInsert, block, allocates, -, starts⟩ :=
        shape.entries entry record isRecord
      rw [shape.compare] at equal
      refine absurd equal (compareFirstWords_ne ?_)
      rw [starts, wordAt_bytes fits]
      exact (unseen insert isInsert block allocates).symm

theorem addEntry_eq_none {hs : NtHashset} (slot : Nat) (hash : UInt32)
    {data : List UInt8} {size offset : Nat} (block : HashsetBlock)
    (unfit : ¬ (offset ≤ size ∧ size ≤ data.length)) :
    hs.addEntry slot hash data size offset (some block) = none := by
  rw [NtHashset.addEntry, if_pos (by omega)]
  rfl

theorem ntHashsetInsertExt_eq_none {hs : NtHashset} {table : List (List Nat)}
    (shape : HashsetShape hs table) {data : List UInt8} {size offset : Nat}
    (block : HashsetBlock) (notFound : hs.Finds data none)
    (unfit : ¬ (offset ≤ size ∧ size ≤ data.length)) :
    ntHashsetInsertExt hs data size offset ⟨true, true, some block⟩ = none := by
  wlog someSlots : 0 < hs.numSlots generalizing hs table
  · obtain ⟨hs₁, table₁, same, shape₁, functions₁, records₁, -, positive, -⟩ :=
      ntHashsetInsertExt_of_noSlots shape (Nat.eq_zero_of_not_pos someSlots) data size
        offset ⟨true, true, some block⟩ rfl
    rw [same]
    exact this shape₁ (notFound.congr functions₁ records₁) positive
  have inRange := Nat.mod_lt (hs.hashFunc data).toNat someSlots
  obtain ⟨heads, head, -, -, isList, -, slotAt, along⟩ := shape.array inRange
  rw [ntHashsetInsertExt, if_neg someSlots.ne']
  simp only [slotAt, Option.bind_eq_bind, Option.bind_some, if_true]
  cases NtHashset.find_spec (hs.hashFunc data) data along
      (shape.list_length_le isList) with
  | inl found =>
      obtain ⟨before, entry, after, node, -, -, isNode, matches'⟩ := found
      exact absurd matches' (notFound entry _ (recordsOf_eq_some isNode))
  | inr absent =>
      rw [absent.1]
      simp only [Option.bind_some]
      split
      · obtain ⟨grown, -, grows, -⟩ := growSlots_spec shape someSlots
        rw [grows]
        exact addEntry_eq_none _ _ block unfit
      · exact addEntry_eq_none _ _ block unfit

theorem ntHashsetInsertKv_spec (shape : KvShape store history) {insert : KvInsert}
    {block : HashsetBlock} (allocates : insert.Allocates block)
    (sizeFits : insert.size ≤ insert.val.length) (word : insert.keyCopy < 2 ^ 64)
    (apart : ∀ earlier ∈ history, earlier.Apart insert) :
    (insert.Fits ∧ ∃ store' data, ntHashsetInsertKv store insert = some (store', data) ∧
      KvShape store' (history ++ [insert])) ∨
    (¬ insert.Fits ∧ ntHashsetInsertKv store insert = none) := by
  let kv : NtHashsetKv := ⟨insert.keyCopy, insert.valCopy⟩
  have length : kv.bytes.length = 16 := by
    simp [NtHashsetKv.bytes, length_wordBytes]
  obtain ⟨table, isShape⟩ := shape.table
  have notFound : ∀ {found}, store.hs.Finds kv.bytes found → found = none :=
    shape.finds_none word fun earlier isEarlier block' allocates' =>
      (apart earlier isEarlier block' allocates').1
  have fresh : store.hs.records block.address = none := by
    rw [Option.eq_none_iff_forall_ne_some]
    intro record isRecord
    obtain ⟨earlier, isEarlier, block', allocates', same, -⟩ :=
      shape.entries _ _ isRecord
    exact (apart earlier isEarlier block' allocates').2 block allocates same.symm
  have isAllocs : insert.allocs = ⟨true, true, some block⟩ := allocates
  rw [ntHashsetInsertKv, if_neg (by omega)]
  by_cases fits : insert.Fits
  · refine Or.inl ⟨fits, ?_⟩
    obtain ⟨hs', result, table', inserts, shape', functions, inserted, -⟩ :=
      ntHashsetInsertExt_spec isShape kv.bytes insert.storedSize 8 insert.allocs
        (fun _ => by rw [isAllocs]) (fun _ _ => by rw [length]; exact fits)
        (fun block' isBlock => by
          rw [isAllocs] at isBlock
          cases isBlock
          exact fresh)
    cases inserted with
    | present finds => exact absurd (notFound finds) (by simp)
    | refused _ _ _ failed => simp [isAllocs] at failed
    | @added _ block' _ isBlock records _ =>
        rw [isAllocs] at isBlock
        cases isBlock
        have inserts' : ntHashsetInsertExt store.hs kv.bytes insert.storedSize 8
          insert.allocs = some (hs', some (block.address + dataOffset)) := inserts
        simp only [Option.bind_eq_bind]
        refine ⟨_, _, by rw [inserts']; rfl, ⟨table', shape'⟩,
          functions.compare.trans shape.compare, fun entry record isRecord => ?_⟩
        change hs'.records entry = some record at isRecord
        rw [records] at isRecord
        by_cases isNew : entry = block.address
        · rw [isNew, Function.update_self, Option.some.injEq] at isRecord
          refine ⟨insert, by simp, block, allocates, isNew, ?_⟩
          rw [← isRecord]
          exact wordAt_storedBytes block _ _
        · rw [Function.update_of_ne isNew] at isRecord
          obtain ⟨earlier, isEarlier, rest⟩ := shape.entries entry record isRecord
          exact ⟨earlier, List.mem_append_left _ isEarlier, rest⟩
  · refine Or.inr ⟨fits, ?_⟩
    obtain ⟨found, -, finds⟩ := ntHashsetSearch_spec isShape kv.bytes
    rw [notFound finds] at finds
    have faults := ntHashsetInsertExt_eq_none isShape block finds
      (by rw [length]; exact fits)
    have faults' : ntHashsetInsertExt store.hs kv.bytes insert.storedSize 8
      insert.allocs = none := by rw [isAllocs]; exact faults
    simp only [Option.bind_eq_bind]
    rw [faults']
    rfl

/-- Inserts one after another all fit, or one reads outside its pair. -/
theorem insertKvs_spec {later : List KvInsert} :
    ∀ {store history}, KvShape store history → (∀ insert ∈ later, insert.Proper) →
      (∀ insert ∈ later, insert.keyCopy < 2 ^ 64) →
      (history ++ later).Pairwise KvInsert.Apart →
      ((∀ insert ∈ later, insert.Fits) ∧ ∃ store', insertKvs store later = some store' ∧
        KvShape store' (history ++ later)) ∨
      ((∃ insert ∈ later, ¬ insert.Fits) ∧ insertKvs store later = none) := by
  induction later with
  | nil =>
      intro store history shape _ _ _
      exact Or.inl ⟨by simp, store, rfl, by rwa [List.append_nil]⟩
  | cons insert later ih =>
      intro store history shape proper words apart
      obtain ⟨-, sizeFits, block, allocates⟩ := proper insert List.mem_cons_self
      have apart' := (List.pairwise_append.mp apart).2.2
      rw [insertKvs]
      cases ntHashsetInsertKv_spec shape allocates sizeFits (words _ List.mem_cons_self)
          (fun earlier isEarlier => apart' earlier isEarlier _ List.mem_cons_self) with
      | inl inserted =>
          obtain ⟨fits, store₁, data, inserts, shape₁⟩ := inserted
          rw [inserts, Option.bind_eq_bind, Option.bind_some]
          rw [List.append_cons] at apart ⊢
          have properLater := fun other isOther =>
            proper other (List.mem_cons_of_mem insert isOther)
          have wordsLater := fun other isOther =>
            words other (List.mem_cons_of_mem insert isOther)
          cases ih shape₁ properLater wordsLater apart with
          | inl done => exact Or.inl ⟨List.forall_mem_cons.mpr ⟨fits, done.1⟩, done.2⟩
          | inr failed =>
              obtain ⟨⟨other, isOther, unfit⟩, fails⟩ := failed
              exact Or.inr ⟨⟨other, List.mem_cons_of_mem _ isOther, unfit⟩, fails⟩
      | inr failed =>
          rw [failed.2]
          exact Or.inr ⟨⟨insert, List.mem_cons_self, failed.1⟩, rfl⟩

theorem ntHashsetGetKv_spec (shape : KvShape store history) (key : CString)
    {keyCopy : Nat} (word : keyCopy < 2 ^ 64)
    (unseen : ∀ insert ∈ history, ∀ block, insert.Allocates block →
      keyCopy ≠ block.firstWord) :
    ntHashsetGetKv store key keyCopy =
      some ({ store with heap := strdup store.heap key keyCopy }, none) := by
  obtain ⟨table, isShape⟩ := shape.table
  let kv : NtHashsetKv := ⟨keyCopy, 0⟩
  obtain ⟨found, searches, finds⟩ := ntHashsetSearch_spec isShape kv.bytes
  have notFound : found = none := shape.finds_none word unseen finds
  rw [notFound] at searches
  rw [ntHashsetGetKv, searches]
  rfl

end Inserts

theorem createSyncItems_spec (heap : Nat → Option (List UInt8)) :
    ∃ created, createSyncItems heap = some created ∧ KvShape created [] := by
  obtain ⟨hs, table, creates, shape, -, compare, noRecords, -⟩ :=
    ntHashsetCreateExt_spec ntSyncItemsInitSize ntDefaultUint64HashFunc
      compareFirstWords false true fun _ => rfl
  refine ⟨⟨hs, heap⟩, ?_, ⟨table, shape⟩, compare, fun entry record isRecord => ?_⟩
  · rw [createSyncItems, creates]
    rfl
  · rw [noRecords] at isRecord
    cases isRecord

/-- A key is retrieved as it should be if and only if it was not inserted, and no
insert copies bytes outside its pair. -/
theorem kvRetrieved_iff {heap : Nat → Option (List UInt8)} {history : List KvInsert}
    {keyCopy : Nat} (key : CString) (fresh : FreshAddresses heap history keyCopy)
    (proper : ∀ insert ∈ history, insert.Proper) :
    KvRetrieved heap history key keyCopy ↔
      ∀ insert ∈ history, insert.Fits ∧ insert.key ≠ key := by
  obtain ⟨created, creates, shape⟩ := createSyncItems_spec heap
  have words : ∀ insert ∈ history, insert.keyCopy < 2 ^ 64 := by
    intro insert isInsert
    apply fresh.words
    rw [List.mem_cons, List.mem_flatMap]
    exact Or.inr ⟨insert, isInsert, by simp [KvInsert.addresses]⟩
  have word : keyCopy < 2 ^ 64 := fresh.words _ List.mem_cons_self
  have inserts := insertKvs_spec shape proper words fresh.apart
  constructor
  · rintro ⟨created', store, store', found, creates', runs, gets, answer⟩
    cases creates'.symm.trans creates
    cases inserts with
    | inl inserted =>
        obtain ⟨fits, store₁, runs', shape'⟩ := inserted
        cases runs'.symm.trans runs
        cases (ntHashsetGetKv_spec shape' key word fresh.unseen).symm.trans gets
        split at answer
        · next absent =>
            rw [List.find?_eq_none] at absent
            refine fun insert isInsert => ⟨fits insert isInsert, fun same => ?_⟩
            exact absent insert isInsert (by simp [same])
        · obtain ⟨address, isFound, -⟩ := answer
          cases isFound
    | inr failed =>
        cases failed.2.symm.trans runs
  · intro absent
    cases inserts with
    | inl inserted =>
        obtain ⟨-, store, runs, shape'⟩ := inserted
        have gets := ntHashsetGetKv_spec shape' key word fresh.unseen
        refine ⟨created, store, _, none, creates, runs, gets, ?_⟩
        have notFound : history.find? (fun insert => insert.key.bytes = key.bytes) =
            none := by
          rw [List.find?_eq_none]
          intro insert isInsert same
          apply (absent insert isInsert).2
          cases hKey : insert.key
          cases key
          simp_all
        rw [notFound]
    | inr failed =>
        obtain ⟨⟨insert, isInsert, unfit⟩, -⟩ := failed
        exact absurd (absent insert isInsert).1 unfit

/-! ## A key of one character -/

def insertA : KvInsert :=
  ⟨⟨[97], by decide⟩, [1, 2, 3, 4, 5, 6, 7, 8], 8, 16, 32, 48,
    ⟨true, true, some ⟨100, fun _ => 0⟩⟩⟩

theorem insertA_proper : ∀ insert ∈ [insertA], insert.Proper := by
  intro insert isInsert
  rw [List.mem_singleton] at isInsert
  subst isInsert
  exact ⟨by decide, by decide, _, rfl⟩

theorem insertA_fresh : FreshAddresses (fun _ => none) [insertA] 64 := by
  constructor
  case distinct => decide
  case words => decide
  case unallocated => exact fun _ _ => rfl
  case apart => exact List.pairwise_singleton _ _
  case unseen =>
    intro insert isInsert block allocates
    rw [List.mem_singleton] at isInsert
    subst isInsert
    cases allocates
    have zero : Memory.load (fun _ => 0) 0 8 = 0 := Memory.load_eq_zero fun _ _ _ => rfl
    rw [HashsetBlock.firstWord, zero]
    decide

/-- The only key that was inserted is not found. -/
theorem kvRetrieved_fails_insertA :
    (∃ created store store', createSyncItems (fun _ => none) = some created ∧
      insertKvs created [insertA] = some store ∧
      ntHashsetGetKv store insertA.key 64 = some (store', none)) ∧
    FreshAddresses (fun _ => none) [insertA] 64 ∧
    (∀ insert ∈ [insertA], insert.Proper) ∧
    ¬ KvRetrieved (fun _ => none) [insertA] insertA.key 64 := by
  obtain ⟨created, creates, shape⟩ := createSyncItems_spec fun _ => none
  have unfitted : ¬ ∃ insert ∈ [insertA], ¬ insert.Fits := by
    unfold KvInsert.Fits
    decide
  obtain ⟨-, store, runs, shape'⟩ :=
    (insertKvs_spec shape insertA_proper (by decide) insertA_fresh.apart).resolve_right
      fun failed => unfitted failed.1
  have gets := ntHashsetGetKv_spec shape' insertA.key (by decide) insertA_fresh.unseen
  refine ⟨⟨created, store, _, creates, runs, gets⟩, insertA_fresh, insertA_proper, ?_⟩
  rintro ⟨created', store', store'', found, creates', runs', gets', answer⟩
  cases creates'.symm.trans creates
  cases runs'.symm.trans runs
  cases gets'.symm.trans gets
  have first : [insertA].find? (fun insert => insert.key.bytes = insertA.key.bytes) =
      some insertA := rfl
  rw [first] at answer
  obtain ⟨address, isFound, -⟩ := answer
  cases isFound

theorem kvRetrieved_iff_insertA :
    FreshAddresses (fun _ => none) [insertA] 64 ∧
    (∀ insert ∈ [insertA], insert.Proper) ∧
    KvRetrieved (fun _ => none) [insertA] ⟨[98], by decide⟩ 64 := by
  refine ⟨insertA_fresh, insertA_proper, ?_⟩
  apply (kvRetrieved_iff _ insertA_fresh insertA_proper).mpr
  intro insert isInsert
  rw [List.mem_singleton] at isInsert
  subst isInsert
  refine ⟨⟨by decide, by decide⟩, fun same => ?_⟩
  cases congrArg CString.bytes same

end NtShm
