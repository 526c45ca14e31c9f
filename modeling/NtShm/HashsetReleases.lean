import NtShm.HashsetIteration
import NtShm.HashsetRuns

/-!
# What a hashset releases

From its creation to `nt_hashset_destroy` a hashset cleans and frees every entry
once for each time it was allocated, and frees the array of slots at the end.
The calls of the functions for memory are looked at by the entry they are about.
-/

namespace NtShm

def HashsetEvent.about : HashsetEvent → Option Nat
  | mallocEntry entry | cleanEntry entry | freeEntry entry => some entry
  | mallocSlots | reallocSlots | freeSlots => none

def callsAbout (events : List HashsetEvent) (about : Option Nat) : List HashsetEvent :=
  events.filter fun event => event.about = about

/-- An entry from its allocation to its release. -/
def lifetime (cleanFunc : Bool) (entry : Nat) : List HashsetEvent :=
  .mallocEntry entry :: releases cleanFunc entry

/-- Every entry was cleaned and freed after each of its allocations and before
the next, and the array of slots, if any, was freed after the last of its
reallocations. -/
structure AllReleased (cleanFunc : Bool) (events : List HashsetEvent) : Prop where
  entries : ∀ entry, ∃ count, callsAbout events (some entry) =
    (List.replicate count (lifetime cleanFunc entry)).flatten
  slots : callsAbout events none = [] ∨ ∃ count, callsAbout events none =
    .mallocSlots :: List.replicate count .reallocSlots ++ [.freeSlots]

/-- Only what is still in the hashset was not released. -/
structure OthersReleased (hs : NtHashset) : Prop where
  entries : ∀ entry, ∃ count, callsAbout hs.events (some entry) =
    (List.replicate count (lifetime hs.cleanFunc entry)).flatten ++
      if (hs.records entry).isSome then [.mallocEntry entry] else []
  slots : (hs.numSlots = 0 ∧ callsAbout hs.events none = []) ∨
    0 < hs.numSlots ∧ ∃ count, callsAbout hs.events none =
      .mallocSlots :: List.replicate count .reallocSlots

/-- Some entries are released, each once. -/
structure Releases (hs : NtHashset) (gone : List Nat) (hs' : NtHashset) : Prop where
  once : gone.Nodup
  live : ∀ entry ∈ gone, (hs.records entry).isSome
  records : hs'.records = withoutEntries hs.records gone
  events : hs'.events = hs.events ++ gone.flatMap (releases hs.cleanFunc)
  clean : hs'.cleanFunc = hs.cleanFunc

section Releasing

variable {hs hs' : NtHashset} {table : List (List Nat)} {gone : List Nat}

@[simp]
theorem callsAbout_nil (about : Option Nat) : callsAbout [] about = [] := rfl

@[simp]
theorem callsAbout_append (events later : List HashsetEvent) (about : Option Nat) :
    callsAbout (events ++ later) about = callsAbout events about ++ callsAbout later about :=
  List.filter_append _ _

theorem callsAbout_releases (cleanFunc : Bool) (entry : Nat) (about : Option Nat) :
    callsAbout (releases cleanFunc entry) about =
      if about = some entry then releases cleanFunc entry else [] := by
  cases cleanFunc <;> by_cases same : about = some entry <;>
    simp [callsAbout, releases, HashsetEvent.about, same, eq_comm]

theorem callsAbout_all_releases (once : gone.Nodup) (cleanFunc : Bool) (entry : Nat) :
    callsAbout (gone.flatMap (releases cleanFunc)) (some entry) =
      if entry ∈ gone then releases cleanFunc entry else [] := by
  induction gone with
  | nil => rfl
  | cons first gone ih =>
      obtain ⟨fresh, once⟩ := List.nodup_cons.mp once
      rw [List.flatMap_cons, callsAbout_append, ih once, callsAbout_releases]
      by_cases isFirst : entry = first
      · subst isFirst
        simp [fresh]
      · simp [isFirst]

theorem callsAbout_slots_releases (cleanFunc : Bool) (gone : List Nat) :
    callsAbout (gone.flatMap (releases cleanFunc)) none = [] := by
  induction gone with
  | nil => rfl
  | cons first gone ih =>
      rw [List.flatMap_cons, callsAbout_append, ih, callsAbout_releases]
      rfl

theorem replicate_flatten_concat {α : Type*} (count : Nat) (list : List α) :
    (List.replicate count list).flatten ++ list =
      (List.replicate (count + 1) list).flatten := by
  rw [List.replicate_succ', List.flatten_append, List.flatten_singleton]

theorem OthersReleased.release_entries (held : OthersReleased hs)
    (released : Releases hs gone hs') (entry : Nat) :
    ∃ count, callsAbout hs'.events (some entry) =
      (List.replicate count (lifetime hs'.cleanFunc entry)).flatten ++
        if (hs'.records entry).isSome then [.mallocEntry entry] else [] := by
  obtain ⟨count, isHeld⟩ := held.entries entry
  rw [released.events, callsAbout_append, isHeld, callsAbout_all_releases released.once,
    released.clean, released.records]
  by_cases isGone : entry ∈ gone
  · refine ⟨count + 1, ?_⟩
    have without : withoutEntries hs.records gone entry = none := if_pos isGone
    rw [if_pos (released.live entry isGone), if_pos isGone, without,
      ← replicate_flatten_concat]
    simp [lifetime]
  · refine ⟨count, ?_⟩
    have kept : withoutEntries hs.records gone entry = hs.records entry := if_neg isGone
    rw [if_neg isGone, kept, List.append_nil]

theorem OthersReleased.release (held : OthersReleased hs)
    (released : Releases hs gone hs') (numSlots : hs'.numSlots = hs.numSlots) :
    OthersReleased hs' where
  entries := held.release_entries released
  slots := by
    rw [numSlots, released.events, callsAbout_append, callsAbout_slots_releases,
      List.append_nil]
    exact held.slots

theorem Removed.releases {entry : Nat} (removed : Removed hs entry hs')
    (live : (hs.records entry).isSome) : Releases hs [entry] hs' where
  once := List.nodup_singleton _
  live := by simpa using live
  records := by
    rw [removed.records, ← withoutEntries_update, withoutEntries_nil]
  events := by
    rw [removed.events, List.flatMap_singleton]
  clean := removed.functions.clean

theorem OthersReleased.insert (held : OthersReleased hs) {count : Nat}
    (calls : InsertCalls hs hs' ((if hs.numSlots = 0 then [.mallocSlots] else []) ++
      List.replicate count .reallocSlots))
    (clean : hs'.cleanFunc = hs.cleanFunc) (someSlots : 0 < hs'.numSlots) :
    OthersReleased hs' := by
  have noEntry : ∀ entry, callsAbout ((if hs.numSlots = 0 then [.mallocSlots] else []) ++
      List.replicate count .reallocSlots) (some entry) = [] := by
    intro entry
    rw [callsAbout, List.filter_eq_nil_iff]
    intro event isEvent
    rw [List.mem_append] at isEvent
    cases isEvent with
    | inl first =>
        split_ifs at first with noSlots
        · cases List.mem_singleton.mp first
          simp [HashsetEvent.about]
        · cases first
    | inr later =>
        cases List.eq_of_mem_replicate later
        simp [HashsetEvent.about]
  have allSlots : callsAbout (List.replicate count HashsetEvent.reallocSlots) none =
      List.replicate count .reallocSlots :=
    List.filter_replicate_of_pos rfl
  have slots' : 0 < hs'.numSlots ∧ ∃ count', callsAbout (hs.events ++
      ((if hs.numSlots = 0 then [.mallocSlots] else []) ++
        List.replicate count .reallocSlots)) none =
      .mallocSlots :: List.replicate count' .reallocSlots := by
    refine ⟨someSlots, ?_⟩
    rw [callsAbout_append, callsAbout_append, allSlots]
    rcases held.slots with ⟨noSlots, isHeld⟩ | ⟨hadSlots, earlier, isHeld⟩
    · rw [if_pos noSlots, isHeld]
      exact ⟨count, rfl⟩
    · rw [if_neg hadSlots.ne', isHeld]
      refine ⟨earlier + count, ?_⟩
      rw [List.replicate_add]
      rfl
  cases calls with
  | kept records events =>
      constructor
      case entries =>
        intro entry
        rw [events, callsAbout_append, noEntry, List.append_nil, clean, records]
        exact held.entries entry
      case slots => exact Or.inr (by rwa [events])
  | @added address record fresh records events =>
      constructor
      case entries =>
        intro entry
        obtain ⟨earlier, isHeld⟩ := held.entries entry
        refine ⟨earlier, ?_⟩
        rw [events, callsAbout_append, callsAbout_append, noEntry, List.append_nil, clean,
          records, isHeld]
        by_cases isNew : entry = address
        · subst isNew
          rw [fresh, Function.update_self]
          simp [callsAbout, HashsetEvent.about]
        · rw [Function.update_of_ne isNew]
          simp [callsAbout, HashsetEvent.about, Ne.symm isNew]
      case slots =>
        rw [events, callsAbout_append]
        exact Or.inr (by simpa [callsAbout, HashsetEvent.about] using slots')

end Releasing

/-! ## Clearing and destroying -/

def withoutNodes (entries : Nat → Option NtHashsetEntry) (gone : List Nat)
    (entry : Nat) : Option NtHashsetEntry :=
  if entry ∈ gone then none else entries entry

section Destroying

variable {hs : NtHashset} {table : List (List Nat)}

theorem withoutNodes_nil (entries : Nat → Option NtHashsetEntry) :
    withoutNodes entries [] = entries := by
  ext entry : 1
  exact if_neg List.not_mem_nil

theorem withoutNodes_withoutNodes (entries : Nat → Option NtHashsetEntry)
    (first later : List Nat) :
    withoutNodes (withoutNodes entries first) later = withoutNodes entries (first ++ later) := by
  ext entry : 1
  unfold withoutNodes
  by_cases isLater : entry ∈ later <;> by_cases isFirst : entry ∈ first <;>
    simp [isLater, isFirst]

theorem withoutNodes_update (entries : Nat → Option NtHashsetEntry) (entry : Nat) :
    Function.update entries entry none = withoutNodes entries [entry] := by
  ext other : 1
  by_cases same : other = entry
  · simp [withoutNodes, same]
  · simp [withoutNodes, same]

theorem recordsOf_withoutNodes (entries : Nat → Option NtHashsetEntry) (gone : List Nat) :
    recordsOf (withoutNodes entries gone) = withoutEntries (recordsOf entries) gone := by
  ext entry : 1
  unfold recordsOf withoutNodes withoutEntries
  split_ifs <;> rfl

theorem destroySlot_spec {list : List Nat} :
    ∀ {hs : NtHashset} {head : Option Nat} {fuel : Nat},
      Path NtHashsetEntry.next hs.entries head list none → list.Nodup →
      list.length ≤ fuel →
      NtHashset.destroySlot fuel hs head = some { hs with
        entries := withoutNodes hs.entries list
        events := hs.events ++ list.flatMap (releases hs.cleanFunc) } := by
  induction list with
  | nil =>
      intro hs head fuel isEnd _ _
      have isNone : head = none := isEnd
      subst isNone
      rw [withoutNodes_nil, List.flatMap_nil, List.append_nil]
      cases fuel <;> rfl
  | cons entry list ih =>
      intro hs head fuel along once enough
      obtain ⟨rfl, node, isNode, later⟩ := along
      obtain ⟨fresh, once⟩ := List.nodup_cons.mp once
      obtain ⟨fuel, rfl⟩ := Nat.exists_eq_succ_of_ne_zero (Nat.ne_zero_of_lt enough)
      rw [NtHashset.destroySlot, isNode, Option.bind_eq_bind, Option.bind_some,
        NtHashset.freeEntry_eq isNode, Option.bind_eq_bind, Option.bind_some,
        @ih { hs with
          entries := Function.update hs.entries entry none
          events := hs.events ++ releases hs.cleanFunc entry } _ _ (later.update fresh none)
          once (Nat.le_of_succ_le_succ enough)]
      simp only [withoutNodes_update, withoutNodes_withoutNodes, List.flatMap_cons,
        List.append_assoc, List.singleton_append]

theorem destroySlots_spec {heads : List (Option Nat)} (left : Nat) :
    ∀ {hs : NtHashset} {slot : Nat}, hs.slots = some heads →
      (∀ (index : Nat) list, slot ≤ index → table[index]? = some list →
        ∃ head, heads[index]? = some head ∧
          Path NtHashsetEntry.next hs.entries head list none) →
      slot + left = table.length → (table.drop slot).flatten.Nodup →
      (table.drop slot).flatten.length ≤ hs.numData →
      NtHashset.destroySlots left slot hs = some { hs with
        entries := withoutNodes hs.entries (table.drop slot).flatten
        events := hs.events ++ (table.drop slot).flatten.flatMap (releases hs.cleanFunc) } := by
  induction left with
  | zero =>
      intro hs slot _ _ reached _ _
      rw [List.drop_eq_nil_of_le (by omega), List.flatten_nil, withoutNodes_nil,
        List.flatMap_nil, List.append_nil]
      rfl
  | succ left ih =>
      intro hs slot isHeads chains reached once enough
      have inTable : slot < table.length := by omega
      rw [List.drop_eq_getElem_cons inTable, List.flatten_cons] at once enough ⊢
      obtain ⟨head, isHead, along⟩ :=
        chains slot _ (le_refl slot) (List.getElem?_eq_getElem inTable)
      rw [List.length_append] at enough
      have parts := List.nodup_append.mp once
      have slotAt : hs.slotAt slot = some head := by
        rw [NtHashset.slotAt, isHeads, Option.bind_some, isHead]
      rw [NtHashset.destroySlots, slotAt, Option.bind_eq_bind, Option.bind_some,
        destroySlot_spec along parts.1 (by omega), Option.bind_eq_bind, Option.bind_some]
      have chains' : ∀ (index : Nat) list, slot + 1 ≤ index → table[index]? = some list →
          ∃ head, heads[index]? = some head ∧
            Path NtHashsetEntry.next (withoutNodes hs.entries table[slot]) head list none := by
        intro index list later isList
        obtain ⟨head', isHead', along'⟩ := chains index list (by omega) isList
        refine ⟨head', isHead', along'.congr fun entry isEntry => if_neg fun isHere => ?_⟩
        have isLater : list ∈ table.drop (slot + 1) := by
          rw [List.mem_drop_iff_getElem]
          obtain ⟨inRange, same⟩ := List.getElem?_eq_some_iff.mp isList
          exact ⟨index - (slot + 1), by omega, by
            rw [← same]
            congr 1
            omega⟩
        exact parts.2.2 entry isHere entry (List.mem_flatten.mpr ⟨list, isLater, isEntry⟩) rfl
      rw [@ih { hs with
        entries := withoutNodes hs.entries table[slot]
        events := hs.events ++ table[slot].flatMap (releases hs.cleanFunc) } (slot + 1)
        isHeads chains' (by omega) parts.2.1 (by
          change (table.drop (slot + 1)).flatten.length ≤ hs.numData
          omega)]
      simp only [withoutNodes_withoutNodes, List.flatMap_append, List.append_assoc]

/-- To release all entries is to leave none. -/
theorem HashsetShape.releases_all {hs' : NtHashset} (shape : HashsetShape hs table)
    {gone : List Nat} (same : gone.Perm table.flatten)
    (noRecords : ∀ entry, hs'.records entry = none)
    (events : hs'.events = hs.events ++ gone.flatMap (releases hs.cleanFunc))
    (clean : hs'.cleanFunc = hs.cleanFunc) : Releases hs gone hs' where
  once := same.nodup_iff.mpr shape.nodup
  live := fun entry isGone => (shape.live entry).mpr (same.mem_iff.mp isGone)
  records := by
    ext entry : 1
    rw [noRecords, withoutEntries]
    split
    · rfl
    · next kept =>
        rw [same.mem_iff, ← shape.live] at kept
        exact (Option.not_isSome_iff_eq_none.mp kept).symm
  events := events
  clean := clean

theorem ntHashsetDestroy_spec (shape : HashsetShape hs table) :
    ∃ hs', ntHashsetDestroy hs = some hs' ∧ (∀ entry, hs'.records entry = none) ∧
      hs'.events = hs.events ++ table.flatten.flatMap (releases hs.cleanFunc) ++
        if 0 < hs.numSlots then [.freeSlots] else [] := by
  rcases shape.slots with ⟨isNull, rfl⟩ | ⟨heads, isHeads, someSlots, chained⟩
  · have noSlots : hs.numSlots = 0 := shape.size
    refine ⟨{ hs with
      numData := 0
      numSlots := 0
      slots := none
      events := hs.events ++ [] }, ?_, shape.records_none noSlots, ?_⟩
    · rw [ntHashsetDestroy, noSlots, NtHashset.destroySlots, Option.bind_eq_bind,
        Option.bind_some, isNull]
      rfl
    · rw [noSlots]
      simp
  · have hasSlots : 0 < hs.numSlots := by
      rw [shape.size]
      exact List.length_pos_of_ne_nil someSlots
    have destroys := @destroySlots_spec table heads table.length hs 0 isHeads
      (fun index list _ isList => chained.chain index list isList) (Nat.zero_add _)
      (by rw [List.drop_zero]; exact shape.nodup)
      (by rw [List.drop_zero]; exact shape.num.ge)
    rw [List.drop_zero] at destroys
    refine ⟨{ hs with
      entries := withoutNodes hs.entries table.flatten
      numData := 0
      numSlots := 0
      slots := none
      events := hs.events ++ table.flatten.flatMap (releases hs.cleanFunc) ++
        [.freeSlots] }, ?_, fun entry => ?_, ?_⟩
    · rw [ntHashsetDestroy, shape.size, destroys, Option.bind_eq_bind, Option.bind_some]
      simp [isHeads]
    · change recordsOf (withoutNodes hs.entries table.flatten) entry = none
      rw [recordsOf_withoutNodes, withoutEntries]
      split
      · rfl
      · next kept =>
          rw [← shape.live] at kept
          exact Option.not_isSome_iff_eq_none.mp kept
    · rw [if_pos hasSlots]

theorem OthersReleased.destroy (held : OthersReleased hs) (shape : HashsetShape hs table) :
    ∃ hs', ntHashsetDestroy hs = some hs' ∧ AllReleased hs.cleanFunc hs'.events := by
  obtain ⟨hs', destroys, noRecords, events⟩ := ntHashsetDestroy_spec shape
  refine ⟨hs', destroys, ?_⟩
  let cleared : NtHashset := { hs with
    entries := fun _ => none
    events := hs.events ++ table.flatten.flatMap (releases hs.cleanFunc) }
  have released : Releases hs table.flatten cleared :=
    shape.releases_all (List.Perm.refl _) (fun _ => rfl) rfl rfl
  have held' := held.release released rfl
  constructor
  case entries =>
    intro entry
    obtain ⟨count, isHeld⟩ := held'.entries entry
    have noRecord : cleared.records entry = none := rfl
    rw [noRecord] at isHeld
    refine ⟨count, ?_⟩
    have slotsOnly : callsAbout (if 0 < hs.numSlots then [HashsetEvent.freeSlots] else [])
        (some entry) = [] := by
      split_ifs <;> rfl
    rw [events, callsAbout_append, slotsOnly, List.append_nil]
    exact isHeld.trans (List.append_nil _)
  case slots =>
    rw [events, callsAbout_append]
    rcases held'.slots with ⟨noSlots, isHeld⟩ | ⟨someSlots, count, isHeld⟩
    · have noSlots' : ¬ 0 < hs.numSlots := Nat.not_lt.mpr noSlots.le
      rw [if_neg noSlots', callsAbout_nil, List.append_nil]
      exact Or.inl isHeld
    · have someSlots' : 0 < hs.numSlots := someSlots
      rw [if_pos someSlots']
      refine Or.inr ⟨count, ?_⟩
      change callsAbout cleared.events none ++ [HashsetEvent.freeSlots] = _
      rw [isHeld]

end Destroying

/-! ## Runs -/

inductive HashsetCall
  | plain (op : HashsetOp)
  | iterNext (iter : NtHashsetIter)
  | iterRemove (iter : NtHashsetIter)

/-- The iterator stands at an entry of the hashset that is in the chain of its
slot. -/
def NtHashsetIter.StandsIn (iter : NtHashsetIter) (hs : NtHashset) : Prop :=
  ∃ entry record, iter.entry = some entry ∧ hs.records entry = some record ∧
    iter.slot = (record.1.toNat % hs.numSlots : Nat)

/-- The iterator may be used: it stands at an entry, or is before the slots,
between two of them or after them. -/
def NtHashsetIter.Usable (iter : NtHashsetIter) (hs : NtHashset) : Prop :=
  iter.StandsIn hs ∨ iter.slot = iterStart ∨ iter.slot = iterFinish ∨
    ∃ slot : Nat, iter.slot + 1 = slot ∧ slot ≤ hs.numSlots ∧ iter.entry = none

namespace HashsetCall

def run (hs : NtHashset) : HashsetCall → Option NtHashset
  | .plain op => op.run hs
  | .iterNext iter => (ntHashsetIterNext hs iter).map fun _ => hs
  | .iterRemove iter => do
      let removal ← ntHashsetIterRemove hs iter
      removal.map Prod.fst

/-- The call is one that its caller may make, and the functions for memory do
not return NULL in it. -/
def Proper (hs : NtHashset) : HashsetCall → Prop
  | .plain op => op.Proper hs ∧ ∀ data size offset allocs,
      op = .insertExt data size offset allocs →
        allocs.slots = true ∧ allocs.realloc = true ∧ allocs.entry.isSome
  | .iterNext iter => iter.Usable hs
  | .iterRemove iter => iter.StandsIn hs

end HashsetCall

/-- The hashsets between `nt_hashset_create_ext` and `nt_hashset_destroy`. -/
inductive HashsetLife (hashFunc : List UInt8 → UInt32)
    (compareFunc : List UInt8 → List UInt8 → Int) (cleanFunc : Bool) (initSize : Nat) :
    List HashsetCall → NtHashset → Prop
  | create {hs} :
      ntHashsetCreateExt initSize hashFunc compareFunc cleanFunc true = some hs →
      HashsetLife hashFunc compareFunc cleanFunc initSize [] hs
  | step {history hs call hs'} :
      HashsetLife hashFunc compareFunc cleanFunc initSize history hs →
      call.Proper hs → call.run hs = some hs' →
      HashsetLife hashFunc compareFunc cleanFunc initSize (history ++ [call]) hs'

/-- Iterators of a hashset are set up and moved on by its functions alone. -/
structure IteratorsUsable (hs : NtHashset) : Prop where
  reset : ∀ entry, (ntHashsetIterReset entry).Usable hs
  next : ∀ iter, iter.Usable hs → ∃ iter' result,
    ntHashsetIterNext hs iter = some (iter', result) ∧ iter'.Usable hs ∧
      (result.isSome → iter'.StandsIn hs)
  remove : ∀ iter, iter.StandsIn hs → ∃ hs' iter',
    ntHashsetIterRemove hs iter = some (some (hs', iter')) ∧ iter'.Usable hs'

section Life

variable {hs hs' : NtHashset} {table : List (List Nat)} {iter : NtHashsetIter}

theorem NtHashsetIter.StandsIn.iterAt (stands : iter.StandsIn hs)
    (shape : HashsetShape hs table) :
    ∃ slot before entry after, IterAt table iter slot before entry after ∧
      (hs.records entry).isSome := by
  obtain ⟨entry, record, isEntry, isRecord, isSlot⟩ := stands
  have live : (hs.records entry).isSome := by
    rw [isRecord]
    rfl
  have inList := shape.mem_of_records isRecord
  obtain ⟨before, after, split⟩ := List.append_of_mem inList
  have someSlots : 0 < hs.numSlots := by
    by_contra noSlots
    rw [shape.records_none (by omega)] at isRecord
    cases isRecord
  obtain ⟨-, -, -, -, isList, -⟩ := shape.array (Nat.mod_lt record.1.toNat someSlots)
  rw [split] at isList
  exact ⟨_, before, entry, after, ⟨isSlot, isEntry, isList⟩, live⟩

theorem IterAt.standsIn {slot entry : Nat} {before after : List Nat}
    (here : IterAt table iter slot before entry after) (shape : HashsetShape hs table) :
    iter.StandsIn hs := by
  have isMember : entry ∈ before ++ entry :: after := by simp
  have live := (shape.live entry).mpr (mem_flatten_of_getElem? here.isList isMember)
  obtain ⟨record, isRecord⟩ := Option.isSome_iff_exists.mp live
  refine ⟨entry, record, here.isEntry, isRecord, ?_⟩
  rw [here.isSlot, shape.size, shape.placed slot _ here.isList entry isMember record isRecord]

theorem NtHashsetIter.Usable.iterRest (usable : iter.Usable hs)
    (shape : HashsetShape hs table) : ∃ rest, IterRest table iter rest := by
  rcases usable with stands | started | finished | ⟨slot, isSlot, within, noEntry⟩
  · obtain ⟨slot, before, entry, after, here, -⟩ := stands.iterAt shape
    exact ⟨_, Or.inr (Or.inr ⟨slot, before, entry, after, here, rfl⟩)⟩
  · exact ⟨_, Or.inr (Or.inl ⟨0, by rw [started]; rfl, Nat.zero_le _, Or.inl started, rfl⟩)⟩
  · exact ⟨[], Or.inl ⟨finished, rfl⟩⟩
  · rw [shape.size] at within
    exact ⟨_, Or.inr (Or.inl ⟨slot, isSlot, within, Or.inr noEntry, rfl⟩)⟩

theorem IterRest.usable {rest : List Nat} (remain : IterRest table iter rest)
    (shape : HashsetShape hs table) : iter.Usable hs := by
  obtain ⟨finished, -⟩ | ⟨slot, isSlot, within, noEntry, -⟩ |
    ⟨slot, before, entry, after, here, -⟩ := remain
  · exact Or.inr (Or.inr (Or.inl finished))
  · cases noEntry with
    | inl started => exact Or.inr (Or.inl started)
    | inr none =>
        rw [← shape.size] at within
        exact Or.inr (Or.inr (Or.inr ⟨slot, isSlot, within, none⟩))
  · exact Or.inl (here.standsIn shape)

theorem HashsetShape.iteratorsUsable (shape : HashsetShape hs table) :
    IteratorsUsable hs where
  reset := fun _ => Or.inr (Or.inl rfl)
  next := by
    intro iter usable
    obtain ⟨rest, remain⟩ := usable.iterRest shape
    obtain ⟨-, iter', isNext, finished⟩ | ⟨slot, before, entry, after, iter', isNext, here, -⟩ :=
      ntHashsetIterNext_rest shape remain
    · exact ⟨iter', none, isNext, Or.inr (Or.inr (Or.inl finished)), by simp⟩
    · have stands := here.standsIn shape
      exact ⟨iter', _, isNext, Or.inl stands, fun _ => stands⟩
  remove := by
    intro iter stands
    obtain ⟨slot, before, entry, after, here, -⟩ := stands.iterAt shape
    obtain ⟨hs', iter', table', removes, shape', -, remain⟩ :=
      ntHashsetIterRemove_rest shape here
    exact ⟨hs', iter', removes, remain.usable shape'⟩

/-- A proper call works, and keeps what is released and what is not. -/
theorem HashsetCall.run_held {call : HashsetCall} (shape : HashsetShape hs table)
    (held : OthersReleased hs) (proper : call.Proper hs) :
    ∃ hs' table', call.run hs = some hs' ∧ HashsetShape hs' table' ∧ OthersReleased hs' ∧
      hs'.cleanFunc = hs.cleanFunc := by
  have afterRemoval : ∀ {entry hs'}, (hs.records entry).isSome → Removed hs entry hs' →
      ∃ table', HashsetShape hs' table' ∧ OthersReleased hs' ∧
        hs'.cleanFunc = hs.cleanFunc := by
    intro entry hs' live removed
    obtain ⟨table', shape'⟩ := removed.shape
    exact ⟨table', shape', held.release (removed.releases live) removed.numSlots,
      removed.functions.clean⟩
  cases call with
  | iterNext iter =>
      obtain ⟨iter', result, isNext, -⟩ := shape.iteratorsUsable.next iter proper
      exact ⟨hs, table, by rw [HashsetCall.run, isNext]; rfl, shape, held, rfl⟩
  | iterRemove iter =>
      obtain ⟨slot, before, entry, after, here, live⟩ :=
        NtHashsetIter.StandsIn.iterAt proper shape
      obtain ⟨hs', iter', -, removes, -, removed, -⟩ := ntHashsetIterRemove_rest shape here
      obtain ⟨table', shape', held', clean⟩ := afterRemoval live removed
      exact ⟨hs', table', by rw [HashsetCall.run, removes]; rfl, shape', held', clean⟩
  | plain op =>
      obtain ⟨proper, succeeds⟩ := proper
      cases op with
      | insertExt data size offset allocs =>
          obtain ⟨slots, -, -⟩ := succeeds data size offset allocs rfl
          obtain ⟨hs', result, table', inserts, shape', functions, -, someSlots, count,
              calls⟩ :=
            ntHashsetInsertExt_spec shape data size offset allocs (fun _ => slots)
              (fun block isBlock => ⟨(proper block isBlock).1, (proper block isBlock).2.1⟩)
              (fun block isBlock => records_eq_none (proper block isBlock).2.2)
          exact ⟨hs', table', by rw [run, HashsetOp.run, inserts]; rfl, shape',
            held.insert calls functions.clean someSlots, functions.clean⟩
      | search data =>
          obtain ⟨found, searches, -⟩ := ntHashsetSearch_spec shape data
          exact ⟨hs, table, by rw [run, HashsetOp.run, searches]; rfl, shape, held, rfl⟩
      | remove data =>
          obtain ⟨found, hs', removes, finds, removed⟩ := ntHashsetRemove_spec shape data
          cases found with
          | none =>
              have unchanged : hs' = hs := removed
              exact ⟨hs', table, removes, unchanged ▸ shape, unchanged ▸ held,
                by rw [unchanged]⟩
          | some entry =>
              obtain ⟨record, isRecord, -⟩ := finds
              obtain ⟨table', shape', held', clean⟩ :=
                afterRemoval (by rw [isRecord]; rfl) removed
              exact ⟨hs', table', removes, shape', held', clean⟩
      | removeDirect data =>
          obtain ⟨entry, rfl, live⟩ := proper
          obtain ⟨record, isRecord⟩ := isSome_records live
          obtain ⟨hs', removes, removed⟩ := ntHashsetRemoveDirect_spec shape isRecord
          obtain ⟨table', shape', held', clean⟩ :=
            afterRemoval (by rw [isRecord]; rfl) removed
          exact ⟨hs', table', removes, shape', held', clean⟩
      | clear =>
          obtain ⟨hs', table', gone, clears, shape', functions, noRecords, numSlots, -, same,
              events⟩ := ntHashsetClear_spec shape
          exact ⟨hs', table', clears, shape',
            held.release (shape.releases_all same noRecords events functions.clean) numSlots,
            functions.clean⟩

end Life

section Lives

variable {hashFunc : List UInt8 → UInt32} {compareFunc : List UInt8 → List UInt8 → Int}
  {cleanFunc : Bool} {initSize : Nat} {history : List HashsetCall} {hs : NtHashset}

theorem HashsetLife.held (life : HashsetLife hashFunc compareFunc cleanFunc initSize history hs) :
    (∃ table, HashsetShape hs table) ∧ OthersReleased hs ∧ hs.cleanFunc = cleanFunc := by
  induction life with
  | create creates =>
      obtain ⟨hs, table, creates', shape, -, -, noRecords, clean, someSlots, events⟩ :=
        ntHashsetCreateExt_spec initSize hashFunc compareFunc cleanFunc true fun _ => rfl
      cases creates.symm.trans creates'
      refine ⟨⟨table, shape⟩, ?_, clean⟩
      constructor
      case entries =>
        intro entry
        have slotsOnly : callsAbout
            (if 0 < initSize then [HashsetEvent.mallocSlots] else []) (some entry) = [] := by
          split_ifs <;> rfl
        rw [events, noRecords, slotsOnly]
        exact ⟨0, rfl⟩
      case slots =>
        rw [events]
        by_cases someSize : 0 < initSize
        · rw [if_pos someSize]
          exact Or.inr ⟨someSlots.mp someSize, 0, rfl⟩
        · rw [if_neg someSize]
          exact Or.inl ⟨by rw [someSlots] at someSize; omega, rfl⟩
  | step _ proper runs ih =>
      obtain ⟨⟨table, shape⟩, held, clean⟩ := ih
      obtain ⟨hs', table', runs', shape', held', clean'⟩ :=
        HashsetCall.run_held shape held proper
      cases runs.symm.trans runs'
      exact ⟨⟨table', shape'⟩, held', clean'.trans clean⟩

theorem HashsetRun.life {history : List HashsetOp}
    (run : HashsetRun hashFunc compareFunc cleanFunc (PermittedSuccess compareFunc) initSize
      true history hs) :
    HashsetLife hashFunc compareFunc cleanFunc initSize (history.map .plain) hs := by
  induction run with
  | create creates => exact .create creates
  | @step history hs op hs' _ permitted runs ih =>
      rw [List.map_append]
      refine ih.step ⟨permitted.1, ?_⟩ runs
      rintro data size offset allocs rfl
      obtain ⟨slots, realloc, block, isBlock, -⟩ := permitted.2
      exact ⟨slots, realloc, by rw [isBlock]; rfl⟩

end Lives

end NtShm
