import NtShm.HashsetRemovals

/-!
# Iterating over a hashset

A loop of `nt_hashset_iter_next` may take out any of the records that it is
given with `nt_hashset_iter_remove`.  An iterator stands for the entries that
are still to come: those after its own in the chain, and those in later slots.
-/

namespace NtShm

/-- What a loop over a hashset has come to: the data pointers that were
returned, and those of the entries that were removed. -/
structure IterLoop where
  hs : NtHashset
  iter : NtHashsetIter
  returned : List Nat
  removed : List Nat

/-- The loop after `nt_hashset_iter_reset`. -/
def IterLoop.start (hs : NtHashset) (entry : Option Nat) : IterLoop :=
  ⟨hs, ntHashsetIterReset entry, [], []⟩

/-- The loop until `nt_hashset_iter_next` returns NULL, for at most `fuel` calls.
After each record `removes` decides whether the entry is removed. -/
def iterLoop (removes : IterLoop → Bool) : Nat → IterLoop → Option IterLoop
  | 0, _ => none
  | fuel + 1, loop => do
      let (iter, result) ← ntHashsetIterNext loop.hs loop.iter
      match result with
      | none => some { loop with iter := iter }
      | some data =>
          let loop := { loop with iter := iter, returned := loop.returned ++ [data] }
          if removes loop then
            let removal ← ntHashsetIterRemove loop.hs loop.iter
            let (hs, iter) ← removal
            iterLoop removes fuel { loop with
              hs := hs
              iter := iter
              removed := loop.removed ++ [data] }
          else iterLoop removes fuel loop

structure IterAt (table : List (List Nat)) (iter : NtHashsetIter) (slot : Nat)
    (before : List Nat) (entry : Nat) (after : List Nat) : Prop where
  isSlot : iter.slot = slot
  isEntry : iter.entry = some entry
  isList : table[slot]? = some (before ++ entry :: after)

/-- These entries are still to come. -/
def IterRest (table : List (List Nat)) (iter : NtHashsetIter) (rest : List Nat) : Prop :=
  (iter.slot = iterFinish ∧ rest = []) ∨
  (∃ slot : Nat, iter.slot + 1 = slot ∧ slot ≤ table.length ∧
    (iter.slot = iterStart ∨ iter.entry = none) ∧ rest = (table.drop slot).flatten) ∨
  ∃ slot before entry after, IterAt table iter slot before entry after ∧
    rest = after ++ (table.drop (slot + 1)).flatten

section Iteration

variable {hs : NtHashset} {table : List (List Nat)} {iter : NtHashsetIter}
  {slot entry : Nat} {before after rest : List Nat}

theorem iterRest_reset (entry : Option Nat) :
    IterRest table (ntHashsetIterReset entry) table.flatten :=
  Or.inr (Or.inl ⟨0, rfl, Nat.zero_le _, Or.inl rfl, by rw [List.drop_zero]⟩)

/-- The walk over the slots finds the first entry of the first chain. -/
theorem iterNextSlot_rest (shape : HashsetShape hs table) (own : Option Nat) (fuel : Nat) :
    ∀ {slot : Nat} {start : Int}, start + 1 = slot → slot ≤ table.length →
      table.length < fuel + slot →
      (iterNextSlot hs own fuel start = some (⟨iterFinish, own⟩, none) ∧
        (table.drop slot).flatten = []) ∨
      ∃ iter here entry after, iterNextSlot hs own fuel start =
          some (iter, some (entry + dataOffset)) ∧
        IterAt table iter here [] entry after ∧
        (table.drop slot).flatten = entry :: (after ++ (table.drop (here + 1)).flatten) := by
  induction fuel with
  | zero =>
      intro slot start _ within enough
      omega
  | succ fuel ih =>
      intro slot start isSlot within enough
      rw [iterNextSlot, isSlot, shape.size]
      by_cases last : slot = table.length
      · rw [if_pos (by exact_mod_cast last), last, List.drop_length]
        exact Or.inl ⟨rfl, rfl⟩
      · have inTable : slot < table.length := by omega
        obtain ⟨heads, head, -, -, isList, -, slotAt, along⟩ :=
          shape.array (shape.size ▸ inTable)
        rw [if_neg (by exact_mod_cast last), Int.toNat_natCast, slotAt,
          Option.bind_eq_bind, Option.bind_some]
        have dropped : table.drop slot =
            table.getD slot [] :: table.drop (slot + 1) := by
          rw [List.drop_eq_getElem_cons inTable, List.getD_eq_getElem _ _ inTable]
        rw [dropped, List.flatten_cons]
        generalize table.getD slot [] = list at isList along
        cases list with
        | nil =>
            have isEnd : head = none := along
            subst isEnd
            exact ih (by push_cast; rfl) inTable (by omega)
        | cons first list =>
            obtain ⟨rfl, -⟩ := along
            exact Or.inr ⟨⟨slot, some first⟩, slot, first, list, rfl,
              ⟨rfl, rfl, isList⟩, rfl⟩

/-- A call of `nt_hashset_iter_next` returns the first entry that is still to
come, and stands at it. -/
theorem ntHashsetIterNext_rest (shape : HashsetShape hs table)
    (remain : IterRest table iter rest) :
    (rest = [] ∧ ∃ iter', ntHashsetIterNext hs iter = some (iter', none) ∧
      iter'.slot = iterFinish) ∨
    ∃ slot before entry after iter', ntHashsetIterNext hs iter =
        some (iter', some (entry + dataOffset)) ∧
      IterAt table iter' slot before entry after ∧
      rest = entry :: (after ++ (table.drop (slot + 1)).flatten) := by
  -- what a walk over the slots from here on comes to
  have walks : ∀ {slot : Nat}, iter.slot + 1 = slot → slot ≤ table.length →
      (iterNextSlot hs iter.entry (hs.numSlots + 2) iter.slot =
          some (⟨iterFinish, iter.entry⟩, none) ∧ (table.drop slot).flatten = []) ∨
      _ := fun isSlot within =>
    iterNextSlot_rest shape iter.entry (hs.numSlots + 2) isSlot within
      (by rw [shape.size]; omega)
  obtain ⟨finished, rfl⟩ | ⟨slot, isSlot, within, noEntry, rfl⟩ |
    ⟨slot, before, entry, after, here, rfl⟩ := remain
  · exact Or.inl ⟨rfl, iter, by rw [ntHashsetIterNext, if_pos finished], finished⟩
  · have notFinished : iter.slot ≠ iterFinish := by
      unfold iterFinish
      omega
    have reaches : ntHashsetIterNext hs iter =
        iterNextSlot hs iter.entry (hs.numSlots + 2) iter.slot := by
      rw [ntHashsetIterNext, if_neg notFinished]
      cases noEntry with
      | inl started => simp [started]
      | inr none => simp [none]
    rw [reaches]
    cases walks isSlot within with
    | inl ended => exact Or.inl ⟨ended.2, _, ended.1, rfl⟩
    | inr next =>
        obtain ⟨iter', here, entry, after, isNext, stands, isRest⟩ := next
        exact Or.inr ⟨here, [], entry, after, iter', isNext, stands, isRest⟩
  · have inTable := (List.getElem?_eq_some_iff.mp here.isList).1
    have isSlot := here.isSlot
    have notFinished : iter.slot ≠ iterFinish := by
      unfold iterFinish
      omega
    have notStart : iter.slot ≠ iterStart := by
      unfold iterStart
      omega
    obtain ⟨heads, head, -, -, isList, -, -, along⟩ := shape.array (shape.size ▸ inTable)
    rw [here.isList, Option.some.injEq] at isList
    rw [← isList] at along
    obtain ⟨middle, -, -, node, isNode, later⟩ := path_append.mp along
    rw [ntHashsetIterNext, if_neg notFinished, if_pos notStart, here.isEntry]
    simp only [isNode, Option.map_some, Option.bind_eq_bind, Option.bind_some]
    cases after with
    | nil =>
        have isEnd : node.next = none := later
        have isNextSlot : iter.slot + 1 = (slot + 1 : Nat) := by
          rw [isSlot]
          rfl
        simp only [isEnd]
        rw [← here.isEntry]
        cases walks isNextSlot inTable with
        | inl ended => exact Or.inl ⟨ended.2, _, ended.1, rfl⟩
        | inr next =>
            obtain ⟨iter', other, entry', after', isNext, stands, isRest⟩ := next
            exact Or.inr ⟨other, [], entry', after', iter', isNext, stands, isRest⟩
    | cons next after =>
        obtain ⟨isNext, -⟩ := later
        simp only [isNext]
        refine Or.inr ⟨slot, before ++ [entry], next, after, _, rfl,
          ⟨isSlot, rfl, ?_⟩, rfl⟩
        rw [here.isList, List.append_assoc]
        rfl

theorem entryBefore_spec {previous : Nat} :
    ∀ {before : List Nat} {fuel : Nat} {head tail : Option Nat},
      Path NtHashsetEntry.next hs.entries head (before ++ previous :: entry :: after) tail →
      (before ++ previous :: entry :: after).Nodup → before.length < fuel →
      entryBefore hs entry fuel head = some previous := by
  intro before
  induction before with
  | nil =>
      intro fuel head tail along _ enough
      obtain ⟨rfl, node, isNode, isNext, -⟩ := along
      obtain ⟨fuel, rfl⟩ := Nat.exists_eq_add_of_lt enough
      rw [entryBefore, isNode, Option.bind_eq_bind, Option.bind_some, if_pos isNext]
  | cons first before ih =>
      intro fuel head tail along once enough
      obtain ⟨rfl, node, isNode, along⟩ := along
      obtain ⟨fuel, rfl⟩ := Nat.exists_eq_add_of_lt enough
      have once' := (List.nodup_cons.mp once).2
      have notNext := along.head_ne once' List.mem_cons_self
      rw [entryBefore, isNode, Option.bind_eq_bind, Option.bind_some, if_neg notNext]
      exact ih along once' (by rw [List.length_cons] at enough ⊢; omega)

/-- `nt_hashset_iter_remove` takes out the entry at which the iterator stands,
and leaves the same entries to come. -/
theorem ntHashsetIterRemove_rest (shape : HashsetShape hs table)
    (here : IterAt table iter slot before entry after) :
    ∃ hs' iter' table', ntHashsetIterRemove hs iter = some (some (hs', iter')) ∧
      HashsetShape hs' table' ∧ Removed hs entry hs' ∧
      IterRest table' iter' (after ++ (table.drop (slot + 1)).flatten) := by
  have isSlot := here.isSlot
  have inTable := (List.getElem?_eq_some_iff.mp here.isList).1
  have good : ¬ (iter.slot = iterStart ∨ iter.slot = iterFinish) := by
    unfold iterStart iterFinish
    omega
  obtain ⟨heads, head, -, chained, isList, -, slotAt, along⟩ :=
    shape.array (shape.size ▸ inTable)
  rw [here.isList, Option.some.injEq] at isList
  rw [← isList] at along
  have once := chained.list_nodup here.isList
  have fits := shape.list_length_le here.isList
  have isIndex : iter.slot.toNat = slot := by omega
  rw [ntHashsetIterRemove, if_neg good, here.isEntry]
  simp only [isIndex, slotAt, Option.bind_eq_bind, Option.bind_some]
  obtain ⟨middle, front, isMiddle, node, isNode, -⟩ := path_append.mp along
  have isRest : ∀ list, (table.set slot list).drop slot = list :: table.drop (slot + 1) := by
    intro list
    rw [List.drop_eq_getElem_cons (by rwa [List.length_set]), List.getElem_set_self,
      List.drop_set_of_lt (Nat.lt_succ_self slot)]
  rcases List.eq_nil_or_concat before with rfl | ⟨before, previous, rfl⟩
  · have isHead : head = some entry := Eq.trans front isMiddle
    obtain ⟨hs', removes, shape', removed⟩ := shape.removeFirst here.isList isNode
    refine ⟨hs', ⟨iter.slot - 1, none⟩, _, ?_, shape', removed, Or.inr (Or.inl ?_)⟩
    · rw [if_pos isHead, isNode, Option.bind_some]
      rw [Option.bind_eq_bind, Option.bind_eq_some_iff] at removes
      obtain ⟨freed, frees, same⟩ := removes
      rw [frees, Option.bind_some, ← Option.some.inj same]
    · refine ⟨slot, ?_, ?_, Or.inr rfl, ?_⟩
      · change iter.slot - 1 + 1 = slot
        omega
      · rw [List.length_set]
        exact inTable.le
      · rw [isRest, List.flatten_cons]
  · rw [List.concat_eq_append, List.append_assoc, List.singleton_append] at along once fits
    have isList' : table[slot]? = some (before ++ previous :: entry :: after) := by
      rw [here.isList, List.concat_eq_append, List.append_assoc]
      rfl
    have notHead := along.head_ne once List.mem_cons_self
    have isBefore : entryBefore hs entry hs.numData head = some previous := by
      apply entryBefore_spec along once
      rw [List.length_append, List.length_cons] at fits
      omega
    obtain ⟨hs', removes, shape', removed⟩ := shape.removeNext isList' isNode
    refine ⟨hs', ⟨iter.slot, some previous⟩, _, ?_, shape', removed, Or.inr (Or.inr ?_)⟩
    · rw [if_neg notHead, isBefore, isNode]
      simp only [Option.bind_eq_bind, Option.bind_some] at removes ⊢
      rw [Option.bind_eq_some_iff] at removes
      obtain ⟨linked, links, frees⟩ := removes
      rw [Option.bind_eq_some_iff] at frees
      obtain ⟨freed, frees, same⟩ := frees
      rw [links, Option.bind_some, frees, Option.bind_some, ← Option.some.inj same]
    · refine ⟨slot, before, previous, after, ⟨isSlot, rfl, ?_⟩, ?_⟩
      · exact List.getElem?_set_self inTable
      · rw [List.drop_set_of_lt (Nat.lt_succ_self slot)]

/-! ## The loop -/

structure IterDone (loop : IterLoop) (rest gone : List Nat) (loop' : IterLoop) : Prop where
  shape : ∃ table', HashsetShape loop'.hs table'
  finished : loop'.iter.slot = iterFinish
  returned : loop'.returned = loop.returned ++ rest.map (· + dataOffset)
  removed : loop'.removed = loop.removed ++ gone.map (· + dataOffset)
  sublist : gone.Sublist rest
  records : loop'.hs.records = withoutEntries loop.hs.records gone
  num : loop'.hs.numData + gone.length = loop.hs.numData
  events : loop'.hs.events = loop.hs.events ++ gone.flatMap (releases loop.hs.cleanFunc)

/-- The loop returns each entry that is to come once. -/
theorem iterLoop_spec (removes : IterLoop → Bool) :
    ∀ {rest : List Nat} {loop : IterLoop} {table : List (List Nat)} {fuel : Nat},
      HashsetShape loop.hs table → IterRest table loop.iter rest → rest.length < fuel →
      ∃ gone loop', iterLoop removes fuel loop = some loop' ∧
        IterDone loop rest gone loop' := by
  intro rest
  induction rest with
  | nil =>
      intro loop table fuel shape remain enough
      obtain ⟨fuel, rfl⟩ := Nat.exists_eq_succ_of_ne_zero (Nat.ne_zero_of_lt enough)
      obtain ⟨-, iter', isNext, finished⟩ | ⟨_, _, _, _, _, _, _, impossible⟩ :=
        ntHashsetIterNext_rest shape remain
      · refine ⟨[], { loop with iter := iter' }, ?_, ⟨table, shape⟩, finished, ?_, ?_,
          List.Sublist.refl _, (withoutEntries_nil _).symm, rfl, ?_⟩
        · rw [iterLoop, isNext]
          rfl
        all_goals simp
      · cases impossible
  | cons entry rest ih =>
      intro loop table fuel shape remain enough
      obtain ⟨fuel, rfl⟩ := Nat.exists_eq_succ_of_ne_zero (Nat.ne_zero_of_lt enough)
      obtain ⟨impossible, -⟩ | ⟨slot, before, entry', after, iter', isNext, here, isRest⟩ :=
        ntHashsetIterNext_rest shape remain
      · cases impossible
      · cases isRest
        let returned : IterLoop :=
          { loop with iter := iter', returned := loop.returned ++ [entry + dataOffset] }
        rw [iterLoop, isNext]
        simp only [Option.bind_eq_bind, Option.bind_some]
        by_cases taken : removes returned = true
        · obtain ⟨hs', iter'', table', isRemoved, shape', removed, remain'⟩ :=
            ntHashsetIterRemove_rest shape here
          obtain ⟨gone, loop', loops, done⟩ := @ih { returned with
            hs := hs'
            iter := iter''
            removed := loop.removed ++ [entry + dataOffset] } table' fuel shape' remain'
            (Nat.lt_of_succ_lt_succ enough)
          refine ⟨entry :: gone, loop', ?_, done.shape, done.finished, ?_, ?_,
            done.sublist.cons_cons _, ?_, ?_, ?_⟩
          · rw [if_pos taken, isRemoved]
            exact loops
          · exact done.returned.trans (List.append_cons _ _ _).symm
          · exact done.removed.trans (List.append_cons _ _ _).symm
          · rw [done.records]
            change withoutEntries hs'.records gone = _
            rw [removed.records, withoutEntries_update]
          · have left := done.num
            have num := removed.num
            change loop'.hs.numData + gone.length = hs'.numData at left
            rw [List.length_cons]
            omega
          · have later := done.events
            change _ = hs'.events ++ gone.flatMap (releases hs'.cleanFunc) at later
            rw [later, removed.events, removed.functions.clean, List.flatMap_cons,
              List.append_assoc]
        · have remain' : IterRest table iter' (after ++ (table.drop (slot + 1)).flatten) :=
            Or.inr (Or.inr ⟨slot, before, entry, after, here, rfl⟩)
          obtain ⟨gone, loop', loops, done⟩ := @ih returned table fuel shape remain'
            (Nat.lt_of_succ_lt_succ enough)
          refine ⟨gone, loop', ?_, done.shape, done.finished, ?_, done.removed,
            done.sublist.cons _, done.records, done.num, done.events⟩
          · rw [if_neg taken]
            exact loops
          · exact done.returned.trans (List.append_cons _ _ _).symm

end Iteration

/-- A loop over a hashset returns every entry once, whichever it removes, and
leaves the others; the hashset stays well formed, and the loop stays at its
end. -/
theorem iterLoop_visits {hs : NtHashset} {table : List (List Nat)}
    (shape : HashsetShape hs table) (removes : IterLoop → Bool) (entry : Option Nat) :
    ∃ loop, iterLoop removes (hs.numData + 1) (IterLoop.start hs entry) = some loop ∧
      loop.returned.length = hs.numData ∧ loop.returned.Nodup ∧
      (∀ data, data ∈ loop.returned ↔
        ∃ entry, (hs.records entry).isSome ∧ data = entry + dataOffset) ∧
      loop.removed.Sublist loop.returned ∧
      (∃ table', HashsetShape loop.hs table') ∧
      (∀ entry, loop.hs.records entry =
        if entry + dataOffset ∈ loop.removed then none else hs.records entry) ∧
      loop.hs.numData + loop.removed.length = hs.numData ∧
      ntHashsetIterNext loop.hs loop.iter = some (loop.iter, none) := by
  have enough : table.flatten.length < hs.numData + 1 := by
    rw [← shape.num]
    exact Nat.lt_succ_self _
  obtain ⟨gone, loop, loops, done⟩ :=
    @iterLoop_spec removes _ (IterLoop.start hs entry) table _ shape
      (iterRest_reset entry) enough
  have returned : loop.returned = table.flatten.map (· + dataOffset) := done.returned
  have removed : loop.removed = gone.map (· + dataOffset) := done.removed
  have injective : Function.Injective (· + dataOffset) := fun _ _ same =>
    Nat.add_right_cancel same
  refine ⟨loop, loops, ?_, ?_, ?_, ?_, done.shape, ?_, ?_, ?_⟩
  · rw [returned, List.length_map, shape.num]
  · rw [returned]
    exact shape.nodup.map injective
  · intro data
    rw [returned, List.mem_map]
    simp only [shape.live, eq_comm]
  · rw [returned, removed]
    exact done.sublist.map _
  · intro other
    have isGone : other + dataOffset ∈ gone.map (· + dataOffset) ↔ other ∈ gone :=
      List.mem_map_of_injective injective
    rw [done.records, removed]
    simp only [isGone]
    rfl
  · rw [removed, List.length_map]
    exact done.num
  · rw [ntHashsetIterNext, if_pos done.finished]

def twoEntries : NtHashset where
  slots := some [none, some 200, none, none, none]
  numSlots := 5
  numData := 2
  hashFunc := fun _ => 1
  compareFunc := fun _ _ => 1
  cleanFunc := true
  entries := fun entry =>
    if entry = 200 then some ⟨some 100, 6, [2]⟩
    else if entry = 100 then some ⟨none, 1, [1]⟩ else none
  events := []

theorem twoEntries_shape : HashsetShape twoEntries [[], [200, 100], [], [], []] := by
  constructor
  case slots =>
    refine Or.inr ⟨_, rfl, by decide, rfl, ?_, by decide⟩
    intro slot list isList
    obtain ⟨inTable, rfl⟩ := List.getElem?_eq_some_iff.mp isList
    change slot < 5 at inTable
    interval_cases slot
    case «1» => exact ⟨some 200, rfl, rfl, _, rfl, rfl, _, rfl, rfl⟩
    all_goals exact ⟨none, rfl, rfl⟩
  case size => rfl
  case num => rfl
  case live =>
    intro entry
    rw [NtHashset.records, recordsOf, Option.isSome_map]
    simp only [twoEntries, List.flatten_cons, List.flatten_nil, List.nil_append,
      List.append_nil, List.mem_cons, List.not_mem_nil, or_false]
    split_ifs with first second
    · exact iff_of_true rfl (Or.inl first)
    · exact iff_of_true rfl (Or.inr second)
    · exact iff_of_false (by simp) (not_or.mpr ⟨first, second⟩)
  case placed =>
    intro slot list isList entry isEntry record isRecord
    obtain ⟨inTable, rfl⟩ := List.getElem?_eq_some_iff.mp isList
    change slot < 5 at inTable
    interval_cases slot
    case «1» =>
      have isOne : entry = 200 ∨ entry = 100 := by simpa using isEntry
      rcases isOne with rfl | rfl <;> cases isRecord <;> rfl
    all_goals cases isEntry
  case load => decide

theorem iterLoop_visits_twoEntries :
    ∃ loop, iterLoop (fun _ => true) 3 (IterLoop.start twoEntries none) = some loop ∧
      loop.returned.length = 2 := by
  obtain ⟨loop, loops, returned, -⟩ := iterLoop_visits twoEntries_shape (fun _ => true) none
  exact ⟨loop, loops, returned⟩

end NtShm
