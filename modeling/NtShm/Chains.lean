import NtShm.Tables
import Mathlib.Data.List.Nodup
import Mathlib.Logic.Function.Basic

/-!
# Tables of chains

Singly linked nodes at addresses, with an array of links to first nodes.  A
table lists the addresses along every chain.  Taking a node out of a chain and
putting one in front of another change the table at one place.
-/

namespace NtShm

variable {Address Node : Type*}

/-- The addresses from one link along the nodes to another link. -/
def Path (next : Node → Option Address) (nodes : Address → Option Node) :
    Option Address → List Address → Option Address → Prop
  | head, [], tail => head = tail
  | head, address :: path, tail => head = some address ∧
      ∃ node, nodes address = some node ∧ Path next nodes (next node) path tail

section Paths

variable {next : Node → Option Address} {nodes nodes' : Address → Option Node}
  {head tail tail' : Option Address} {path before after : List Address}
  {address : Address} {node : Node}

theorem path_append :
    Path next nodes head (before ++ after) tail ↔
      ∃ middle, Path next nodes head before middle ∧
        Path next nodes middle after tail := by
  induction before generalizing head with
  | nil => simp [Path]
  | cons address before ih =>
      simp only [List.cons_append, Path, ih]
      constructor
      · rintro ⟨isHead, node, isNode, middle, front, back⟩
        exact ⟨middle, ⟨isHead, node, isNode, front⟩, back⟩
      · rintro ⟨middle, ⟨isHead, node, isNode, front⟩, back⟩
        exact ⟨isHead, node, isNode, middle, front, back⟩

theorem Path.head_eq (along : Path next nodes head path none) : head = path.head? := by
  cases path with
  | nil => exact along
  | cons first path => exact along.1

theorem Path.unique (along : Path next nodes head path none)
    {path' : List Address} (along' : Path next nodes head path' none) : path = path' := by
  induction path generalizing head path' with
  | nil =>
      cases path' with
      | nil => rfl
      | cons first path' => cases along.symm.trans along'.1
  | cons first path ih =>
      obtain ⟨isHead, node, isNode, rest⟩ := along
      cases path' with
      | nil => cases isHead.symm.trans along'
      | cons first' path' =>
          obtain ⟨isHead', node', isNode', rest'⟩ := along'
          cases isHead.symm.trans isHead'
          cases isNode.symm.trans isNode'
          rw [ih rest rest']

theorem Path.link_eq (along : Path next nodes head (before ++ address :: after) none)
    (isNode : nodes address = some node) : next node = after.head? := by
  obtain ⟨-, -, -, node', isNode', rest⟩ := path_append.mp along
  cases isNode.symm.trans isNode'
  exact rest.head_eq

theorem Path.congr (along : Path next nodes head path tail)
    (same : ∀ address ∈ path, nodes' address = nodes address) :
    Path next nodes' head path tail := by
  induction path generalizing head with
  | nil => exact along
  | cons address path ih =>
      obtain ⟨isHead, node, isNode, rest⟩ := along
      refine ⟨isHead, node, ?_, ih rest fun other isOther =>
        same other (List.mem_cons_of_mem _ isOther)⟩
      rw [same address List.mem_cons_self, isNode]

theorem Path.update [DecidableEq Address] (along : Path next nodes head path tail)
    (outside : address ∉ path) (value : Option Node) :
    Path next (Function.update nodes address value) head path tail := by
  apply along.congr
  intro other isOther
  apply Function.update_of_ne
  rintro rfl
  exact outside isOther

theorem Path.relink [DecidableEq Address]
    (along : Path next nodes head (before ++ [address]) tail)
    (once : address ∉ before) (isNext : next node = tail') :
    Path next (Function.update nodes address (some node)) head
      (before ++ [address]) tail' := by
  rw [path_append] at along ⊢
  obtain ⟨middle, front, isMiddle, -⟩ := along
  refine ⟨middle, front.update once _, isMiddle, node, ?_, isNext⟩
  rw [Function.update_self]

theorem Path.exists_node (along : Path next nodes head path tail)
    (isAddress : address ∈ path) : ∃ node, nodes address = some node := by
  induction path generalizing head with
  | nil => cases isAddress
  | cons first path ih =>
      obtain ⟨-, node, isNode, rest⟩ := along
      rw [List.mem_cons] at isAddress
      cases isAddress with
      | inl isFirst => exact ⟨node, isFirst ▸ isNode⟩
      | inr later => exact ih rest later

theorem Path.update_same [DecidableEq Address] (along : Path next nodes head path tail)
    {node' : Node} (isNode : nodes address = some node) (same : next node' = next node) :
    Path next (Function.update nodes address (some node')) head path tail := by
  induction path generalizing head with
  | nil => exact along
  | cons first path ih =>
      obtain ⟨isHead, other, isOther, rest⟩ := along
      refine ⟨isHead, ?_⟩
      by_cases here : first = address
      · subst here
        cases isNode.symm.trans isOther
        exact ⟨node', Function.update_self .., ih (same.symm ▸ rest)⟩
      · exact ⟨other, by rw [Function.update_of_ne here, isOther], ih rest⟩

theorem Path.bypass [DecidableEq Address] {previous : Address} {relinked : Node}
    (along : Path next nodes head (before ++ previous :: address :: after) tail)
    (once : (before ++ previous :: address :: after).Nodup)
    (isNode : nodes address = some node) (bypasses : next relinked = next node) :
    Path next (Function.update nodes previous (some relinked)) head
      (before ++ previous :: after) tail := by
  rw [List.append_cons] at along once ⊢
  rw [path_append] at along ⊢
  obtain ⟨middle, front, isMiddle, node', isNode', rest⟩ := along
  cases isNode.symm.trans isNode'
  have parts := List.nodup_append.mp once
  have frontParts := List.nodup_append.mp parts.1
  have previousInFront : previous ∈ before ++ [previous] := by simp
  refine ⟨next node, front.relink ?_ bypasses, rest.update ?_ _⟩
  · intro earlier
    exact frontParts.2.2 previous earlier previous (List.mem_singleton_self _) rfl
  · intro later
    exact parts.2.2 previous previousInFront previous (List.mem_cons_of_mem _ later) rfl

/-- What comes later on a path without repetitions is not its first address. -/
theorem Path.head_ne {previous : Address}
    (along : Path next nodes head (before ++ previous :: after) tail)
    (once : (before ++ previous :: after).Nodup) (later : address ∈ after) :
    head ≠ some address := by
  rintro rfl
  cases before with
  | nil =>
      cases along.1
      exact (List.nodup_cons.mp once).1 later
  | cons first before =>
      cases along.1
      exact (List.nodup_cons.mp once).1
        (List.mem_append_right before (List.mem_cons_of_mem previous later))

end Paths

/-! ## Tables -/

section Tables

variable {next : Node → Option Address} {heads : List (Option Address)}
  {nodes : Address → Option Node} {table : List (List Address)}
  {list before after : List Address} {slot : Nat} {address : Address}

/-- The array and the nodes have the chains of a table, without common nodes. -/
structure Chained (next : Node → Option Address) (heads : List (Option Address))
    (nodes : Address → Option Node) (table : List (List Address)) : Prop where
  size : heads.length = table.length
  chain : ∀ (slot : Nat) list, table[slot]? = some list →
    ∃ head, heads[slot]? = some head ∧ Path next nodes head list none
  nodup : table.flatten.Nodup

theorem flatten_set_remove
    (isList : table[slot]? = some (before ++ address :: after)) :
    table.flatten.Perm
      (address :: (table.set slot (before ++ after)).flatten) := by
  have change : ((before ++ address :: after) ++ []).Perm
      ((before ++ after) ++ [address]) := by
    rw [List.append_nil]
    exact List.perm_middle.trans (List.perm_append_singleton _ _).symm
  have balance := flatten_set_balance isList change
  rw [List.append_nil] at balance
  exact balance.trans (List.perm_append_singleton _ _)

theorem flatten_set_cons (isList : table[slot]? = some list) (address : Address) :
    (table.set slot (address :: list)).flatten.Perm (address :: table.flatten) := by
  have change : (list ++ [address]).Perm (address :: list ++ []) := by
    rw [List.append_nil]
    exact List.perm_append_singleton _ _
  have balance := flatten_set_balance isList change
  rw [List.append_nil] at balance
  exact balance.symm.trans (List.perm_append_singleton _ _)

theorem notMem_of_nodup_set (nodup : table.flatten.Nodup)
    (isList : table[slot]? = some (before ++ address :: after)) :
    address ∉ (table.set slot (before ++ after)).flatten ∧
      (table.set slot (before ++ after)).flatten.Nodup := by
  have whole := (flatten_set_remove isList).nodup_iff.mp nodup
  rw [List.nodup_cons] at whole
  exact whole

theorem mem_flatten_of_getElem? (isList : table[slot]? = some list)
    (isAddress : address ∈ list) : address ∈ table.flatten :=
  List.mem_flatten.mpr ⟨list, List.mem_of_getElem? isList, isAddress⟩

/-- Every address lies in one list only. -/
theorem slot_unique (nodup : table.flatten.Nodup) {slot' : Nat}
    {list' : List Address} (isList : table[slot]? = some list)
    (isList' : table[slot']? = some list') (isAddress : address ∈ list)
    (isAddress' : address ∈ list') : slot = slot' := by
  by_contra differs
  obtain ⟨inTable, rfl⟩ := List.getElem?_eq_some_iff.mp isList
  obtain ⟨inTable', rfl⟩ := List.getElem?_eq_some_iff.mp isList'
  have apart := List.pairwise_iff_getElem.mp (List.nodup_flatten.mp nodup).2
  cases Nat.lt_or_gt_of_ne differs with
  | inl before => exact apart slot slot' inTable inTable' before isAddress isAddress'
  | inr after => exact apart slot' slot inTable' inTable after isAddress' isAddress

theorem Chained.list_nodup (chained : Chained next heads nodes table)
    (isList : table[slot]? = some list) : list.Nodup :=
  chained.nodup.sublist
    (List.sublist_flatten_of_mem (List.mem_of_getElem? isList))

/-- Where all other chains are as before, the chain of one slot decides. -/
theorem Chained.set (chained : Chained next heads nodes table)
    {heads' : List (Option Address)} {nodes' : Address → Option Node}
    {list' : List Address} (size : heads'.length = heads.length)
    (others : ∀ other : Nat, other ≠ slot → heads'[other]? = heads[other]?)
    (same : ∀ (other : Nat) list, other ≠ slot → table[other]? = some list →
      ∀ address ∈ list, nodes' address = nodes address)
    (here : slot < table.length →
      ∃ head, heads'[slot]? = some head ∧ Path next nodes' head list' none)
    (nodup : (table.set slot list').flatten.Nodup) :
    Chained next heads' nodes' (table.set slot list') where
  size := by rw [size, chained.size, List.length_set]
  chain := by
    intro other list isList
    by_cases isSlot : other = slot
    · subst isSlot
      have inTable := (List.getElem?_eq_some_iff.mp isList).1
      rw [List.length_set] at inTable
      rw [List.getElem?_set_self inTable, Option.some.injEq] at isList
      exact isList ▸ here inTable
    · rw [List.getElem?_set_ne (Ne.symm isSlot)] at isList
      obtain ⟨head, isHead, along⟩ := chained.chain other list isList
      exact ⟨head, (others other isSlot).trans isHead,
        along.congr (same other list isSlot isList)⟩
  nodup := nodup

theorem Chained.unlinkFirst (chained : Chained next heads nodes table)
    (isList : table[slot]? = some (address :: after)) {node : Node}
    (isNode : nodes address = some node) :
    Chained next (heads.set slot (next node)) nodes (table.set slot after) := by
  obtain ⟨head, isHead, -, node', isNode', rest⟩ := chained.chain slot _ isList
  cases isNode.symm.trans isNode'
  have inHeads := (List.getElem?_eq_some_iff.mp isHead).1
  apply chained.set
  · rw [List.length_set]
  · intro other differs
    exact List.getElem?_set_ne (Ne.symm differs)
  · intros
    rfl
  · intro _
    exact ⟨_, List.getElem?_set_self inHeads, rest⟩
  · have isList' : table[slot]? = some ([] ++ address :: after) := isList
    exact (notMem_of_nodup_set chained.nodup isList').2

theorem Chained.unlinkAfter [DecidableEq Address]
    (chained : Chained next heads nodes table) {previous : Address}
    (isList : table[slot]? = some (before ++ previous :: address :: after))
    {node relinked : Node} (isNode : nodes address = some node)
    (bypasses : next relinked = next node) :
    Chained next heads (Function.update nodes previous (some relinked))
      (table.set slot (before ++ previous :: after)) := by
  have isList' : table[slot]? =
      some ((before ++ [previous]) ++ address :: after) := by
    rw [isList, List.append_assoc]
    rfl
  have regroup : before ++ previous :: after = (before ++ [previous]) ++ after := by
    simp
  obtain ⟨head, isHead, along⟩ := chained.chain slot _ isList
  have isPrevious : previous ∈ before ++ previous :: address :: after := by simp
  apply chained.set
  · rfl
  · intros
    rfl
  · intro other list differs isOther member isMember
    apply Function.update_of_ne
    rintro rfl
    apply differs
    exact slot_unique chained.nodup isOther isList isMember isPrevious
  · intro _
    exact ⟨head, isHead, along.bypass (chained.list_nodup isList) isNode bypasses⟩
  · rw [regroup]
    exact (notMem_of_nodup_set chained.nodup isList').2

theorem Chained.push [DecidableEq Address]
    (chained : Chained next heads nodes table) (isList : table[slot]? = some list)
    (fresh : address ∉ table.flatten) {node : Node} {head : Option Address}
    (isHead : heads[slot]? = some head) (linked : next node = head) :
    Chained next (heads.set slot (some address))
      (Function.update nodes address (some node))
      (table.set slot (address :: list)) := by
  obtain ⟨head', isHead', along⟩ := chained.chain slot _ isList
  cases isHead.symm.trans isHead'
  have inHeads := (List.getElem?_eq_some_iff.mp isHead).1
  apply chained.set
  · rw [List.length_set]
  · intro other differs
    exact List.getElem?_set_ne (Ne.symm differs)
  · intro other others _ isOther member isMember
    apply Function.update_of_ne
    rintro rfl
    exact fresh (mem_flatten_of_getElem? isOther isMember)
  · intro _
    refine ⟨_, List.getElem?_set_self inHeads, rfl, node, ?_, ?_⟩
    · rw [Function.update_self]
    · rw [linked]
      exact along.update (fun isOld => fresh (mem_flatten_of_getElem? isList isOld)) _
  · rw [(flatten_set_cons isList address).nodup_iff, List.nodup_cons]
    exact ⟨fresh, chained.nodup⟩

theorem Chained.update [DecidableEq Address]
    (chained : Chained next heads nodes table) (outside : address ∉ table.flatten)
    (value : Option Node) :
    Chained next heads (Function.update nodes address value) table where
  size := chained.size
  chain := by
    intro slot list isList
    obtain ⟨head, isHead, along⟩ := chained.chain slot list isList
    exact ⟨head, isHead, along.update
      (fun isOld => outside (mem_flatten_of_getElem? isList isOld)) _⟩
  nodup := chained.nodup

theorem flatten_append_replicate_nil (table : List (List Address)) (count : Nat) :
    (table ++ List.replicate count []).flatten = table.flatten := by
  simp

theorem Chained.extend (chained : Chained next heads nodes table) (count : Nat) :
    Chained next (heads ++ List.replicate count none) nodes
      (table ++ List.replicate count []) where
  size := by simp [chained.size]
  chain := by
    intro slot list isList
    rw [List.getElem?_append] at isList ⊢
    by_cases old : slot < table.length
    · rw [if_pos old] at isList
      rw [if_pos (chained.size ▸ old)]
      exact chained.chain slot list isList
    · rw [if_neg old, List.getElem?_replicate] at isList
      split at isList
      · next inCount =>
          cases isList
          refine ⟨none, ?_, rfl⟩
          rw [if_neg (chained.size ▸ old), chained.size, List.getElem?_replicate,
            if_pos inCount]
      · cases isList
  nodup := by
    rw [flatten_append_replicate_nil]
    exact chained.nodup

end Tables

end NtShm
