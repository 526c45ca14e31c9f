import Mathlib.Data.List.Nodup

/-!
# Doubly linked lists given by their link functions

A list segment is described by two functions, `prev` and `next`, on an
arbitrary type of nodes with a distinguished null node.  The two edits of such
a list, pushing a node in front and unlinking a node from anywhere, are stated
for any new link functions that agree with the expected updates on the nodes of
the list, so that a client whose links live in a memory only has to compute
single words.
-/

namespace NtShm

namespace DoublyLinked

variable {Node : Type*} {null : Node} {prev next prev' next' : Node → Node}

/-- The nodes reached from `head` along `next` up to the null node; each node's
`prev` is its predecessor, and the first node's is `before`. -/
def IsSegment (null : Node) (prev next : Node → Node) :
    Node → Node → List Node → Prop
  | _, head, [] => head = null
  | before, head, node :: rest =>
      head = node ∧ node ≠ null ∧ prev node = before ∧
        IsSegment null prev next node (next node) rest

namespace IsSegment

theorem null_not_mem {before head : Node} {nodes : List Node}
    (list : IsSegment null prev next before head nodes) : null ∉ nodes := by
  induction nodes generalizing before head with
  | nil => simp
  | cons node rest ih =>
      obtain ⟨_, nonnull, _, tail⟩ := list
      simp only [List.mem_cons, not_or]
      exact ⟨nonnull.symm, ih tail⟩

/-- A null-terminated segment is determined by its first node. -/
theorem unique {before before' head : Node} {first second : List Node}
    (left : IsSegment null prev next before head first)
    (right : IsSegment null prev next before' head second) :
    first = second := by
  induction first generalizing before before' head second with
  | nil =>
      cases second with
      | nil => rfl
      | cons node rest => exact (right.2.1 (right.1.symm.trans left)).elim
  | cons node rest ih =>
      cases second with
      | nil => exact (left.2.1 (left.1.symm.trans right)).elim
      | cons node' rest' =>
          obtain ⟨headEq, _, _, tail⟩ := left
          obtain ⟨headEq', _, _, tail'⟩ := right
          obtain rfl : node = node' := headEq.symm.trans headEq'
          rw [ih tail tail']

theorem suffix {before head node : Node} {front back : List Node}
    (list : IsSegment null prev next before head (front ++ node :: back)) :
    ∃ before', IsSegment null prev next before' node (node :: back) := by
  induction front generalizing before head with
  | nil =>
      obtain ⟨_, rest⟩ := list
      exact ⟨before, rfl, rest⟩
  | cons first front ih => exact ih list.2.2.2

/-- No node occurs twice: a second visit would never reach the null node. -/
theorem nodup {before head : Node} {nodes : List Node}
    (list : IsSegment null prev next before head nodes) : nodes.Nodup := by
  induction nodes generalizing before head with
  | nil => exact List.nodup_nil
  | cons node rest ih =>
      refine List.nodup_cons.mpr ⟨?_, ih list.2.2.2⟩
      intro member
      obtain ⟨front, back, rfl⟩ := List.append_of_mem member
      obtain ⟨before', again⟩ := suffix list.2.2.2
      have same := unique (list.1 ▸ list) again
      have lengths := congrArg List.length same
      simp at lengths
      omega

theorem congr {before head : Node} {nodes : List Node}
    (list : IsSegment null prev next before head nodes)
    (prevEq : ∀ node ∈ nodes, prev' node = prev node)
    (nextEq : ∀ node ∈ nodes, next' node = next node) :
    IsSegment null prev' next' before head nodes := by
  induction nodes generalizing before head with
  | nil => exact list
  | cons node rest ih =>
      obtain ⟨headEq, nonnull, prevNode, tail⟩ := list
      refine ⟨headEq, nonnull, (prevEq node (by simp)).trans prevNode, ?_⟩
      rw [nextEq node (by simp)]
      exact ih tail (fun other member => prevEq other (by simp [member]))
        (fun other member => nextEq other (by simp [member]))

theorem prev_eq_or_mem {before head node : Node} {front back : List Node}
    (list : IsSegment null prev next before head (front ++ node :: back)) :
    prev node = before ∨ prev node ∈ front := by
  induction front generalizing before head with
  | nil => exact Or.inl list.2.2.1
  | cons first front ih =>
      rcases ih list.2.2.2 with equal | member
      · exact Or.inr (by simp [equal])
      · exact Or.inr (by simp [member])

theorem next_eq {before head node : Node} {front back : List Node}
    (list : IsSegment null prev next before head (front ++ node :: back)) :
    next node = back.headD null := by
  obtain ⟨_, segment⟩ := suffix list
  cases back with
  | nil => exact segment.2.2.2
  | cons node' back => exact segment.2.2.2.1

/-- Only the first node of a segment sees what stands before it. -/
theorem change_before [DecidableEq Node] {before before' head : Node} {nodes : List Node}
    (list : IsSegment null prev next before head nodes)
    (prevEq : ∀ node ∈ nodes,
      prev' node = if node = head then before' else prev node)
    (nextEq : ∀ node ∈ nodes, next' node = next node) :
    IsSegment null prev' next' before' head nodes := by
  cases nodes with
  | nil => exact list
  | cons node rest =>
      have fresh := (List.nodup_cons.mp list.nodup).1
      obtain ⟨rfl, nonnull, _, tail⟩ := list
      refine ⟨rfl, nonnull, by rw [prevEq head (by simp), if_pos rfl], ?_⟩
      rw [nextEq head (by simp)]
      refine tail.congr (fun other member => ?_)
        (fun other member => nextEq other (by simp [member]))
      rw [prevEq other (by simp [member]), if_neg]
      rintro rfl
      exact fresh member

theorem push [DecidableEq Node] {head node : Node} {nodes : List Node}
    (list : IsSegment null prev next null head nodes) (nonnull : node ≠ null)
    (prevNode : prev' node = null) (nextNode : next' node = head)
    (prevEq : ∀ other ∈ nodes,
      prev' other = if other = head then node else prev other)
    (nextEq : ∀ other ∈ nodes, next' other = next other) :
    IsSegment null prev' next' null node (node :: nodes) := by
  refine ⟨rfl, nonnull, prevNode, ?_⟩
  rw [nextNode]
  exact list.change_before prevEq nextEq

/-- Unlink a node: its two neighbours are linked to each other, and the list
starts at its successor when it was the first node. -/
theorem unlink [DecidableEq Node] {before head node : Node}
    {front back : List Node}
    (list : IsSegment null prev next before head (front ++ node :: back))
    (outside : before ∉ front ++ node :: back)
    (prevEq : ∀ other ∈ front ++ back,
      prev' other = if other = next node then prev node else prev other)
    (nextEq : ∀ other ∈ front ++ back,
      next' other = if other = prev node then next node else next other) :
    IsSegment null prev' next' before
      (if prev node = before then next node else head) (front ++ back) := by
  induction front generalizing before head with
  | nil =>
      obtain ⟨_, _, prevNode, tail⟩ := list
      rw [if_pos prevNode]
      refine tail.change_before (fun other member => ?_) (fun other member => ?_)
      · rw [prevEq other member, prevNode]
      · rw [nextEq other member, if_neg]
        rintro rfl
        exact outside (by simp [← prevNode]; exact Or.inr member)
  | cons first front ih =>
      have distinct := list.nodup
      have placed := list.2.2.2.prev_eq_or_mem
      obtain ⟨rfl, nonnull, prevFirst, tail⟩ := list
      simp only [List.cons_append, List.nodup_cons] at distinct
      have notBefore : prev node ≠ before := by
        rintro rfl
        rcases placed with equal | member
        · exact outside (by simp [equal])
        · exact outside (by simp [member])
      have notSuccessor : head ≠ next node := by
        rw [tail.next_eq]
        rintro rfl
        cases back with
        | nil => exact nonnull rfl
        | cons successor back => exact distinct.1 (by simp)
      have rest := ih tail distinct.1
        (fun other member => prevEq other (by simp [List.mem_append.mp member]))
        (fun other member => nextEq other (by simp [List.mem_append.mp member]))
      rw [if_neg notBefore]
      refine ⟨rfl, nonnull, ?_, ?_⟩
      · rw [prevEq head (by simp), if_neg notSuccessor, prevFirst]
      · rw [nextEq head (by simp)]
        by_cases isPrev : head = prev node
        · rw [if_pos isPrev]
          rwa [if_pos isPrev.symm] at rest
        · rw [if_neg isPrev]
          rwa [if_neg (Ne.symm isPrev)] at rest

end IsSegment

end DoublyLinked

end NtShm
