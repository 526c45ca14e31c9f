import NtShm.DdlRuns

/-!
# Appends to a doubly linked list, and its contents

Nodes can be appended until the last of several nodes was deleted.  After any
insertions the list has the contents of a deque, but `num` only counts the first
node and those at the end.
-/

namespace NtShm

/-- `curr` and `tail` are the last node, and another can be put behind it. -/
structure AppendWorks (dh : Ddlh) : Prop where
  ends : ∃ list, dh.Forward list ∧ dh.Backward list.reverse ∧
    dh.curr = list.getLast? ∧ dh.tail = list.getLast?
  append : ∀ list data len di, dh.Forward list → len ≤ data.length →
    0 < di ∧ di < 2 ^ 64 → dh.nodes di = none →
    ∃ dh', ddlInsert dh data len 1 ⟨some di, true⟩ = some dh' ∧
      dh'.Forward (list ++ [di]) ∧ dh'.Backward (di :: list.reverse)

section Appending

variable {history : List DdlOp} {dh dh' : Ddlh} {list : List Nat} {di : Nat}

theorem DdlHolds.appendWorks (holds : DdlHolds dh list) (isCurr : dh.curr = list.getLast?) :
    AppendWorks dh where
  ends := ⟨list, holds.forward, holds.backward, isCurr, holds.tail_eq⟩
  append := by
    intro list' data len di forward enough inRange free
    cases holds.forward.unique forward
    obtain ⟨dh', inserts, inserted⟩ :=
      holds.insert free inRange enough (Or.inr rfl) fun _ => isCurr
    have holds' := inserted.holds
    rw [insertedAt, if_pos rfl] at holds'
    refine ⟨dh', inserts, holds'.forward, ?_⟩
    have backward := holds'.backward
    rwa [List.reverse_append] at backward

theorem DdlShape.erase_ne_nil (shape : DdlShape dh list) (isMember : di ∈ list)
    (notFirst : dh.entr ≠ some di) : list.erase di ≠ [] := by
  obtain ⟨first, rest, rfl⟩ := List.exists_cons_of_ne_nil (List.ne_nil_of_mem isMember)
  have differs : first ≠ di := by
    rintro rfl
    exact notFirst shape.entr_eq
  exact List.ne_nil_of_mem ((List.mem_erase_of_ne differs).mpr List.mem_cons_self)

theorem DdlHolds.not_appendWorks (holds : DdlHolds dh list) (noCurr : dh.curr = none)
    (someNodes : list ≠ []) : ¬ AppendWorks dh := by
  intro works
  obtain ⟨list', forward, -, isCurr, -⟩ := works.ends
  cases holds.forward.unique forward
  rw [noCurr] at isCurr
  exact someNodes (List.getLast?_eq_none_iff.mp isCurr.symm)

/-- While no call deletes the last of several nodes, insertions and deletions work and
nodes can be appended, and only such a call ends that. -/
theorem ddlRun_appendWorks
    (run : DdlRun (fun dh op => op.IsEdit ∧ op.KeepsLast dh) history dh) :
    AppendWorks dh ∧ ∀ op : DdlOp, op.Proper dh → op.IsEdit →
      ∃ dh', op.run dh = some dh' ∧ (AppendWorks dh' ↔ op.KeepsLast dh) := by
  obtain ⟨list, holds, isCurr⟩ := run.last fun _ _ => id
  refine ⟨holds.appendWorks isCurr, ?_⟩
  intro op proper edits
  by_cases keeps : op.KeepsLast dh
  · obtain ⟨dh', list', runs, holds', isCurr'⟩ := holds.step_last isCurr proper edits keeps
    exact ⟨dh', runs, iff_of_true (holds'.appendWorks isCurr') keeps⟩
  · cases op with
    | insert data len flg allocs => exact absurd trivial keeps
    | control ctr => cases edits
    | delete di =>
        simp only [DdlOp.KeepsLast, Classical.not_imp] at keeps
        obtain ⟨isTail, notFirst⟩ := keeps
        have isMember := holds.mem_of_proper proper
        obtain ⟨dh', deletes, removed⟩ := holds.deleteLater isMember notFirst
        have isDi : dh.curr = some di := by rw [isCurr, ← holds.tail_eq, isTail]
        have others := holds.erase_ne_nil isMember notFirst
        refine ⟨dh', deletes, iff_of_false ?_ ?_⟩
        · exact removed.holds.not_appendWorks (removed.lost isCurr isDi) others
        · exact fun keeps => notFirst (keeps isTail)

end Appending

/-- The last of two nodes is deleted, and the next append follows NULL. -/
theorem ddlInsert_afterLast :
    ∃ history dh, DdlRun (fun _ op => op.IsEdit) history dh ∧ dh.entr ≠ none ∧
      dh.nodes 3 = none ∧ ddlInsert dh [7] 1 1 ⟨some 3, true⟩ = none := by
  obtain ⟨dh, -, dh', run, forward, -, -, deletes, isEntr, noCurr, free⟩ :=
    @exists_twoNodes (fun _ op => op.IsEdit) fun _ _ => trivial
  have someEntr : dh'.entr ≠ none := by
    rw [isEntr]
    rintro ⟨⟩
  have deleted := @DdlRun.step _ _ _ (.delete 2) _ run ⟨[1, 2], forward, by decide⟩ trivial
    deletes
  exact ⟨_, dh', deleted, someEntr, free, ddlInsert_lost noCurr someEntr⟩

/-- A third node can be appended to two. -/
theorem ddlRun_appendWorks_twoNodes :
    ∃ history dh, DdlRun (fun dh op => op.IsEdit ∧ op.KeepsLast dh) history dh ∧
      dh.Forward [1, 2] ∧ AppendWorks dh := by
  obtain ⟨dh, -, -, run, forward, -⟩ :=
    @exists_twoNodes (fun dh op => op.IsEdit ∧ op.KeepsLast dh)
      fun _ _ => ⟨trivial, trivial⟩
  exact ⟨_, dh, run, forward, (ddlRun_appendWorks run).1⟩

/-! ## Contents -/

/-- The nodes have the contents of a deque, in both directions. -/
structure LinksDeque (dh : Ddlh) (contents : List (List UInt8)) (list : List Nat) :
    Prop where
  forward : dh.Forward list
  backward : dh.Backward list.reverse
  data : list.map dh.dataOf = contents.map some
  prev : ∀ di node, dh.entr = some di → dh.nodes di = some node → node.prev = none
  next : ∀ di node, dh.tail = some di → dh.nodes di = some node → node.next = none

/-- The list is a deque, and `num` the number of its nodes. -/
def HoldsDeque (dh : Ddlh) (contents : List (List UInt8)) : Prop :=
  ∃ list, LinksDeque dh contents list ∧ dh.num.toNat = list.length

/-- The contents of a deque after insertions at both ends. -/
def dequeContents (history : List DdlOp) : List (List UInt8) :=
  history.foldl DdlOp.dequeAfter []

section Contents

variable {history : List DdlOp} {dh dh' : Ddlh} {list : List Nat} {di : Nat} {flg : Int}
  {data : List UInt8} {stored : List (List UInt8)}

theorem DdlShape.entr_prev (shape : DdlShape dh list) {node : DdlNode}
    (isEntr : dh.entr = some di) (isNode : dh.nodes di = some node) : node.prev = none := by
  rw [shape.entr_eq] at isEntr
  obtain ⟨rest, rfl⟩ := List.head?_eq_some_iff.mp isEntr
  have along := shape.backward
  rw [Ddlh.Backward, List.reverse_cons] at along
  exact along.link_eq isNode

theorem DdlShape.tail_next (shape : DdlShape dh list) {node : DdlNode}
    (isTail : dh.tail = some di) (isNode : dh.nodes di = some node) : node.next = none := by
  rw [shape.tail_eq] at isTail
  obtain ⟨before, rfl⟩ := List.getLast?_eq_some_iff.mp isTail
  exact shape.forward.link_eq isNode

theorem DdlInserted.contents {len : Nat} {allocs : DdlAllocs}
    (inserted : DdlInserted dh list flg di (data.take len) dh') (fresh : di ∉ list)
    (isStored : list.map dh.dataOf = stored.map some) :
    (insertedAt flg list di).map dh'.dataOf =
      ((DdlOp.insert data len flg allocs).dequeAfter stored).map some := by
  have same : list.map dh'.dataOf = stored.map some := by
    rw [← isStored]
    apply List.map_congr_left
    intro other isOther
    rw [inserted.data]
    apply Function.update_of_ne
    rintro rfl
    exact fresh isOther
  have new : dh'.dataOf di = some (data.take len) := by
    rw [inserted.data, Function.update_self]
  rw [insertedAt, DdlOp.dequeAfter]
  split_ifs
  · simp [same, new]
  · simp [same, new]

/-- A list after insertions; only the first insertion and those at the end are
counted. -/
structure DdlDeque (history : List DdlOp) (dh : Ddlh) (list : List Nat) : Prop
    extends DdlHolds dh list where
  isCurr : dh.curr = list.getLast?
  length : list.length = history.length
  contents : list.map dh.dataOf = (dequeContents history).map some
  counted : dh.num.toNat = if history = [] then 0 else 1 + history.tail.countP DdlOp.atEnd

theorem DdlDeque.history_nil (deque : DdlDeque history dh list) : history = [] ↔ list = [] := by
  rw [← List.length_eq_zero_iff, ← deque.length, List.length_eq_zero_iff]

theorem DdlDeque.num_le (deque : DdlDeque history dh list) : dh.num.toNat ≤ list.length := by
  rw [deque.counted, deque.length]
  cases history with
  | nil => exact Nat.le_refl 0
  | cons op history =>
      have atEnds : history.countP DdlOp.atEnd ≤ history.length := List.countP_le_length
      rw [if_neg (List.cons_ne_nil op history), List.tail_cons, List.length_cons]
      omega

theorem DdlDeque.insert {op : DdlOp} (deque : DdlDeque history dh list)
    (proper : op.Proper dh) (succeeds : op.Succeeds) :
    ∃ dh' list', op.run dh = some dh' ∧ DdlDeque (history ++ [op]) dh' list' := by
  cases op with
  | delete di => cases succeeds
  | control ctr => cases succeeds
  | insert data len flg allocs =>
      obtain ⟨failed, -⟩ | ⟨di, dh', rfl, inserts, inserted⟩ :=
        deque.insert_or proper fun _ => deque.isCurr
      · exact absurd succeeds failed
      · have free := (proper.2.2 di rfl).2
        have fresh := (deque.withNode free data).1
        refine ⟨dh', _, inserts, inserted.holds, inserted.curr deque.isCurr, ?_, ?_, ?_⟩
        · rw [length_insertedAt, deque.length, List.length_append, List.length_singleton]
        · rw [dequeContents, List.foldl_append, List.foldl_cons, List.foldl_nil]
          exact inserted.contents fresh deque.contents
        · have someHistory : history ++ [DdlOp.insert data len flg ⟨some di, true⟩] ≠ [] := by
            simp
          rw [inserted.num_toNat deque.num_le, if_neg someHistory]
          by_cases first : history = []
          · rw [if_pos (deque.history_nil.mp first), first]
            rfl
          · have counted := deque.counted
            rw [if_neg first] at counted
            rw [if_neg (mt deque.history_nil.mpr first),
              List.tail_append_of_ne_nil first, List.countP_append, counted]
            by_cases isEnd : flg = 1
            · simp [isEnd, DdlOp.atEnd, Nat.add_assoc]
            · simp [isEnd, DdlOp.atEnd]

theorem DdlRun.deque (run : DdlRun (fun _ op => op.Succeeds) history dh) :
    ∃ list, DdlDeque history dh list := by
  induction run with
  | init => exact ⟨[], ddlInit_holds, rfl, rfl, rfl, rfl⟩
  | step _ proper succeeds runs ih =>
      obtain ⟨list, deque⟩ := ih
      obtain ⟨dh', list', runs', deque'⟩ := deque.insert proper succeeds
      cases runs.symm.trans runs'
      exact ⟨list', deque'⟩

/-- Insertions always work and link a deque, and `num` is the number of its nodes if
and only if all insertions but the first were at the end. -/
theorem ddlRun_holdsDeque_iff (run : DdlRun (fun _ op => op.Succeeds) history dh) :
    (∀ op : DdlOp, op.Proper dh → op.Succeeds → (op.run dh).isSome) ∧
      (∃ list, LinksDeque dh (dequeContents history) list) ∧
      (HoldsDeque dh (dequeContents history) ↔ ∀ op ∈ history.tail, op.atEnd = true) := by
  obtain ⟨list, deque⟩ := run.deque
  have links : LinksDeque dh (dequeContents history) list :=
    ⟨deque.forward, deque.backward, deque.contents, fun _ _ => deque.entr_prev,
      fun _ _ => deque.tail_next⟩
  refine ⟨?_, ⟨list, links⟩, ?_⟩
  · intro op proper succeeds
    obtain ⟨dh', -, runs, -⟩ := deque.insert proper succeeds
    rw [runs]
    rfl
  · have countIff : dh.num.toNat = list.length ↔ ∀ op ∈ history.tail, op.atEnd = true := by
      rw [deque.counted, deque.length, ← List.countP_eq_length]
      cases history with
      | nil => exact iff_of_true rfl rfl
      | cons op history =>
          rw [if_neg (List.cons_ne_nil op history), List.tail_cons, List.length_cons]
          omega
    rw [← countIff]
    constructor
    · rintro ⟨list', links', count⟩
      rw [count, deque.forward.unique links'.forward]
    · exact fun count => ⟨list, links, count⟩

end Contents

/-- The second node is put first, and is not counted. -/
theorem ddlInsert_firstNotCounted :
    ∃ history dh, DdlRun (fun _ op => op.Succeeds) history dh ∧
      ¬ HoldsDeque dh (dequeContents history) := by
  have first := @DdlRun.step (fun _ op => op.Succeeds) _ _ (.insert [7] 1 1 ⟨some 1, true⟩) _
    .init ⟨Nat.le_refl 1, Or.inr rfl, by rintro di ⟨⟩; decide⟩ ⟨rfl, rfl⟩ rfl
  have second := @DdlRun.step (fun _ op => op.Succeeds) _ _ (.insert [7] 1 0 ⟨some 2, true⟩) _
    first ⟨Nat.le_refl 1, Or.inl rfl, by rintro di ⟨⟩; decide⟩ ⟨rfl, rfl⟩ rfl
  obtain ⟨dh, run, forward, num⟩ :
      ∃ dh, DdlRun (fun _ op => op.Succeeds) _ dh ∧ dh.Forward [2, 1] ∧ dh.num = 1 :=
    ⟨_, second, ⟨rfl, _, rfl, rfl, _, rfl, rfl⟩, rfl⟩
  refine ⟨_, dh, run, ?_⟩
  rintro ⟨list, links, count⟩
  rw [num, ← forward.unique links.forward] at count
  exact absurd count (by decide)

/-- Two nodes at the end are counted. -/
theorem ddlRun_holdsDeque_twoNodes :
    ∃ history dh, DdlRun (fun _ op => op.Succeeds) history dh ∧ dh.Forward [1, 2] ∧
      HoldsDeque dh (dequeContents history) := by
  obtain ⟨dh, -, -, run, forward, -⟩ :=
    @exists_twoNodes (fun _ op => op.Succeeds) fun _ _ => ⟨rfl, rfl⟩
  exact ⟨_, dh, run, forward, (ddlRun_holdsDeque_iff run).2.2.mpr (by decide)⟩

end NtShm
