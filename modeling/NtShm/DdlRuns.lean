import NtShm.DdlDeletions

/-!
# Runs of the doubly linked list

Sequences of insertions, deletions and cursor moves from `ddl_init` on.  Deletions
are right for all nodes but the first of several, and the cursor can always be
moved, but not upwards in an empty list.
-/

namespace NtShm

inductive DdlOp
  | insert (data : List UInt8) (len : Nat) (flg : Int) (allocs : DdlAllocs)
  | delete (di : Nat)
  | control (ctr : Ddlctr)

namespace DdlOp

def run (dh : Ddlh) : DdlOp → Option Ddlh
  | .insert data len flg allocs => ddlInsert dh data len flg allocs
  | .delete di => ddlDelete dh (some di)
  | .control ctr => (ddlControl dh ctr).map Prod.fst

/-- What a caller and the allocator keep to: the data is as long as said, `flg` is
0 or 1, a new node is not in use, and a deleted node is in the list. -/
def Proper (dh : Ddlh) : DdlOp → Prop
  | .insert data len flg allocs => len ≤ data.length ∧ (flg = 0 ∨ flg = 1) ∧
      ∀ di, allocs.node = some di → (0 < di ∧ di < 2 ^ 64) ∧ dh.nodes di = none
  | .delete di => ∃ list, dh.Forward list ∧ di ∈ list
  | .control _ => True

def IsInsert : DdlOp → Prop
  | .insert _ _ _ _ => True
  | _ => False

def IsEdit : DdlOp → Prop
  | .control _ => False
  | _ => True

def Succeeds : DdlOp → Prop
  | .insert _ _ _ allocs => allocs.node.isSome ∧ allocs.data = true
  | _ => False

/-- The call does not delete the last of several nodes. -/
def KeepsLast (dh : Ddlh) : DdlOp → Prop
  | .delete di => dh.tail = some di → dh.entr = some di
  | _ => True

def atEnd : DdlOp → Bool
  | .insert _ _ flg _ => flg == 1
  | _ => false

def dequeAfter (contents : List (List UInt8)) : DdlOp → List (List UInt8)
  | .insert data len flg _ =>
      if flg = 1 then contents ++ [data.take len] else data.take len :: contents
  | _ => contents

end DdlOp

/-- The lists that come from a sequence of calls, each permitted where it happens. -/
inductive DdlRun (permitted : Ddlh → DdlOp → Prop) : List DdlOp → Ddlh → Prop
  | init : DdlRun permitted [] ddlInit
  | step {history dh op dh'} : DdlRun permitted history dh → op.Proper dh →
      permitted dh op → op.run dh = some dh' → DdlRun permitted (history ++ [op]) dh'

section Steps

variable {dh dh' : Ddlh} {list : List Nat} {op : DdlOp}

theorem ddlInit_holds : DdlHolds ddlInit [] :=
  ⟨⟨rfl, rfl, List.nodup_nil, by simp⟩, Or.inl rfl, Or.inl ⟨rfl, rfl⟩⟩

theorem DdlHolds.insert_or (holds : DdlHolds dh list) {data : List UInt8} {len : Nat}
    {flg : Int} {allocs : DdlAllocs} (proper : (DdlOp.insert data len flg allocs).Proper dh)
    (isCurr : flg = 1 → dh.curr = list.getLast?) :
    (¬ (DdlOp.insert data len flg allocs).Succeeds ∧
        ddlInsert dh data len flg allocs = some dh) ∨
      ∃ di dh', allocs = ⟨some di, true⟩ ∧ ddlInsert dh data len flg allocs = some dh' ∧
        DdlInserted dh list flg di (data.take len) dh' := by
  obtain ⟨enough, isFlg, fresh⟩ := proper
  obtain ⟨node, hasData⟩ := allocs
  cases node with
  | none => exact Or.inl ⟨fun succeeds => Bool.noConfusion succeeds.1, rfl⟩
  | some di =>
      cases hasData with
      | false => exact Or.inl ⟨fun succeeds => Bool.noConfusion succeeds.2, rfl⟩
      | true =>
          obtain ⟨inRange, free⟩ := fresh di rfl
          obtain ⟨dh', inserts, inserted⟩ := holds.insert free inRange enough isFlg isCurr
          exact Or.inr ⟨di, dh', rfl, inserts, inserted⟩

theorem ddlInsert_lost {data : List UInt8} {len di : Nat} (noCurr : dh.curr = none)
    (someEntr : dh.entr ≠ none) : ddlInsert dh data len 1 ⟨some di, true⟩ = none := by
  obtain ⟨entr, isEntr⟩ := Option.ne_none_iff_exists'.mp someEntr
  simp only [ddlInsert, if_true, ddlInsertEnd, isEntr, noCurr]
  split_ifs <;> rfl

theorem DdlHolds.mem_of_proper (holds : DdlHolds dh list) {di : Nat}
    (proper : (DdlOp.delete di).Proper dh) : di ∈ list := by
  obtain ⟨list', forward, isMember⟩ := proper
  exact holds.forward.unique forward ▸ isMember

theorem DdlHolds.split_pos (holds : DdlHolds dh list) (someNodes : list ≠ []) :
    ∃ before pos after, list = before ++ pos :: after ∧ dh.pos = some pos := by
  obtain ⟨pos, isMember, isPos⟩ := holds.pos.resolve_left fun empty => someNodes empty.1
  obtain ⟨before, after, split⟩ := List.append_of_mem isMember
  exact ⟨before, pos, after, split, isPos⟩

theorem DdlHolds.moved (holds : DdlHolds dh list) {pos : Nat} (isMember : pos ∈ list) :
    DdlHolds { dh with pos := some pos } list :=
  ⟨⟨holds.forward, holds.backward, holds.nodup, holds.addresses⟩, holds.curr,
    Or.inr ⟨pos, isMember, rfl⟩⟩

theorem DdlHolds.control (holds : DdlHolds dh list) {ctr : Ddlctr} {node : Option Nat}
    (controls : ddlControl dh ctr = some (dh', node)) : DdlHolds dh' list := by
  rcases holds.pos with ⟨-, noPos⟩ | ⟨pos, isMember, isPos⟩
  · cases ctr with
    | up =>
        simp only [ddlControl, noPos] at controls
        cases controls
    | dn =>
        simp only [ddlControl, noPos] at controls
        cases controls
        exact holds
    | other =>
        cases controls
        exact holds
  · obtain ⟨before, after, rfl⟩ := List.append_of_mem isMember
    cases ctr with
    | up =>
        cases (holds.control_up isPos).symm.trans controls
        have inList := @List.getLastD_mem_cons _ before pos
        apply holds.moved
        simp only [List.mem_append, List.mem_cons] at inList ⊢
        exact inList.elim (fun same => Or.inr (Or.inl same)) Or.inl
    | dn =>
        cases (holds.control_dn isPos).symm.trans controls
        apply holds.moved
        cases after <;> simp
    | other =>
        cases controls
        exact holds

theorem DdlHolds.step (holds : DdlHolds dh list) (proper : op.Proper dh)
    (runs : op.run dh = some dh') : ∃ list', DdlHolds dh' list' := by
  cases op with
  | insert data len flg allocs =>
      by_cases isCurr : flg = 1 → dh.curr = list.getLast?
      · rcases holds.insert_or proper isCurr with ⟨-, same⟩ | ⟨di, dh'', -, inserts, inserted⟩
        · cases runs.symm.trans same
          exact ⟨list, holds⟩
        · cases runs.symm.trans inserts
          exact ⟨_, inserted.holds⟩
      · -- `curr` was lost, and only a failed insertion returns
        simp only [Classical.not_imp] at isCurr
        obtain ⟨rfl, lost⟩ := isCurr
        have noCurr := holds.curr.resolve_right lost
        have someEntr : dh.entr ≠ none := by
          rw [Ne, holds.entr_none]
          rintro rfl
          exact lost noCurr
        obtain ⟨node, hasData⟩ := allocs
        by_cases failed : node = none ∨ hasData = false
        · cases runs.symm.trans (ddlInsert_failed failed data len 1)
          exact ⟨list, holds⟩
        · simp only [not_or, Bool.not_eq_false] at failed
          obtain ⟨di, rfl⟩ := Option.ne_none_iff_exists'.mp failed.1
          rw [failed.2] at runs
          cases runs.symm.trans (ddlInsert_lost noCurr someEntr)
  | delete di =>
      have isMember := holds.mem_of_proper proper
      by_cases isFirst : dh.entr = some di
      · obtain ⟨nodes, deletes, holds', -⟩ := holds.deleteFirst isFirst
        cases runs.symm.trans deletes
        exact ⟨[], holds'⟩
      · obtain ⟨dh'', deletes, removed⟩ := holds.deleteLater isMember isFirst
        cases runs.symm.trans deletes
        exact ⟨_, removed.holds⟩
  | control ctr =>
      obtain ⟨⟨dh'', node⟩, controls, rfl⟩ := Option.map_eq_some_iff.mp runs
      exact ⟨list, holds.control controls⟩

theorem DdlHolds.step_last (holds : DdlHolds dh list) (isCurr : dh.curr = list.getLast?)
    (proper : op.Proper dh) (edits : op.IsEdit) (keeps : op.KeepsLast dh) :
    ∃ dh' list', op.run dh = some dh' ∧ DdlHolds dh' list' ∧
      dh'.curr = list'.getLast? := by
  cases op with
  | insert data len flg allocs =>
      obtain ⟨-, same⟩ | ⟨di, dh', -, inserts, inserted⟩ :=
        holds.insert_or proper fun _ => isCurr
      · exact ⟨dh, list, same, holds, isCurr⟩
      · exact ⟨dh', _, inserts, inserted.holds, inserted.curr isCurr⟩
  | delete di =>
      have isMember := holds.mem_of_proper proper
      by_cases isFirst : dh.entr = some di
      · obtain ⟨nodes, deletes, holds', -⟩ := holds.deleteFirst isFirst
        exact ⟨_, [], deletes, holds', rfl⟩
      · obtain ⟨dh', deletes, removed⟩ := holds.deleteLater isMember isFirst
        have notLast : dh.curr ≠ some di := by
          rw [isCurr, ← holds.tail_eq]
          exact fun isTail => isFirst (keeps isTail)
        exact ⟨dh', _, deletes, removed.holds, removed.curr isCurr notLast⟩
  | control ctr => cases edits

end Steps

section Runs

variable {permitted : Ddlh → DdlOp → Prop} {history : List DdlOp} {dh : Ddlh}

theorem DdlRun.holds (run : DdlRun permitted history dh) : ∃ list, DdlHolds dh list := by
  induction run with
  | init => exact ⟨[], ddlInit_holds⟩
  | step _ proper _ runs ih =>
      obtain ⟨list, holds⟩ := ih
      exact holds.step proper runs

theorem DdlRun.last (run : DdlRun permitted history dh)
    (keeps : ∀ dh op, permitted dh op → op.IsEdit ∧ op.KeepsLast dh) :
    ∃ list, DdlHolds dh list ∧ dh.curr = list.getLast? := by
  induction run with
  | init => exact ⟨[], ddlInit_holds, rfl⟩
  | step _ proper permits runs ih =>
      obtain ⟨list, holds, isCurr⟩ := ih
      obtain ⟨dh', list', runs', holds', isCurr'⟩ :=
        holds.step_last isCurr proper (keeps _ _ permits).1 (keeps _ _ permits).2
      cases runs.symm.trans runs'
      exact ⟨list', holds', isCurr'⟩

end Runs

/-! ## Deletions -/

/-- Exactly the node `di` is removed. -/
structure RemovesOne (dh : Ddlh) (list : List Nat) (di : Nat) (dh' : Ddlh) : Prop where
  forward : dh'.Forward (list.erase di)
  backward : dh'.Backward (list.erase di).reverse
  num : dh'.num.toNat + 1 = dh.num.toNat
  pos_same : dh.pos ≠ some di → dh'.pos = dh.pos
  pos_moved : dh.pos = some di →
    (list.erase di = [] ∧ dh'.pos = none) ∨ ∃ other ∈ list.erase di, dh'.pos = some other
  freed : dh'.nodes di = none
  data : ∀ other, other ≠ di → dh'.dataOf other = dh.dataOf other

section Removal

variable {permitted : Ddlh → DdlOp → Prop} {history : List DdlOp} {dh dh' : Ddlh}
  {list : List Nat} {di : Nat} {flg : Int} {data : List UInt8}

theorem length_insertedAt (flg : Int) (list : List Nat) (di : Nat) :
    (insertedAt flg list di).length = list.length + 1 := by
  rw [insertedAt]
  split_ifs <;> simp

theorem DdlInserted.num_toNat (inserted : DdlInserted dh list flg di data dh')
    (within : dh.num.toNat ≤ list.length) :
    dh'.num.toNat =
      if list = [] then 1 else if flg = 1 then dh.num.toNat + 1 else dh.num.toNat := by
  have bound := inserted.holds.length_lt
  rw [length_insertedAt] at bound
  rw [inserted.num]
  by_cases empty : list = []
  · rw [if_pos empty, if_pos empty]
    rfl
  · rw [if_neg empty, if_neg empty]
    by_cases isEnd : flg = 1
    · rw [if_pos isEnd, if_pos isEnd, UInt64.toNat_add, UInt64.toNat_one]
      exact Nat.mod_eq_of_lt (by omega)
    · rw [if_neg isEnd, if_neg isEnd]

theorem DdlRun.num_bounds (run : DdlRun permitted history dh)
    (inserts : ∀ dh op, permitted dh op → op.IsInsert) :
    ∃ list, DdlHolds dh list ∧ dh.curr = list.getLast? ∧ dh.num.toNat ≤ list.length ∧
      (list ≠ [] → 0 < dh.num.toNat) := by
  induction run with
  | init => exact ⟨[], ddlInit_holds, rfl, Nat.le_refl 0, fun someNodes => absurd rfl someNodes⟩
  | @step _ _ op _ _ proper permits runs ih =>
      obtain ⟨list, holds, isCurr, within, counted⟩ := ih
      cases op with
      | insert data len flg allocs =>
          obtain ⟨-, same⟩ | ⟨di, dh', -, inserts', inserted⟩ :=
            holds.insert_or proper fun _ => isCurr
          · cases runs.symm.trans same
            exact ⟨list, holds, isCurr, within, counted⟩
          · cases runs.symm.trans inserts'
            have count := inserted.num_toNat within
            have length := length_insertedAt flg list di
            refine ⟨_, inserted.holds, inserted.curr isCurr, ?_⟩
            rw [count, length]
            rcases eq_or_ne list [] with rfl | someNodes
            · simp
            · have positive := counted someNodes
              rw [if_neg someNodes]
              split_ifs <;> omega
      | delete di => cases inserts _ _ permits
      | control ctr => cases inserts _ _ permits

theorem DdlHolds.removesOne_only (holds : DdlHolds dh [di]) (one : dh.num.toNat = 1)
    (emptied : DdlHolds { ddlInit with nodes := Function.update dh.nodes di none } []) :
    RemovesOne dh [di] di { ddlInit with nodes := Function.update dh.nodes di none } := by
  have isPos : dh.pos = some di := by
    obtain ⟨other, isOther, isPos⟩ := holds.pos.resolve_left fun empty => by cases empty.1
    rw [List.mem_singleton] at isOther
    rw [isPos, isOther]
  constructor
  case forward => simpa using emptied.forward
  case backward => simpa using emptied.backward
  case num =>
    rw [one]
    rfl
  case pos_same => exact fun notPos => absurd isPos notPos
  case pos_moved => exact fun _ => Or.inl ⟨by simp, rfl⟩
  case freed => exact Function.update_self ..
  case data =>
    intro other notDi
    exact congrArg _ (Function.update_of_ne notDi _ _)

theorem DdlRemoved.removesOne (removed : DdlRemoved dh list di dh')
    (positive : 0 < dh.num.toNat) : RemovesOne dh list di dh' := by
  constructor
  case forward => exact removed.holds.forward
  case backward => exact removed.holds.backward
  case num =>
    have one : (1 : UInt64) ≤ dh.num := by
      rw [UInt64.le_iff_toNat_le]
      exact positive
    rw [removed.num, UInt64.toNat_sub_of_le _ _ one, UInt64.toNat_one]
    exact Nat.sub_add_cancel positive
  case pos_same => exact removed.pos
  case pos_moved => exact fun _ => removed.holds.pos
  case freed => exact removed.freed
  case data => exact removed.data

/-- After insertions, a deletion removes one node unless it is of the first node of
several. -/
theorem ddlDelete_removesOne_iff (run : DdlRun (fun _ op => op.IsInsert) history dh)
    (forward : dh.Forward list) (isMember : di ∈ list) :
    (∃ dh', ddlDelete dh (some di) = some dh' ∧ RemovesOne dh list di dh') ↔
      (dh.entr = some di → list = [di]) := by
  obtain ⟨list', holds, -, within, counted⟩ := run.num_bounds fun _ _ => id
  cases holds.forward.unique forward
  have positive := counted (List.ne_nil_of_mem isMember)
  by_cases isFirst : dh.entr = some di
  · obtain ⟨nodes, deletes, emptied, rfl⟩ := holds.deleteFirst isFirst
    constructor
    · rintro ⟨dh', deletes', removes⟩ -
      cases deletes.symm.trans deletes'
      -- nothing is left, so there was nothing else
      have rest : list.erase di = [] := emptied.forward.unique removes.forward |>.symm
      have length := List.length_erase_of_mem isMember
      rw [rest, List.length_nil] at length
      obtain ⟨only, isOnly⟩ := List.length_eq_one_iff.mp
        (show list.length = 1 by have := List.length_pos_of_mem isMember; omega)
      rw [isOnly, List.mem_singleton] at isMember
      rw [isOnly, isMember]
    · intro only
      cases only isFirst
      rw [List.length_singleton] at within
      exact ⟨_, deletes, holds.removesOne_only (by omega) emptied⟩
  · obtain ⟨dh', deletes, removed⟩ := holds.deleteLater isMember isFirst
    exact iff_of_true ⟨dh', deletes, removed.removesOne positive⟩ fun same =>
      absurd same isFirst

end Removal

theorem exists_twoNodes {permitted : Ddlh → DdlOp → Prop}
    (permits : ∀ dh di, permitted dh (.insert [7] 1 1 ⟨some di, true⟩)) :
    ∃ dh afterFirst afterLast,
      DdlRun permitted [.insert [7] 1 1 ⟨some 1, true⟩, .insert [7] 1 1 ⟨some 2, true⟩] dh ∧
      dh.Forward [1, 2] ∧
      ddlDelete dh (some 1) = some afterFirst ∧ afterFirst.entr = none ∧
      ddlDelete dh (some 2) = some afterLast ∧ afterLast.entr = some 1 ∧
        afterLast.curr = none ∧ afterLast.nodes 3 = none := by
  have first := @DdlRun.step permitted _ _ (.insert [7] 1 1 ⟨some 1, true⟩) _ .init
    ⟨Nat.le_refl 1, Or.inr rfl, by rintro di ⟨⟩; decide⟩ (permits _ _) rfl
  have second := @DdlRun.step permitted _ _ (.insert [7] 1 1 ⟨some 2, true⟩) _ first
    ⟨Nat.le_refl 1, Or.inr rfl, by rintro di ⟨⟩; decide⟩ (permits _ _) rfl
  exact ⟨_, _, _, second, ⟨rfl, _, rfl, rfl, _, rfl, rfl⟩, rfl, rfl, rfl, rfl, rfl, rfl⟩

/-- The deletion of the first of two nodes drops the other. -/
theorem ddlDelete_dropsBoth :
    ∃ history dh list di, DdlRun (fun _ op => op.IsInsert) history dh ∧ dh.Forward list ∧
      di ∈ list ∧ ¬ ∃ dh', ddlDelete dh (some di) = some dh' ∧ RemovesOne dh list di dh' := by
  obtain ⟨dh, dh', -, run, forward, deletes, noEntr, -⟩ :=
    @exists_twoNodes (fun _ op => op.IsInsert) fun _ _ => trivial
  refine ⟨_, dh, [1, 2], 1, run, forward, by decide, ?_⟩
  rintro ⟨removedOne, deletes', removes⟩
  cases deletes.symm.trans deletes'
  cases noEntr.symm.trans removes.forward.1

/-- The last of two nodes is deleted alone. -/
theorem ddlDelete_removesOne_last :
    ∃ history dh dh', DdlRun (fun _ op => op.IsInsert) history dh ∧
      ddlDelete dh (some 2) = some dh' ∧ RemovesOne dh [1, 2] 2 dh' := by
  obtain ⟨dh, -, -, run, forward, -⟩ :=
    @exists_twoNodes (fun _ op => op.IsInsert) fun _ _ => trivial
  obtain ⟨dh', deletes, removes⟩ :=
    (ddlDelete_removesOne_iff run forward (by decide : 2 ∈ [1, 2])).mpr (by
      rw [forward.1]
      rintro ⟨⟩)
  exact ⟨_, dh, dh', run, deletes, removes⟩

/-! ## The cursor -/

/-- Where the cursor goes from the node `pos`. -/
def neighbour (ctr : Ddlctr) (before : List Nat) (pos : Nat) (after : List Nat) : Nat :=
  match ctr with
  | .up => before.getLastD pos
  | .dn => after.headD pos
  | .other => pos

def CursorPlaced (dh : Ddlh) : Prop :=
  ∃ list, dh.Forward list ∧ (dh.pos = none ↔ list = []) ∧
    ∀ pos, dh.pos = some pos → pos ∈ list

/-- The cursor moves to a neighbour, stays at an end of the list, and nothing happens
to an empty list. -/
def ControlRight (dh : Ddlh) (ctr : Ddlctr) : Prop :=
  ∃ list, dh.Forward list ∧
    ((list = [] ∧ ddlControl dh ctr = some (dh, none)) ∨
      ∃ before pos after, list = before ++ pos :: after ∧ dh.pos = some pos ∧
        ddlControl dh ctr =
          some ({ dh with pos := some (neighbour ctr before pos after) },
            some (neighbour ctr before pos after)))

/-- The cursor is always in its place, and it can be moved, but not upwards in an empty
list. -/
theorem ddlRun_controlRight_iff {history : List DdlOp} {dh : Ddlh} {ctr : Ddlctr}
    (run : DdlRun (fun _ _ => True) history dh) (isCtr : ctr = .up ∨ ctr = .dn) :
    CursorPlaced dh ∧ (ControlRight dh ctr ↔ ¬ (ctr = .up ∧ dh.entr = none)) := by
  obtain ⟨list, holds⟩ := run.holds
  rcases eq_or_ne list [] with rfl | someNodes
  · obtain ⟨-, noPos⟩ := holds.pos.resolve_right (by simp)
    have noEntr : dh.entr = none := holds.entr_none.mpr rfl
    refine ⟨⟨[], holds.forward, iff_of_true noPos rfl, by simp [noPos]⟩, ?_⟩
    rcases isCtr with rfl | rfl
    · -- `pos` is followed before it is compared with NULL
      have faults : ddlControl dh .up = none := by
        rw [ddlControl, noPos]
        rfl
      refine iff_of_false ?_ (not_not.mpr ⟨rfl, noEntr⟩)
      rintro ⟨list, -, ⟨-, controls⟩ | ⟨before, pos, after, -, isPos, -⟩⟩
      · cases faults.symm.trans controls
      · cases noPos.symm.trans isPos
    · refine iff_of_true ⟨[], holds.forward, Or.inl ⟨rfl, ?_⟩⟩ (by simp)
      rw [ddlControl, noPos]
  · obtain ⟨before, pos, after, rfl, isPos⟩ := holds.split_pos someNodes
    have someEntr : dh.entr ≠ none := mt holds.entr_none.mp someNodes
    refine ⟨⟨_, holds.forward, iff_of_false (by simp [isPos]) someNodes, ?_⟩, ?_⟩
    · intro other isOther
      cases isPos.symm.trans isOther
      simp
    · refine iff_of_true ⟨_, holds.forward, Or.inr ⟨before, pos, after, rfl, isPos, ?_⟩⟩
        fun empty => someEntr empty.2
      rcases isCtr with rfl | rfl
      · exact holds.control_up isPos
      · exact holds.control_dn isPos

/-- `up` follows NULL in a new list. -/
theorem ddlControl_upEmpty :
    DdlRun (fun _ _ => True) [] ddlInit ∧ ddlInit.Forward [] ∧
      ddlControl ddlInit .up = none ∧ ddlControl ddlInit .dn = some (ddlInit, none) :=
  ⟨.init, rfl, rfl, rfl⟩

/-- The cursor stands at the first of two nodes. -/
theorem ddlRun_controlRight_twoNodes :
    ∃ history dh, DdlRun (fun _ _ => True) history dh ∧ dh.Forward [1, 2] ∧
      CursorPlaced dh ∧ ControlRight dh .up ∧ ControlRight dh .dn := by
  obtain ⟨dh, -, -, run, forward, -⟩ := @exists_twoNodes (fun _ _ => True) fun _ _ => trivial
  have up := ddlRun_controlRight_iff run (Or.inl rfl)
  have dn := ddlRun_controlRight_iff run (Or.inr rfl)
  have someEntr : dh.entr ≠ none := by
    rw [forward.1]
    rintro ⟨⟩
  exact ⟨_, dh, run, forward, up.1, up.2.mpr fun empty => someEntr empty.2,
    dn.2.mpr (by simp)⟩

end NtShm
