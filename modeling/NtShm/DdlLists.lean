import NtShm.Ddl
import NtShm.Chains
import Mathlib.Data.List.Perm.Subperm

/-!
# The shape of a doubly linked list, and insertions

A list is read forwards from `entr` and backwards from `tail`.  An insertion
puts its node at one end of it.
-/

namespace NtShm

/-- There are fewer nodes than addresses. -/
theorem length_lt_of_addresses {list : List Nat} {bound : Nat} (nodup : list.Nodup)
    (addresses : ∀ di ∈ list, 0 < di ∧ di < bound) (some : 0 < bound) :
    list.length < bound := by
  have apart : (0 :: list).Nodup :=
    List.nodup_cons.mpr ⟨fun isMember => Nat.lt_irrefl 0 (addresses 0 isMember).1, nodup⟩
  have within : 0 :: list ⊆ List.range bound := by
    intro di isMember
    rw [List.mem_range]
    rcases List.mem_cons.mp isMember with rfl | isMember
    · exact some
    · exact (addresses di isMember).2
  have count := (apart.subperm within).length_le
  rw [List.length_range, List.length_cons] at count
  exact count

namespace Ddlh

/-- The nodes from `entr` along `next`. -/
def Forward (dh : Ddlh) (list : List Nat) : Prop :=
  Path DdlNode.next dh.nodes dh.entr list none

/-- The nodes from `tail` along `prev`. -/
def Backward (dh : Ddlh) (list : List Nat) : Prop :=
  Path DdlNode.prev dh.nodes dh.tail list none

def dataOf (dh : Ddlh) (di : Nat) : Option (List UInt8) := (dh.nodes di).map DdlNode.data

end Ddlh

structure DdlShape (dh : Ddlh) (list : List Nat) : Prop where
  forward : dh.Forward list
  backward : dh.Backward list.reverse
  nodup : list.Nodup
  addresses : ∀ di ∈ list, 0 < di ∧ di < 2 ^ 64

/-- `curr` is the last node, if it was not lost, and the cursor is in the list. -/
structure DdlHolds (dh : Ddlh) (list : List Nat) : Prop extends DdlShape dh list where
  curr : dh.curr = none ∨ dh.curr = list.getLast?
  pos : (list = [] ∧ dh.pos = none) ∨ ∃ di ∈ list, dh.pos = some di

section Shapes

variable {dh : Ddlh} {list : List Nat} {di : Nat}

theorem DdlShape.entr_eq (shape : DdlShape dh list) : dh.entr = list.head? :=
  shape.forward.head_eq

theorem DdlShape.tail_eq (shape : DdlShape dh list) : dh.tail = list.getLast? := by
  rw [shape.backward.head_eq, List.head?_reverse]

theorem DdlShape.entr_none (shape : DdlShape dh list) : dh.entr = none ↔ list = [] := by
  rw [shape.entr_eq, List.head?_eq_none_iff]

theorem DdlShape.length_lt (shape : DdlShape dh list) : list.length < 2 ^ 64 :=
  length_lt_of_addresses shape.nodup shape.addresses (by decide)

theorem DdlShape.exists_node (shape : DdlShape dh list) (isMember : di ∈ list) :
    ∃ node, dh.nodes di = some node :=
  shape.forward.exists_node isMember

theorem Ddlh.setNext_eq (dh : Ddlh) {node : DdlNode} (isNode : dh.nodes di = some node)
    (link : Option Nat) :
    dh.setNext di link = some { dh with
      nodes := Function.update dh.nodes di (some { node with next := link }) } := by
  rw [setNext, isNode]
  rfl

theorem Ddlh.setPrev_eq (dh : Ddlh) {node : DdlNode} (isNode : dh.nodes di = some node)
    (link : Option Nat) :
    dh.setPrev di link = some { dh with
      nodes := Function.update dh.nodes di (some { node with prev := link }) } := by
  rw [setPrev, isNode]
  rfl

theorem Ddlh.freeNode_eq (dh : Ddlh) {node : DdlNode} (isNode : dh.nodes di = some node) :
    dh.freeNode di = some { dh with nodes := Function.update dh.nodes di none } := by
  rw [freeNode, isNode]
  rfl

theorem map_data_update {nodes : Nat → Option DdlNode} {node : DdlNode}
    (isNode : nodes di = some node) (node' : DdlNode) (same : node'.data = node.data)
    (other : Nat) :
    (Function.update nodes di (some node') other).map DdlNode.data =
      (nodes other).map DdlNode.data := by
  by_cases here : other = di
  · rw [here, Function.update_self, isNode]
    exact congrArg some same
  · rw [Function.update_of_ne here]

end Shapes

/-! ## Insertions -/

def insertedAt (flg : Int) (list : List Nat) (di : Nat) : List Nat :=
  if flg = 1 then list ++ [di] else di :: list

/-- The node `di` with its data is at one end of the list. -/
structure DdlInserted (dh : Ddlh) (list : List Nat) (flg : Int) (di : Nat)
    (data : List UInt8) (dh' : Ddlh) : Prop where
  holds : DdlHolds dh' (insertedAt flg list di)
  curr : dh.curr = list.getLast? → dh'.curr = (insertedAt flg list di).getLast?
  num : dh'.num = if list = [] then 1 else if flg = 1 then dh.num + 1 else dh.num
  data : dh'.dataOf = Function.update dh.dataOf di (some data)

section Insertions

variable {dh : Ddlh} {list before : List Nat} {di dp : Nat} {node new : DdlNode}

theorem DdlShape.insertFirst (shape : DdlShape dh (dp :: list)) (fresh : di ∉ dp :: list)
    (inRange : 0 < di ∧ di < 2 ^ 64) (isNew : dh.nodes di = some new)
    (noPrev : new.prev = none) :
    ∃ nodes, ddlInsertFirst dh di = some { dh with entr := some di, nodes := nodes } ∧
      DdlShape { dh with entr := some di, nodes := nodes } (di :: dp :: list) ∧
      ∀ other, (nodes other).map DdlNode.data = dh.dataOf other := by
  obtain ⟨first, isFirst⟩ := shape.exists_node List.mem_cons_self
  have differs : dp ≠ di := fun same => fresh (same ▸ List.mem_cons_self)
  have isEntr : dh.entr = some dp := shape.entr_eq
  let linked := Function.update dh.nodes di (some { new with next := some dp })
  have isFirst' : linked dp = some first :=
    (Function.update_of_ne differs _ _).trans isFirst
  let nodes := Function.update linked dp (some { first with prev := some di })
  have isNew' : nodes di = some { new with next := some dp } :=
    (Function.update_of_ne differs.symm _ _).trans (Function.update_self ..)
  refine ⟨nodes, ?_, ?_, ?_⟩
  · rw [ddlInsertFirst, isEntr]
    have links := Ddlh.setNext_eq { dh with entr := some di } isNew (some dp)
    simp only [links, Option.bind_eq_bind, Option.bind_some]
    exact Ddlh.setPrev_eq { dh with entr := some di, nodes := linked } isFirst' _
  · constructor
    case forward =>
      refine ⟨rfl, _, isNew', ?_⟩
      rw [← isEntr]
      exact (shape.forward.update fresh _).update_same isFirst' rfl
    case backward =>
      have outside : di ∉ list.reverse ++ [dp] := by
        rwa [← List.reverse_cons, List.mem_reverse]
      have once : dp ∉ list.reverse := by
        rw [List.mem_reverse]
        exact (List.nodup_cons.mp shape.nodup).1
      have along := shape.backward
      rw [List.reverse_cons] at along
      have relinked : Path DdlNode.prev nodes dh.tail (list.reverse ++ [dp]) (some di) :=
        (along.update outside _).relink once rfl
      rw [List.reverse_cons, List.reverse_cons]
      exact path_append.mpr ⟨some di, relinked, rfl, _, isNew', noPrev⟩
    case nodup => exact List.nodup_cons.mpr ⟨fresh, shape.nodup⟩
    case addresses => exact List.forall_mem_cons.mpr ⟨inRange, shape.addresses⟩
  · intro other
    exact (map_data_update isFirst' { first with prev := some di } rfl other).trans
      (map_data_update isNew { new with next := some dp } rfl other)

theorem DdlShape.insertEnd (shape : DdlShape dh (before ++ [dp])) (isCurr : dh.curr = some dp)
    (fresh : di ∉ before ++ [dp]) (inRange : 0 < di ∧ di < 2 ^ 64)
    (isNew : dh.nodes di = some new) (noNext : new.next = none) :
    ∃ nodes, ddlInsertEnd dh di = some { dh with
        tail := some di, curr := some di, num := dh.num + 1, nodes := nodes } ∧
      DdlShape { dh with tail := some di, curr := some di, num := dh.num + 1, nodes := nodes }
        (before ++ [dp] ++ [di]) ∧
      ∀ other, (nodes other).map DdlNode.data = dh.dataOf other := by
  have isMember : dp ∈ before ++ [dp] := by simp
  obtain ⟨last, isLast⟩ := shape.exists_node isMember
  have differs : di ≠ dp := fun same => fresh (same ▸ isMember)
  have isTail : dh.tail = some dp := by rw [shape.tail_eq, List.getLast?_concat]
  obtain ⟨entr, isEntr⟩ : ∃ entr, dh.entr = some entr := by
    rw [← Option.ne_none_iff_exists', Ne, shape.entr_none]
    simp
  let linked := Function.update dh.nodes dp (some { last with next := some di })
  have isNew' : linked di = some new :=
    (Function.update_of_ne differs _ _).trans isNew
  let nodes := Function.update linked di (some { new with prev := some dp })
  have isNew'' : nodes di = some { new with prev := some dp } := Function.update_self ..
  refine ⟨nodes, ?_, ?_, ?_⟩
  · rw [ddlInsertEnd, isEntr]
    have links := Ddlh.setPrev_eq { dh with
      curr := some di, num := dh.num + 1, nodes := linked } isNew' (some dp)
    simp only [isCurr, Option.bind_eq_bind, Option.bind_some, dh.setNext_eq isLast]
    simp only [linked] at links
    rw [links, ← isEntr]
    rfl
  · constructor
    case forward =>
      have once := List.nodup_append.mp shape.nodup
      have notBefore : dp ∉ before := fun earlier =>
        once.2.2 dp earlier dp (List.mem_singleton_self _) rfl
      have relinked : Path DdlNode.next nodes dh.entr (before ++ [dp]) (some di) :=
        (shape.forward.relink notBefore rfl).update fresh _
      exact path_append.mpr ⟨some di, relinked, rfl, _, isNew'', noNext⟩
    case backward =>
      rw [List.reverse_append]
      refine ⟨rfl, _, isNew'', ?_⟩
      change Path DdlNode.prev nodes (some dp) _ none
      rw [← isTail]
      have outside : di ∉ (before ++ [dp]).reverse := by rwa [List.mem_reverse]
      have linkedBack : Path DdlNode.prev linked dh.tail (before ++ [dp]).reverse none :=
        shape.backward.update_same isLast rfl
      exact linkedBack.update outside _
    case nodup =>
      rw [List.nodup_append]
      refine ⟨shape.nodup, List.nodup_singleton _, ?_⟩
      rintro other isOther last isLast rfl
      exact fresh (List.mem_singleton.mp isLast ▸ isOther)
    case addresses =>
      intro other isOther
      rcases List.mem_append.mp isOther with isOther | isOther
      · exact shape.addresses other isOther
      · exact List.mem_singleton.mp isOther ▸ inRange
  · intro other
    exact (map_data_update isNew' { new with prev := some dp } rfl other).trans
      (map_data_update isLast { last with next := some di } rfl other)

def Ddlh.withNode (dh : Ddlh) (di : Nat) (data : List UInt8) : Ddlh :=
  { dh with nodes := Function.update dh.nodes di (some ⟨data, none, none⟩) }

theorem Ddlh.withNode_dataOf (data : List UInt8) :
    (dh.withNode di data).dataOf = Function.update dh.dataOf di (some data) := by
  funext other
  by_cases here : other = di
  · simp [dataOf, withNode, here]
  · simp [dataOf, withNode, here]

theorem ddlInsert_eq {data : List UInt8} {len : Nat} (enough : len ≤ data.length)
    (flg : Int) :
    ddlInsert dh data len flg ⟨some di, true⟩ =
      if flg = 1 then ddlInsertEnd (dh.withNode di (data.take len)) di
      else if flg = 0 then ddlInsertFirst (dh.withNode di (data.take len)) di
      else some (dh.withNode di (data.take len)) := by
  have within : ¬ data.length < len := Nat.not_lt.mpr enough
  simp only [ddlInsert, if_neg within, if_true]
  rfl

theorem ddlInsert_failed {allocs : DdlAllocs} (failed : allocs.node = none ∨ allocs.data = false)
    (data : List UInt8) (len : Nat) (flg : Int) :
    ddlInsert dh data len flg allocs = some dh := by
  obtain ⟨node, hasData⟩ := allocs
  cases node with
  | none => rfl
  | some di =>
      rcases failed with noNode | rfl
      · cases noNode
      · rfl

theorem DdlShape.withNode (shape : DdlShape dh list) (free : dh.nodes di = none)
    (data : List UInt8) : di ∉ list ∧ DdlShape (dh.withNode di data) list := by
  have fresh : di ∉ list := by
    intro isMember
    obtain ⟨node, isNode⟩ := shape.exists_node isMember
    cases free.symm.trans isNode
  have fresh' : di ∉ list.reverse := by rwa [List.mem_reverse]
  exact ⟨fresh, shape.forward.update fresh _, shape.backward.update fresh' _,
    shape.nodup, shape.addresses⟩

theorem ddlInserted_only (inRange : 0 < di ∧ di < 2 ^ 64) (data : List UInt8) (flg : Int) :
    DdlInserted dh [] flg di data ((dh.withNode di data).insertOnly di) := by
  have isNode : (dh.withNode di data).nodes di = some ⟨data, none, none⟩ :=
    Function.update_self ..
  have only : insertedAt flg [] di = [di] := by
    rw [insertedAt]
    split_ifs <;> rfl
  have shape : DdlShape ((dh.withNode di data).insertOnly di) [di] :=
    ⟨⟨rfl, _, isNode, rfl⟩, ⟨rfl, _, isNode, rfl⟩, List.nodup_singleton di,
      by simpa using inRange⟩
  constructor
  case holds =>
    rw [only]
    exact ⟨shape, Or.inr rfl, Or.inr ⟨di, List.mem_singleton_self di, rfl⟩⟩
  case curr =>
    intro _
    rw [only]
    rfl
  case num => rfl
  case data => exact Ddlh.withNode_dataOf data

theorem DdlHolds.insert (holds : DdlHolds dh list) (free : dh.nodes di = none)
    (inRange : 0 < di ∧ di < 2 ^ 64) {data : List UInt8} {len : Nat}
    (enough : len ≤ data.length) {flg : Int} (isFlg : flg = 0 ∨ flg = 1)
    (isCurr : flg = 1 → dh.curr = list.getLast?) :
    ∃ dh', ddlInsert dh data len flg ⟨some di, true⟩ = some dh' ∧
      DdlInserted dh list flg di (data.take len) dh' := by
  rw [ddlInsert_eq enough]
  obtain ⟨fresh, shape⟩ := holds.toDdlShape.withNode free (data.take len)
  have isNew : (dh.withNode di (data.take len)).nodes di =
      some ⟨data.take len, none, none⟩ := Function.update_self ..
  rcases eq_or_ne list [] with rfl | someNodes
  · have noEntr : (dh.withNode di (data.take len)).entr = none := shape.entr_none.mpr rfl
    refine ⟨_, ?_, ddlInserted_only inRange (data.take len) flg⟩
    rcases isFlg with rfl | rfl
    · rw [if_neg (by decide), if_pos rfl, ddlInsertFirst, noEntr]
    · rw [if_pos rfl, ddlInsertEnd, noEntr]
  · obtain ⟨pos, posIn, isPos⟩ := holds.pos.resolve_left fun empty => someNodes empty.1
    rcases isFlg with rfl | rfl
    · obtain ⟨dp, rest, rfl⟩ := List.exists_cons_of_ne_nil someNodes
      obtain ⟨nodes, inserts, shape', same⟩ := shape.insertFirst fresh inRange isNew rfl
      rw [if_neg (by decide), if_pos rfl]
      refine ⟨_, inserts, ?_⟩
      constructor
      case holds =>
        refine ⟨shape', ?_, Or.inr ⟨pos, List.mem_cons_of_mem _ posIn, isPos⟩⟩
        exact holds.curr
      case curr => exact id
      case num => rfl
      case data =>
        rw [← Ddlh.withNode_dataOf]
        exact funext same
    · obtain ⟨before, dp, rfl⟩ := (List.eq_nil_or_concat' list).resolve_left someNodes
      have isCurr' : (dh.withNode di (data.take len)).curr = some dp :=
        (isCurr rfl).trans List.getLast?_concat
      obtain ⟨nodes, inserts, shape', same⟩ :=
        shape.insertEnd isCurr' fresh inRange isNew rfl
      rw [if_pos rfl]
      have isLast : (before ++ [dp] ++ [di]).getLast? = some di := List.getLast?_concat ..
      refine ⟨_, inserts, ?_⟩
      constructor
      case holds =>
        exact ⟨shape', Or.inr isLast.symm,
          Or.inr ⟨pos, List.mem_append_left _ posIn, isPos⟩⟩
      case curr => exact fun _ => isLast.symm
      case num =>
        rw [if_neg someNodes]
        rfl
      case data =>
        rw [← Ddlh.withNode_dataOf]
        exact funext same

end Insertions

end NtShm
