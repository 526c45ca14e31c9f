import NtShm.DdlLists

/-!
# Deletions from a doubly linked list, and its cursor

A deletion takes any node but the first out of the list, and the deletion of the
first node drops the list.  The cursor moves to a neighbour.
-/

namespace NtShm

/-- Only the node `di` is gone. -/
structure DdlRemoved (dh : Ddlh) (list : List Nat) (di : Nat) (dh' : Ddlh) : Prop where
  holds : DdlHolds dh' (list.erase di)
  curr : dh.curr = list.getLast? → dh.curr ≠ some di → dh'.curr = (list.erase di).getLast?
  lost : dh.curr = list.getLast? → dh.curr = some di → dh'.curr = none
  num : dh'.num = dh.num - 1
  pos : dh.pos ≠ some di → dh'.pos = dh.pos
  freed : dh'.nodes di = none
  data : ∀ other, other ≠ di → dh'.dataOf other = dh.dataOf other

section Deletions

variable {dh : Ddlh} {list before after : List Nat} {di dp tp : Nat} {node : DdlNode}

/-- The header when the node `dp` is found behind `tp`. -/
def Ddlh.deleteHeader (dh : Ddlh) (tp dp : Nat) (next : Option Nat) : Ddlh :=
  { dh with
    num := dh.num - 1
    curr := if some dp = dh.curr then next else dh.curr
    pos := if some dp = dh.pos then some tp else dh.pos }

theorem Ddlh.deleteNode_eq (dh : Ddlh) (tp dp : Nat) (node : DdlNode) :
    dh.deleteNode tp dp node = (do
      let dh ← (dh.deleteHeader tp dp node.next).setNext tp node.next
      let dh ←
        match node.next with
        | some next => dh.setPrev next (some tp)
        | none => some { dh with tail := some tp }
      dh.freeNode dp) := by
  by_cases isCurr : some dp = dh.curr
  · by_cases isPos : some dp = dh.pos
    · cases isNext : node.next <;>
        simp only [deleteNode, deleteHeader, if_pos isCurr, if_pos isPos, isNext]
    · cases isNext : node.next <;>
        simp only [deleteNode, deleteHeader, if_pos isCurr, if_neg isPos, isNext]
  · by_cases isPos : some dp = dh.pos
    · cases isNext : node.next <;>
        simp only [deleteNode, deleteHeader, if_neg isCurr, if_pos isPos, isNext]
    · cases isNext : node.next <;>
        simp only [deleteNode, deleteHeader, if_neg isCurr, if_neg isPos, isNext]

/-- The walk stops at the node before the one that it looks for. -/
theorem Ddlh.deleteAfter_eq {mid : List Nat} {link : Option Nat} {fuel : Nat}
    (along : Path DdlNode.next dh.nodes link (mid ++ di :: after) none)
    (isNode : dh.nodes di = some node) (notMid : di ∉ mid) (enough : mid.length < fuel)
    (tp : Nat) :
    dh.deleteAfter di fuel tp link = dh.deleteNode (mid.getLastD tp) di node := by
  induction mid generalizing link fuel tp with
  | nil =>
      obtain ⟨rfl, node', isNode', -⟩ := along
      cases isNode.symm.trans isNode'
      cases fuel with
      | zero => cases enough
      | succ fuel =>
          rw [deleteAfter]
          simp [isNode]
  | cons first mid ih =>
      obtain ⟨rfl, other, isOther, rest⟩ := along
      rw [List.mem_cons, not_or] at notMid
      cases fuel with
      | zero => cases enough
      | succ fuel =>
          have differs : first ≠ di := fun same => notMid.1 same.symm
          rw [List.length_cons, Nat.add_lt_add_iff_right] at enough
          rw [deleteAfter]
          simp only [isOther, Option.bind_eq_bind, Option.bind_some, if_neg differs,
            List.getLastD_cons]
          exact ih rest notMid.2 enough first

theorem DdlShape.deleteNode (shape : DdlShape dh (before ++ tp :: di :: after))
    (isNode : dh.nodes di = some node) :
    ∃ nodes, dh.deleteNode tp di node = some { dh.deleteHeader tp di after.head? with
        tail := if after = [] then some tp else dh.tail
        nodes := nodes } ∧
      Path DdlNode.next nodes dh.entr (before ++ tp :: after) none ∧
      Path DdlNode.prev nodes (if after = [] then some tp else dh.tail)
        (before ++ tp :: after).reverse none ∧
      nodes di = none ∧
      ∀ other, other ≠ di → (nodes other).map DdlNode.data = dh.dataOf other := by
  have once := shape.nodup
  have isNext : node.next = after.head? := by
    have along := shape.forward
    rw [Ddlh.Forward, List.append_cons] at along
    exact along.link_eq isNode
  have gone : di ∉ before ++ tp :: after := by
    have whole := once
    rw [List.append_cons, List.nodup_middle, List.nodup_cons] at whole
    simpa using whole.1
  have goneBack : di ∉ (before ++ tp :: after).reverse := by rwa [List.mem_reverse]
  have differs : di ≠ tp := fun same => gone (same ▸ by simp)
  obtain ⟨previous, isPrevious⟩ :=
    shape.exists_node (show tp ∈ before ++ tp :: di :: after by simp)
  let bypassed := Function.update dh.nodes tp (some { previous with next := after.head? })
  have isNode' : bypassed di = some node := (Function.update_of_ne differs _ _).trans isNode
  have bypass : Path DdlNode.next bypassed dh.entr (before ++ tp :: after) none :=
    shape.forward.bypass once isNode isNext.symm
  have sameBack : Path DdlNode.prev bypassed dh.tail
      (before ++ tp :: di :: after).reverse none :=
    shape.backward.update_same isPrevious rfl
  have sameData := map_data_update isPrevious { previous with next := after.head? } rfl
  have onceBack := List.nodup_reverse.mpr once
  let header : Ddlh := { dh.deleteHeader tp di after.head? with nodes := bypassed }
  have links : (dh.deleteHeader tp di after.head?).setNext tp after.head? = some header :=
    (dh.deleteHeader tp di after.head?).setNext_eq isPrevious after.head?
  rw [Ddlh.deleteNode_eq, isNext, links, Option.bind_eq_bind, Option.bind_some]
  cases after with
  | nil =>
      refine ⟨Function.update bypassed di none,
        Ddlh.freeNode_eq { header with tail := some tp } isNode',
        bypass.update gone none, ?_, Function.update_self .., ?_⟩
      · simp only [List.reverse_append, List.reverse_cons, List.reverse_nil, List.nil_append,
          List.cons_append] at sameBack goneBack ⊢
        obtain ⟨-, node', isNode'', rest⟩ := sameBack
        rw [if_pos trivial, ← rest.1]
        exact rest.update goneBack none
      · intro other notDi
        rw [Function.update_of_ne notDi]
        exact sameData other
  | cons next after =>
      have nextIn : next ∈ before ++ tp :: next :: after := by simp
      have differs' : next ≠ di := fun same => gone (same ▸ nextIn)
      obtain ⟨following, isFollowing⟩ : ∃ node, bypassed next = some node :=
        bypass.exists_node nextIn
      let linked := Function.update bypassed next (some { following with prev := some tp })
      have isNode'' : linked di = some node :=
        (Function.update_of_ne differs'.symm _ _).trans isNode'
      have linksBack : header.setPrev next (some tp) = some { header with nodes := linked } :=
        header.setPrev_eq isFollowing (some tp)
      refine ⟨Function.update linked di none, ?_, ?_, ?_, Function.update_self .., ?_⟩
      · simp only [List.head?_cons, linksBack, Option.bind_some]
        exact Ddlh.freeNode_eq { header with nodes := linked } isNode''
      · have sameForward : Path DdlNode.next linked dh.entr (before ++ tp :: next :: after) none :=
          bypass.update_same isFollowing rfl
        exact sameForward.update gone none
      · have turned : (before ++ tp :: di :: next :: after).reverse =
            after.reverse ++ next :: di :: tp :: before.reverse := by simp
        have turned' : (before ++ tp :: next :: after).reverse =
            after.reverse ++ next :: tp :: before.reverse := by simp
        rw [turned] at sameBack onceBack
        rw [turned'] at goneBack ⊢
        have isPrev : node.prev = some tp := by
          have along := sameBack
          rw [List.append_cons] at along
          exact along.link_eq isNode'
        have bypassBack : Path DdlNode.prev linked dh.tail
            (after.reverse ++ next :: tp :: before.reverse) none :=
          sameBack.bypass onceBack isNode' isPrev.symm
        rw [if_neg (List.cons_ne_nil next after)]
        exact bypassBack.update goneBack none
      · intro other notDi
        rw [Function.update_of_ne notDi]
        exact (map_data_update isFollowing { following with prev := some tp } rfl other).trans
          (sameData other)

theorem DdlShape.ddlDelete_later (shape : DdlShape dh list) (isMember : di ∈ list)
    (notFirst : dh.entr ≠ some di) :
    ∃ before tp after node, list = before ++ tp :: di :: after ∧ dh.nodes di = some node ∧
      ddlDelete dh (some di) = dh.deleteNode tp di node := by
  obtain ⟨node, isNode⟩ := shape.exists_node isMember
  obtain ⟨first, rest, rfl⟩ := List.exists_cons_of_ne_nil (List.ne_nil_of_mem isMember)
  have isEntr : dh.entr = some first := shape.entr_eq
  have differs : di ≠ first := fun same => notFirst (same ▸ isEntr)
  obtain ⟨mid, after, rfl⟩ :=
    List.append_of_mem ((List.mem_cons.mp isMember).resolve_left differs)
  obtain ⟨before, tp, split⟩ := (List.eq_nil_or_concat' (first :: mid)).resolve_left
    (List.cons_ne_nil first mid)
  refine ⟨before, tp, after, node, ?_, isNode, ?_⟩
  · rw [← List.cons_append, split, List.append_assoc]
    rfl
  · have isLast : mid.getLastD first = tp := by
      have ends := congrArg List.getLast? split
      rw [List.getLast?_cons, List.getLast?_concat, Option.some.injEq] at ends
      rw [List.getLastD_eq_getLast?, ends]
    have notMid : di ∉ mid := by
      have once := (List.nodup_cons.mp shape.nodup).2
      rw [List.nodup_middle, List.nodup_cons] at once
      exact fun earlier => once.1 (List.mem_append_left _ earlier)
    have enough : mid.length < 2 ^ 64 := by
      have bound := shape.length_lt
      simp only [List.length_cons, List.length_append] at bound
      omega
    obtain ⟨-, firstNode, isFirst, along⟩ := shape.forward
    simp only [ddlDelete, isEntr, if_neg differs.symm, isFirst, Option.bind_eq_bind,
      Option.bind_some]
    rw [Ddlh.deleteAfter_eq along isNode notMid enough, isLast]

theorem erase_without (once : (before ++ tp :: di :: after).Nodup) :
    (before ++ tp :: di :: after).erase di = before ++ tp :: after := by
  rw [List.append_cons, List.nodup_middle, List.nodup_cons] at once
  have notEarlier : di ∉ before ++ [tp] := fun earlier =>
    once.1 (List.mem_append_left _ earlier)
  rw [List.append_cons, List.erase_append_right _ notEarlier, List.erase_cons_head,
    List.append_assoc]
  rfl

theorem getLast?_without (before : List Nat) (tp di : Nat) (later : after ≠ []) :
    (before ++ tp :: di :: after).getLast? = (before ++ tp :: after).getLast? := by
  obtain ⟨next, after, rfl⟩ := List.exists_cons_of_ne_nil later
  simp [List.getLast?_append, List.getLast?_cons_cons]

theorem DdlHolds.deleteLater (holds : DdlHolds dh list) (isMember : di ∈ list)
    (notFirst : dh.entr ≠ some di) :
    ∃ dh', ddlDelete dh (some di) = some dh' ∧ DdlRemoved dh list di dh' := by
  obtain ⟨before, tp, after, node, rfl, isNode, walk⟩ :=
    holds.ddlDelete_later isMember notFirst
  obtain ⟨nodes, deletes, forward, backward, freed, data⟩ := holds.deleteNode isNode
  have erased := erase_without holds.nodup
  have kept : ∀ other ∈ before ++ tp :: di :: after, other ≠ di →
      other ∈ before ++ tp :: after := fun other isOther notDi =>
    erased ▸ (List.mem_erase_of_ne notDi).mpr isOther
  have currKept : dh.curr = (before ++ tp :: di :: after).getLast? → dh.curr ≠ some di →
      dh.curr = (before ++ tp :: after).getLast? := by
    intro isCurr notDi
    have later : after ≠ [] := by
      rintro rfl
      exact notDi (isCurr.trans (by simp))
    rw [isCurr, getLast?_without before tp di later]
  -- when `curr` was the last node, none comes after it
  have isLast : dh.curr = (before ++ tp :: di :: after).getLast? → dh.curr = some di →
      after = [] := by
    intro isCurr isDi
    by_contra later
    rw [getLast?_without before tp di later, isDi] at isCurr
    have inRest := List.mem_of_getLast? isCurr.symm
    rw [← erased] at inRest
    exact holds.nodup.not_mem_erase inRest
  refine ⟨_, walk.trans deletes, ?_⟩
  constructor
  case holds =>
    rw [erased]
    refine ⟨⟨forward, backward, ?_, ?_⟩, ?_, ?_⟩
    · rw [← erased]
      exact holds.nodup.erase di
    · intro other isOther
      rw [← erased] at isOther
      exact holds.addresses other (List.mem_of_mem_erase isOther)
    · change (if some di = dh.curr then after.head? else dh.curr) = none ∨
        (if some di = dh.curr then after.head? else dh.curr) = _
      by_cases isDi : some di = dh.curr
      · rcases holds.curr with noCurr | isCurr
        · cases isDi.trans noCurr
        · rw [if_pos isDi, isLast isCurr isDi.symm]
          exact Or.inl rfl
      · rw [if_neg isDi]
        exact holds.curr.imp_right fun isCurr => currKept isCurr (Ne.symm isDi)
    · right
      change ∃ other ∈ before ++ tp :: after,
        (if some di = dh.pos then some tp else dh.pos) = some other
      rcases holds.pos with ⟨empty, -⟩ | ⟨pos, posIn, isPos⟩
      · cases List.append_eq_nil_iff.mp empty |>.2
      · by_cases isDi : some di = dh.pos
        · exact ⟨tp, by simp, if_pos isDi⟩
        · rw [if_neg isDi]
          exact ⟨pos, kept pos posIn fun same => isDi (same ▸ isPos.symm), isPos⟩
  case curr =>
    intro isCurr notDi
    rw [erased]
    exact (if_neg (Ne.symm notDi)).trans (currKept isCurr notDi)
  case lost =>
    intro isCurr isDi
    refine (if_pos isDi.symm).trans ?_
    rw [isLast isCurr isDi]
    rfl
  case num => rfl
  case pos =>
    intro notPos
    exact if_neg fun same => notPos same.symm
  case freed => exact freed
  case data => exact data

theorem DdlHolds.deleteFirst (holds : DdlHolds dh list) (isEntr : dh.entr = some di) :
    ∃ nodes, ddlDelete dh (some di) = some { ddlInit with nodes := nodes } ∧
      DdlHolds { ddlInit with nodes := nodes } [] ∧
      nodes = Function.update dh.nodes di none := by
  have isMember : di ∈ list := by
    have isHead := holds.entr_eq
    rw [isEntr] at isHead
    exact List.mem_of_head? isHead.symm
  obtain ⟨node, isNode⟩ := holds.exists_node isMember
  refine ⟨_, ?_, ⟨⟨rfl, rfl, List.nodup_nil, by simp⟩, Or.inl rfl, Or.inl ⟨rfl, rfl⟩⟩, rfl⟩
  simp only [ddlDelete, isEntr, if_true, Ddlh.freeNode_eq dh isNode, Option.bind_eq_bind,
    Option.bind_some]
  rfl

end Deletions

/-! ## The cursor -/

section Cursor

variable {dh : Ddlh} {before after : List Nat} {pos : Nat}

theorem DdlShape.control_up (shape : DdlShape dh (before ++ pos :: after))
    (isPos : dh.pos = some pos) :
    ddlControl dh .up =
      some ({ dh with pos := some (before.getLastD pos) }, some (before.getLastD pos)) := by
  obtain ⟨node, isNode⟩ := shape.exists_node (show pos ∈ before ++ pos :: after by simp)
  have isPrev : node.prev = before.getLast? := by
    have turned : (before ++ pos :: after).reverse =
        after.reverse ++ pos :: before.reverse := by simp
    have along := shape.backward
    rw [Ddlh.Backward, turned] at along
    rw [along.link_eq isNode, List.head?_reverse]
  simp only [ddlControl, isPos, isNode, isPrev, Option.bind_eq_bind, Option.bind_some,
    List.getLastD_eq_getLast?]
  cases before.getLast? with
  | none => rw [Option.getD_none, ← isPos]
  | some previous => rfl

theorem DdlShape.control_dn (shape : DdlShape dh (before ++ pos :: after))
    (isPos : dh.pos = some pos) :
    ddlControl dh .dn =
      some ({ dh with pos := some (after.headD pos) }, some (after.headD pos)) := by
  obtain ⟨node, isNode⟩ := shape.exists_node (show pos ∈ before ++ pos :: after by simp)
  have isNext : node.next = after.head? := shape.forward.link_eq isNode
  simp only [ddlControl, isPos, isNode, isNext, Option.bind_eq_bind, Option.bind_some]
  cases after with
  | nil => rw [List.head?_nil, List.headD_nil, ← isPos]
  | cons next after => rfl

end Cursor

end NtShm
