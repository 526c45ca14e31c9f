import Mathlib.Logic.Function.Basic
import Mathlib.Tactic.Ring

/-!
# The doubly linked list

`ddl.c` keeps a list of nodes with their own copies of data, and with a cursor
`pos`.  An operation has no result when it would follow NULL or a node that was
freed.
-/

namespace NtShm

/-- `ddl`; `data` has the bytes of the block that belongs to the node. -/
structure DdlNode where
  data : List UInt8
  next : Option Nat
  prev : Option Nat

/-- `ddlh`, with the nodes in memory by their addresses. -/
structure Ddlh where
  entr : Option Nat
  tail : Option Nat
  curr : Option Nat
  pos : Option Nat
  num : UInt64
  nodes : Nat → Option DdlNode

/-- What `malloc` answers in `ddl_insert`: the node, and whether there is a block
for the data. -/
structure DdlAllocs where
  node : Option Nat
  data : Bool

/-- `ddlctr`, and any other value. -/
inductive Ddlctr
  | up
  | dn
  | other
  deriving DecidableEq

namespace Ddlh

/-- `di->next = link`. -/
def setNext (dh : Ddlh) (di : Nat) (link : Option Nat) : Option Ddlh := do
  let node ← dh.nodes di
  some { dh with nodes := Function.update dh.nodes di (some { node with next := link }) }

/-- `di->prev = link`. -/
def setPrev (dh : Ddlh) (di : Nat) (link : Option Nat) : Option Ddlh := do
  let node ← dh.nodes di
  some { dh with nodes := Function.update dh.nodes di (some { node with prev := link }) }

/-- `free(di->data); free(di);`. -/
def freeNode (dh : Ddlh) (di : Nat) : Option Ddlh := do
  let _ ← dh.nodes di
  some { dh with nodes := Function.update dh.nodes di none }

def insertOnly (dh : Ddlh) (di : Nat) : Ddlh :=
  { dh with
    entr := some di
    curr := some di
    pos := some di
    tail := some di
    num := 1 }

end Ddlh

/-- `ddl_init`. -/
def ddlInit : Ddlh := ⟨none, none, none, none, 0, fun _ => none⟩

/-- `ddl_insert_first`. -/
def ddlInsertFirst (dh : Ddlh) (di : Nat) : Option Ddlh :=
  match dh.entr with
  | none => some (dh.insertOnly di)
  | some dp => do
      let dh := { dh with entr := some di }
      let dh ← dh.setNext di (some dp)
      dh.setPrev dp (some di)

/-- `ddl_insert_end`. -/
def ddlInsertEnd (dh : Ddlh) (di : Nat) : Option Ddlh :=
  match dh.entr with
  | none => some (dh.insertOnly di)
  | some _ => do
      let dp ← dh.curr
      let dh ← dh.setNext dp (some di)
      let dh := { dh with curr := some di, num := dh.num + 1 }
      let dh ← dh.setPrev di (some dp)
      some { dh with tail := some di }

/-- `ddl_insert`. -/
def ddlInsert (dh : Ddlh) (data : List UInt8) (len : Nat) (flg : Int)
    (allocs : DdlAllocs) : Option Ddlh :=
  match allocs.node with
  | none => some dh
  | some di =>
      if allocs.data then do
        -- bytes past the data are read
        if data.length < len then none
        let node : DdlNode := ⟨data.take len, none, none⟩
        let dh := { dh with nodes := Function.update dh.nodes di (some node) }
        if flg = 1 then ddlInsertEnd dh di
        else if flg = 0 then ddlInsertFirst dh di
        else some dh
      else some dh

/-- `ddl_control`: the list and the node that is returned. -/
def ddlControl (dh : Ddlh) : Ddlctr → Option (Ddlh × Option Nat)
  | .up => do
      -- `pos` is not compared with NULL
      let pos ← dh.pos
      let node ← dh.nodes pos
      match node.prev with
      | some prev => some ({ dh with pos := some prev }, some prev)
      | none => some (dh, some pos)
  | .dn =>
      match dh.pos with
      | none => some (dh, none)
      | some pos => do
          let node ← dh.nodes pos
          match node.next with
          | some next => some ({ dh with pos := some next }, some next)
          | none => some (dh, some pos)
  | .other => some (dh, none)

namespace Ddlh

/-- What `ddl_delete` does with the node `dp` after the node `tp`. -/
def deleteNode (dh : Ddlh) (tp dp : Nat) (node : DdlNode) : Option Ddlh := do
  let dh := { dh with num := dh.num - 1 }
  let dh := if some dp = dh.curr then { dh with curr := node.next } else dh
  let dh := if some dp = dh.pos then { dh with pos := some tp } else dh
  let dh ← dh.setNext tp node.next
  let dh ←
    match node.next with
    | some next => dh.setPrev next (some tp)
    | none => some { dh with tail := some tp }
  dh.freeNode dp

/-- The walk of `ddl_delete` after the first node. -/
def deleteAfter (dh : Ddlh) (di : Nat) : Nat → Nat → Option Nat → Option Ddlh
  | _, _, none => some dh
  | 0, _, some _ => none
  | fuel + 1, tp, some dp => do
      let node ← dh.nodes dp
      if dp = di then dh.deleteNode tp dp node
      else dh.deleteAfter di fuel dp node.next

end Ddlh

/-- `ddl_delete`.  There are no more nodes than addresses. -/
def ddlDelete (dh : Ddlh) (di : Option Nat) : Option Ddlh :=
  match dh.entr, di with
  | some tp, some di =>
      if tp = di then do
        let dh ← dh.freeNode di
        some { dh with curr := none, pos := none, entr := none, tail := none, num := 0 }
      else do
        let node ← dh.nodes tp
        dh.deleteAfter di (2 ^ 64) tp node.next
  | _, _ => some dh

end NtShm
