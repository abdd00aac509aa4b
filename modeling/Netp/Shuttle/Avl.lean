import Mathlib.Data.Nat.Notation
import Mathlib.Data.Int.Notation
import Mathlib.Logic.Function.Basic
import Mathlib.Tactic

/-! # The AVL tree of the shuttle module (`shuttle/avl.c`, `shuttle/avl.h`)

Elements are pointers of a type `α`; the memory gives the fields of `struct avl_el` at each of them,
whether it is in the tree or not. A function is `none` where the source would follow a null pointer
or where a loop has not ended within `tree_size` rounds. `prev` and `next` are used only under
`WALKABLE`, which nothing defines, and are left out.
-/

namespace Netp.Shuttle
set_option autoImplicit false

/-- `struct avl_el`. -/
structure AvlEl (α : Type) where
  left : Option α
  right : Option α
  parent : Option α
  height : ℕ

/-- `struct avl_tree`, with the memory its elements are in. -/
structure AvlTree (α : Type) where
  root : Option α
  head : Option α
  tail : Option α
  treeSize : ℕ
  el : α → AvlEl α

/-- `name##_compare`: a total order by the sign of the result, as for `strcmp`. -/
structure Compare (α : Type) where
  compare : α → α → ℤ
  swap : ∀ a b, compare a b < 0 ↔ 0 < compare b a
  trans : ∀ a b c, compare a b ≤ 0 → compare b c ≤ 0 → compare a c ≤ 0

variable {α : Type}

namespace AvlTree

/-- `el ? el->height : 0`. -/
def heightOf (m : AvlTree α) : Option α → ℕ
  | none => 0
  | some a => (m.el a).height

/-- `(lheight > rheight ? lheight : rheight) + 1` at an element. -/
def newHeight (m : AvlTree α) (a : α) : ℕ :=
  let lheight := m.heightOf (m.el a).left
  let rheight := m.heightOf (m.el a).right
  (if lheight > rheight then lheight else rheight) + 1

section Set
variable [DecidableEq α]

def setLeft (m : AvlTree α) (a : α) (v : Option α) : AvlTree α :=
  { m with el := Function.update m.el a { m.el a with left := v } }

def setRight (m : AvlTree α) (a : α) (v : Option α) : AvlTree α :=
  { m with el := Function.update m.el a { m.el a with right := v } }

def setParent (m : AvlTree α) (a : α) (v : Option α) : AvlTree α :=
  { m with el := Function.update m.el a { m.el a with parent := v } }

def setHeight (m : AvlTree α) (a : α) (v : ℕ) : AvlTree α :=
  { m with el := Function.update m.el a { m.el a with height := v } }

/-- `if ( t != 0 ) t->parent = v`. -/
def setParentOf (m : AvlTree α) (t v : Option α) : AvlTree α :=
  match t with
  | none => m
  | some t => m.setParent t v

end Set

/-- The `while` of `find_first_unbal_gp`. -/
def findFirstUnbalGpLoop (m : AvlTree α) :
    ℕ → Option α → Option α → Option (Option α)
  | _, _, none => some none
  | 0, _, some _ => none
  | fuel + 1, element, some gp =>
      let lheight := m.heightOf (m.el gp).left
      let rheight := m.heightOf (m.el gp).right
      let balanceProp : ℤ := (lheight : ℤ) - (rheight : ℤ)
      if balanceProp < -1 ∨ balanceProp > 1 then some element
      else match element with
        | none => none
        | some e => findFirstUnbalGpLoop m fuel (m.el e).parent (m.el gp).parent

/-- `find_first_unbal_gp`. -/
def findFirstUnbalGp (m : AvlTree α) : Option α → Option (Option α)
  | none => some none
  | some element =>
      match (m.el element).parent with
      | none => some none
      | some p =>
          match (m.el p).parent with
          | none => some none
          | some gp => m.findFirstUnbalGpLoop m.treeSize (some element) (some gp)

variable [DecidableEq α]

/-- `recalc_heights`. -/
def recalcHeights : ℕ → AvlTree α → Option α → Option (AvlTree α)
  | _, m, none => some m
  | 0, _, some _ => none
  | fuel + 1, m, some element =>
      if m.newHeight element = (m.el element).height then some m
      else recalcHeights fuel (m.setHeight element (m.newHeight element)) (m.el element).parent

/-- `rebalance`, "Perform rotation": tie `b` to the great grandparent. -/
def tieTop (m : AvlTree α) (ggp : Option α) (gp b : α) : AvlTree α :=
  match ggp with
  | none => { m with root := some b }
  | some g =>
      if (m.el g).left = some gp then m.setLeft g (some b) else m.setRight g (some b)

/-- `rebalance`, the rest of the pointer assignments. -/
def tie (m : AvlTree α) (ggp : Option α) (a b c : α) (t1 t2 t3 t4 : Option α) : AvlTree α :=
  let m := m.setParent b ggp
  let m := m.setLeft b (some a)
  let m := m.setParent a (some b)
  let m := m.setRight b (some c)
  let m := m.setParent c (some b)
  let m := m.setLeft a t1
  let m := m.setParentOf t1 (some a)
  let m := m.setRight a t2
  let m := m.setParentOf t2 (some a)
  let m := m.setLeft c t3
  let m := m.setParentOf t3 (some c)
  let m := m.setRight c t4
  m.setParentOf t4 (some c)

/-- `rebalance`, the heights of `a`, `c` and `b`. -/
def fixHeights (m : AvlTree α) (a b c : α) : AvlTree α :=
  let m := m.setHeight a (m.newHeight a)
  let m := m.setHeight c (m.newHeight c)
  let lheight := (m.el a).height
  let rheight := (m.el c).height
  m.setHeight b ((if lheight > rheight then lheight else rheight) + 1)

/-- `rebalance`, from the rotation on. -/
def rotateAt (m : AvlTree α) (ggp : Option α) (gp a b c : α) (t1 t2 t3 t4 : Option α) :
    Option (AvlTree α × Option α) :=
  let m := m.tieTop ggp gp b
  let m := m.tie ggp a b c t1 t2 t3 t4
  let m := m.fixHeights a b c
  (recalcHeights m.treeSize m ggp).map fun m => (m, ggp)

/-- `rebalance`: the tree, and the great grandparent it returns. -/
def rebalance (m : AvlTree α) (n : α) : Option (AvlTree α × Option α) :=
  (m.el n).parent.bind fun p =>
    (m.el p).parent.bind fun gp =>
      let ggp := (m.el gp).parent
      if (m.el gp).right = some p then
        if (m.el p).right = some n then
          m.rotateAt ggp gp gp p n (m.el gp).left (m.el p).left (m.el n).left (m.el n).right
        else
          m.rotateAt ggp gp gp n p (m.el gp).left (m.el n).left (m.el n).right (m.el p).right
      else if (m.el p).right = some n then
        m.rotateAt ggp gp p n gp (m.el p).left (m.el n).left (m.el n).right (m.el gp).right
      else
        m.rotateAt ggp gp n p gp (m.el n).left (m.el n).right (m.el p).right (m.el gp).right

/-- `avl_attach_rebal`: the new element as a leaf, not yet linked from its parent. -/
def newLeaf (m : AvlTree α) (element : α) (parentEl : Option α) : AvlTree α :=
  { m with
    treeSize := m.treeSize + 1
    el := Function.update m.el element
      { left := none, right := none, parent := parentEl, height := 1 } }

/-- `avl_attach_rebal`: the first and last pointers, under a parent. -/
def keepEnds (m : AvlTree α) (element : α) : Option (AvlTree α) :=
  m.head.bind fun hd =>
    let m := if (m.el hd).left = some element then { m with head := some element } else m
    m.tail.map fun tl =>
      if (m.el tl).right = some element then { m with tail := some element } else m

/-- `avl_attach_rebal`, up to the recalculation of the heights. -/
def attach (m : AvlTree α) (element : α) (parentEl lastLess : Option α) : Option (AvlTree α) :=
  let m := m.newLeaf element parentEl
  match parentEl with
  | some p =>
      let m :=
        if lastLess = parentEl then m.setLeft p (some element) else m.setRight p (some element)
      m.keepEnds element
  | none => some { m with root := some element, head := some element, tail := some element }

/-- `avl_attach_rebal`. -/
def avlAttachRebal (m : AvlTree α) (element : α) (parentEl lastLess : Option α) :
    Option (AvlTree α) :=
  (m.attach element parentEl lastLess).bind fun m =>
    (recalcHeights m.treeSize m parentEl).bind fun m =>
      (m.findFirstUnbalGp (some element)).bind fun ub =>
        match ub with
        | none => some m
        | some n => (m.rebalance n).map Prod.fst

variable (c : Compare α)

/-- The `while` of `name##_insert`: the tree, the returned pointer and `*lastFound`. -/
def insertLoop (m : AvlTree α) (element : α) :
    ℕ → Option α → Option α → Option α → Option (AvlTree α × Option α × α)
  | _, none, parentEl, lastLess =>
      (m.avlAttachRebal element parentEl lastLess).map fun m => (m, some element, element)
  | 0, some _, _, _ => none
  | fuel + 1, some curEl, _, lastLess =>
      let keyRelation := c.compare element curEl
      if keyRelation < 0 then
        insertLoop m element fuel (m.el curEl).left (some curEl) (some curEl)
      else if keyRelation > 0 then
        insertLoop m element fuel (m.el curEl).right (some curEl) lastLess
      else some (m, none, curEl)

/-- `name##_insert`. -/
def insert (m : AvlTree α) (element : α) : Option (AvlTree α × Option α × α) :=
  m.insertLoop c element m.treeSize m.root none none

omit [DecidableEq α] in
/-- The `while` of `name##_find`. -/
def findLoop (m : AvlTree α) (element : α) : ℕ → Option α → Option (Option α)
  | _, none => some none
  | 0, some _ => none
  | fuel + 1, some curEl =>
      let keyRelation := c.compare element curEl
      if keyRelation < 0 then findLoop m element fuel (m.el curEl).left
      else if keyRelation > 0 then findLoop m element fuel (m.el curEl).right
      else some (some curEl)

omit [DecidableEq α] in
/-- `name##_find`. -/
def find (m : AvlTree α) (element : α) : Option (Option α) :=
  m.findLoop c element m.treeSize m.root

/-- Insertions one after the other, with the returned pointers. -/
def insertAll : AvlTree α → List α → Option (AvlTree α × List (Option α))
  | m, [] => some (m, [])
  | m, x :: xs =>
      (m.insert c x).bind fun r => (insertAll r.1 xs).map fun e => (e.1, r.2.1 :: e.2)

end AvlTree

/-- A tree as it is before any insertion; the elements' memory is arbitrary. -/
def emptyTree (el : α → AvlEl α) : AvlTree α := ⟨none, none, none, 0, el⟩

/-! ## The order of blocked connections -/

/-- `struct connection`, the key fields. -/
structure Connection where
  addr1 : UInt32
  addr2 : UInt32
  port1 : UInt16
  port2 : UInt16

/-- `conn_compare`. -/
def connCompare (el1 el2 : Connection) : ℤ :=
  if el1.addr1 < el2.addr1 then -1
  else if el1.addr1 > el2.addr1 then 1
  else if el1.addr2 < el2.addr2 then -1
  else if el1.addr2 > el2.addr2 then 1
  else if el1.port1 < el2.port1 then -1
  else if el1.port1 > el2.port1 then 1
  else if el1.port2 < el2.port2 then -1
  else if el1.port2 > el2.port2 then 1
  else 0

theorem connCompare_le_iff (a b : Connection) :
    connCompare a b ≤ 0 ↔
      a.addr1.toNat < b.addr1.toNat ∨ a.addr1.toNat = b.addr1.toNat ∧
        (a.addr2.toNat < b.addr2.toNat ∨ a.addr2.toNat = b.addr2.toNat ∧
          (a.port1.toNat < b.port1.toNat ∨ a.port1.toNat = b.port1.toNat ∧
            a.port2.toNat ≤ b.port2.toNat)) := by
  unfold connCompare
  simp only [UInt32.lt_iff_toNat_lt, UInt16.lt_iff_toNat_lt, gt_iff_lt]
  repeat' split
  all_goals omega

/-- `conn_compare` of the connections that elements are embedded in is a total order. -/
def connOrder (conn : α → Connection) : Compare α where
  compare a b := connCompare (conn a) (conn b)
  swap a b := by
    unfold connCompare
    simp only [UInt32.lt_iff_toNat_lt, UInt16.lt_iff_toNat_lt, gt_iff_lt]
    repeat' split
    all_goals omega
  trans a b c := by
    rw [connCompare_le_iff, connCompare_le_iff, connCompare_le_iff]
    omega

end Netp.Shuttle
