import Netp.Lib.Run
import Mathlib.Data.Nat.Notation

/-! # The tree the parsers build, and the patterns on it (`parse/node.cc`, `parse/pattern.h`)

A `VPT` is the stack of the nodes that are open, each with the set of pattern states active at it.
`push` and `pop` move states between the levels, `setText` drops states.

A pattern is a tree that does not change, so a `PatNode *` is the node with its later siblings and its
parent. Patterns have `up == 0`, and the callbacks return `MatchContinue` and leave the VPT alone; of a
callback only its presence is kept. A function is `none` where the source calls through a null pointer.
-/

namespace Netp.Parse
open Netp.Lib
set_option autoImplicit false

/-- `Node::Type`. -/
inductive NodeType
  | root | langHttp | langJson | langHtml
  | connTls | connHost
  | httpRequest | httpHead | httpResponse | httpConnHost
  | httpMethod | httpUri | httpProtocol | httpHeader | httpHeaderName | httpHeaderValue
  | htmlTag | htmlText | htmlAttr | htmlVal
  | jsonObject | jsonField | jsonArray | jsonString | jsonNumber | jsonNull | jsonFalse | jsonTrue
  | jsonNaN | jsonInfinity
  | dnsPacket | dnsQuestion | dnsAnswer | dnsAuthority | dnsAdditional | dnsRrA | dnsRrAAAA
  | dnsRrCname | dnsName | dnsAddr
  | fileTypePe | fileTypeUnknown
  deriving DecidableEq

/-- The bytes of a `std::string`. -/
abbrev Text := List UInt8

/-- `Node`, once it is closed. -/
inductive Node
  | mk (type : NodeType) (text : Text) (children : List Node)

namespace Node

def type : Node → NodeType
  | mk t _ _ => t

def text : Node → Text
  | mk _ x _ => x

def children : Node → List Node
  | mk _ _ cs => cs

/-- With one more character in the text. -/
def append (n : Node) (c : UInt8) : Node := mk n.type (n.text ++ [c]) n.children

end Node

/-- `PatNode`. -/
inductive PatNode
  | mk (type : NodeType) (text : Text) (onMatch onFailure skip once : Bool)
      (children : List PatNode)

namespace PatNode

def type : PatNode → NodeType
  | mk t _ _ _ _ _ _ => t

def text : PatNode → Text
  | mk _ x _ _ _ _ _ => x

def onMatch : PatNode → Bool
  | mk _ _ m _ _ _ _ => m

def onFailure : PatNode → Bool
  | mk _ _ _ f _ _ _ => f

def skip : PatNode → Bool
  | mk _ _ _ _ s _ _ => s

def once : PatNode → Bool
  | mk _ _ _ _ _ o _ => o

def children : PatNode → List PatNode
  | mk _ _ _ _ _ _ cs => cs

end PatNode

/-- A `PatNode *`: the node, the siblings after it, its parent. -/
inductive PatRef
  | mk (node : PatNode) (later : List PatNode) (parent : Option PatRef)

namespace PatRef

def node : PatRef → PatNode
  | mk n _ _ => n

def later : PatRef → List PatNode
  | mk _ l _ => l

def parent : PatRef → Option PatRef
  | mk _ _ p => p

/-- The first of a list of siblings. -/
def first (parent : Option PatRef) : List PatNode → Option PatRef
  | [] => none
  | n :: ns => some (mk n ns parent)

/-- `children.head`. -/
def childrenHead (r : PatRef) : Option PatRef := first (some r) r.node.children

def next (r : PatRef) : Option PatRef := first r.parent r.later

end PatRef

structure PatState where
  node : PatRef
  nextChild : Option PatRef

structure StackNode where
  type : NodeType
  text : Text
  /-- History: `setText` has been called for this node. -/
  textSet : Bool
  /-- The children that have been popped. -/
  children : List Node
  active : List PatState

structure VPT where
  vt : StackNode
  /-- The nodes below `vt`, the nearest first. -/
  vs : List StackNode
  patRoots : List PatNode
  topBarrier : ℕ
  /-- The stack of barriers, the last one first. -/
  barriers : List ℕ
  vptErrorOccurred : Bool
  /-- History: the calls of `onMatch`, with the node they are given. -/
  matched : List (PatRef × Node)

/-- A `VPT` after its constructor, with `topBarrier` zero and the patterns given. -/
def initVpt (patRoots : List PatNode) : VPT where
  vt := ⟨.root, [], false, [], []⟩
  vs := []
  patRoots := patRoots
  topBarrier := 0
  barriers := []
  vptErrorOccurred := false
  matched := []

/-- `push`, "Advance the active set": the states that stay at the parent, and those at the child. -/
def advance (type : NodeType) : List PatState → Option (List PatState × List PatState)
  | [] => some ([], [])
  | st :: sts =>
      match st.nextChild with
      | none => (advance type sts).map fun r => (st :: r.1, r.2)
      | some nextChild =>
          if nextChild.node.type = type then
            (advance type sts).map fun r =>
              (if nextChild.node.skip then st :: r.1 else r.1,
                ⟨nextChild, nextChild.childrenHead⟩ :: r.2)
          else if nextChild.node.skip then (advance type sts).map fun r => (st :: r.1, r.2)
          -- the test of onFailure has an empty body, the call is made in any case
          else if st.node.node.onFailure then advance type sts
          else none

/-- `push`, "Add root items": the roots that remain, and the states at the child. -/
def addRootItems (type : NodeType) : List PatNode → List PatNode × List PatState
  | [] => ([], [])
  | p :: ps =>
      let r := addRootItems type ps
      if p.type = type then
        let root := PatRef.mk p [] none
        (if p.once then r.1 else p :: r.1, ⟨root, root.childrenHead⟩ :: r.2)
      else (p :: r.1, r.2)

namespace VPT

def push (v : VPT) (type : NodeType) : Option VPT :=
  (advance type v.vt.active).map fun a =>
    let roots := addRootItems type v.patRoots
    { v with
      vt := ⟨type, [], false, [], a.2 ++ roots.2⟩
      vs := { v.vt with active := a.1 } :: v.vs
      patRoots := roots.1
      topBarrier := v.topBarrier + 1 }

def setText (v : VPT) (text : Text) : VPT :=
  { v with vt := { v.vt with
      text := text
      textSet := true
      active := v.vt.active.filter fun st => st.node.node.text = [] || st.node.node.text = text } }

/-- The node at the top as it is when it is popped. -/
def top (v : VPT) : Node := .mk v.vt.type v.vt.text v.vt.children

/-- The states of which `pop` calls `onMatch`. -/
def completed (v : VPT) : List PatState :=
  v.vt.active.filter fun st => st.nextChild.isNone && st.node.node.onMatch

/-- What `pop` moves up to the parent: every state whose pattern node has a parent. -/
def promoted (v : VPT) : List PatState :=
  v.vt.active.filterMap fun st => st.node.parent.map fun p => ⟨p, st.node.next⟩

/-- `pop`, with its return value. -/
def pop (v : VPT) (type : NodeType) : Option (VPT × Bool) :=
  if v.vt.type ≠ type then some ({ v with vptErrorOccurred := true }, false)
  else if v.topBarrier = 0 then some ({ v with vptErrorOccurred := true }, false)
  else match v.vs with
    | [] => none
    | below :: vs =>
        some ({ v with
          vt := { below with
            children := below.children ++ [v.top]
            active := below.active ++ v.promoted }
          vs := vs
          topBarrier := v.topBarrier - 1
          matched := v.matched ++ v.completed.map fun st => (st.node, v.top) }, true)

def addPat (v : VPT) (pat : PatNode) : VPT := { v with patRoots := v.patRoots ++ [pat] }

def pushBarrier (v : VPT) : VPT := { v with topBarrier := 0, barriers := v.topBarrier :: v.barriers }

/-- The `while` of `popBarrier`. -/
def clear : ℕ → VPT → Option VPT
  | 0, v => some v
  | n + 1, v => (v.pop v.vt.type).bind fun r => clear n r.1

/-- `popBarrier`. The `remove` at its end has the length zero, so the vector stays as it is. -/
def popBarrier (v : VPT) : Option VPT :=
  match v.barriers with
  | [] => some v
  | b :: _ => (clear v.topBarrier v).map fun v => { v with topBarrier := b }

/-- `appendChar`: the last child is of the type, or there is a new one. -/
def appendChar (v : VPT) (type : NodeType) (c : UInt8) : Option VPT :=
  let fresh := (v.push type).bind fun w => (w.pop type).map Prod.fst
  let ready := match v.vt.children.getLast? with
    | none => fresh
    | some n => if n.type = type then some v else fresh
  ready.map fun w => { w with vt := { w.vt with
    children := w.vt.children.dropLast ++ (w.vt.children.getLast?.map (·.append c)).toList } }

end VPT

/-- The calls a parser makes on the tree. -/
inductive Event
  | push (type : NodeType)
  | setText (text : Text)
  | pop (type : NodeType)
  | addPat (pat : PatNode)

def VPT.event (v : VPT) : Event → Option VPT
  | .push type => v.push type
  | .setText text => some (v.setText text)
  | .pop type => (v.pop type).map Prod.fst
  | .addPat pat => some (v.addPat pat)

/-- The runs of a tree with patterns. -/
def vptSystem (patRoots : List PatNode) : System VPT Event := ⟨initVpt patRoots, VPT.event⟩

end Netp.Parse
