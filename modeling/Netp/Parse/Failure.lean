import Netp.Parse.Match
import Mathlib.Data.List.Basic

/-! # Failure handlers (`parse/node.cc`, `parse/pattern.h`)

The tree with both handlers of a pattern node and with `up`. Here a `PatNode *` is a pointer: the
pattern nodes are any table of records that point to each other, and the handlers are objects that
several nodes can share.

A handler changes a state of its own and leaves the tree alone. The calls of the handlers are
recorded. A step faults where the source calls through a null pointer.
-/

namespace Netp.Parse.Failure
open Netp.Lib Netp.Parse
set_option autoImplicit false
variable {ι μ ρ : Type}

/-- `PatNode`. -/
structure PatNode (ι μ : Type) where
  parent : Option ι
  type : NodeType
  text : Text
  childrenHead : Option ι
  next : Option ι
  onMatch : Option μ
  onFailure : Option μ
  up : ℤ
  skip : Bool
  once : Bool

structure PatState (ι : Type) where
  node : ι
  nextChild : Option ι

structure StackNode (ι μ : Type) where
  type : NodeType
  text : Text
  children : List Node
  active : List (PatState ι)
  onMatchList : List μ

/-- A call of `match`: of an object in an `onMatchList`, with its answer, or of the `onFailure` of a
pattern node. -/
inductive Call (ι μ : Type)
  | onMatch (object : μ) (node : Node) (result : MatchResult)
  | onFailure (pattern : ι) (object : μ) (node : Node)

/-- What the handlers work on, and the calls so far. -/
structure World (ι μ ρ : Type) where
  state : ρ
  calls : List (Call ι μ)

structure VPT (ι μ ρ : Type) where
  vt : StackNode ι μ
  /-- The nodes below `vt`, the nearest first. -/
  vs : List (StackNode ι μ)
  patRoots : List ι
  topBarrier : ℕ
  vptErrorOccurred : Bool
  world : World ι μ ρ

inductive Fault
  | nullMatch | emptyStack

inductive Event
  | push (type : NodeType)
  | setText (text : Text)
  | appendChar (type : NodeType) (c : UInt8)
  | pop (type : NodeType)

section Tree
variable (pats : ι → PatNode ι μ) (objs : μ → Node → ρ → ρ × MatchResult)

/-- `onFailure->match`, the answer is not used. -/
def World.failure (w : World ι μ ρ) (pattern : ι) (object : μ) (node : Node) : World ι μ ρ :=
  ⟨(objs object node w.state).1, w.calls ++ [.onFailure pattern object node]⟩

/-- `onMatchList[i]->match`. -/
def World.onMatch (w : World ι μ ρ) (object : μ) (node : Node) : World ι μ ρ × MatchResult :=
  let r := objs object node w.state
  (⟨r.1, w.calls ++ [.onMatch object node r.2]⟩, r.2)

/-- What "Advance the active set" leaves at the parent and puts at the child. -/
structure Advanced (ι μ ρ : Type) where
  parent : List (PatState ι)
  child : List (PatState ι)
  world : World ι μ ρ

/-- `push`, "Advance the active set". -/
def advance (type : NodeType) (node : Node) :
    List (PatState ι) → World ι μ ρ → Except Fault (Advanced ι μ ρ)
  | [], w => .ok ⟨[], [], w⟩
  | st :: sts, w =>
      match st.nextChild with
      | none => (advance type node sts w).map fun r => { r with parent := st :: r.parent }
      | some nextChild =>
          if (pats nextChild).type = type then
            (advance type node sts w).map fun r => { r with
              parent := if (pats nextChild).skip then st :: r.parent else r.parent
              child := ⟨nextChild, (pats nextChild).childrenHead⟩ :: r.child }
          else if (pats nextChild).skip then
            (advance type node sts w).map fun r => { r with parent := st :: r.parent }
          else
            -- the test of onFailure has an empty body, the call is made in any case
            match (pats st.node).onFailure with
            | none => .error .nullMatch
            | some object => advance type node sts (w.failure objs st.node object node)

/-- `push`, "Add root items": the roots that remain, and the states at the child. -/
def addRootItems (type : NodeType) : List ι → List ι × List (PatState ι)
  | [] => ([], [])
  | p :: ps =>
      let r := addRootItems type ps
      if (pats p).type = type then
        (if (pats p).once then r.1 else p :: r.1, ⟨p, (pats p).childrenHead⟩ :: r.2)
      else (p :: r.1, r.2)

def VPT.push (v : VPT ι μ ρ) (type : NodeType) : Except Fault (VPT ι μ ρ) :=
  (advance pats objs type (.mk type [] []) v.vt.active v.world).map fun a =>
    let roots := addRootItems pats type v.patRoots
    { v with
      vt := ⟨type, [], [], a.child ++ roots.2, []⟩
      vs := { v.vt with active := a.parent } :: v.vs
      patRoots := roots.1
      topBarrier := v.topBarrier + 1
      world := a.world }

/-- The loop of `setText`. -/
def compareText (text : Text) (node : Node) :
    List (PatState ι) → World ι μ ρ → List (PatState ι) × World ι μ ρ
  | [], w => ([], w)
  | st :: sts, w =>
      if (pats st.node).text ≠ [] ∧ (pats st.node).text ≠ text then
        match (pats st.node).onFailure with
        | none => compareText text node sts w
        | some object => compareText text node sts (w.failure objs st.node object node)
      else
        let r := compareText text node sts w
        (st :: r.1, r.2)

def VPT.setText (v : VPT ι μ ρ) (text : Text) : VPT ι μ ρ :=
  let r := compareText pats objs text (.mk v.vt.type text v.vt.children) v.vt.active v.world
  { v with vt := { v.vt with text := text, active := r.1 }, world := r.2 }

/-- The node at the top as it is when it is popped. -/
def VPT.top (v : VPT ι μ ρ) : Node := .mk v.vt.type v.vt.text v.vt.children

def StackNode.append (f : StackNode ι μ) (object : μ) : StackNode ι μ :=
  { f with onMatchList := f.onMatchList ++ [object] }

/-- `pop`, "Collect matches to the appropriate match list": a level that does not exist is passed
over. -/
def collect (v : VPT ι μ ρ) (st : PatState ι) : VPT ι μ ρ :=
  match st.nextChild, (pats st.node).onMatch with
  | none, some object =>
      match (pats st.node).up.toNat with
      | 0 => { v with vt := v.vt.append object }
      | up + 1 => { v with vs := v.vs.modify up fun f => f.append object }
  | _, _ => v

variable [DecidableEq μ]

/-- The loop over `j`: the states with the object are removed. -/
def stop (object : μ) (result : MatchResult) (node : Node) :
    List (PatState ι) → World ι μ ρ → List (PatState ι) × World ι μ ρ
  | [], w => ([], w)
  | st :: sts, w =>
      if (pats st.node).onMatch = some object then
        match result, (pats st.node).onFailure with
        | .matchFail, some failed => stop object result node sts (w.failure objs st.node failed node)
        | _, _ => stop object result node sts w
      else
        let r := stop object result node sts w
        (st :: r.1, r.2)

/-- `pop`, "Execute match functions". -/
def execute (node : Node) :
    List μ → List (PatState ι) × World ι μ ρ → List (PatState ι) × World ι μ ρ
  | [], s => s
  | object :: objects, (active, w) =>
      let r := w.onMatch objs object node
      if r.2 = .matchContinue then execute node objects (active, r.1)
      else execute node objects (stop pats objs object r.2 node active r.1)

/-- `pop`, "Move matches up to the parent". -/
def promote (active : List (PatState ι)) : List (PatState ι) :=
  active.filterMap fun st => (pats st.node).parent.map fun p => ⟨p, (pats st.node).next⟩

/-- `pop`, with its return value. -/
def VPT.pop (v : VPT ι μ ρ) (type : NodeType) : Except Fault (VPT ι μ ρ × Bool) :=
  if v.vt.type ≠ type then .ok ({ v with vptErrorOccurred := true }, false)
  else if v.topBarrier = 0 then .ok ({ v with vptErrorOccurred := true }, false)
  else
    let w := v.vt.active.foldl (collect pats) v
    let s := execute pats objs v.top w.vt.onMatchList (w.vt.active, w.world)
    match w.vs with
    | [] => .error .emptyStack
    | below :: vs =>
        .ok ({ w with
          vt := { below with
            children := below.children ++ [v.top]
            active := below.active ++ promote pats s.1 }
          vs := vs
          topBarrier := v.topBarrier - 1
          world := s.2 }, true)

/-- `appendChar` makes a new node: there is no child, or the last one is of another type. -/
def VPT.fresh (v : VPT ι μ ρ) (type : NodeType) : Bool :=
  match v.vt.children.getLast? with
  | none => true
  | some n => n.type ≠ type

/-- `children.tail->text += c`. -/
def VPT.appendTail (v : VPT ι μ ρ) (c : UInt8) : VPT ι μ ρ :=
  { v with vt := { v.vt with
      children := v.vt.children.dropLast ++ (v.vt.children.getLast?.map (·.append c)).toList } }

def VPT.appendChar (v : VPT ι μ ρ) (type : NodeType) (c : UInt8) : Except Fault (VPT ι μ ρ) :=
  if v.fresh type then
    (v.push pats objs type).bind fun u => (u.pop pats objs type).map fun w => w.1.appendTail c
  else .ok (v.appendTail c)

def VPT.event (v : VPT ι μ ρ) : Event → Except Fault (VPT ι μ ρ)
  | .push type => v.push pats objs type
  | .setText text => .ok (v.setText pats objs text)
  | .appendChar type c => v.appendChar pats objs type c
  | .pop type => (v.pop pats objs type).map Prod.fst

/-- A tree after its constructor, with `topBarrier` zero. -/
def initVpt (patRoots : List ι) (state : ρ) : VPT ι μ ρ where
  vt := ⟨.root, [], [], [], []⟩
  vs := []
  patRoots := patRoots
  topBarrier := 0
  vptErrorOccurred := false
  world := ⟨state, []⟩

end Tree

end Netp.Parse.Failure
