import Netp.Parse.Dns

/-! # The tree with data and with callbacks that answer (`parse/node.cc`)

The tree of `Vpt.lean` once more, with the data of `setData`, and with a `match` that changes a state
of its own and returns a `MatchResult`: a pattern state whose callback does not return `MatchContinue`
is not moved up. The states move by the same `advance` and `addRootItems`.

Of `onFailure` only its presence is kept, as there. A function is `none` where the source calls or
reads through a null pointer.
-/

namespace Netp.Parse
open Netp.Lib Netp.Parse.Dns
set_option autoImplicit false
variable {μ ρ : Type}

/-- `Node` with its data, once it is closed. -/
inductive DataNode
  | mk (type : NodeType) (text : Text) (data : Option (List UInt8)) (children : List DataNode)

namespace DataNode

def type : DataNode → NodeType
  | mk t _ _ _ => t

def text : DataNode → Text
  | mk _ x _ _ => x

def data : DataNode → Option (List UInt8)
  | mk _ _ d _ => d

def children : DataNode → List DataNode
  | mk _ _ _ cs => cs

end DataNode

inductive MatchResult
  | matchContinue | matchFinished | matchFail
  deriving DecidableEq

/-- The `OnMatch` objects: the one of a pattern node with `onMatch`, and its `match`. -/
structure Callbacks (μ ρ : Type) where
  object : PatNode → μ
  onMatch : μ → DataNode → ρ → Option (ρ × MatchResult)

structure DataFrame where
  type : NodeType
  text : Text
  data : Option (List UInt8)
  children : List DataNode
  active : List PatState

structure MatchTree (ρ : Type) where
  vt : DataFrame
  vs : List DataFrame
  patRoots : List PatNode
  topBarrier : ℕ
  vptErrorOccurred : Bool
  /-- What the callbacks work on. -/
  state : ρ

namespace MatchTree

def push (v : MatchTree ρ) (type : NodeType) : Option (MatchTree ρ) :=
  (advance type v.vt.active).map fun a =>
    let roots := addRootItems type v.patRoots
    { v with
      vt := ⟨type, [], none, [], a.2 ++ roots.2⟩
      vs := { v.vt with active := a.1 } :: v.vs
      patRoots := roots.1
      topBarrier := v.topBarrier + 1 }

def setText (v : MatchTree ρ) (text : Text) : MatchTree ρ :=
  { v with vt := { v.vt with
      text := text
      active := v.vt.active.filter fun st => st.node.node.text = [] || st.node.node.text = text } }

def setData (v : MatchTree ρ) (data : List UInt8) : MatchTree ρ :=
  { v with vt := { v.vt with data := some data } }

/-- The node at the top as it is when it is popped. -/
def top (v : MatchTree ρ) : DataNode := .mk v.vt.type v.vt.text v.vt.data v.vt.children

/-- `pop`, "Execute match functions": the states that are left, and the state of the callbacks. -/
def execute [DecidableEq μ] (cb : Callbacks μ ρ) (node : DataNode) :
    List μ → List PatState × ρ → Option (List PatState × ρ)
  | [], s => some s
  | m :: ms, (active, state) =>
      (cb.onMatch m node state).bind fun r =>
        let left :=
          if r.2 = .matchContinue then active
          else active.filter fun st => !(st.node.node.onMatch && cb.object st.node.node = m)
        execute cb node ms (left, r.1)

/-- The `onMatchList` of the node at the top: patterns have `up == 0`. -/
def onMatchList (cb : Callbacks μ ρ) (v : MatchTree ρ) : List μ :=
  (v.vt.active.filter fun st => st.nextChild.isNone && st.node.node.onMatch).map fun st =>
    cb.object st.node.node

/-- `pop`, with its return value. -/
def pop [DecidableEq μ] (cb : Callbacks μ ρ) (v : MatchTree ρ) (type : NodeType) :
    Option (MatchTree ρ × Bool) :=
  if v.vt.type ≠ type then some ({ v with vptErrorOccurred := true }, false)
  else if v.topBarrier = 0 then some ({ v with vptErrorOccurred := true }, false)
  else (execute cb v.top (v.onMatchList cb) (v.vt.active, v.state)).bind fun s =>
    match v.vs with
    | [] => none
    | below :: vs =>
        some ({ v with
          vt := { below with
            children := below.children ++ [v.top]
            active := below.active ++
              s.1.filterMap fun st => st.node.parent.map fun p => ⟨p, st.node.next⟩ }
          vs := vs
          topBarrier := v.topBarrier - 1
          state := s.2 }, true)

def call [DecidableEq μ] (cb : Callbacks μ ρ) (v : MatchTree ρ) : TreeCall → Option (MatchTree ρ)
  | .push type => v.push type
  | .setText text => some (v.setText text)
  | .setData data => some (v.setData data)
  | .pop type => (v.pop cb type).map Prod.fst

/-- The calls of a parser, in order. -/
def calls [DecidableEq μ] (cb : Callbacks μ ρ) (v : MatchTree ρ) (cs : List TreeCall) :
    Option (MatchTree ρ) := cs.foldlM (call cb) v

theorem calls_cons [DecidableEq μ] (cb : Callbacks μ ρ) (v : MatchTree ρ) (c : TreeCall)
    (cs : List TreeCall) : calls cb v (c :: cs) = (call cb v c).bind fun w => calls cb w cs := rfl

theorem calls_append [DecidableEq μ] (cb : Callbacks μ ρ) (v : MatchTree ρ) (cs ds : List TreeCall) :
    calls cb v (cs ++ ds) = (calls cb v cs).bind fun w => calls cb w ds := by
  simp only [calls, List.foldlM_append]
  rfl

end MatchTree

/-- A tree after its constructor, with `topBarrier` zero. -/
def initTree (patRoots : List PatNode) (state : ρ) : MatchTree ρ where
  vt := ⟨.root, [], none, [], []⟩
  vs := []
  patRoots := patRoots
  topBarrier := 0
  vptErrorOccurred := false
  state := state

end Netp.Parse
