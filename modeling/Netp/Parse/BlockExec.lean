import Netp.Parse.Vpt
import Netp.Lib.Pieces

/-! # Block execution inside the HTTP parsers (`parse/blockexec.cc`)

The HTTP parsers run a state machine over the bytes of a `receive` call. A body is not copied byte by
byte: `BlockExec` keeps a pointer `from` into the buffer of the call and ships what lies between it
and the current position when the body is paused or finished, and at the end of the call.

`Machine` is the common shape of the two parsers: a byte leads to a new state of the parser's own
fields and to calls on the tree, the body block and the source, in the order of the actions.
`Machine.step` never looks at the block, so the calls can be run after it.
-/

namespace Netp.Parse
open Netp.Lib
set_option autoImplicit false

/-- The calls the HTTP parsers make on `ctx->vpt`. -/
inductive VptCall
  | push (type : NodeType)
  | pop (type : NodeType)
  | setText (text : Text)
  | generatePair
  | consumePair
  | setConsumer
  deriving DecidableEq

inductive Coding
  | plain | gzip | brotli
  deriving DecidableEq

/-- What `destination()` returns: `bodyParser`, or the splitter in front of it, decoded or not. -/
structure Dest where
  coding : Coding
  split : Bool
  deriving DecidableEq

/-- A call that the action code makes at the position `p`. -/
inductive Call
  | vpt (c : VptCall)
  | destination (d : Dest)
  /-- `bodyBlock.start( ctx, packet, p )` -/
  | start
  /-- `bodyBlock.pause( ctx, packet, p + 1 )` -/
  | pause
  /-- `bodyBlock.resume( ctx, packet, p )` -/
  | resume
  /-- `bodyBlock.finish( ctx, packet, p )` -/
  | finish
  /-- `bodyBlock.finish( ctx, packet, p + 1 )` -/
  | finishNext
  | preFinish
  | responseComplete
  /-- What the action does from here on is undefined. -/
  | fault
  deriving DecidableEq

/-- What leaves the parser. -/
inductive Effect
  | vpt (c : VptCall)
  | start (d : Dest)
  | receive (d : Dest) (data : Text)
  | finish (d : Dest)
  | preFinish
  | responseComplete
  deriving DecidableEq

/-- `BlockExec`, with `from` as an offset into the buffer of the running `receive` call. -/
structure BlockExec where
  isOpen : Bool
  output : Option Dest
  fromPos : Option ℕ

namespace BlockExec

/-- The constructor. -/
def init : BlockExec := ⟨false, none, none⟩

/-- `output->receive( ctx, packet, from, data-from )`, `none` through a null pointer. -/
def ship (b : BlockExec) (data : Text) (p : ℕ) : Option Effect :=
  match b.output, b.fromPos with
  | some d, some f => some (.receive d (data.extract f p))
  | _, _ => none

def start (b : BlockExec) (p : ℕ) : Option (List Effect × BlockExec) :=
  b.output.map fun d => ([.start d], { b with isOpen := true, fromPos := some p })

def preExec (b : BlockExec) : BlockExec :=
  if b.isOpen then { b with fromPos := some 0 } else b

def postExec (b : BlockExec) (data : Text) (p : ℕ) : Option (List Effect × BlockExec) :=
  if b.isOpen then (b.ship data p).map fun e => ([e], { b with fromPos := none })
  else some ([], b)

def pause (b : BlockExec) (data : Text) (p : ℕ) : Option (List Effect × BlockExec) :=
  (b.ship data p).map fun e => ([e], { b with isOpen := false })

def resume (b : BlockExec) (p : ℕ) : BlockExec := { b with isOpen := true, fromPos := some p }

/-- `finish( ctx )` -/
def finish (b : BlockExec) : Option (List Effect × BlockExec) :=
  b.output.map fun d => ([.finish d], init)

/-- `finish( ctx, packet, data )` -/
def finishAt (b : BlockExec) (data : Text) (p : ℕ) : Option (List Effect × BlockExec) :=
  if b.isOpen then
    (b.ship data p).bind fun e => b.finish.map fun r => (e :: r.1, r.2)
  else b.finish

end BlockExec

/-- A call at the position `p` of `data`. -/
def Call.exec (data : Text) (p : ℕ) (b : BlockExec) : Call → Option (List Effect × BlockExec)
  | .vpt c => some ([.vpt c], b)
  | .destination d => some ([], { b with output := some d })
  | .start => b.start p
  | .pause => b.pause data (p + 1)
  | .resume => some ([], b.resume p)
  | .finish => b.finishAt data p
  | .finishNext => b.finishAt data (p + 1)
  | .preFinish => some ([.preFinish], b)
  | .responseComplete => some ([.responseComplete], b)
  | .fault => none

/-- The calls `cs` come before the calls of an action. -/
def after {σ : Type} (cs : List Call) (r : σ × List Call) : σ × List Call := (r.1, cs ++ r.2)

/-- A parser: its own fields, its body block, and the history of what it did. `fault` is set by a
call through a null pointer, and where an action is undefined; after that nothing runs any more. -/
structure Parser (σ : Type) where
  core : σ
  bodyBlock : BlockExec
  log : List Effect
  fault : Bool

namespace Parser
variable {σ : Type}

/-- The constructor. -/
def new (core : σ) : Parser σ := ⟨core, .init, [], false⟩

def perform (s : Parser σ) : Option (List Effect × BlockExec) → Parser σ
  | none => { s with fault := true }
  | some (es, b) => { s with bodyBlock := b, log := s.log ++ es }

def call (data : Text) (p : ℕ) (s : Parser σ) (c : Call) : Parser σ :=
  if s.fault then s else s.perform (c.exec data p s.bodyBlock)

end Parser

/-- The block without its pointers: closed, with its destination set or not, or open; or the parser is
gone. -/
inductive Mode
  | fault
  | closed (set : Bool)
  | opened
  deriving DecidableEq

/-- The mode after a call, `none` if the call does not fit. -/
def Mode.call : Mode → Call → Option Mode
  | .fault, _ => some .fault
  | m, .preFinish => some m
  | m, .responseComplete => some m
  | .closed set, .vpt _ => some (.closed set)
  | .closed _, .destination _ => some (.closed true)
  | .closed _, .fault => some .fault
  | .closed set, .start => some (if set then .opened else .fault)
  | .closed true, .resume => some .opened
  | .opened, .pause => some (.closed true)
  | .opened, .finish => some (.closed false)
  | .opened, .finishNext => some (.closed false)
  | .closed set, .finish => some (if set then .closed false else .fault)
  | .closed set, .finishNext => some (if set then .closed false else .fault)
  | _, _ => none

/-- A machine over the bytes of a stream. `Allows` gives the modes the block can be in at a state. -/
structure Machine (σ : Type) where
  step : σ → UInt8 → σ × List Call
  isError : σ → Bool
  Allows : σ → Mode → Prop

namespace Machine
variable {σ : Type} (M : Machine σ)

/-- `%% write exec` over the bytes that are left, the first of them at the position `p`. -/
def exec (data : Text) : Text → ℕ → Parser σ → Parser σ
  | [], _, s => s
  | b :: rest, p, s =>
      let r := M.step s.core b
      let s := r.2.foldl (Parser.call data p) { s with core := r.1 }
      if s.fault || M.isError s.core then s else exec data rest (p + 1) s

def receive (s : Parser σ) (data : Text) : Parser σ :=
  if s.fault || M.isError s.core then s
  else
    let s := M.exec data data 0 { s with bodyBlock := s.bodyBlock.preExec }
    if s.fault || M.isError s.core then s
    else s.perform (s.bodyBlock.postExec data data.length)

end Machine

/-! ## What can be seen of a run -/

/-- The calls on the tree and on the destinations of bodies, with the bytes of a body one by one. -/
inductive Obs
  | vpt (c : VptCall)
  | start (d : Dest)
  | byte (d : Dest) (b : UInt8)
  | finish (d : Dest)
  deriving DecidableEq

def Effect.obs : Effect → List Obs
  | .vpt c => [.vpt c]
  | .start d => [.start d]
  | .receive d data => data.map (.byte d)
  | .finish d => [.finish d]
  | .preFinish => []
  | .responseComplete => []

/-- A log without the cuts between the `receive` calls on the destinations. -/
def trace (log : List Effect) : List Obs := log.flatMap Effect.obs

/-- The calls on the tree. -/
def vptCalls (log : List Effect) : List VptCall :=
  log.filterMap fun
    | .vpt c => some c
    | _ => none

def Obs.isDelivery : Obs → Bool
  | .vpt _ => false
  | _ => true

/-- What the destinations of bodies get: the calls of `start` and `finish`, and the bytes between. -/
def deliveries (log : List Effect) : List Obs := (trace log).filter Obs.isDelivery

/-- Two parsers that have done the same and are in the same state. Of the block only the pointer into
the buffer of the last `receive` call is left out. -/
structure SameRun {σ : Type} (s t : Parser σ) : Prop where
  vptCalls : vptCalls s.log = vptCalls t.log
  deliveries : deliveries s.log = deliveries t.log
  core : s.core = t.core
  isOpen : s.bodyBlock.isOpen = t.bodyBlock.isOpen
  output : s.bodyBlock.output = t.bodyBlock.output
  fault : s.fault = t.fault

/-- A parser as it is seen byte by byte, without pointers into a buffer. -/
structure View (σ : Type) where
  core : σ
  isOpen : Bool
  output : Option Dest
  trace : List Obs
  fault : Bool

def Parser.view {σ : Type} (s : Parser σ) : View σ :=
  ⟨s.core, s.bodyBlock.isOpen, s.bodyBlock.output, trace s.log, s.fault⟩

namespace View
variable {σ : Type}

/-- What `finish` does once the last byte has been counted in. -/
def close (v : View σ) (d : Dest) : View σ :=
  { v with isOpen := false, output := none, trace := v.trace ++ [.finish d] }

/-- The byte at the position goes to the open body. -/
def take (v : View σ) (b : UInt8) : View σ :=
  if v.isOpen then { v with trace := v.trace ++ v.output.toList.map (.byte · b) } else v

/-- A call made while the byte `b` is at the position. -/
def call (b : UInt8) (v : View σ) (c : Call) : View σ :=
  if v.fault then v
  else match c with
    | .vpt c => { v with trace := v.trace ++ [.vpt c] }
    | .destination d => { v with output := some d }
    | .start =>
        match v.output with
        | none => { v with fault := true }
        | some d => { v with isOpen := true, trace := v.trace ++ [.start d] }
    | .pause => { v.take b with isOpen := false }
    | .resume => { v with isOpen := true }
    | .finish =>
        match v.output with
        | none => { v with fault := true }
        | some d => v.close d
    | .finishNext =>
        match v.output with
        | none => { v with fault := true }
        | some d => (v.take b).close d
    | .preFinish => v
    | .responseComplete => v
    | .fault => { v with fault := true }

end View

/-- A byte, seen without pointers. -/
def Machine.viewStep {σ : Type} (M : Machine σ) (v : View σ) (b : UInt8) : View σ :=
  if v.fault || M.isError v.core then v
  else
    let r := M.step v.core b
    (r.2.foldl (View.call b) { v with core := r.1 }).take b

end Netp.Parse
