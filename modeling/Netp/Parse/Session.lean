import Netp.Parse.HttpRsp
import Netp.Parse.Body

/-! # A stream of responses and the tree

The response parser of `HttpRsp` with what it works on: the tree, the body parser, and the decoder in
between. `Session` performs the effects of the parser when they are made. Inflating gzip and brotli is
left to a function of the pieces that have gone in.

A step is `none` where the behaviour of the source is undefined: a call of a null handler of a pattern,
or an overflow of the counter of the chunks.
-/

namespace Netp.Parse
open Netp.Lib
set_option autoImplicit false

/-- What `Gzip` or `Brotli` passes on for a piece, after the pieces before it. -/
abbrev Decode := Coding → List Text → Text → List Text

/-- History: a response that is complete. -/
structure Completed where
  /-- The tree before its status line. -/
  before : VPT
  after : VPT
  contentType : ContentType
  /-- The calls of `receive` on the body parser. -/
  pieces : List Text

structure Session where
  parser : Parser HttpResponse
  vpt : VPT
  /-- The pairs of the requests without a response, with the patterns they bring. -/
  pairRecv : List (Option PatNode)
  /-- What has gone into the decoder of the body. -/
  encoded : List Text
  body : BodyParser
  /-- History: the tree before the response that is being read. -/
  before : VPT
  /-- History: what its body parser has been given. -/
  pieces : List Text
  responses : List Completed

namespace Session
variable (decode : Decode) (packet : Bool)

/-- The tree after `start`, which has pushed `LangHttp`. -/
def new (core : HttpResponse) (v : VPT) : Session where
  parser := startResponse (.new core)
  vpt := v
  pairRecv := []
  encoded := []
  body := .start
  before := v
  pieces := []
  responses := []

def vptCall (s : Session) : VptCall → Option Session
  | .push type => (s.vpt.push type).map fun v => { s with vpt := v }
  | .pop type => (s.vpt.pop type).map fun r => { s with vpt := r.1 }
  | .setText text => some { s with vpt := s.vpt.setText text }
  | .consumePair =>
      match s.pairRecv with
      | [] => some s
      | none :: ps => some { s with pairRecv := ps }
      | some pat :: ps => some { s with pairRecv := ps, vpt := s.vpt.addPat pat }
  | .generatePair => some s
  | .setConsumer => some s

/-- `bodyParser.receive` -/
def bodyReceive (s : Session) (data : Text) : Option Session :=
  (s.body.receive s.parser.core.contentType packet s.vpt data).map fun r =>
    { s with body := r.1, vpt := r.2, pieces := s.pieces ++ [data] }

def effect (s : Session) : Effect → Option Session
  | .vpt c => s.vptCall c
  | .start _ => some { s with body := .start, encoded := [] }
  | .receive d data =>
      (if d.coding = .plain then [data] else decode d.coding s.encoded data).foldlM
        (bodyReceive packet) { s with encoded := s.encoded ++ [data] }
  | .finish _ => (s.body.finish s.vpt).map fun r => { s with body := r.1, vpt := r.2 }
  | .preFinish => some s
  | .responseComplete => some s

/-- What the parser has done on its way to `parser`. -/
def perform (s : Session) (parser : Parser HttpResponse) : Option Session :=
  (parser.log.drop s.parser.log.length).foldlM (effect decode packet) { s with parser := parser }

def call (data : Text) (p : ℕ) (s : Session) (c : Call) : Option Session :=
  s.perform decode packet (s.parser.call data p c)

/-- The history at the first byte of a response. -/
def begin (s : Session) : Session :=
  if s.parser.core.cs = .main then { s with before := s.vpt, pieces := [] } else s

/-- The history at the last byte of a response. -/
def complete (s : Session) : Session :=
  if s.parser.core.cs = .main ∧ s.parser.fault = false then
    { s with responses :=
        s.responses ++ [⟨s.before, s.vpt, s.parser.core.contentType, s.pieces⟩] }
  else s

def byte (data : Text) (p : ℕ) (s : Session) (b : UInt8) : Option Session :=
  let r := httpResponse.step s.parser.core b
  if r.1.chunks < 0 then none
  else
    (r.2.foldlM (call decode packet data p)
      { s.begin with parser := { s.parser with core := r.1 } }).map complete

def exec (data : Text) : Text → ℕ → Session → Option Session
  | [], _, s => some s
  | b :: rest, p, s =>
      (s.byte decode packet data p b).bind fun s =>
        if s.parser.fault || httpResponse.isError s.parser.core then some s
        else exec data rest (p + 1) s

def receive (s : Session) (data : Text) : Option Session :=
  if s.parser.fault || httpResponse.isError s.parser.core then some s
  else
    (exec decode packet data data 0
      { s with parser := { s.parser with bodyBlock := s.parser.bodyBlock.preExec } }).bind fun s =>
      if s.parser.fault || httpResponse.isError s.parser.core then some s
      else s.perform decode packet
        (s.parser.perform (s.parser.bodyBlock.postExec data data.length))

end Session

/-- What a session can get: data of the stream, or the pair of a request on the other side. -/
inductive Input
  | receive (data : Text)
  | pair (pat : Option PatNode)

def session (decode : Decode) (packet : Bool) (core : HttpResponse) (v : VPT) :
    System Session Input where
  init := .new core v
  step s
    | .receive data => s.receive decode packet data
    | .pair pat => some { s with pairRecv := s.pairRecv ++ [pat] }

end Netp.Parse
