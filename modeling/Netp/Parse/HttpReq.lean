import Netp.Parse.Segment
import Netp.Lib.CString

/-! # The HTTP request parser (`parse/httpreq.rl`)

The state machine that Ragel builds from `http_request`, with its actions. The leaving actions run on
the byte after what they leave: `method` and `uri` on the blank, `protocol` on the end of the line,
`request_line` and `header` on the first byte of the next line, before its entering actions.
-/

namespace Netp.Parse
open Netp.Lib
set_option autoImplicit false

/-- `HttpBodyParser::ContentType`. -/
inductive ContentType
  | unspecified | other | applicationJson
  deriving DecidableEq

/-- `[A-Za-z_0-9\-]` -/
def isNameChar (b : UInt8) : Bool :=
  (65 ≤ b ∧ b ≤ 90) ∨ (97 ≤ b ∧ b ≤ 122) ∨ b = 95 ∨ (48 ≤ b ∧ b ≤ 57) ∨ b = 45

/-- `[^\r\n]` -/
def isLineChar (b : UInt8) : Bool := b ≠ 13 ∧ b ≠ 10

/-- The calls that put a header into the tree. -/
def headerCalls (name value : Text) : List Call :=
  [.vpt (.push .httpHeader),
    .vpt (.push .httpHeaderName), .vpt (.setText (cstr name)), .vpt (.pop .httpHeaderName),
    .vpt (.push .httpHeaderValue), .vpt (.setText (cstr value)), .vpt (.pop .httpHeaderValue),
    .vpt (.pop .httpHeader)]

/-- The states of `http_request`. -/
inductive ReqState
  | error
  -- main
  | main | method | methodEnd | uri | uriEnd | protocol | lineCr | lineEnd
  | name | colon | value | valueCr | valueEnd | headEndCr
  -- consume, before its first byte and after it
  | consume | inConsume
  deriving DecidableEq

/-- The fields of `HttpRequestParser` without its body block. -/
structure HttpRequest where
  cs : ReqState
  buf1 : Text
  buf2 : Text
  contentLength : ℤ
  contentType : ContentType

namespace HttpRequest

/-- The constructor; the members it leaves alone are zero here. -/
def init : HttpRequest := ⟨.error, [], [], 0, .unspecified⟩

def goto (s : HttpRequest) (cs : ReqState) : HttpRequest := { s with cs := cs }

def clear1 (s : HttpRequest) : HttpRequest := { s with buf1 := [] }
def clear2 (s : HttpRequest) : HttpRequest := { s with buf2 := [] }
def append1 (s : HttpRequest) (b : UInt8) : HttpRequest := { s with buf1 := s.buf1 ++ [b] }
def append2 (s : HttpRequest) (b : UInt8) : HttpRequest := { s with buf2 := s.buf2 ++ [b] }

/-- `action request_line` -/
def requestLine (s : HttpRequest) : HttpRequest × List Call :=
  ({ s with contentType := .unspecified, contentLength := -1 }, [])

/-- The chomping of `action header`, of a buffer with a zero byte at its end. -/
def chomp (buf : Text) : Text :=
  let len := buf.length
  if 2 ≤ len ∧ buf[len - 2]? = some 10 then
    let buf := buf.set (len - 2) 0
    if 3 ≤ len ∧ buf[len - 3]? = some 13 then buf.set (len - 3) 0 else buf
  else buf

/-- `action header` -/
def header (s : HttpRequest) : HttpRequest × List Call :=
  let buf1 := s.buf1 ++ [0]
  let buf2 := chomp (s.buf2 ++ [0])
  let hd := buf2.dropWhile fun b => b = 9 ∨ b = 32
  ({ s with
      contentLength := if strcaseeq buf1 (bytes "Content-Length") then atoi hd else s.contentLength
      buf1 := []
      buf2 := [] },
    headerCalls buf1 buf2)

/-- `action fin`; the state is that of the transition unless there is a `fgoto`. -/
def fin (s : HttpRequest) : HttpRequest × List Call :=
  if 0 < s.contentLength then (s.goto .consume, [.vpt (.pop .httpHead)])
  else (s.goto .main, [.vpt (.pop .httpHead), .vpt (.pop .httpRequest)])

/-- The finishing action of `consume`. -/
def consumeByte (s : HttpRequest) : HttpRequest × List Call :=
  let s := { s with contentLength := toInt (s.contentLength - 1) }
  if s.contentLength ≤ 0 then (s.goto .main, [.finishNext, .vpt (.pop .httpRequest)])
  else (s.goto .inConsume, [])

/-- The node of a part of the request line, with the text in `buf1`. -/
def lineCalls (s : HttpRequest) (type : NodeType) : List Call :=
  [.vpt (.push type), .vpt (.setText (cstr (s.buf1 ++ [0]))), .vpt (.pop type)]

/-- What `action method`, `action uri` and `action protocol` leave in `buf1`. -/
def terminate1 (s : HttpRequest) : HttpRequest := s.append1 0

/-- `action method` -/
def method (s : HttpRequest) : HttpRequest × List Call :=
  (s.terminate1, [.vpt .generatePair, .vpt (.push .httpRequest), .vpt .setConsumer,
    .vpt (.push .httpHead)] ++ s.lineCalls .httpMethod)

/-- `action uri` -/
def uri (s : HttpRequest) : HttpRequest × List Call := (s.terminate1, s.lineCalls .httpUri)

/-- `action protocol` -/
def protocol (s : HttpRequest) : HttpRequest × List Call := (s.terminate1, s.lineCalls .httpProtocol)

/-- A transition after an action. -/
def andGoto (r : HttpRequest × List Call) (cs : ReqState) : HttpRequest × List Call :=
  (r.1.goto cs, r.2)

/-- What follows the request line, or a header: another header, or the end of the head. `r` is the
leaving action. -/
def afterLine (s : HttpRequest) (r : HttpRequest × List Call) (b : UInt8) : HttpRequest × List Call :=
  if isNameChar b then (((r.1.clear1).append1 b).goto .name, r.2)
  else if b = 13 then andGoto r .headEndCr
  else if b = 10 then after r.2 r.1.fin
  else (s.goto .error, [])

/-- The transitions of `( [^\r\n] | '\r'? '\n' [ \t] )* '\r'? '\n'`. -/
def inValue (s : HttpRequest) (b : UInt8) : HttpRequest × List Call :=
  if b = 13 then ((s.append2 b).goto .valueCr, [])
  else if b = 10 then ((s.append2 b).goto .valueEnd, [])
  else ((s.append2 b).goto .value, [])

/-- `[A-Z]` -/
def isMethodChar (b : UInt8) : Bool := 65 ≤ b ∧ b ≤ 90

/-- One byte of the stream. A byte that no transition takes leads to `http_request_error`. -/
def step (s : HttpRequest) (b : UInt8) : HttpRequest × List Call :=
  match s.cs with
  | .error => (s, [])
  | .main =>
      if isMethodChar b then (((s.clear1).append1 b).goto .method, []) else (s.goto .error, [])
  | .method =>
      if isMethodChar b then ((s.append1 b).goto .method, [])
      else if b = 32 then andGoto s.method .methodEnd
      else (s.goto .error, [])
  | .methodEnd => if b ≠ 32 then (((s.clear1).append1 b).goto .uri, []) else (s.goto .error, [])
  | .uri => if b ≠ 32 then ((s.append1 b).goto .uri, []) else andGoto s.uri .uriEnd
  | .uriEnd =>
      if isLineChar b then (((s.clear1).append1 b).goto .protocol, []) else (s.goto .error, [])
  | .protocol =>
      if isLineChar b then ((s.append1 b).goto .protocol, [])
      else if b = 13 then andGoto s.protocol .lineCr
      else andGoto s.protocol .lineEnd
  | .lineCr => if b = 10 then (s.goto .lineEnd, []) else (s.goto .error, [])
  | .lineEnd => s.afterLine s.requestLine b
  | .name =>
      if isNameChar b then ((s.append1 b).goto .name, [])
      else if b = 58 then (s.goto .colon, [])
      else (s.goto .error, [])
  | .colon => inValue s.clear2 b
  | .value => inValue s b
  | .valueCr => if b = 10 then ((s.append2 b).goto .valueEnd, []) else (s.goto .error, [])
  | .valueEnd =>
      if b = 32 ∨ b = 9 then ((s.append2 b).goto .value, []) else s.afterLine s.header b
  | .headEndCr => if b = 10 then s.fin else (s.goto .error, [])
  | .consume => after [.destination ⟨.plain, false⟩, .start] s.consumeByte
  | .inConsume => s.consumeByte

/-- The modes of the block that a state of the parser allows. -/
def Allows (s : HttpRequest) : Mode → Prop
  | .fault => True
  | .opened => s.cs = .inConsume
  | .closed _ => s.cs ≠ .inConsume

end HttpRequest

def httpRequest : Machine HttpRequest where
  step := HttpRequest.step
  isError s := s.cs = .error
  Allows := HttpRequest.Allows

/-- `HttpRequestParser::start`. -/
def startRequest (s : Parser HttpRequest) : Parser HttpRequest := { s with core := s.core.goto .main }

/-! ## The calls of every byte fit -/

namespace HttpRequest
variable {s : HttpRequest} {set : Bool} {b : UInt8}

/-- An action that calls only the tree, and a transition to a state without a body. -/
theorem keeps_closed {t : HttpRequest} {cs : List Call}
    (hcs : cs.foldlM Mode.call (.closed set) = some (.closed set)) (ht : t.cs ≠ .inConsume) :
    Keeps Allows (.closed set) (t, cs) := ⟨_, hcs, ht⟩

theorem fin_keeps : Keeps Allows (.closed set) s.fin := by
  unfold fin
  split_ifs
  · exact keeps_closed rfl ReqState.noConfusion
  · exact keeps_closed rfl ReqState.noConfusion

theorem afterLine_keeps {r : HttpRequest × List Call}
    (hcs : r.2.foldlM Mode.call (.closed set) = some (.closed set)) :
    Keeps Allows (.closed set) (s.afterLine r b) := by
  unfold afterLine
  split_ifs
  · exact keeps_closed hcs ReqState.noConfusion
  · exact keeps_closed hcs ReqState.noConfusion
  · exact Keeps.after hcs fin_keeps
  · exact keeps_closed rfl ReqState.noConfusion

theorem consumeByte_keeps : Keeps Allows .opened s.consumeByte := by
  unfold consumeByte
  simp only
  split_ifs
  · exact ⟨.closed false, rfl, ReqState.noConfusion⟩
  · exact Keeps.goto rfl

theorem step_keeps_closed (h : s.cs ≠ .inConsume) (b : UInt8) :
    Keeps Allows (.closed set) (s.step b) := by
  cases hcs : s.cs <;> simp only [step, hcs]
  case error => exact keeps_closed rfl h
  case lineEnd => exact afterLine_keeps rfl
  case colon => unfold inValue; split_ifs <;> exact keeps_closed rfl ReqState.noConfusion
  case value => unfold inValue; split_ifs <;> exact keeps_closed rfl ReqState.noConfusion
  case valueEnd =>
    split_ifs
    · exact keeps_closed rfl ReqState.noConfusion
    · exact afterLine_keeps rfl
  case headEndCr =>
    split_ifs
    · exact fin_keeps
    · exact keeps_closed rfl ReqState.noConfusion
  case consume => exact Keeps.after rfl consumeByte_keeps
  case inConsume => exact absurd hcs h
  all_goals split_ifs <;> exact keeps_closed rfl ReqState.noConfusion

end HttpRequest

theorem httpRequest_lawful : httpRequest.Lawful where
  closed_of_isError s he ho := by
    have herr : s.cs = .error := by simpa [httpRequest] using he
    have hin : s.cs = .inConsume := ho
    rw [herr] at hin
    cases hin
  keeps s b m _ hm hallows := by
    cases m with
    | fault => exact absurd rfl hm
    | closed set => exact HttpRequest.step_keeps_closed hallows b
    | opened =>
      have hin : s.cs = .inConsume := hallows
      have hstep : httpRequest.step s b = s.consumeByte := by
        simp only [httpRequest, HttpRequest.step, hin]
      rw [hstep]
      exact HttpRequest.consumeByte_keeps

theorem startRequest_ready (core : HttpRequest) : httpRequest.Ready (startRequest (.new core)).view where
  sound h := Bool.noConfusion h
  allows := ReqState.noConfusion

end Netp.Parse
