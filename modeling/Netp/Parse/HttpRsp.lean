import Netp.Parse.HttpReq

/-! # The HTTP response parser (`parse/httprsp.rl`)

The state machine that Ragel builds from `http_response`, with its actions. The leaving actions `uri`
and `header` run on the byte after the status line or the header, before the entering actions of what
that byte begins. `fgoto` leaves an action at once.
-/

namespace Netp.Parse
open Netp.Lib
set_option autoImplicit false

/-- The states of `http_response`. -/
inductive RspState
  | error
  -- main
  | main | version | versionEnd | status | statusEnd | reason | lineCr | lineEnd
  | name | colon | value | valueCr | valueEnd | headEndCr
  -- consume_length and consume_all, before their first byte and after it
  | consumeLength | inLength | consumeAll | inAll
  -- consume_first_chunk and consume_next_chunk
  | consumeFirstChunk | inFirstChunk | consumeNextChunk | inNextChunk
  -- chunked
  | chunked | chunkedCr | chunkSize | chunkExt | inChunkExt | chunkCr
  deriving DecidableEq

/-- The fields of `HttpResponseParser` without its body block. `cookies` and `location` hold the header
lines from which the source fills the members of these names. -/
structure HttpResponse where
  cs : RspState
  buf : Text
  buf1 : Text
  buf2 : Text
  contentLength : ℤ
  chunkLength : ℤ
  isGzipped : Bool
  isBrotli : Bool
  isChunked : Bool
  isConnectionClose : Bool
  chunks : ℤ
  contentType : ContentType
  /-- `source != 0` -/
  source : Bool
  wantCookies : Bool
  cookies : List Text
  wantLocation : Bool
  location : List Text

/-- `[A-Fa-f0-9]` -/
def isHexChar (b : UInt8) : Bool :=
  (65 ≤ b ∧ b ≤ 70) ∨ (97 ≤ b ∧ b ≤ 102) ∨ (48 ≤ b ∧ b ≤ 57)

namespace HttpResponse

/-- The constructor; the members it leaves alone are zero here. -/
def init (source wantCookies wantLocation : Bool) : HttpResponse where
  cs := .error
  buf := []
  buf1 := []
  buf2 := []
  contentLength := 0
  chunkLength := 0
  isGzipped := false
  isBrotli := false
  isChunked := false
  isConnectionClose := false
  chunks := 0
  contentType := .unspecified
  source := source
  wantCookies := wantCookies
  cookies := []
  wantLocation := wantLocation
  location := []

def goto (s : HttpResponse) (cs : RspState) : HttpResponse := { s with cs := cs }

def clear (s : HttpResponse) : HttpResponse := { s with buf := [] }
def clear1 (s : HttpResponse) : HttpResponse := { s with buf1 := [] }
def clear2 (s : HttpResponse) : HttpResponse := { s with buf2 := [] }
def append (s : HttpResponse) (b : UInt8) : HttpResponse := { s with buf := s.buf ++ [b] }
def append1 (s : HttpResponse) (b : UInt8) : HttpResponse := { s with buf1 := s.buf1 ++ [b] }
def append2 (s : HttpResponse) (b : UInt8) : HttpResponse := { s with buf2 := s.buf2 ++ [b] }

def destination (s : HttpResponse) : Dest where
  coding := if s.isGzipped then .gzip else if s.isBrotli then .brotli else .plain
  split := s.source

/-- `action uri` -/
def uri (s : HttpResponse) : HttpResponse × List Call :=
  ({ s with
      contentType := .unspecified
      contentLength := -1
      isGzipped := false
      isBrotli := false
      isChunked := false
      isConnectionClose := false
      chunks := 0
      buf := [] },
    [.vpt .consumePair, .vpt (.push .httpResponse), .vpt (.push .httpHead)])

/-- The tests of `action header`: the line in `buf` begins with `name`, its length counts the zero
byte at its end. -/
def isHeader (buf : Text) (name : String) (n : ℕ) : Bool :=
  n ≤ buf.length && strncaseeq buf (bytes name) n

/-- `action header`: what it reads from the line. -/
def readHeader (s : HttpResponse) (buf : Text) : HttpResponse where
  cs := s.cs
  buf := []
  buf1 := s.buf1 ++ [0]
  buf2 := s.buf2 ++ [0]
  contentLength := if isHeader buf "Content-Length:" 15 then atoi (buf.drop 15) else s.contentLength
  chunkLength := s.chunkLength
  isGzipped := s.isGzipped ||
    isHeader buf "Content-Encoding:" 17 && strstr buf (bytes "gzip")
  isBrotli := s.isBrotli ||
    isHeader buf "Content-Encoding:" 17 && strstr buf (bytes "br")
  isChunked := s.isChunked ||
    isHeader buf "Transfer-Encoding:" 18 && strstr buf (bytes "chunked")
  isConnectionClose := s.isConnectionClose ||
    isHeader buf "Connection:" 11 && strstr buf (bytes "close")
  chunks := s.chunks
  contentType :=
    if 15 ≤ buf.length ∧ bytes "Content-Type:" <+: buf then
      if strstr (buf.drop 13) (bytes "application/json") then .applicationJson else .other
    else s.contentType
  source := s.source
  wantCookies := s.wantCookies
  cookies := if s.wantCookies ∧ isHeader buf "Set-Cookie:" 11 then s.cookies ++ [buf] else s.cookies
  wantLocation := s.wantLocation
  location :=
    if s.wantLocation ∧ 9 ≤ buf.length ∧ bytes "Location:" <+: buf then s.location ++ [buf]
    else s.location

/-- `String( buf.data + 12, p - buf.data - 12 )`, with `p` at the first semicolon of a cookie, has a negative
length. -/
def cookieFault (buf : Text) : Bool :=
  isHeader buf "Set-Cookie:" 11 && (strchr buf 59).any (· < 12)

/-- A location is looked for behind the end of its line, or the line does not end in `'\r'`. -/
def locationFault (buf : Text) : Bool :=
  decide (9 ≤ buf.length ∧ bytes "Location:" <+: buf) &&
    match strchr (buf.drop 10) 58 with
    | none => false
    | some i =>
        decide (buf.length ≤ 10 + i + 3) ||
          match strchr (buf.drop (10 + i + 3)) 47 with
          | none => false
          | some j => (strchr (buf.drop (10 + i + 3 + j)) 13).isNone

def headerFault (s : HttpResponse) (buf : Text) : Bool :=
  s.wantCookies && cookieFault buf || s.wantLocation && locationFault buf

/-- `action header` -/
def header (s : HttpResponse) : HttpResponse × List Call :=
  (s.readHeader (s.buf ++ [0]),
    (if s.headerFault (s.buf ++ [0]) then [.fault] else []) ++ headerCalls (s.buf1 ++ [0]) (s.buf2 ++ [0]))

/-- `action fin`; the state is that of the transition unless there is a `fgoto`. -/
def fin (s : HttpResponse) : HttpResponse × List Call :=
  if s.contentLength = 0 then
    let s := { s with isGzipped := false, isBrotli := false }
    (s.goto .main, [.vpt (.pop .httpHead), .destination s.destination, .start, .finish,
      .vpt (.pop .httpResponse)])
  else if 0 < s.contentLength then (s.goto .consumeLength, [.vpt (.pop .httpHead)])
  else if s.isChunked then (s.goto .chunked, [.vpt (.pop .httpHead)])
  else if s.isConnectionClose then (s.goto .consumeAll, [.vpt (.pop .httpHead)])
  else (s.goto .main, [.vpt (.pop .httpHead), .vpt (.pop .httpResponse)])

/-- `bodyBlockFinish`. -/
def bodyBlockFinish (s : HttpResponse) : List Call :=
  if s.source then [.preFinish, .finishNext, .responseComplete] else [.finishNext]

/-- The finishing action of `consume_length` and of `consume_all`, which goes on in `inside`. -/
def consume (s : HttpResponse) (inside : RspState) : HttpResponse × List Call :=
  let s := { s with contentLength := toInt (s.contentLength - 1) }
  if s.contentLength ≤ 0 then (s.goto .main, s.bodyBlockFinish ++ [.vpt (.pop .httpResponse)])
  else (s.goto inside, [])

/-- The finishing action of `consume_first_chunk` and of `consume_next_chunk`. -/
def consumeChunk (s : HttpResponse) (inside : RspState) : HttpResponse × List Call :=
  let s := { s with chunkLength := toInt (s.chunkLength - 1) }
  if s.chunkLength = 0 then (s.goto .chunked, [.pause]) else (s.goto inside, [])

/-- The action at the end of a chunk header. -/
def chunkHeader (s : HttpResponse) : HttpResponse × List Call :=
  let s := { s with buf := s.buf ++ [0] }
  let s := { s with chunkLength := toInt (strtol s.buf 16) }
  if s.chunkLength = 0 then (s.goto .main, s.bodyBlockFinish ++ [.vpt (.pop .httpResponse)])
  else if s.chunks = 0 then
    ({ s with chunks := toInt (s.chunks + 1) }.goto .consumeFirstChunk, [])
  else ({ s with chunks := toInt (s.chunks + 1) }.goto .consumeNextChunk, [])

/-- What follows the status line, or a header: another header, or the end of the head. `r` is the
leaving action. -/
def afterLine (s : HttpResponse) (r : HttpResponse × List Call) (b : UInt8) :
    HttpResponse × List Call :=
  if isNameChar b then ((((r.1.clear1).append1 b).append b).goto .name, r.2)
  else if b = 13 then (r.1.goto .headEndCr, r.2)
  else if b = 10 then after r.2 r.1.fin
  else (s.goto .error, [])

/-- The transitions of `( [^\r\n] | '\r'? '\n' [ \t] )* '\r'? '\n'`. -/
def inValue (s : HttpResponse) (b : UInt8) : HttpResponse × List Call :=
  let s := (s.append2 b).append b
  if b = 13 then (s.goto .valueCr, [])
  else if b = 10 then (s.goto .valueEnd, [])
  else (s.goto .value, [])

/-- One byte of the stream. A byte that no transition takes leads to `http_response_error`. -/
def step (s : HttpResponse) (b : UInt8) : HttpResponse × List Call :=
  match s.cs with
  | .error => (s, [])
  | .main => if b ≠ 32 then ((s.append b).goto .version, []) else (s.goto .error, [])
  | .version =>
      if b ≠ 32 then ((s.append b).goto .version, []) else ((s.append b).goto .versionEnd, [])
  | .versionEnd => if b ≠ 32 then ((s.append b).goto .status, []) else (s.goto .error, [])
  | .status =>
      if b ≠ 32 then ((s.append b).goto .status, []) else ((s.append b).goto .statusEnd, [])
  | .statusEnd => if isLineChar b then ((s.append b).goto .reason, []) else (s.goto .error, [])
  | .reason =>
      if isLineChar b then ((s.append b).goto .reason, [])
      else if b = 13 then ((s.append b).goto .lineCr, [])
      else ((s.append b).goto .lineEnd, [])
  | .lineCr => if b = 10 then ((s.append b).goto .lineEnd, []) else (s.goto .error, [])
  | .lineEnd => s.afterLine s.uri b
  | .name =>
      if isNameChar b then (((s.append1 b).append b).goto .name, [])
      else if b = 58 then ((s.append b).goto .colon, [])
      else (s.goto .error, [])
  | .colon => inValue s.clear2 b
  | .value => inValue s b
  | .valueCr =>
      if b = 10 then (((s.append2 b).append b).goto .valueEnd, []) else (s.goto .error, [])
  | .valueEnd =>
      if b = 32 ∨ b = 9 then (((s.append2 b).append b).goto .value, [])
      else s.afterLine s.header b
  | .headEndCr => if b = 10 then s.fin else (s.goto .error, [])
  | .consumeLength => after [.destination s.destination, .start] (s.consume .inLength)
  | .inLength => s.consume .inLength
  | .consumeAll => after [.destination s.destination, .start] (s.consume .inAll)
  | .inAll => s.consume .inAll
  | .consumeFirstChunk =>
      after [.destination s.destination, .start] (s.consumeChunk .inFirstChunk)
  | .inFirstChunk => s.consumeChunk .inFirstChunk
  | .consumeNextChunk => after [.resume] (s.consumeChunk .inNextChunk)
  | .inNextChunk => s.consumeChunk .inNextChunk
  | .chunked =>
      if b = 13 then (s.goto .chunkedCr, [])
      else if b = 10 then (s.goto .chunked, [])
      else if isHexChar b then (((s.clear).append b).goto .chunkSize, [])
      else (s.goto .error, [])
  | .chunkedCr => if b = 10 then (s.goto .chunked, []) else (s.goto .error, [])
  | .chunkSize =>
      if isHexChar b then ((s.append b).goto .chunkSize, [])
      else if b = 59 then (s.goto .chunkExt, [])
      else if b = 13 then (s.goto .chunkCr, [])
      else if b = 10 then s.chunkHeader
      else (s.goto .error, [])
  | .chunkExt => if isLineChar b then (s.goto .inChunkExt, []) else (s.goto .error, [])
  | .inChunkExt =>
      if isLineChar b then (s.goto .inChunkExt, [])
      else if b = 13 then (s.goto .chunkCr, [])
      else s.chunkHeader
  | .chunkCr => if b = 10 then s.chunkHeader else (s.goto .error, [])

end HttpResponse

namespace RspState

/-- The states of the headers, in which `chunks` has been reset. -/
def inHeaders : RspState → Bool
  | .name | .colon | .value | .valueCr | .valueEnd | .headEndCr => true
  | _ => false

/-- The states between the chunks of a body. -/
def betweenChunks : RspState → Bool
  | .chunked | .chunkedCr | .chunkSize | .chunkExt | .inChunkExt | .chunkCr => true
  | _ => false

/-- The states in which the bytes are those of a body. -/
def inBody : RspState → Bool
  | .inLength | .inAll | .inFirstChunk | .inNextChunk => true
  | _ => false

end RspState

/-- The block is closed where no body is read; its destination is set once a chunk has been read. -/
structure HttpResponse.Closed (s : HttpResponse) (set : Bool) : Prop where
  inBody : s.cs.inBody = false
  reset : s.cs.inHeaders = true → s.chunks = 0
  set_of_next : s.cs = .consumeNextChunk → set = true
  set_of_chunks : s.cs.betweenChunks = true → s.chunks ≠ 0 → set = true

/-- The modes of the block that a state of the parser allows. -/
def HttpResponse.Allows (s : HttpResponse) : Mode → Prop
  | .fault => True
  | .opened => s.cs.inBody = true
  | .closed set => s.Closed set

def httpResponse : Machine HttpResponse where
  step := HttpResponse.step
  isError s := s.cs = .error
  Allows := HttpResponse.Allows

/-- `HttpResponseParser::start`. -/
def startResponse (s : Parser HttpResponse) : Parser HttpResponse :=
  { s with core := s.core.goto .main, log := s.log ++ [.vpt (.push .langHttp)] }

/-! ## The calls of every byte fit -/

namespace HttpResponse

variable {s : HttpResponse} {set : Bool} {b : UInt8}

/-- The states of which nothing is asked but that the block is closed. -/
theorem closed_of_plain (hbody : s.cs.inBody = false) (hhead : s.cs.inHeaders = false)
    (hchunks : s.cs.betweenChunks = false) (hnext : s.cs ≠ .consumeNextChunk) : s.Closed set where
  inBody := hbody
  reset h := by rw [hhead] at h; cases h
  set_of_next h := absurd h hnext
  set_of_chunks h := by rw [hchunks] at h; cases h

theorem closed_of_inHeaders (hhead : s.cs.inHeaders = true) (hzero : s.chunks = 0) : s.Closed set := by
  refine ⟨?_, fun _ => hzero, ?_, fun _ h => absurd hzero h⟩
  · cases hcs : s.cs <;> simp_all [RspState.inHeaders, RspState.inBody]
  · intro h
    rw [h] at hhead
    cases hhead

theorem closed_of_betweenChunks (hchunks : s.cs.betweenChunks = true)
    (hset : s.chunks ≠ 0 → set = true) : s.Closed set := by
  refine ⟨?_, ?_, ?_, fun _ h => hset h⟩ <;>
    cases hcs : s.cs <;> simp_all [RspState.inHeaders, RspState.inBody, RspState.betweenChunks]

theorem keeps_plain {cs : RspState} (hbody : cs.inBody = false) (hhead : cs.inHeaders = false)
    (hchunks : cs.betweenChunks = false) (hnext : cs ≠ .consumeNextChunk) :
    Keeps Allows (.closed set) (s.goto cs, []) :=
  Keeps.goto (closed_of_plain hbody hhead hchunks hnext)

theorem keeps_error : Keeps Allows (.closed set) (s.goto .error, []) :=
  keeps_plain rfl rfl rfl RspState.noConfusion

theorem fin_keeps (hzero : s.chunks = 0) : Keeps Allows (.closed set) s.fin := by
  unfold fin
  split_ifs
  · exact ⟨_, rfl, closed_of_plain rfl rfl rfl (by simp [goto])⟩
  · exact ⟨_, rfl, closed_of_plain rfl rfl rfl (by simp [goto])⟩
  · exact ⟨_, rfl, closed_of_betweenChunks rfl (absurd hzero)⟩
  · exact ⟨_, rfl, closed_of_plain rfl rfl rfl (by simp [goto])⟩
  · exact ⟨_, rfl, closed_of_plain rfl rfl rfl (by simp [goto])⟩

theorem afterLine_keeps {r : HttpResponse × List Call}
    (hcs : r.2.foldlM Mode.call (.closed set) = some (.closed set)) (hzero : r.1.chunks = 0) :
    Keeps Allows (.closed set) (s.afterLine r b) := by
  unfold afterLine
  split_ifs
  · exact ⟨_, hcs, closed_of_inHeaders rfl hzero⟩
  · exact ⟨_, hcs, closed_of_inHeaders rfl hzero⟩
  · exact Keeps.after hcs (fin_keeps hzero)
  · exact keeps_error

theorem calls_fault (cs : List Call) : cs.foldlM Mode.call .fault = some .fault := by
  induction cs with
  | nil => rfl
  | cons c cs ih => exact ih

/-- What is undefined leaves nothing to keep. -/
theorem afterLine_keeps_fault {r : HttpResponse × List Call}
    (hcs : r.2.foldlM Mode.call (.closed set) = some .fault) :
    Keeps Allows (.closed set) (s.afterLine r b) := by
  unfold afterLine
  split_ifs
  · exact ⟨_, hcs, trivial⟩
  · exact ⟨_, hcs, trivial⟩
  · exact Keeps.after hcs ⟨_, calls_fault _, trivial⟩
  · exact keeps_error

theorem header_keeps (hzero : s.chunks = 0) : Keeps Allows (.closed set) (s.afterLine s.header b) := by
  cases hfault : s.headerFault (s.buf ++ [0]) with
  | true =>
    refine afterLine_keeps_fault ?_
    simp only [header, hfault, if_true, List.cons_append, List.foldlM_cons]
    exact calls_fault _
  | false =>
    refine afterLine_keeps ?_ hzero
    simp only [header, hfault, Bool.false_eq_true, if_false, List.nil_append]
    rfl

theorem inValue_keeps (hzero : s.chunks = 0) : Keeps Allows (.closed set) (s.inValue b) := by
  unfold inValue
  simp only
  split_ifs
  · exact Keeps.goto (closed_of_inHeaders rfl hzero)
  · exact Keeps.goto (closed_of_inHeaders rfl hzero)
  · exact Keeps.goto (closed_of_inHeaders rfl hzero)

/-- `bodyBlockFinish` and the end of the response, with a body open. -/
theorem finish_calls_opened :
    (s.bodyBlockFinish ++ [Call.vpt (.pop .httpResponse)]).foldlM Mode.call .opened =
      some (.closed false) := by
  unfold bodyBlockFinish
  split_ifs <;> rfl

theorem finish_calls_closed :
    (s.bodyBlockFinish ++ [Call.vpt (.pop .httpResponse)]).foldlM Mode.call (.closed set) =
      some (if set then .closed false else .fault) := by
  unfold bodyBlockFinish
  cases set <;> cases s.source <;> rfl

theorem consume_keeps {inside : RspState} (hin : inside.inBody = true) :
    Keeps Allows .opened (s.consume inside) := by
  unfold consume
  simp only
  split_ifs
  · exact ⟨_, finish_calls_opened, closed_of_plain rfl rfl rfl (by simp [goto])⟩
  · exact Keeps.goto hin

theorem consumeChunk_keeps {inside : RspState} (hin : inside.inBody = true) :
    Keeps Allows .opened (s.consumeChunk inside) := by
  unfold consumeChunk
  simp only
  split_ifs
  · exact ⟨_, rfl, closed_of_betweenChunks rfl fun _ => rfl⟩
  · exact Keeps.goto hin

theorem chunkHeader_keeps (hset : s.chunks ≠ 0 → set = true) : Keeps Allows (.closed set) s.chunkHeader := by
  unfold chunkHeader
  simp only
  split_ifs with hlen hfirst
  · refine ⟨_, finish_calls_closed, ?_⟩
    cases set
    · trivial
    · exact closed_of_plain rfl rfl rfl (by simp [goto])
  · exact Keeps.goto (closed_of_plain rfl rfl rfl (by simp [goto]))
  · refine Keeps.goto ⟨rfl, ?_, fun _ => hset hfirst, ?_⟩
    · simp [goto, RspState.inHeaders]
    · simp [goto, RspState.betweenChunks]

theorem step_keeps_closed (h : s.Closed set) (b : UInt8) : Keeps Allows (.closed set) (s.step b) := by
  have hbody := h.inBody
  have hreset := h.reset
  have hnext := h.set_of_next
  have hset := h.set_of_chunks
  cases hcs : s.cs <;> rw [hcs] at hbody hreset hnext hset <;> simp only [step, hcs]
  case error => exact Keeps.goto h
  case lineEnd => exact afterLine_keeps rfl rfl
  case name =>
    split_ifs
    · exact Keeps.goto (closed_of_inHeaders rfl (hreset rfl))
    · exact Keeps.goto (closed_of_inHeaders rfl (hreset rfl))
    · exact keeps_error
  case colon => exact inValue_keeps (hreset rfl)
  case value => exact inValue_keeps (hreset rfl)
  case valueCr =>
    split_ifs
    · exact Keeps.goto (closed_of_inHeaders rfl (hreset rfl))
    · exact keeps_error
  case valueEnd =>
    split_ifs
    · exact Keeps.goto (closed_of_inHeaders rfl (hreset rfl))
    · exact header_keeps (hreset rfl)
  case headEndCr =>
    split_ifs
    · exact fin_keeps (hreset rfl)
    · exact keeps_error
  case consumeLength => exact Keeps.after rfl (consume_keeps rfl)
  case consumeAll => exact Keeps.after rfl (consume_keeps rfl)
  case consumeFirstChunk => exact Keeps.after rfl (consumeChunk_keeps rfl)
  case consumeNextChunk =>
    rw [hnext rfl]
    exact Keeps.after rfl (consumeChunk_keeps rfl)
  case inLength => cases hbody
  case inAll => cases hbody
  case inFirstChunk => cases hbody
  case inNextChunk => cases hbody
  case chunked =>
    split_ifs
    · exact Keeps.goto (closed_of_betweenChunks rfl (hset rfl))
    · exact Keeps.goto (closed_of_betweenChunks rfl (hset rfl))
    · exact Keeps.goto (closed_of_betweenChunks rfl (hset rfl))
    · exact keeps_error
  case chunkedCr =>
    split_ifs
    · exact Keeps.goto (closed_of_betweenChunks rfl (hset rfl))
    · exact keeps_error
  case chunkSize =>
    split_ifs
    · exact Keeps.goto (closed_of_betweenChunks rfl (hset rfl))
    · exact Keeps.goto (closed_of_betweenChunks rfl (hset rfl))
    · exact Keeps.goto (closed_of_betweenChunks rfl (hset rfl))
    · exact chunkHeader_keeps (hset rfl)
    · exact keeps_error
  case chunkExt =>
    split_ifs
    · exact Keeps.goto (closed_of_betweenChunks rfl (hset rfl))
    · exact keeps_error
  case inChunkExt =>
    split_ifs
    · exact Keeps.goto (closed_of_betweenChunks rfl (hset rfl))
    · exact Keeps.goto (closed_of_betweenChunks rfl (hset rfl))
    · exact chunkHeader_keeps (hset rfl)
  case chunkCr =>
    split_ifs
    · exact chunkHeader_keeps (hset rfl)
    · exact keeps_error
  -- the status line: no calls, and nothing is asked of these states
  all_goals split_ifs <;> exact keeps_plain rfl rfl rfl RspState.noConfusion

theorem step_keeps_opened (h : s.cs.inBody = true) (b : UInt8) : Keeps Allows .opened (s.step b) := by
  cases hcs : s.cs <;> rw [hcs] at h <;> simp only [step, hcs]
  case inLength => exact consume_keeps rfl
  case inAll => exact consume_keeps rfl
  case inFirstChunk => exact consumeChunk_keeps rfl
  case inNextChunk => exact consumeChunk_keeps rfl
  all_goals cases h

end HttpResponse

theorem httpResponse_lawful : httpResponse.Lawful where
  closed_of_isError s he ho := by
    have herr : s.cs = .error := by simpa [httpResponse] using he
    have hbody : s.cs.inBody = true := ho
    rw [herr] at hbody
    cases hbody
  keeps s b m _ hm hallows := by
    cases m with
    | fault => exact absurd rfl hm
    | closed set => exact HttpResponse.step_keeps_closed hallows b
    | opened => exact HttpResponse.step_keeps_opened hallows b

theorem startResponse_ready (core : HttpResponse) :
    httpResponse.Ready (startResponse (.new core)).view where
  sound h := Bool.noConfusion h
  allows := HttpResponse.closed_of_plain rfl rfl rfl RspState.noConfusion

/-! ## Both parsers -/

/-- How a stream is cut into `receive` calls makes no difference, neither to the request parser nor to
the response parser. -/
theorem http_cuts :
    (∀ (core : HttpRequest) (before ds es : List Text), ds.flatten = es.flatten →
      let s := before.foldl httpRequest.receive (startRequest (.new core))
      SameRun (ds.foldl httpRequest.receive s) (es.foldl httpRequest.receive s)) ∧
    (∀ (core : HttpResponse) (before ds es : List Text), ds.flatten = es.flatten →
      let s := before.foldl httpResponse.receive (startResponse (.new core))
      SameRun (ds.foldl httpResponse.receive s) (es.foldl httpResponse.receive s)) := by
  constructor
  · intro core before ds es hcut
    exact Machine.sameRun httpRequest_lawful (startRequest_ready core) before hcut
  · intro core before ds es hcut
    exact Machine.sameRun httpResponse_lawful (startResponse_ready core) before hcut

/-- A chunked response cut inside a chunk and before the end of a header line. -/
theorem http_cuts_chunk :
    let s := startResponse (.new (HttpResponse.init false false false))
    let head := bytes "HTTP/1.1 200 OK\r\nTransfer-Encoding: chunked\r"
    SameRun
      ([head, [], bytes "\n\r\n3\r\na", bytes "bc\r\n0\r\n"].foldl httpResponse.receive s)
      ([head ++ bytes "\n\r\n3\r\nabc\r\n0\r\n"].foldl httpResponse.receive s) :=
  http_cuts.2 (HttpResponse.init false false false) [] _ _ (by decide)

end Netp.Parse
