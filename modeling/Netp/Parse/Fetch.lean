import Netp.Parse.HttpRsp

/-! # The connection a fetch sends its requests on (`parse/fetch.h`, `parse/connection.cc`)

A `FetchConnection` is the source of its response parser: `preFinish` and `responseComplete` run inside
`readReady`, and the next request is written from there. What is `outstanding` follows from the history
of the socket. As long as every write takes the whole request the state tells the same
(`state_sound`); a write that falls short closes the connection, and `maybeSend` goes on to say that the
request was sent (`not_sound_of_short`).

The event loop calls `connectComplete` for a descriptor that is being connected and `readReady` for one
that is established. What `read` returns comes with the event, what `time` and `write` return are the
`turns` of the calls of `maybeSend`.
-/

namespace Netp.Parse
open Netp.Lib
set_option autoImplicit false

structure Request where
  consumer : ℕ
  content : Text

/-- `FetchConnection::State`. -/
inductive State
  | disconnected | connecting | sent | idle
  deriving DecidableEq

/-- How far the descriptor is: looked up and connected, or `TlsEstablished`. -/
inductive SelectFd
  | connecting | established
  deriving DecidableEq

/-- What the system calls of a `maybeSend` return: `time(0)`, `write`, and `time(0)` again. -/
structure Turn where
  now : ℤ
  nbytes : ℤ
  later : ℤ

/-! ## What is outstanding on a socket -/

/-- The history of the socket. -/
inductive LinkEvent
  | opened
  | wrote (content : Text) (nbytes : ℤ)
  /-- The parser has come to the end of a response. -/
  | completed
  | closed
  deriving DecidableEq

/-- What has been written on the socket of the requests without a response. -/
def LinkEvent.after (written : List Text) : LinkEvent → List Text
  | .opened => []
  | .wrote content nbytes => written ++ [content.take nbytes.toNat]
  | .completed => written.tail
  | .closed => []

def outstanding (history : List LinkEvent) : List Text := history.foldl LinkEvent.after []

theorem outstanding_append (history : List LinkEvent) (e : LinkEvent) :
    outstanding (history ++ [e]) = e.after (outstanding history) := by
  rw [outstanding, List.foldl_append]
  rfl

/-- The write took the whole request. -/
def LinkEvent.Whole : LinkEvent → Prop
  | .wrote content nbytes => nbytes = content.length
  | _ => True

/-! ## The connection -/

/-- `FetchConnection`; `turns` are the answers to come. -/
structure FetchConnection where
  state : State
  lastSend : ℤ
  throttleDelay : ℤ
  fetchHost : Text
  requestList : List Request
  requestParser : Parser HttpRequest
  responseParser : Parser HttpResponse
  selectFd : Option SelectFd
  closed : Bool
  turns : ℕ → Turn
  /-- A null pointer was used, or a request is longer than an `int`. -/
  fault : Bool
  /-- History: what the response side did, the start of a body with the consumer it is for. -/
  seen : List (Option ℕ × Effect)
  history : List LinkEvent

namespace FetchConnection

/-- The constructor. -/
def new (throttleDelay : ℤ) (turns : ℕ → Turn) : FetchConnection where
  state := .disconnected
  lastSend := 0
  throttleDelay := throttleDelay
  fetchHost := []
  requestList := []
  requestParser := .new .init
  responseParser := .new (.init true true true)
  selectFd := none
  closed := false
  turns := turns
  fault := false
  seen := []
  history := []

def crash (c : FetchConnection) : FetchConnection := { c with fault := true }

def note (c : FetchConnection) (e : LinkEvent) : FetchConnection := { c with history := c.history ++ [e] }

/-- `Connection::initiate` -/
def initiate (c : FetchConnection) : FetchConnection := { c.note .opened with selectFd := some .connecting }

/-- `Connection::close` -/
def close (c : FetchConnection) : FetchConnection := { c.note .closed with selectFd := none, closed := true }

/-- `requestList.detachFirst()` -/
def detachFirst (c : FetchConnection) : FetchConnection :=
  match c.requestList with
  | [] => c.crash
  | _ :: rest => { c with requestList := rest }

/-- The request parser reads what is written. -/
def parseRequest (c : FetchConnection) (content : Text) : FetchConnection :=
  let length := toInt content.length
  if length < 0 then c.crash
  else
    let parser := httpRequest.receive c.requestParser (content.take length.toNat)
    { c with requestParser := parser, fault := c.fault || parser.fault }

/-- `Connection::write`, `none` through a null pointer. -/
def write (c : FetchConnection) (length : ℤ) (answer : ℤ) : Option ℤ :=
  if length ≤ 0 then some 0 else c.selectFd.map fun _ => toInt answer

/-- What `maybeSend` does with the result of `write`. -/
def written (c : FetchConnection) (content : Text) (nbytes later : ℤ) : FetchConnection :=
  let c := c.note (.wrote content nbytes)
  let c := if nbytes ≠ toInt content.length then { c.close with state := .disconnected } else c
  { c with state := .sent, lastSend := later }

/-- The body of `maybeSend`, with the answers of its calls. -/
def send (c : FetchConnection) (request : Request) (turn : Turn) : FetchConnection :=
  let c := c.parseRequest request.content
  if c.fault then c
  else
    match c.write (toInt request.content.length) turn.nbytes with
    | none => c.crash
    | some nbytes => c.written request.content nbytes turn.later

/-- The answers of one call of `maybeSend` are used up. -/
def takeTurn (c : FetchConnection) : FetchConnection := { c with turns := fun n => c.turns (n + 1) }

def maybeSend (c : FetchConnection) : FetchConnection :=
  match c.state, c.requestList with
  | .idle, request :: _ =>
      if (c.turns 0).now - c.lastSend > c.throttleDelay then c.takeTurn.send request (c.turns 0)
      else c.takeTurn
  | _, _ => c

def preFinish (c : FetchConnection) : FetchConnection :=
  let c := (c.note .completed).detachFirst
  if c.fault then c else { c with state := .idle }

def responseComplete (c : FetchConnection) : FetchConnection := c.maybeSend

def nextConsumer (c : FetchConnection) : Option ℕ := c.requestList.head?.map Request.consumer

def see (c : FetchConnection) (consumer : Option ℕ) (e : Effect) : FetchConnection :=
  { c with seen := c.seen ++ [(consumer, e)] }

/-- What the response parser does to the connection. `destination` asks for the next consumer right
before the body starts. -/
def effect (c : FetchConnection) (e : Effect) : FetchConnection :=
  if c.fault then c
  else match e with
    | .start _ => if c.nextConsumer = none then c.crash else c.see c.nextConsumer e
    | .preFinish => c.preFinish
    | .responseComplete => c.responseComplete
    | .vpt _ => c.see none e
    | .receive _ _ => c.see none e
    | .finish _ => c.see none e

/-- The response parser has gone on to `parser`. -/
def perform (c : FetchConnection) (parser : Parser HttpResponse) : FetchConnection :=
  let effects := parser.log.drop c.responseParser.log.length
  let c := effects.foldl effect { c with responseParser := parser }
  { c with fault := c.fault || parser.fault }

def dataAvail (c : FetchConnection) (bytes : Text) : FetchConnection :=
  if c.fault then c else c.perform (httpResponse.receive c.responseParser bytes)

/-- What `connectComplete` puts into the two trees. -/
def hostCalls (host : Text) : List VptCall :=
  [.push .connTls, .push .connHost, .setText host, .pop .connHost]

/-- The first half of `connectComplete`: both parsers start, below the host in their trees. -/
def startParsers (c : FetchConnection) : FetchConnection :=
  let request := startRequest c.requestParser
  let response := startResponse c.responseParser
  let calls := (hostCalls c.fetchHost).map Effect.vpt
  let c := { c with requestParser := { request with log := request.log ++ calls } }
  c.perform { response with log := response.log ++ calls }

def connectComplete (c : FetchConnection) : FetchConnection :=
  maybeSend { c.startParsers with state := .idle, lastSend := 0 }

/-- `read` returns the numbers of bytes in turn, `none` for a negative one. -/
def readReady (c : FetchConnection) : List (Option Text) → FetchConnection
  | [] => c
  | none :: _ => { c.close with state := .disconnected }
  | some [] :: _ => c
  | some (b :: bytes) :: reads =>
      let c := c.dataAvail (b :: bytes)
      if c.fault || c.closed then c else readReady c reads

def getGoing (c : FetchConnection) (host : Text) : FetchConnection :=
  let c := { c with fetchHost := host }
  if c.requestList ≠ [] ∧ c.state = .disconnected then { c.initiate with state := .connecting } else c

def timer (c : FetchConnection) : FetchConnection := c.maybeSend

def queueRequest (c : FetchConnection) (request : Request) : FetchConnection :=
  maybeSend { c with requestList := c.requestList ++ [request] }

def disconnect (c : FetchConnection) : FetchConnection :=
  let c := c.close
  let c := if c.state = .sent then c.detachFirst else c
  if c.fault then c else { c with state := .disconnected }

end FetchConnection

inductive FetchEvent
  | queueRequest (request : Request)
  | getGoing (host : Text)
  | connectComplete
  | readReady (reads : List (Option Text))
  | timer
  | disconnect

def fetchConnection (throttleDelay : ℤ) (turns : ℕ → Turn) : System FetchConnection FetchEvent where
  init := .new throttleDelay turns
  step c e :=
    if c.fault then none
    else match e with
      | .queueRequest request => some (c.queueRequest request)
      | .getGoing host => some (c.getGoing host)
      | .connectComplete =>
          if c.selectFd = some .connecting then
            some (FetchConnection.connectComplete { c with selectFd := some .established })
          else none
      | .readReady reads => if c.selectFd = some .established then some (c.readReady reads) else none
      | .timer => some c.timer
      | .disconnect => some c.disconnect

/-! ## The state and the socket -/

/-- The state of the connection tells what is on the socket. -/
structure FetchConnection.Sound (c : FetchConnection) : Prop where
  sent : c.state = .sent → c.selectFd = some .established ∧
    ∃ request rest, c.requestList = request :: rest ∧ outstanding c.history = [request.content]
  closed : c.selectFd = none → c.state = .disconnected
  /-- At any time. -/
  one : ∀ h, h <+: c.history → (outstanding h).length ≤ 1

namespace FetchConnection
variable {c d e : FetchConnection} {fd : Option SelectFd}

/-- The descriptor and what is outstanding, in each state. -/
def Matches (c : FetchConnection) : Prop :=
  match c.state with
  | .disconnected => c.selectFd = none ∧ outstanding c.history = []
  | .connecting => c.selectFd = some .connecting ∧ outstanding c.history = []
  | .idle => c.selectFd = some .established ∧ outstanding c.history = []
  | .sent => c.selectFd = some .established ∧
      ∃ request rest, c.requestList = request :: rest ∧ outstanding c.history = [request.content]

/-- The invariant, with the descriptor as it is. -/
structure At (fd : Option SelectFd) (c : FetchConnection) : Prop where
  state : c.Matches
  one : ∀ h, h <+: c.history → (outstanding h).length ≤ 1
  selectFd : c.selectFd = fd

theorem At.sound (h : c.At fd) : c.Sound := by
  have hstate := h.state
  refine ⟨?_, ?_, h.one⟩
  · intro hs
    rw [Matches, hs] at hstate
    exact hstate
  · intro hfd
    cases hs : c.state <;> simp only [Matches, hs] at hstate
    · rfl
    all_goals
      rw [hstate.1] at hfd
      cases hfd

/-- One more event in the history, after which at most one request is outstanding. -/
theorem At.one_append (h : c.At fd) {e : LinkEvent} (he : (e.after (outstanding c.history)).length ≤ 1) :
    ∀ x, x <+: c.history ++ [e] → (outstanding x).length ≤ 1 := by
  intro x hx
  rcases List.prefix_concat_iff.1 hx with rfl | hx
  · rw [outstanding_append]
    exact he
  · exact h.one x hx

/-- From `c` to `d` the history grows, and as long as all writes are whole `P` leads to `Q`. -/
structure Goes (P Q : FetchConnection → Prop) (c d : FetchConnection) : Prop where
  grows : c.history <+: d.history
  keeps : (∀ e ∈ d.history, e.Whole) → P c → Q d

theorem Goes.trans {P Q R : FetchConnection → Prop} (h : Goes P Q c d) (h' : Goes Q R d e) :
    Goes P R c e where
  grows := h.grows.trans h'.grows
  keeps hwhole hP := h'.keeps hwhole (h.keeps (fun x hx => hwhole x (h'.grows.subset hx)) hP)

theorem goes_of_eq (hstate : d.state = c.state) (hlist : d.requestList = c.requestList)
    (hfd : d.selectFd = c.selectFd) (hhist : d.history = c.history) : Goes (At fd) (At fd) c d where
  grows := by rw [hhist]
  keeps _ h := by
    refine ⟨?_, ?_, hfd.trans h.selectFd⟩
    · have hm := h.state
      simp only [Matches, hstate, hlist, hfd, hhist] at hm ⊢
      exact hm
    · rw [hhist]
      exact h.one

theorem parseRequest_eq (c : FetchConnection) (content : Text) :
    (c.parseRequest content).state = c.state ∧ (c.parseRequest content).requestList = c.requestList ∧
      (c.parseRequest content).selectFd = c.selectFd ∧ (c.parseRequest content).history = c.history := by
  unfold parseRequest
  simp only
  split_ifs <;> exact ⟨rfl, rfl, rfl, rfl⟩

theorem toInt_toInt (v : ℤ) : toInt (toInt v) = toInt v := Int.bmod_bmod

/-- A result of `write` that is the size of the request is what `maybeSend` compares with. -/
theorem write_whole {content : Text} {answer nbytes : ℤ}
    (hw : c.write (toInt content.length) answer = some nbytes) (hn : nbytes = content.length) :
    nbytes = toInt content.length := by
  unfold write at hw
  split_ifs at hw with hle
  · obtain rfl := Option.some.inj hw
    rw [← hn]
    exact (toInt_of_lt (by norm_num) (by norm_num)).symm
  · obtain ⟨_, -, rfl⟩ := Option.map_eq_some_iff.1 hw
    rw [← hn, toInt_toInt]

theorem crash_goes (c : FetchConnection) : Goes (At fd) (At fd) c c.crash := goes_of_eq rfl rfl rfl rfl

theorem written_short {content : Text} {nbytes : ℤ} (h : nbytes ≠ toInt content.length) (later : ℤ) :
    c.written content nbytes later =
      { (c.note (.wrote content nbytes)).close with state := .sent, lastSend := later } := by
  unfold written
  simp only [ne_eq, h, not_false_eq_true, if_true]

theorem written_whole {content : Text} {nbytes : ℤ} (h : nbytes = toInt content.length) (later : ℤ) :
    c.written content nbytes later =
      { c.note (.wrote content nbytes) with state := .sent, lastSend := later } := by
  unfold written
  simp only [ne_eq, h, not_true_eq_false, if_false]

theorem written_goes {request : Request} {rest : List Request} {nbytes : ℤ} (hidle : c.state = .idle)
    (hlist : c.requestList = request :: rest)
    (hn : nbytes = request.content.length → nbytes = toInt request.content.length) (later : ℤ) :
    Goes (At fd) (At fd) c (c.written request.content nbytes later) := by
  by_cases hsize : nbytes = toInt request.content.length
  · rw [written_whole hsize]
    refine ⟨List.prefix_append _ _, ?_⟩
    intro hwhole h
    have hall : nbytes = request.content.length :=
      hwhole (.wrote request.content nbytes) List.mem_concat_self
    have hm := h.state
    rw [Matches, hidle] at hm
    have htake : request.content.take nbytes.toNat = request.content := by
      rw [hall]
      simp
    have hout : outstanding (c.history ++ [.wrote request.content nbytes]) = [request.content] := by
      rw [outstanding_append, hm.2, LinkEvent.after, htake]
      rfl
    refine ⟨⟨hm.1, request, rest, hlist, hout⟩, h.one_append ?_, h.selectFd⟩
    rw [hm.2]
    exact le_rfl
  · rw [written_short hsize]
    refine ⟨(List.prefix_append _ _).trans (List.prefix_append _ _), ?_⟩
    intro hwhole _
    exact absurd (hn (hwhole (.wrote request.content nbytes) (List.mem_append_left _ List.mem_concat_self)))
      hsize

theorem send_goes {request : Request} {rest : List Request} (hidle : c.state = .idle)
    (hlist : c.requestList = request :: rest) (turn : Turn) :
    Goes (At fd) (At fd) c (c.send request turn) := by
  obtain ⟨hstate, hrequests, hfd, hhist⟩ := parseRequest_eq c request.content
  unfold send
  generalize c.parseRequest request.content = d at hstate hrequests hfd hhist
  refine (goes_of_eq hstate hrequests hfd hhist).trans ?_
  simp only
  split_ifs with hfault
  · exact goes_of_eq rfl rfl rfl rfl
  · cases hw : d.write (toInt request.content.length) turn.nbytes with
    | none => exact crash_goes d
    | some nbytes =>
      exact written_goes (hstate.trans hidle) (hrequests.trans hlist) (write_whole hw) turn.later

theorem maybeSend_idle {request : Request} {rest : List Request} (hidle : c.state = .idle)
    (hlist : c.requestList = request :: rest) : c.maybeSend =
      if (c.turns 0).now - c.lastSend > c.throttleDelay then c.takeTurn.send request (c.turns 0)
      else c.takeTurn := by
  rw [maybeSend, hidle, hlist]

theorem maybeSend_other (h : c.state = .idle → c.requestList = []) : c.maybeSend = c := by
  unfold maybeSend
  cases hs : c.state with
  | idle => rw [h hs]
  | _ => rfl

theorem maybeSend_goes (c : FetchConnection) : Goes (At fd) (At fd) c c.maybeSend := by
  by_cases hother : c.state = .idle → c.requestList = []
  · rw [maybeSend_other hother]
    exact goes_of_eq rfl rfl rfl rfl
  · obtain ⟨hidle, hne⟩ := Classical.not_imp.1 hother
    obtain ⟨request, rest, hlist⟩ := List.exists_cons_of_ne_nil hne
    have hturn : Goes (At fd) (At fd) c c.takeTurn := goes_of_eq rfl rfl rfl rfl
    rw [maybeSend_idle hidle hlist]
    split_ifs
    · exact hturn.trans (send_goes (c := c.takeTurn) hidle hlist _)
    · exact hturn

/-- What is established is idle, with nothing outstanding, or waits for the response of the first
request. -/
theorem At.established (h : c.At (some .established)) :
    (c.state = .idle ∧ outstanding c.history = []) ∨ (c.state = .sent ∧
      ∃ request rest, c.requestList = request :: rest ∧ outstanding c.history = [request.content]) := by
  have hm := h.state
  have hfd := h.selectFd
  cases hs : c.state <;> simp only [Matches, hs] at hm
  · rw [hm.1] at hfd
    cases hfd
  · rw [hm.1] at hfd
    cases hfd
  · exact .inr ⟨rfl, hm.2⟩
  · exact .inl ⟨rfl, hm.2⟩

theorem preFinish_eq (hf : c.fault = false) :
    c.preFinish = (match c.requestList with
      | [] => (c.note .completed).crash
      | _ :: rest => { c.note .completed with requestList := rest, state := .idle }) := by
  unfold preFinish detachFirst
  have hlist : (c.note .completed).requestList = c.requestList := rfl
  have hfault : (c.note .completed).fault = false := hf
  rw [hlist]
  cases c.requestList with
  | nil => rfl
  | cons request rest => simp only [hfault, Bool.false_eq_true, if_false]

/-- A response that ends leaves nothing outstanding, whether it was asked for or not. -/
theorem preFinish_goes (hf : c.fault = false) :
    Goes (At (some .established)) (At (some .established)) c c.preFinish := by
  have hone : c.At (some .established) →
      outstanding (c.history ++ [.completed]) = [] ∧
        ∀ x, x <+: c.history ++ [.completed] → (outstanding x).length ≤ 1 := by
    intro h
    have hnone : outstanding (c.history ++ [.completed]) = [] := by
      rw [outstanding_append]
      rcases h.established with ⟨-, hout⟩ | ⟨-, request, rest, -, hout⟩ <;> rw [hout] <;> rfl
    refine ⟨hnone, h.one_append ?_⟩
    rw [← outstanding_append, hnone]
    exact Nat.zero_le 1
  rw [preFinish_eq hf]
  cases hlist : c.requestList with
  | nil =>
    refine ⟨List.prefix_append _ _, ?_⟩
    intro _ h
    obtain ⟨hnone, hle⟩ := hone h
    rcases h.established with ⟨hidle, -⟩ | ⟨-, request, rest, hsent, -⟩
    · refine ⟨?_, hle, h.selectFd⟩
      have hstate : (c.note .completed).crash.state = .idle := hidle
      rw [Matches, hstate]
      exact ⟨h.selectFd, hnone⟩
    · rw [hlist] at hsent
      cases hsent
  | cons request rest =>
    refine ⟨List.prefix_append _ _, ?_⟩
    intro _ h
    obtain ⟨hnone, hle⟩ := hone h
    exact ⟨⟨h.selectFd, hnone⟩, hle, h.selectFd⟩

theorem effect_goes (c : FetchConnection) (e : Effect) :
    Goes (At (some .established)) (At (some .established)) c (c.effect e) := by
  unfold effect
  cases hf : c.fault with
  | true => exact goes_of_eq rfl rfl rfl rfl
  | false =>
    rw [if_neg Bool.false_ne_true]
    cases e with
    | start d =>
      simp only
      split_ifs <;> exact goes_of_eq rfl rfl rfl rfl
    | preFinish => exact preFinish_goes hf
    | responseComplete => exact maybeSend_goes c
    | vpt v => exact goes_of_eq rfl rfl rfl rfl
    | receive d data => exact goes_of_eq rfl rfl rfl rfl
    | finish d => exact goes_of_eq rfl rfl rfl rfl

theorem effects_goes (es : List Effect) :
    ∀ c : FetchConnection, Goes (At (some .established)) (At (some .established)) c (es.foldl effect c) := by
  induction es with
  | nil => exact fun c => goes_of_eq rfl rfl rfl rfl
  | cons e es ih => exact fun c => (effect_goes c e).trans (ih _)

theorem perform_goes (c : FetchConnection) (parser : Parser HttpResponse) :
    Goes (At (some .established)) (At (some .established)) c (c.perform parser) := by
  have hfirst : Goes (At (some .established)) (At (some .established)) c
      { c with responseParser := parser } := goes_of_eq rfl rfl rfl rfl
  exact (hfirst.trans (effects_goes _ _)).trans (goes_of_eq rfl rfl rfl rfl)

theorem dataAvail_goes (c : FetchConnection) (bytes : Text) :
    Goes (At (some .established)) (At (some .established)) c (c.dataAvail bytes) := by
  unfold dataAvail
  split_ifs
  · exact goes_of_eq rfl rfl rfl rfl
  · exact perform_goes c _

/-- Some descriptor, and the invariant. -/
def Inv (c : FetchConnection) : Prop := ∃ fd, c.At fd

theorem close_goes (c : FetchConnection) : Goes (At fd) Inv c { c.close with state := .disconnected } where
  grows := List.prefix_append _ _
  keeps _ h := by
    have hnone : outstanding (c.history ++ [.closed]) = [] := outstanding_append _ _
    exact ⟨none, ⟨rfl, hnone⟩, h.one_append (Nat.zero_le 1), rfl⟩

theorem effects_vpt (cs : List VptCall) :
    ∀ {c : FetchConnection}, c.fault = false → (cs.map Effect.vpt).foldl effect c =
      { c with seen := c.seen ++ cs.map fun v => (none, .vpt v) } := by
  induction cs with
  | nil =>
    intro c _
    rw [List.map_nil, List.map_nil, List.append_nil]
    rfl
  | cons v cs ih =>
    intro c hf
    have hfirst : c.effect (.vpt v) = c.see none (.vpt v) := by
      rw [effect, if_neg (by rw [hf]; exact Bool.false_ne_true)]
    have hnext := ih (c := c.see none (.vpt v)) hf
    rw [List.map_cons, List.foldl_cons, hfirst, hnext, see, List.append_assoc]
    rfl

theorem perform_vpt (hf : c.fault = false) (parser : Parser HttpResponse) {cs : List VptCall}
    (hlog : parser.log = c.responseParser.log ++ cs.map .vpt) :
    c.perform parser = { c with
      responseParser := parser
      seen := c.seen ++ cs.map fun v => (none, .vpt v)
      fault := parser.fault } := by
  have heffects := effects_vpt cs (c := { c with responseParser := parser }) hf
  unfold perform
  simp only [hlog, List.drop_left]
  rw [heffects]
  simp only [hf, Bool.false_or]

/-- What the response side sees of the start of a connection. -/
def startCalls (host : Text) : List VptCall := .push .langHttp :: hostCalls host

theorem startParsers_eq (hf : c.fault = false) :
    c.startParsers = { c with
      requestParser := { startRequest c.requestParser with
        log := c.requestParser.log ++ (hostCalls c.fetchHost).map .vpt }
      responseParser := { c.responseParser with
        core := c.responseParser.core.goto .main
        log := c.responseParser.log ++ (startCalls c.fetchHost).map .vpt }
      seen := c.seen ++ (startCalls c.fetchHost).map fun v => (none, .vpt v)
      fault := c.responseParser.fault } := by
  have hlog : (startResponse c.responseParser).log ++ (hostCalls c.fetchHost).map Effect.vpt =
      c.responseParser.log ++ (startCalls c.fetchHost).map Effect.vpt := List.append_assoc _ _ _
  have hrun := perform_vpt (c := { c with
    requestParser := { startRequest c.requestParser with
      log := c.requestParser.log ++ (hostCalls c.fetchHost).map .vpt } }) hf
    { c.responseParser with
      core := c.responseParser.core.goto .main
      log := c.responseParser.log ++ (startCalls c.fetchHost).map .vpt } rfl
  unfold startParsers
  simp only [hlog]
  exact hrun

theorem connectComplete_goes (hf : c.fault = false) :
    Goes (At (some .connecting)) Inv c (connectComplete { c with selectFd := some .established }) := by
  have hstart := startParsers_eq (c := { c with selectFd := some .established }) hf
  unfold connectComplete
  rw [hstart]
  refine Goes.trans (Q := At (some .established)) ?_ ((maybeSend_goes _).trans ⟨List.prefix_rfl, ?_⟩)
  · refine ⟨List.prefix_rfl, ?_⟩
    intro _ h
    have hm := h.state
    have hfd := h.selectFd
    have hnone : outstanding c.history = [] := by
      cases hs : c.state <;> simp only [Matches, hs] at hm
      · exact hm.2
      · exact hm.2
      · rw [hm.1] at hfd
        cases hfd
      · exact hm.2
    exact ⟨⟨rfl, hnone⟩, h.one, rfl⟩
  · exact fun _ h => ⟨_, h⟩

theorem readReady_goes (reads : List (Option Text)) :
    ∀ c : FetchConnection, Goes (At (some .established)) Inv c (c.readReady reads) := by
  have hstop : ∀ c : FetchConnection, Goes (At (some .established)) Inv c c :=
    fun c => ⟨List.prefix_rfl, fun _ h => ⟨_, h⟩⟩
  induction reads with
  | nil => exact hstop
  | cons read reads ih =>
    intro c
    cases read with
    | none => exact close_goes c
    | some bytes =>
      cases bytes with
      | nil => exact hstop c
      | cons b bytes =>
        refine (dataAvail_goes c (b :: bytes)).trans ?_
        rw [readReady]
        split_ifs
        · exact hstop _
        · exact ih _

theorem getGoing_goes (c : FetchConnection) (host : Text) : Goes (At fd) Inv c (c.getGoing host) := by
  unfold getGoing
  simp only
  split_ifs
  · refine ⟨List.prefix_append _ _, ?_⟩
    intro _ h
    have hnone : outstanding (c.history ++ [.opened]) = [] := outstanding_append _ _
    exact ⟨some .connecting, ⟨rfl, hnone⟩, h.one_append (Nat.zero_le 1), rfl⟩
  · refine ⟨List.prefix_rfl, ?_⟩
    exact fun _ h => ⟨fd, ⟨h.state, h.one, h.selectFd⟩⟩

theorem queueRequest_goes (c : FetchConnection) (request : Request) :
    Goes (At fd) Inv c (c.queueRequest request) := by
  have hlist : Goes (At fd) (At fd) c { c with requestList := c.requestList ++ [request] } := by
    refine ⟨List.prefix_rfl, ?_⟩
    intro _ h
    refine ⟨?_, h.one, h.selectFd⟩
    have hm := h.state
    unfold Matches at hm ⊢
    cases hs : c.state <;> simp only [hs] at hm ⊢
    · exact hm
    · exact hm
    · obtain ⟨hfd, first, rest, hfirst, hout⟩ := hm
      exact ⟨hfd, first, rest ++ [request], by rw [hfirst]; rfl, hout⟩
    · exact hm
  refine (hlist.trans (maybeSend_goes _)).trans ⟨List.prefix_rfl, ?_⟩
  exact fun _ h => ⟨fd, h⟩

theorem disconnect_goes (c : FetchConnection) (hf : c.fault = false) :
    Goes (At fd) Inv c c.disconnect := by
  have hfault : ¬ c.close.fault = true := by
    rw [show c.close.fault = false from hf]
    exact Bool.false_ne_true
  unfold disconnect
  by_cases hs : c.close.state = .sent
  · simp only [if_pos hs, detachFirst]
    cases hlist : c.close.requestList with
    | nil =>
      -- the request that was sent is in the list
      refine ⟨List.prefix_append _ _, ?_⟩
      intro _ h
      obtain ⟨-, request, rest, hrequests, -⟩ := h.sound.sent hs
      have hempty : c.requestList = [] := hlist
      rw [hempty] at hrequests
      cases hrequests
    | cons request rest =>
      rw [if_neg hfault]
      refine ⟨List.prefix_append _ _, ?_⟩
      intro hwhole h
      obtain ⟨fd', h'⟩ := (close_goes c).keeps hwhole h
      exact ⟨fd', ⟨h'.state, h'.one, h'.selectFd⟩⟩
  · simp only [if_neg hs, if_neg hfault]
    exact close_goes c

theorem Goes.of_selectFd {fd' : Option SelectFd} (h : Goes (At fd') Inv c d) (hfd : c.selectFd = fd') :
    Goes (At fd) Inv c d where
  grows := h.grows
  keeps hwhole hc := h.keeps hwhole ⟨hc.state, hc.one, hfd⟩

theorem step_goes {throttleDelay : ℤ} {turns : ℕ → Turn} {event : FetchEvent}
    (hs : (fetchConnection throttleDelay turns).step c event = some d) : Goes (At fd) Inv c d := by
  cases hf : c.fault with
  | true => simp [fetchConnection, hf] at hs
  | false =>
    have hno : ¬ c.fault = true := by rw [hf]; exact Bool.false_ne_true
    simp only [fetchConnection, if_neg hno] at hs
    cases event with
    | queueRequest request => exact Option.some.inj hs ▸ queueRequest_goes c request
    | getGoing host => exact Option.some.inj hs ▸ getGoing_goes c host
    | connectComplete =>
      simp only [Option.ite_none_right_eq_some, Option.some.injEq] at hs
      exact hs.2 ▸ (connectComplete_goes hf).of_selectFd hs.1
    | readReady reads =>
      simp only [Option.ite_none_right_eq_some, Option.some.injEq] at hs
      exact hs.2 ▸ (readReady_goes reads c).of_selectFd hs.1
    | timer =>
      refine Option.some.inj hs ▸ (maybeSend_goes c).trans ⟨List.prefix_rfl, ?_⟩
      exact fun _ h => ⟨fd, h⟩
    | disconnect => exact Option.some.inj hs ▸ disconnect_goes c hf

theorem new_inv (throttleDelay : ℤ) (turns : ℕ → Turn) : (new throttleDelay turns).Inv := by
  refine ⟨none, ⟨rfl, rfl⟩, ?_, rfl⟩
  intro h hh
  rw [List.prefix_nil.1 hh]
  exact Nat.zero_le 1

end FetchConnection

/-- In a run in which every write takes the whole request, the state always tells what is on the
socket. -/
theorem state_sound (throttleDelay : ℤ) (turns : ℕ → Turn) {c : FetchConnection}
    (h : Reach (fetchConnection throttleDelay turns) c) (hwhole : ∀ e ∈ c.history, e.Whole) : c.Sound := by
  have hinv : (∀ e ∈ c.history, e.Whole) → c.Inv := by
    refine ReachIf.invariant (I := fun c => (∀ e ∈ c.history, e.Whole) → c.Inv) ?_ ?_ h
    · exact fun _ => FetchConnection.new_inv throttleDelay turns
    · intro c event d ih _ hs hd
      have hgoes : FetchConnection.Goes (FetchConnection.At none) FetchConnection.Inv c d :=
        FetchConnection.step_goes hs
      obtain ⟨fd, hc⟩ := ih fun e he => hd e (hgoes.grows.subset he)
      exact (FetchConnection.step_goes hs).keeps hd hc
  obtain ⟨fd, hc⟩ := hinv hwhole
  exact hc.sound

/-- A connection with one request, which the socket takes as far as `nbytes`. -/
def oneRequest (nbytes : ℤ) : System FetchConnection FetchEvent :=
  fetchConnection 1 fun _ => ⟨1000, nbytes, 1000⟩

def sendOne : List FetchEvent :=
  [.queueRequest ⟨0, bytes "GET / HTTP/1.1\r\n\r\n"⟩, .getGoing (bytes "host"), .connectComplete]

theorem state_sound_sent :
    ∃ c, Reach (oneRequest 18) c ∧ c.state = .sent ∧ c.Sound := by
  have hrun : (run (oneRequest 18) (oneRequest 18).init sendOne).map (fun c => (c.state, c.history)) =
      some (.sent, [.opened, .wrote (bytes "GET / HTTP/1.1\r\n\r\n") 18]) := rfl
  obtain ⟨c, hc, hfacts⟩ := Option.map_eq_some_iff.mp hrun
  obtain ⟨hsent, hhistory⟩ := Prod.mk.inj hfacts
  have hreach : Reach (oneRequest 18) c := Reach.run .init hc
  refine ⟨c, hreach, hsent, state_sound 1 (fun _ => ⟨1000, 18, 1000⟩) hreach ?_⟩
  rw [hhistory]
  intro e he
  rcases List.mem_pair.1 he with rfl | rfl
  · trivial
  · have hlen : (18 : ℤ) = (bytes "GET / HTTP/1.1\r\n\r\n").length := rfl
    exact hlen

/-- Whatever was before it, a write that falls short leaves the state wrong. -/
theorem not_sound_of_short (c : FetchConnection) {content : Text} {nbytes : ℤ}
    (h : nbytes ≠ toInt content.length) (later : ℤ) : ¬ (c.written content nbytes later).Sound := by
  intro hsound
  rw [FetchConnection.written_short h] at hsound
  cases hsound.closed rfl

theorem state_unsound : ¬ ∀ (throttleDelay : ℤ) (turns : ℕ → Turn) (c : FetchConnection),
    Reach (fetchConnection throttleDelay turns) c → c.Sound := by
  intro hall
  have hrun : (run (oneRequest 5) (oneRequest 5).init sendOne).map (fun c => (c.state, c.selectFd)) =
      some (.sent, none) := rfl
  obtain ⟨c, hc, hfacts⟩ := Option.map_eq_some_iff.mp hrun
  obtain ⟨hsent, hfd⟩ := Prod.mk.inj hfacts
  have hsound := hall 1 (fun _ => ⟨1000, 5, 1000⟩) c (Reach.run .init hc)
  have hstate := hsound.closed hfd
  rw [hsent] at hstate
  cases hstate

end Netp.Parse
