import Netp.Parse.HttpRsp

/-! # Identification of the protocol (`parse/ident.rl`, `parse/decrypted.cc`, `parse/tcp.cc`)

The packets of a connection go to the identifier of their half until one of the two halves is
recognised as HTTP; then both parsers are made, and the packet at hand and those after it go to the
parser of their half. What came before is not kept.
-/

namespace Netp.Parse
open Netp.Lib
set_option autoImplicit false

/-- The states of `identifier`: a number counts the bytes matched of a literal. -/
inductive IdentState
  | error | start
  -- 'GET ' [^ \r\n]+ ' HTTP/1.1' '\r'? '\n'
  | get (n : ℕ) | uri | inUri | http (n : ℕ) | reqCr
  -- 'HTTP/1.1 ' [^ \r\n]+ ' ' [^ \r\n]+ '\r'? '\n'
  | version (n : ℕ) | code | inCode | reason | inReason | rspCr
  | final
  deriving DecidableEq

inductive IdentProto
  | working | httpReq | httpRsp | unknown
  deriving DecidableEq

structure Identifier where
  cs : IdentState
  proto : IdentProto
  deriving DecidableEq

/-- `[^ \r\n]` -/
def isWordChar (b : UInt8) : Bool := b ≠ 32 ∧ b ≠ 13 ∧ b ≠ 10

/-- The next byte of a literal, of which `n` have been matched. -/
def literal (word : String) (n : ℕ) (b : UInt8) (more : ℕ → IdentState) (done : IdentState) : IdentState :=
  if (bytes word)[n]? = some b then
    if n + 1 = (bytes word).length then done else more (n + 1)
  else .error

namespace Identifier

/-- `Identifier::start`. -/
def init : Identifier := ⟨.start, .working⟩

/-- The transition of a byte; the last one of each alternative sets `proto` and stops the machine. -/
def step (s : Identifier) (b : UInt8) : Identifier :=
  match s.cs with
  | .error | .final => s
  | .start =>
      if b = 71 then ⟨.get 1, s.proto⟩ else if b = 72 then ⟨.version 1, s.proto⟩ else ⟨.error, s.proto⟩
  | .get n => ⟨literal "GET " n b .get .uri, s.proto⟩
  | .uri => if isWordChar b then ⟨.inUri, s.proto⟩ else ⟨.error, s.proto⟩
  | .inUri =>
      if isWordChar b then ⟨.inUri, s.proto⟩
      else if b = 32 then ⟨.http 1, s.proto⟩
      else ⟨.error, s.proto⟩
  | .http 9 =>
      if b = 13 then ⟨.reqCr, s.proto⟩ else if b = 10 then ⟨.final, .httpReq⟩ else ⟨.error, s.proto⟩
  | .http n => ⟨literal " HTTP/1.1" n b .http (.http 9), s.proto⟩
  | .reqCr => if b = 10 then ⟨.final, .httpReq⟩ else ⟨.error, s.proto⟩
  | .version n => ⟨literal "HTTP/1.1 " n b .version .code, s.proto⟩
  | .code => if isWordChar b then ⟨.inCode, s.proto⟩ else ⟨.error, s.proto⟩
  | .inCode =>
      if isWordChar b then ⟨.inCode, s.proto⟩
      else if b = 32 then ⟨.reason, s.proto⟩
      else ⟨.error, s.proto⟩
  | .reason => if isWordChar b then ⟨.inReason, s.proto⟩ else ⟨.error, s.proto⟩
  | .inReason =>
      if isWordChar b then ⟨.inReason, s.proto⟩
      else if b = 13 then ⟨.rspCr, s.proto⟩
      else if b = 10 then ⟨.final, .httpRsp⟩
      else ⟨.error, s.proto⟩
  | .rspCr => if b = 10 then ⟨.final, .httpRsp⟩ else ⟨.error, s.proto⟩

/-- `%% write exec` -/
def exec (s : Identifier) : Text → Identifier
  | [] => s
  | b :: rest =>
      let s := s.step b
      if s.cs = .error ∨ s.cs = .final then s else exec s rest

def receive (s : Identifier) (data : Text) : Identifier :=
  if s.cs = .error ∨ s.proto ≠ .working then s
  else
    let s := s.exec data
    if s.cs = .error then { s with proto := .unknown } else s

def isHttp (s : Identifier) : Bool := s.proto = .httpReq ∨ s.proto = .httpRsp

end Identifier

example : (Identifier.init.receive (bytes "GET / HTTP/1.1\r\nHost")).proto = .httpReq := by decide

/-- The half of a connection a packet belongs to. -/
inductive Side
  | h1 | h2
  deriving DecidableEq

/-- `Conn::Proto`. -/
inductive ConnProto
  | working | http | unknown
  deriving DecidableEq

/-- `Half` and `DecrHalf`. -/
structure Half (σ : Type) where
  identifier : Identifier
  parser : Option (Parser σ)
  /-- History: the data of the `receive` calls on the parser. -/
  delivered : List Text

/-- `Conn` and `Decrypted`. -/
structure Conn where
  proto : ConnProto
  h1 : Half HttpRequest
  h2 : Half HttpResponse

namespace Conn

/-- A connection whose identifiers have been started. -/
def init : Conn := ⟨.working, ⟨.init, none, []⟩, ⟨.init, none, []⟩⟩

end Conn

/-- `new HttpRequestParser`, started, on a tree that has seen the calls `setup`. -/
def newRequestParser (setup : List Effect) : Parser HttpRequest :=
  startRequest { Parser.new HttpRequest.init with log := setup }

/-- `new HttpResponseParser`, started, on a tree that has seen the calls `setup`. -/
def newResponseParser (setup : List Effect) : Parser HttpResponse :=
  startResponse { Parser.new (HttpResponse.init false false false) with log := setup }

/-- "If the half has a parser then send data to it." -/
def Half.deliver {σ : Type} (M : Machine σ) (h : Half σ) (data : Text) : Half σ :=
  match h.parser with
  | none => h
  | some q => { h with parser := some (M.receive q data), delivered := h.delivered ++ [data] }

namespace Conn

/-- Both parsers are made and started. -/
def makeParsers (setup : List Effect) (c : Conn) : Conn where
  proto := .http
  h1 := { c.h1 with parser := some (newRequestParser setup) }
  h2 := { c.h2 with parser := some (newResponseParser setup) }

/-- "First try to identify. May produce a parser." -/
def identify (setup : List Effect) (c : Conn) (side : Side) (data : Text) : Conn :=
  match side with
  | .h1 =>
      let c := { c with h1 := { c.h1 with identifier := c.h1.identifier.receive data } }
      if c.h1.identifier.isHttp then c.makeParsers setup else c
  | .h2 =>
      let c := { c with h2 := { c.h2 with identifier := c.h2.identifier.receive data } }
      if c.h2.identifier.isHttp then c.makeParsers setup else c

def deliver (c : Conn) (side : Side) (data : Text) : Conn :=
  match side with
  | .h1 => { c with h1 := c.h1.deliver httpRequest data }
  | .h2 => { c with h2 := c.h2.deliver httpResponse data }

/-- What `decrypted` and `flowData` have in common. They differ in what they put into the trees before
the parsers are started. -/
def data (setup : List Effect) (c : Conn) (side : Side) (data : Text) : Conn :=
  (if c.proto = .working then c.identify setup side data else c).deliver side data

end Conn

/-- The nodes `decrypted` puts into both trees. -/
def connCalls (host : Option Text) : List Effect :=
  [.vpt (.push .connTls), .vpt (.push .connHost)] ++
    (host.toList.map fun x => .vpt (.setText x)) ++ [.vpt (.pop .connHost)]

/-- `Handler::decrypted`, of a connection that has been created. -/
def decrypted (host : Option Text) : Conn → Side → Text → Conn := Conn.data (connCalls host)

/-- `Handler::flowData`. -/
def flowData : Conn → Side → Text → Conn := Conn.data []

/-- The packets of a connection, in the order in which they are seen. -/
abbrev Packets := List (Side × Text)

/-- The bytes that a half of the connection sends. -/
def stream (side : Side) (packets : Packets) : Text :=
  packets.flatMap fun p => if p.1 = side then p.2 else []

def runPackets (recv : Conn → Side → Text → Conn) (c : Conn) (packets : Packets) : Conn :=
  packets.foldl (fun c p => recv c p.1 p.2) c

/-- The parser of a half has been given the whole stream of that half, and has done what it does when
the stream comes in one piece. -/
def Half.Whole {σ : Type} (M : Machine σ) (start : Parser σ) (h : Half σ) (bytes : Text) : Prop :=
  h.delivered.flatten = bytes ∧ ∃ q, h.parser = some q ∧ SameRun q (M.receive start bytes)

/-- Both parsers have been given their whole streams. -/
def Conn.Whole (setup : List Effect) (packets : Packets) (c : Conn) : Prop :=
  c.h1.Whole httpRequest (newRequestParser setup) (stream .h1 packets) ∧
    c.h2.Whole httpResponse (newResponseParser setup) (stream .h2 packets)

/-- The bytes begin with a line that the identifier recognises. -/
def recognised (data : Text) : Bool := (Identifier.init.receive data).isHttp

/-- The first packet with data, of either half, holds by itself a whole line that is recognised. -/
def firstRecognised (packets : Packets) : Bool :=
  match packets.find? fun p => p.2 ≠ [] with
  | some p => recognised p.2
  | none => false

/-! ## Once the protocol is known -/

/-- The packets of a half. -/
def pieces (side : Side) (packets : Packets) : List Text :=
  packets.filterMap fun p => if p.1 = side then some p.2 else none

theorem flatten_pieces (side : Side) (packets : Packets) :
    (pieces side packets).flatten = stream side packets := by
  induction packets with
  | nil => rfl
  | cons p ps ih =>
    simp only [pieces, stream, List.filterMap_cons, List.flatMap_cons] at ih ⊢
    split_ifs with hp
    · rw [List.flatten_cons, ih]
    · rw [List.nil_append, ih]

theorem runPackets_cons (recv : Conn → Side → Text → Conn) (c : Conn) (side : Side) (d : Text)
    (ps : Packets) : runPackets recv c ((side, d) :: ps) = runPackets recv (recv c side d) ps := rfl

theorem runPackets_http (setup : List Effect) (packets : Packets) :
    ∀ (i₁ i₂ : Identifier) (q₁ : Parser HttpRequest) (q₂ : Parser HttpResponse) (ds₁ ds₂ : List Text),
      runPackets (Conn.data setup) ⟨.http, ⟨i₁, some q₁, ds₁⟩, ⟨i₂, some q₂, ds₂⟩⟩ packets =
        ⟨.http,
          ⟨i₁, some ((pieces .h1 packets).foldl httpRequest.receive q₁), ds₁ ++ pieces .h1 packets⟩,
          ⟨i₂, some ((pieces .h2 packets).foldl httpResponse.receive q₂), ds₂ ++ pieces .h2 packets⟩⟩ := by
  induction packets with
  | nil =>
    intro i₁ i₂ q₁ q₂ ds₁ ds₂
    simp [runPackets, pieces]
  | cons p ps ih =>
    intro i₁ i₂ q₁ q₂ ds₁ ds₂
    obtain ⟨side, d⟩ := p
    rw [runPackets_cons]
    cases side with
    | h1 =>
      have hstep : Conn.data setup ⟨.http, ⟨i₁, some q₁, ds₁⟩, ⟨i₂, some q₂, ds₂⟩⟩ .h1 d =
          ⟨.http, ⟨i₁, some (httpRequest.receive q₁ d), ds₁ ++ [d]⟩, ⟨i₂, some q₂, ds₂⟩⟩ := rfl
      rw [hstep, ih]
      simp [pieces]
    | h2 =>
      have hstep : Conn.data setup ⟨.http, ⟨i₁, some q₁, ds₁⟩, ⟨i₂, some q₂, ds₂⟩⟩ .h2 d =
          ⟨.http, ⟨i₁, some q₁, ds₁⟩, ⟨i₂, some (httpResponse.receive q₂ d), ds₂ ++ [d]⟩⟩ := rfl
      rw [hstep, ih]
      simp [pieces]

theorem newRequestParser_ready (setup : List Effect) :
    httpRequest.Ready (newRequestParser setup).view where
  sound h := Bool.noConfusion h
  allows := ReqState.noConfusion

theorem newResponseParser_ready (setup : List Effect) :
    httpResponse.Ready (newResponseParser setup).view where
  sound h := Bool.noConfusion h
  allows := HttpResponse.closed_of_plain rfl rfl rfl RspState.noConfusion

theorem Half.whole {σ : Type} {M : Machine σ} (hM : M.Lawful) {start : Parser σ}
    (hr : M.Ready start.view) (i : Identifier) (side : Side) (packets : Packets) :
    (⟨i, some ((pieces side packets).foldl M.receive start), [] ++ pieces side packets⟩ : Half σ).Whole
      M start (stream side packets) := by
  refine ⟨flatten_pieces side packets, _, rfl, ?_⟩
  have hcut : (pieces side packets).flatten = [stream side packets].flatten := by
    rw [flatten_pieces, List.flatten_singleton]
  exact Machine.sameRun hM hr [] hcut

/-- If the protocol is known with the first packet, everything is delivered. -/
theorem whole_of_http (setup : List Effect) (packets : Packets) (i₁ i₂ : Identifier) :
    (runPackets (Conn.data setup)
      (Conn.makeParsers setup ⟨.working, ⟨i₁, none, []⟩, ⟨i₂, none, []⟩⟩) packets).Whole setup packets := by
  have hrun := runPackets_http setup packets i₁ i₂ (newRequestParser setup)
    (newResponseParser setup) [] []
  refine hrun ▸ ⟨?_, ?_⟩
  · exact Half.whole httpRequest_lawful (newRequestParser_ready setup) i₁ .h1 packets
  · exact Half.whole httpResponse_lawful (newResponseParser_ready setup) i₂ .h2 packets

/-! ## What comes before is lost -/

theorem Half.deliver_length {σ : Type} (M : Machine σ) (h : Half σ) (d : Text) :
    (h.deliver M d).delivered.flatten.length ≤ h.delivered.flatten.length + d.length := by
  unfold Half.deliver
  cases h.parser with
  | none => simp
  | some q => simp

theorem stream_cons (s side : Side) (d : Text) (ps : Packets) :
    stream s ((side, d) :: ps) = (if side = s then d else []) ++ stream s ps := rfl

theorem Conn.identify_delivered (setup : List Effect) (c : Conn) (side : Side) (d : Text) :
    (c.identify setup side d).h1.delivered = c.h1.delivered ∧
      (c.identify setup side d).h2.delivered = c.h2.delivered := by
  cases side <;> simp only [Conn.identify] <;> split_ifs <;> exact ⟨rfl, rfl⟩

theorem Conn.data_length (setup : List Effect) (c : Conn) (side : Side) (d : Text) :
    (c.data setup side d).h1.delivered.flatten.length ≤
        c.h1.delivered.flatten.length + (if side = .h1 then d else []).length ∧
      (c.data setup side d).h2.delivered.flatten.length ≤
        c.h2.delivered.flatten.length + (if side = .h2 then d else []).length := by
  have hident : (if c.proto = .working then c.identify setup side d else c).h1.delivered =
        c.h1.delivered ∧
      (if c.proto = .working then c.identify setup side d else c).h2.delivered = c.h2.delivered := by
    split_ifs
    · exact Conn.identify_delivered setup c side d
    · exact ⟨rfl, rfl⟩
  rw [Conn.data]
  generalize (if c.proto = .working then c.identify setup side d else c) = c' at hident ⊢
  rw [← hident.1, ← hident.2]
  cases side with
  | h1 => exact ⟨Half.deliver_length httpRequest c'.h1 d, Nat.le_add_right _ _⟩
  | h2 => exact ⟨Nat.le_add_right _ _, Half.deliver_length httpResponse c'.h2 d⟩

theorem runPackets_length (setup : List Effect) (packets : Packets) :
    ∀ c : Conn,
      (runPackets (Conn.data setup) c packets).h1.delivered.flatten.length ≤
          c.h1.delivered.flatten.length + (stream .h1 packets).length ∧
        (runPackets (Conn.data setup) c packets).h2.delivered.flatten.length ≤
          c.h2.delivered.flatten.length + (stream .h2 packets).length := by
  induction packets with
  | nil => exact fun c => ⟨Nat.le_refl _, Nat.le_refl _⟩
  | cons p ps ih =>
    intro c
    obtain ⟨side, d⟩ := p
    obtain ⟨ih1, ih2⟩ := ih (Conn.data setup c side d)
    obtain ⟨h1, h2⟩ := Conn.data_length setup c side d
    rw [runPackets_cons, stream_cons, stream_cons, List.length_append, List.length_append]
    exact ⟨by omega, by omega⟩

theorem Conn.data_init (setup : List Effect) (side : Side) (d : Text) :
    Conn.data setup Conn.init side d = (Conn.identify setup Conn.init side d).deliver side d := rfl

/-- A packet that is not recognised by itself leaves the connection without parsers. -/
theorem data_init_not_recognised (setup : List Effect) (side : Side) {d : Text}
    (h : recognised d = false) :
    (Conn.data setup Conn.init side d).h1.delivered = [] ∧
      (Conn.data setup Conn.init side d).h2.delivered = [] := by
  have hnot : ¬ (Identifier.init.receive d).isHttp = true := by
    rw [show (Identifier.init.receive d).isHttp = false from h]
    exact Bool.false_ne_true
  rw [Conn.data_init]
  cases side with
  | h1 =>
    have hid : Conn.identify setup .init .h1 d =
        ⟨.working, ⟨Identifier.init.receive d, none, []⟩, ⟨.init, none, []⟩⟩ := if_neg hnot
    rw [hid]
    exact ⟨rfl, rfl⟩
  | h2 =>
    have hid : Conn.identify setup .init .h2 d =
        ⟨.working, ⟨.init, none, []⟩, ⟨Identifier.init.receive d, none, []⟩⟩ := if_neg hnot
    rw [hid]
    exact ⟨rfl, rfl⟩

theorem data_init_recognised (setup : List Effect) (side : Side) {d : Text} (h : recognised d = true) :
    ∃ i₁ i₂, Conn.data setup Conn.init side d =
      Conn.data setup (Conn.makeParsers setup ⟨.working, ⟨i₁, none, []⟩, ⟨i₂, none, []⟩⟩) side d := by
  have his : (Identifier.init.receive d).isHttp = true := h
  rw [Conn.data_init]
  cases side with
  | h1 =>
    have hid : Conn.identify setup .init .h1 d =
        Conn.makeParsers setup ⟨.working, ⟨Identifier.init.receive d, none, []⟩, ⟨.init, none, []⟩⟩ :=
      if_pos his
    refine ⟨Identifier.init.receive d, .init, ?_⟩
    rw [hid]
    rfl
  | h2 =>
    have hid : Conn.identify setup .init .h2 d =
        Conn.makeParsers setup ⟨.working, ⟨.init, none, []⟩, ⟨Identifier.init.receive d, none, []⟩⟩ :=
      if_pos his
    refine ⟨.init, Identifier.init.receive d, ?_⟩
    rw [hid]
    rfl

/-- A packet without data changes nothing before the protocol is known. -/
theorem data_init_nil (setup : List Effect) (side : Side) :
    Conn.data setup Conn.init side [] = Conn.init := by
  cases side <;> rfl

theorem whole_iff_firstRecognised (setup : List Effect) (packets : Packets) :
    (runPackets (Conn.data setup) Conn.init packets).Whole setup packets ↔
      firstRecognised packets = true := by
  induction packets with
  | nil =>
    refine iff_of_false ?_ Bool.false_ne_true
    rintro ⟨⟨-, q, hq, -⟩, -⟩
    cases hq
  | cons p ps ih =>
    obtain ⟨side, d⟩ := p
    by_cases hd : d = []
    · -- a packet without data
      subst hd
      have hfirst : firstRecognised ((side, []) :: ps) = firstRecognised ps := rfl
      have hstream (s : Side) : stream s ((side, []) :: ps) = stream s ps := by
        rw [stream_cons, ite_self, List.nil_append]
      rw [hfirst, ← ih, runPackets_cons, data_init_nil, Conn.Whole, Conn.Whole, hstream, hstream]
    · have hfirst : firstRecognised ((side, d) :: ps) = recognised d := by
        simp [firstRecognised, hd]
      rw [hfirst]
      cases hrec : recognised d with
      | true =>
        obtain ⟨i₁, i₂, hdata⟩ := data_init_recognised setup side hrec
        refine iff_of_true ?_ rfl
        rw [runPackets_cons, hdata, ← runPackets_cons]
        exact whole_of_http setup ((side, d) :: ps) i₁ i₂
      | false =>
        -- the half of the first packet is given less than it sends
        refine iff_of_false ?_ Bool.false_ne_true
        rintro ⟨⟨h1, -⟩, h2, -⟩
        obtain ⟨e1, e2⟩ := data_init_not_recognised setup side hrec
        obtain ⟨l1, l2⟩ := runPackets_length setup ps (Conn.data setup Conn.init side d)
        have hpos : 0 < d.length := List.length_pos_of_ne_nil hd
        rw [runPackets_cons, stream_cons] at h1 h2
        rw [h1, e1, List.length_append] at l1
        rw [h2, e2, List.length_append] at l2
        cases side with
        | h1 =>
          rw [if_pos rfl, List.flatten_nil, List.length_nil] at l1
          omega
        | h2 =>
          rw [if_pos rfl, List.flatten_nil, List.length_nil] at l2
          omega

/-- Both parsers are given the whole of their streams, and do what they do when these come in one
piece, exactly if the first packet with data holds a whole line that is recognised. -/
theorem identification_whole_iff (packets : Packets) :
    (∀ host, (runPackets (decrypted host) Conn.init packets).Whole (connCalls host) packets ↔
        firstRecognised packets = true) ∧
      ((runPackets flowData Conn.init packets).Whole [] packets ↔ firstRecognised packets = true) :=
  ⟨fun host => whole_iff_firstRecognised (connCalls host) packets, whole_iff_firstRecognised [] packets⟩

/-- A request line in two packets. -/
theorem identification_loses :
    ¬ (∀ packets : Packets, recognised (stream .h1 packets) = true →
        (∀ host, (runPackets (decrypted host) Conn.init packets).Whole (connCalls host) packets) ∧
          (runPackets flowData Conn.init packets).Whole [] packets) := by
  intro h
  have hwhole := (h [(.h1, bytes "GET / HT"), (.h1, bytes "TP/1.1\r\n\r\n")] (by decide)).2
  have hlost : (runPackets flowData Conn.init
      [(.h1, bytes "GET / HT"), (.h1, bytes "TP/1.1\r\n\r\n")]).h1.delivered.flatten =
        bytes "TP/1.1\r\n\r\n" := by
    decide
  rw [hwhole.1.1] at hlost
  exact absurd hlost (by decide)

end Netp.Parse
