import Netp.Parse.Ident
import Netp.Lib.Run

/-! # Frames through the data ring into the handler

`kdata_kwrite` (`kring/kdata.c`) puts a frame into the ring in pieces of at most a page, each with the
number of bytes left in the frame from it on. `Handler::handler` (`parse/handler.cc`, `parse/tcp.cc`)
reads the headers from a page, unless the flag `continuation` tells it that the page goes on with the
packet before it. The flag is set in `flowEstabState` alone, by the length in the IP header.

The ring hands over the pages in the order they were written. A page keeps what was in it behind the
bytes that are copied in. Sequence numbers are left out, nothing reads them but the log.
-/

namespace Netp.Parse
open Netp.Lib
set_option autoImplicit false

/-! ## The ring -/

/-- `kdata_packet_max_data()`: a page without `kdata_packet_header`. -/
abbrev kdataPacketMaxData : ℕ := 4088

/-- A page of the ring with a packet. -/
structure Entry where
  /-- `KDATA_DIR_INSIDE` -/
  inside : Bool
  len : ℕ
  bytes : Text

/-- `caplen`, as `kdata_next_packet` sets it. -/
def Entry.caplen (e : Entry) : ℕ := if e.len ≤ kdataPacketMaxData then e.len else kdataPacketMaxData

/-- The loop of `kdata_kwrite`; `stale i` is in the `i`-th page behind what is copied. -/
def kdataKwrite (inside : Bool) (stale : ℕ → Text) (i : ℕ) (rest : Text) : List Entry :=
  if rest = [] then []
  else
    ⟨inside, rest.length, rest.take kdataPacketMaxData ++ stale i⟩ ::
      kdataKwrite inside stale (i + 1) (rest.drop kdataPacketMaxData)
  termination_by rest.length
  decreasing_by
    rw [List.length_drop]
    exact Nat.sub_lt (List.length_pos_of_ne_nil ‹_›) (by decide)

/-! ## Packets -/

/-- `Packet::Dir`. -/
inductive Dir
  | ingress | egress | unknown
  deriving DecidableEq

/-- The fields of a `Half` that `CmpHalf` compares. -/
structure HalfKey where
  addr1 : ℕ
  addr2 : ℕ
  port1 : ℕ
  port2 : ℕ
  deriving DecidableEq

def HalfKey.swapDir (k : HalfKey) : HalfKey := ⟨k.addr2, k.addr1, k.port2, k.port1⟩

def byteAt (page : Text) (i : ℕ) : ℕ := (page.getD i 0).toNat

def be16 (page : Text) (i : ℕ) : ℕ := byteAt page i * 256 + byteAt page (i + 1)

def be32 (page : Text) (i : ℕ) : ℕ := be16 page i * 65536 + be16 page (i + 2)

def sizeofEthhdr : ℕ := 14

/-- `eh->h_proto == htons( ETH_P_IP )` -/
def isIp (page : Text) : Bool := be16 page 12 = 0x0800

def ihlen (page : Text) : ℕ := byteAt page sizeofEthhdr % 16 * 4

def totLen (page : Text) : ℕ := be16 page (sizeofEthhdr + 2)

def protocol (page : Text) : ℕ := byteAt page (sizeofEthhdr + 9)

/-- The offset of the TCP header. -/
def thOff (page : Text) : ℕ := sizeofEthhdr + ihlen page

def thlen (page : Text) : ℕ := byteAt page (thOff page + 12) / 16 * 4

/-- The offset of the TCP data. -/
def dataOff (page : Text) : ℕ := thOff page + thlen page

def halfKey (page : Text) : HalfKey where
  addr1 := be32 page (sizeofEthhdr + 12)
  addr2 := be32 page (sizeofEthhdr + 16)
  port1 := be16 page (thOff page)
  port2 := be16 page (thOff page + 2)

/-- `syn` and `ack` of the TCP header. -/
def synAckBits (page : Text) : Bool × Bool :=
  let flags := byteAt page (thOff page + 13)
  (flags / 2 % 2 = 1, flags / 16 % 2 = 1)

/-! ## The handler -/

/-- `Conn::State`. -/
inductive ConnState
  | syn | synAck | established
  deriving DecidableEq

/-- `Conn`: the state of the handshake, and the two halves with their identifiers and parsers. -/
structure TcpConn where
  state : ConnState
  dir : Dir
  conn : Conn

/-- `Conn::established`, with the change of the state before it. -/
def TcpConn.established (c : TcpConn) : TcpConn where
  state := .established
  dir := c.dir
  conn := { c.conn with
    h1 := { c.conn.h1 with identifier := .init }
    h2 := { c.conn.h2 with identifier := .init } }

/-- Nothing that the half is given is read any more: its identifier has decided, or the connection needs
none, and its parser has failed, if there is one. -/
def Half.stopped {σ : Type} (M : Machine σ) (proto : ConnProto) (h : Half σ) : Bool :=
  (decide (proto ≠ .working) || decide (h.identifier.proto ≠ .working)) &&
    h.parser.all fun q => !q.fault && M.isError q.core

def Conn.stopped (c : Conn) : Side → Bool
  | .h1 => c.h1.stopped httpRequest c.proto
  | .h2 => c.h2.stopped httpResponse c.proto

/-- What the machines read, of the memory from `packet->data` on: a negative length does not stop them. -/
def readBytes (memory : Text) (caplen : ℤ) : Text :=
  if caplen < 0 then memory else memory.take caplen.toNat

/-- A half of a connection. -/
abbrev HalfRef := ℕ × Side

/-- History: what `handler` did with a page. -/
structure Treated where
  /-- As the continuation of the packet before it. -/
  continued : Bool
  /-- The half whose data it was taken for, and the data. -/
  half : Option HalfRef
  data : Text

structure Handler where
  conns : List TcpConn
  halfDict : List (HalfKey × HalfRef)
  continuation : Bool
  /-- The half of `contPacket`. -/
  contHalf : HalfRef

namespace Handler

def init : Handler := ⟨[], [], false, (0, .h1)⟩

/-- `halfDict.find`. -/
def find (s : Handler) (key : HalfKey) : Option HalfRef :=
  (s.halfDict.find? fun p => p.1 = key).map Prod.snd

/-- `halfDict.insert`, which leaves an entry of the same key alone. -/
def insert (s : Handler) (key : HalfKey) (half : HalfRef) : Handler :=
  if (s.find key).isSome then s else { s with halfDict := s.halfDict ++ [(key, half)] }

/-- A new connection, in both directions. -/
def add (s : Handler) (key : HalfKey) (c : TcpConn) : Handler :=
  let n := s.conns.length
  ({ s with conns := s.conns ++ [c] }.insert key (n, .h1)).insert key.swapDir (n, .h2)

def createConnection (s : Handler) (dir : Dir) (page : Text) : Handler :=
  let key := halfKey page
  match synAckBits page with
  | (true, false) => s.add key ⟨.syn, dir, Conn.init⟩
  | (true, true) =>
      s.add key.swapDir ⟨.synAck, if dir = .ingress then .egress else .ingress, Conn.init⟩
  | (false, true) =>
      s.add (if dir = .ingress then key.swapDir else key)
        (TcpConn.established ⟨.established, dir, Conn.init⟩)
  | (false, false) =>
      s.add (if dir = .ingress then key.swapDir else key)
        (TcpConn.established ⟨.established, .unknown, Conn.init⟩)

def setConn (s : Handler) (n : ℕ) (f : TcpConn → TcpConn) : Handler :=
  { s with conns := s.conns.modify n f }

def flowSynState (s : Handler) (n : ℕ) (c : TcpConn) (dir : Dir) (page : Text) : Handler :=
  if dir = c.dir then s
  else match synAckBits page with
    | (true, true) => s.setConn n fun c => { c with state := .synAck }
    | _ => s

def flowSynAckState (s : Handler) (n : ℕ) (c : TcpConn) (dir : Dir) (page : Text) : Handler :=
  if dir = c.dir then
    match synAckBits page with
    | (false, true) => s.setConn n TcpConn.established
    | _ => s
  else s

/-- The machines of the half have stopped by themselves. -/
def stopped (s : Handler) (half : HalfRef) : Bool :=
  (s.conns[half.1]?).all fun c => c.conn.stopped half.2

/-- `flowEstabState`. With a negative `caplen` the machines go on until they stop by themselves, or past
the end of the memory. -/
def flowEstabState (s : Handler) (half : HalfRef) (data : Text) (dlen caplen : ℤ) (continued : Bool) :
    Option (Handler × Treated) :=
  let s := s.setConn half.1 fun c => { c with conn := flowData c.conn half.2 (readBytes data caplen) }
  if caplen < 0 ∧ s.stopped half = false then none
  else
    some ({ s with
        continuation := decide (caplen < dlen)
        contHalf := if caplen < dlen then half else s.contHalf },
      ⟨continued, some half, data.take caplen.toNat⟩)

/-- A page whose headers are read, and whose data goes to no parser. -/
def noData : Treated := ⟨false, none, []⟩

/-- `tcp`, with `flow` for a connection that is known. -/
def tcp (s : Handler) (dir : Dir) (page : Text) (caplen : ℤ) : Option (Handler × Treated) :=
  match s.find (halfKey page) with
  | none => some (s.createConnection dir page, noData)
  | some half =>
      match s.conns[half.1]? with
      | none => none
      | some c =>
          match c.state with
          | .syn => some (s.flowSynState half.1 c dir page, noData)
          | .synAck => some (s.flowSynAckState half.1 c dir page, noData)
          | .established =>
              s.flowEstabState half (page.drop (dataOff page))
                ((totLen page : ℤ) - thlen page - ihlen page)
                (caplen - thlen page - ihlen page - sizeofEthhdr) false

/-- `handler`, for a page that `sniffKring` has read. Of UDP nothing is kept here but that its headers
are read. -/
def handler (s : Handler) (e : Entry) : Option (Handler × Treated) :=
  let dir : Dir := if e.inside then .egress else .ingress
  if s.continuation then s.flowEstabState s.contHalf e.bytes e.len e.caplen true
  else if isIp e.bytes then
    if protocol e.bytes = 6 then s.tcp dir e.bytes e.caplen else some (s, noData)
  else some (s, noData)

/-- A list of pages, one after the other. -/
def read (s : Handler) : List Entry → Option (Handler × List Treated)
  | [] => some (s, [])
  | e :: es => do
      let (s, t) ← s.handler e
      let (s, ts) ← s.read es
      some (s, t :: ts)

end Handler

/-! ## Frames -/

structure Frame where
  inside : Bool
  bytes : Text
  /-- What is in the pages behind the bytes of the frame. -/
  stale : ℕ → Text

namespace Frame

def entries (f : Frame) : List Entry := kdataKwrite f.inside f.stale 0 f.bytes

/-- The first page of the frame. -/
def page (f : Frame) : Text := f.bytes.take kdataPacketMaxData ++ f.stale 0

/-- Of all the pages of a frame the first one is read with its headers, and the others continue it, for
the same half; that half is given the frame behind its headers. -/
structure OnePacket (f : Frame) (ts : List Treated) : Prop where
  count : ts.length = f.entries.length
  first : ∀ t, ts.head? = some t → t.continued = false
  rest : ∀ t ∈ ts.tail, t.continued = true ∧ t.half.isSome ∧ t.half = ts.head?.bind Treated.half
  payload : (ts.head?.bind Treated.half).isSome →
    ts.flatMap Treated.data = f.bytes.drop (dataOff f.page)

/-- The frame belongs to a connection that is established. -/
def established (s : Handler) (f : Frame) : Bool :=
  isIp f.page && protocol f.page = 6 &&
    match s.find (halfKey f.page) with
    | none => false
    | some half => (s.conns[half.1]?).any fun c => c.state = .established

/-- Where a frame has data of an established connection, its first page holds the headers; and a frame
takes more than one page exactly if it has such data and its IP length goes beyond the first page. -/
def Announced (s : Handler) (f : Frame) : Prop :=
  f.bytes ≠ [] →
    (f.established s = true → dataOff f.page ≤ min f.bytes.length kdataPacketMaxData) ∧
    (kdataPacketMaxData < f.bytes.length ↔ f.established s = true ∧
      min f.bytes.length kdataPacketMaxData < sizeofEthhdr + totLen f.page)

end Frame

/-- The handler, and the history of the frames it has read. -/
structure Sniffer where
  handler : Handler
  frames : List (Frame × List Treated)

/-- The runs over sequences of frames. -/
def sniffKring : System Sniffer Frame where
  init := ⟨.init, []⟩
  step s f := (s.handler.read f.entries).map fun r => ⟨r.1, s.frames ++ [(f, r.2)]⟩

end Netp.Parse
