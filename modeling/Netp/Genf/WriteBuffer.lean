import Mathlib.Data.List.Basic
import Netp.Lib.Run

/-! # Output of a packet connection

`WriteBuffer` of `genf/process.cc`, over `Connection::write` and the `SelectFd` flags of
`genf/thread.h`, `genf/connection.cc` and `genf/tls.cc`: the life of a `PacketConnection` from
connect or accept on, as far as its output goes.

A step is one call: `send`, a ready event in the state the descriptor is in, or a read that the TLS
layer makes. The results of the writes of a call are a list; a write beyond it would block.
-/

namespace Netp.Genf.Out
open Netp.Lib
set_option autoImplicit false

/-! ## Ropes of bytes -/

/-- A block: its bytes from `hoff` on, and the room behind them. -/
structure RopeBlock where
  data : List UInt8
  room : ℕ

structure Rope where
  blocks : List RopeBlock
  ropeLen : ℕ

namespace Rope

def bytes (r : Rope) : List UInt8 := (r.blocks.map RopeBlock.data).flatten

/-- `append(data, len)`: in the last block if there is room, else in a new one. -/
def appendData (C : ℕ) (r : Rope) (data : List UInt8) : Rope :=
  match r.blocks.getLast? with
  | some t =>
      if data.length ≤ t.room then
        ⟨r.blocks.dropLast ++ [⟨t.data ++ data, t.room - data.length⟩], r.ropeLen + data.length⟩
      else ⟨r.blocks ++ [⟨data, max data.length C - data.length⟩], r.ropeLen + data.length⟩
  | none => ⟨r.blocks ++ [⟨data, max data.length C - data.length⟩], r.ropeLen + data.length⟩

/-- `append(Rope&)`. -/
def appendRope (r s : Rope) : Rope := ⟨r.blocks ++ s.blocks, r.ropeLen + s.ropeLen⟩

/-- A rope that was filled block by block. -/
def ofBlocks (bs : List RopeBlock) : Rope := ⟨bs, ((bs.map RopeBlock.data).flatten).length⟩

end Rope

/-! ## The descriptor -/

/-- `SelectFd::State`, once there is a descriptor. -/
inductive FdState
  | connect
  | tlsAccept
  | tlsConnect
  | tlsEstablished
  | established
  deriving DecidableEq

structure SelectFd where
  state : FdState
  wantRead : Bool
  wantWrite : Bool
  closed : Bool
  tlsWantRead : Bool
  tlsWantWrite : Bool
  tlsEstablished : Bool
  tlsWriteWantsRead : Bool
  tlsReadWantsWrite : Bool
  deriving DecidableEq

namespace SelectFd

def wantWriteGet (fd : SelectFd) : Bool :=
  if !fd.tlsEstablished then fd.wantWrite
  else fd.tlsWantWrite || (fd.tlsWantRead && fd.tlsReadWantsWrite)

def wantReadSet (fd : SelectFd) (v : Bool) : SelectFd :=
  if !fd.tlsEstablished then { fd with wantRead := v } else { fd with tlsWantRead := v }

def wantWriteSet (fd : SelectFd) (v : Bool) : SelectFd :=
  if !fd.tlsEstablished then { fd with wantWrite := v } else { fd with tlsWantWrite := v }

end SelectFd

/-! ## The connection -/

/-- A `PacketConnection` with its `writeBuffer`. -/
structure PacketConn where
  fd : SelectFd
  tlsConnect : Bool
  queue : Rope
  closeOnFlushed : Bool
  /-- The bytes that writes took, and those of all ropes given to `send`. -/
  written : List UInt8
  sent : List UInt8

/-- The result of `write` or `SSL_write`: so many bytes (none if it would block), a wish to read
first, or an error. -/
inductive WriteRes
  | wrote (k : ℕ)
  | wantsRead
  | error
  deriving DecidableEq

/-- `Connection::close`. -/
def close (c : PacketConn) : PacketConn := { c with fd := { c.fd with closed := true } }

/-- `Connection::write`; `none` for a negative result. -/
def bufWrite (c : PacketConn) (data : List UInt8) (res : WriteRes) : PacketConn × Option ℕ :=
  if c.tlsConnect then
    if data.length = 0 then (c, some 0)
    else
      let fd := { c.fd with tlsWriteWantsRead := false }
      match res with
      | .wrote k => ({ c with fd := fd, written := c.written ++ data.take k },
          some (min k data.length))
      | .wantsRead => ({ c with fd := { fd with tlsWriteWantsRead := true } }, some 0)
      | .error => ({ c with fd := fd }, none)
  else
    match res with
    | .wrote k => ({ c with written := c.written ++ data.take k }, some (min k data.length))
    | .wantsRead => (c, some 0)
    | .error => (c, none)

/-- How a loop over blocks ended. -/
inductive Ended
  | all
  | short
  | error
  deriving DecidableEq

/-- What a write loop leaves: the blocks from the byte after the last one written, the bytes taken
off the length, and how it ended. -/
structure Looped where
  conn : PacketConn
  rest : List RopeBlock
  count : ℕ
  ended : Ended

/-- The write loops of `send` and `writeReady`. -/
def writeBlocks : List RopeBlock → List WriteRes → PacketConn → Looped
  | [], _, c => ⟨c, [], 0, .all⟩
  | rb :: rest, results, c =>
      match bufWrite c rb.data (results.headD (.wrote 0)) with
      | (c, none) => ⟨c, rb :: rest, 0, .error⟩
      | (c, some res) =>
          if res < rb.data.length then
            ⟨c, { rb with data := rb.data.drop res } :: rest, res, .short⟩
          else
            let l := writeBlocks rest results.tail c
            { l with count := res + l.count }

/-- What is left of `blocks` goes to the queue: its blocks are moved, or their bytes are copied
block by block. -/
def queueRest (C : ℕ) (canConsume : Bool) (queue blocks : Rope) : Rope :=
  if canConsume then queue.appendRope blocks
  else blocks.blocks.foldl (fun q rb => q.appendData C rb.data) queue

/-- `WriteBuffer::send`. -/
def send (C : ℕ) (blocks : Rope) (canConsume : Bool) (results : List WriteRes)
    (c : PacketConn) : PacketConn :=
  let c := { c with sent := c.sent ++ blocks.bytes }
  if c.fd.wantWriteGet then { c with queue := queueRest C canConsume c.queue blocks }
  else
    let l := writeBlocks blocks.blocks results c
    match l.ended with
    | .all => l.conn
    | .error => close l.conn
    | .short =>
        { l.conn with
          queue := queueRest C canConsume l.conn.queue ⟨l.rest, blocks.ropeLen - l.count⟩
          fd := l.conn.fd.wantWriteSet true }

/-- `WriteBuffer::sendEos`. -/
def sendEos (c : PacketConn) : PacketConn :=
  if c.fd.wantWriteGet then { c with closeOnFlushed := true }
  else { c with fd := { c.fd with closed := true } }

/-- `WriteBuffer::writeReady`. -/
def writeReady (results : List WriteRes) (c : PacketConn) : PacketConn :=
  if c.queue.ropeLen = 0 then { c with fd := c.fd.wantWriteSet false, queue := ⟨[], 0⟩ }
  else
    let l := writeBlocks c.queue.blocks results c
    let c' := { l.conn with queue := ⟨l.rest, c.queue.ropeLen - l.count⟩ }
    match l.ended with
    | .all => if c'.closeOnFlushed then { c' with fd := { c'.fd with closed := true } } else c'
    | .error => close c'
    | .short => c'

/-! ## Connecting -/

/-- `connConnectReady`, with the outcome of the connect. -/
def connConnectReady (success : Bool) (c : PacketConn) : PacketConn :=
  let fd := { c.fd with wantWrite := false }
  if success then
    if c.tlsConnect then
      -- startTlsClient
      { c with fd := { fd with wantRead := false, wantWrite := true, state := .tlsConnect } }
    else { c with fd := { fd with state := .established, wantRead := true } }
  else close { c with fd := fd }

/-- The result of a handshake call; a success tells whether the peer is accepted. -/
inductive Handshake
  | success (verified : Bool)
  | wantRead
  | wantWrite
  | error
  deriving DecidableEq

def prepNextRound (fd : SelectFd) (result : Handshake) : SelectFd :=
  { fd with wantRead := result = .wantRead, wantWrite := result = .wantWrite }

def connTlsConnectReady (result : Handshake) (c : PacketConn) : PacketConn :=
  match result with
  | .success true =>
      { c with fd := { c.fd with
        state := .tlsEstablished, tlsEstablished := true, tlsWantRead := true } }
  | .success false => close c
  | result => { c with fd := prepNextRound c.fd result }

def connTlsAcceptReady (result : Handshake) (c : PacketConn) : PacketConn :=
  match result with
  | .success _ =>
      -- notifyAccept turns the reading on
      { c with fd :=
        ({ c.fd with state := .tlsEstablished, tlsEstablished := true }).wantReadSet true }
  | result => { c with fd := prepNextRound c.fd result }

/-- The flags of `tlsRead`. -/
def tlsRead (wantsWrite : Bool) (c : PacketConn) : PacketConn :=
  { c with fd := { c.fd with tlsReadWantsWrite := wantsWrite } }

/-! ## Runs -/

inductive Act
  | send (blocks : List RopeBlock) (canConsume : Bool) (results : List WriteRes)
  | sendEos
  | connectReady (success : Bool)
  | tlsConnectReady (result : Handshake)
  | tlsAcceptReady (result : Handshake)
  | writeReady (results : List WriteRes)
  | tlsRead (wantsWrite : Bool)
  | wantReadSet (v : Bool)
  | close

/-- The event loop calls `writeReady`. -/
def writeReadyCalled (fd : SelectFd) : Prop :=
  fd.state = .tlsEstablished ∧ fd.tlsWantWrite ∨ fd.state = .established ∧ fd.wantWrite

instance (fd : SelectFd) : Decidable (writeReadyCalled fd) :=
  inferInstanceAs (Decidable (_ ∨ _))

/-- The state in which an event can occur. -/
def enabled (c : PacketConn) : Act → Prop
  | .connectReady _ => c.fd.state = .connect
  | .tlsConnectReady _ => c.fd.state = .tlsConnect
  | .tlsAcceptReady _ => c.fd.state = .tlsAccept
  | .writeReady _ => writeReadyCalled c.fd
  | .tlsRead _ => c.fd.state = .tlsEstablished
  | _ => True

instance (c : PacketConn) : (a : Act) → Decidable (enabled c a)
  | .connectReady _ => inferInstanceAs (Decidable (c.fd.state = .connect))
  | .tlsConnectReady _ => inferInstanceAs (Decidable (c.fd.state = .tlsConnect))
  | .tlsAcceptReady _ => inferInstanceAs (Decidable (c.fd.state = .tlsAccept))
  | .writeReady _ => inferInstanceAs (Decidable (writeReadyCalled c.fd))
  | .tlsRead _ => inferInstanceAs (Decidable (c.fd.state = .tlsEstablished))
  | .send _ _ _ | .sendEos | .wantReadSet _ | .close => .isTrue trivial

def effect (C : ℕ) (c : PacketConn) : Act → PacketConn
  | .send blocks canConsume results => send C (.ofBlocks blocks) canConsume results c
  | .sendEos => sendEos c
  | .connectReady success => connConnectReady success c
  | .tlsConnectReady result => connTlsConnectReady result c
  | .tlsAcceptReady result => connTlsAcceptReady result c
  | .writeReady results => writeReady results c
  | .tlsRead wantsWrite => tlsRead wantsWrite c
  | .wantReadSet v => { c with fd := c.fd.wantReadSet v }
  | .close => close c

/-- A closed connection takes no step. -/
def step (C : ℕ) (c : PacketConn) (a : Act) : Option PacketConn :=
  if c.fd.closed = false ∧ enabled c a then some (effect C c a) else none

/-- How a connection comes about. -/
inductive Start
  | initiate (tls : Bool)
  | accept (tls : Bool)
  deriving DecidableEq

def start : Start → PacketConn
  | .initiate tls =>
      ⟨⟨.connect, false, true, false, false, false, false, false, false⟩, tls, ⟨[], 0⟩, false, [], []⟩
  | .accept true =>
      ⟨⟨.tlsAccept, true, false, false, false, false, false, false, false⟩, true, ⟨[], 0⟩, false,
        [], []⟩
  | .accept false =>
      ⟨⟨.established, true, false, false, false, false, false, false, false⟩, false, ⟨[], 0⟩, false,
        [], []⟩

def system (C : ℕ) (how : Start) : System PacketConn Act := ⟨start how, step C⟩

end Netp.Genf.Out
