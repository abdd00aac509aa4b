import Netp.Lib.Run
import Mathlib.Data.List.Basic
import Mathlib.Data.Int.Notation
import Mathlib.Tactic

/-! # The broker in service mode (`broker/main.cc`)

A step is one event of the select loop: a connection is accepted, becomes established, is closed, or has
delivered a packet, which `dispatchPacket` handles to the end. Which writes fail is given with the event.

A packet is what the broker reads of it: the fields of the records it receives itself, the bytes of all
others. `PacketBase::send` hands a packet to the write buffer of a connection; a failing write closes the
connection (`PacketConnection::bufClose`). A function is `none` where the source would use a null
`selectFd`, an index outside of an array, or a zero modulus. The log files, the database output and loaded
modules are left out.
-/

namespace Netp.Broker
open Netp.Lib
set_option autoImplicit false

/-- `ID = AppID * 1000 + NumID`; `PacketType` is global, with `AppID` 0. -/
def idPing : UInt32 := 2001
def idWantId : UInt32 := 2002
def idSetRetain : UInt32 := 2003
def idPacketType : UInt32 := 1

/-- The records with `Main receives`. -/
def receives : List UInt32 := [idPing, idWantId, idSetRetain, idPacketType]

/-- A received packet. One with an id that `Main` receives is that record. -/
inductive Packet
  | ping
  | wantId (wantId : ℤ)
  | setRetain (id retain : ℤ)
  | packetType (fields : List UInt8)
  | other (msgId : UInt32) (hid : msgId ∉ receives) (bytes : List UInt8)
  deriving DecidableEq

/-- `recv.head->msgId`. -/
def Packet.msgId : Packet → UInt32
  | .ping => idPing
  | .wantId _ => idWantId
  | .setRetain _ _ => idSetRetain
  | .packetType _ => idPacketType
  | .other msgId _ _ => msgId

/-- An id as a `long`, in which it is compared with the fields of `WantId` and `SetRetain`. -/
def toLong (id : UInt32) : ℤ := id.toNat

abbrev ConnId := ℕ

/-- `ClientConnection`. -/
structure Conn where
  /-- `selectFd != 0`, in a state in which packets are exchanged. -/
  isEstablished : Bool
  brokerConnClosed : Bool
  wantIds : List ℤ
  /-- History: what was handed to the write buffer. -/
  handed : List Packet

def Conn.fresh : Conn := ⟨false, false, [], []⟩

def Conn.isOpen (c : Conn) : Bool := !c.brokerConnClosed && c.isEstablished

/-- `Last`: the packets kept of one id, as a ring. -/
structure Last where
  /-- Not set by the constructor. -/
  msgId : Option UInt32
  retain : ℤ
  /-- The ropes; `none` is an empty one. -/
  msg : List (Option Packet)
  dest : ℤ
  have' : ℤ

/-- `Last::Last`. -/
def Last.new : Last := ⟨none, 1, [none], 0, 0⟩

/-- A packet the broker has received. -/
structure Received where
  src : ConnId
  packet : Packet
  /-- The connections that were established and not closed. -/
  isOpen : ConnId → Bool

/-- `MainThread`. -/
structure MainThread where
  conn : ConnId → Conn
  nconn : ℕ
  connList : List ConnId
  lastList : List Last
  /-- History: the packets dispatched, oldest first. -/
  received : List Received

def initBroker : MainThread := ⟨fun _ => Conn.fresh, 0, [], [], []⟩

namespace MainThread

def setConn (s : MainThread) (c : ConnId) (v : Conn) : MainThread :=
  { s with conn := Function.update s.conn c v }

/-- `PacketBase::send( &writer, rope, false )`: the rope goes to the write buffer; where the write fails,
`close` and `packetClosed` run. -/
def send (s : MainThread) (c : ConnId) (rope : Option Packet) (fails : Bool) : Option MainThread :=
  let cc := s.conn c
  if cc.isEstablished then
    some (s.setConn c { cc with
      handed := cc.handed ++ rope.toList
      isEstablished := cc.isEstablished && !fails
      brokerConnClosed := cc.brokerConnClosed || fails })
  else none

/-- The inner loop of `recvWantId`, `n` rounds left. -/
def replay (last : Last) (c : ConnId) (fails : Bool) : ℕ → ℤ → MainThread → Option MainThread
  | 0, _, s => some s
  | n + 1, m, s =>
      if m < 0 then none
      else last.msg[m.toNat]?.bind fun rope =>
        (s.send c rope fails).bind fun s =>
          if last.retain = 0 then none else replay last c fails n ((m + 1).tmod last.retain) s

/-- The loop of `recvWantId` over `lastList`. -/
def replayAll (c : ConnId) (wantId : ℤ) (fails : Bool) : List Last → MainThread → Option MainThread
  | [], s => some s
  | last :: ls, s =>
      if last.msgId.map toLong = some wantId then
        if last.retain = 0 then none
        else
          (replay last c fails last.have'.toNat
            ((last.dest - last.have' + last.retain).tmod last.retain) s).bind
              (replayAll c wantId fails ls)
      else replayAll c wantId fails ls s

/-- `recvWantId`. -/
def recvWantId (s : MainThread) (c : ConnId) (wantId : ℤ) (fails : ConnId → Bool) : Option MainThread :=
  let cc := s.conn c
  let s := s.setConn c { cc with wantIds := wantId :: cc.wantIds }
  replayAll c wantId (fails c) s.lastList s

/-- `recvSetRetain`, on `lastList`. -/
def setRetain (id retain : ℤ) : List Last → List Last
  | [] => [{ Last.new with retain := retain }]
  | last :: ls =>
      if last.msgId.map toLong = some id then { last with retain := retain } :: ls
      else last :: setRetain id retain ls

def recvSetRetain (s : MainThread) (id retain : ℤ) : MainThread :=
  { s with lastList := setRetain id retain s.lastList }

/-- The first loop of `resendPacket`. -/
def fanOut (p : Packet) (fails : ConnId → Bool) : List ConnId → MainThread → Option MainThread
  | [], s => some s
  | out :: outs, s =>
      if (s.conn out).isOpen && (s.conn out).wantIds.contains (toLong p.msgId) then
        (s.send out (some p) (fails out)).bind (fanOut p fails outs)
      else fanOut p fails outs s

/-- `resendPacket`, "Stash most recent", in the ring found. -/
def store (last : Last) (p : Packet) : Option Last :=
  if last.dest < 0 ∨ last.msg.length ≤ last.dest.toNat ∨ last.retain = 0 then none
  else some { last with
    msg := last.msg.set last.dest.toNat (some p)
    dest := (last.dest + 1).tmod last.retain
    have' := if last.have' < last.retain then last.have' + 1 else last.have' }

/-- `resendPacket`, "Stash most recent". -/
def stash (p : Packet) : List Last → Option (List Last)
  | [] => (store { Last.new with msgId := some p.msgId } p).map fun last => [last]
  | last :: ls =>
      if last.msgId = some p.msgId then (store last p).map fun last => last :: ls
      else (stash p ls).map fun ls => last :: ls

/-- `resendPacket`. -/
def resendPacket (s : MainThread) (p : Packet) (fails : ConnId → Bool) : Option MainThread :=
  (fanOut p fails s.connList s).bind fun s =>
    (stash p s.lastList).map fun lastList =>
      { s with
        connList := s.connList.filter fun out => !(s.conn out).brokerConnClosed
        lastList := lastList }

/-- `MainGen::dispatchPacket`, the generated switch. -/
def mainGenDispatchPacket (s : MainThread) (c : ConnId) (p : Packet) (fails : ConnId → Bool) :
    Option MainThread :=
  match p with
  | .wantId wantId => s.recvWantId c wantId fails
  | .setRetain id retain => some (s.recvSetRetain id retain)
  -- recvPing is empty, recvPacketType fills the database description
  | .ping | .packetType _ | .other _ _ _ => some s

/-- `MainThread::dispatchPacket`, not replaying. -/
def dispatchPacket (s : MainThread) (c : ConnId) (p : Packet) (fails : ConnId → Bool) : Option MainThread :=
  if p.msgId = idPing ∨ p.msgId = idWantId ∨ p.msgId = idPacketType then
    s.mainGenDispatchPacket c p fails
  else s.resendPacket p fails

end MainThread

inductive Act
  | accept
  | establish (c : ConnId)
  | close (c : ConnId)
  | packet (c : ConnId) (p : Packet) (fails : ConnId → Bool)

/-- The packet is on record when it is dispatched. -/
def MainThread.record (s : MainThread) (c : ConnId) (p : Packet) : MainThread :=
  { s with received := s.received ++ [⟨c, p, fun d => (s.conn d).isOpen⟩] }

def step (s : MainThread) : Act → Option MainThread
  | .accept =>
      some { s with nconn := s.nconn + 1, connList := s.connList ++ [s.nconn] }
  | .establish c =>
      if c < s.nconn ∧ !(s.conn c).brokerConnClosed then
        some (s.setConn c { s.conn c with isEstablished := true })
      else none
  | .close c =>
      if (s.conn c).isOpen then
        some (s.setConn c { s.conn c with isEstablished := false, brokerConnClosed := true })
      else none
  | .packet c p fails =>
      if (s.conn c).isOpen then (s.record c p).dispatchPacket c p fails else none

def broker : System MainThread Act := ⟨initBroker, step⟩

end Netp.Broker
