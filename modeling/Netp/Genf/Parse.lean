import Netp.Genf.PacketSend

/-! # Receiving packets

`PacketConnection::parsePacket` of `genf/packet.cc`: a machine of two states that reads the headers
of a packet, then block after block, as far as the reads give bytes.

A call is run on the results of its reads, in order; a read beyond the list gives nothing. A read
result is cut down to the bytes asked for and to those on the wire, so the lists stand for every
way in which the bytes can arrive. `appendBlock` of a negative length has no meaning (`fault`).
-/

namespace Netp.Genf
open Netp.Lib
set_option autoImplicit false

/-- `Recv::State`. -/
inductive RecvState
  | wantHead
  | wantBlock
  deriving DecidableEq

/-- `Recv`. `data` is the last block of `buf`, and `head` points behind the block header of the
first. -/
structure Recv where
  state : RecvState
  headBuf : Mem Unit
  buf : Rope
  /-- `have`. -/
  haveLen : ℕ
  need : ℤ

/-- What `read` returned: a negative number at the end of the file, or up to `k` bytes. -/
inductive ReadResult
  | eof
  | data (k : ℕ)
  deriving DecidableEq

/-- How a call ended. -/
inductive Parsed
  | wait (recv : Recv)
  | dispatch (recv : Recv)
  | closed
  | fault

def appendBlock (r : Rope) (n : ℕ) : Rope := { r with blocks := r.blocks ++ [⟨n, n⟩] }

/-- The index of the block at `recv.data`. -/
def Recv.dataBlock (recv : Recv) : ℕ := recv.buf.blocks.length - 1

/-- Four bytes as an `int`. -/
def intOf (v : ℕ) : ℤ := (BitVec.ofNat 32 v).toInt

/-- The end of the block loop: the last block is complete. The next one is read by `next`. -/
def afterBlock (next : Recv → List UInt8 → Parsed × List UInt8) (recv : Recv)
    (inp : List UInt8) : Parsed × List UInt8 :=
  let need := intOf (recv.buf.u32 (recv.dataBlock, 0))
  if need = 0 then (.dispatch { recv with state := .wantHead, need := 0, haveLen := 0 }, inp)
  else if need < 0 then (.fault, inp)
  else next { recv with buf := appendBlock recv.buf need.toNat, need := need, haveLen := 0 } inp

/-- The block loop, from a block of which bytes are missing. -/
def readBlocks : List ReadResult → Recv → List UInt8 → Parsed × List UInt8
  | [], recv, inp => (.wait recv, inp)
  | .eof :: _, _, inp => (.closed, inp)
  | .data k :: results, recv, inp =>
      let bs := inp.take (min k (recv.need.toNat - recv.haveLen))
      let inp' := inp.drop bs.length
      if bs = [] then (.wait recv, inp)
      else
        let recv' := { recv with
          buf := recv.buf.store (recv.dataBlock, recv.haveLen) bs
          haveLen := recv.haveLen + bs.length }
        if (recv'.haveLen : ℤ) < recv.need then (.wait recv', inp')
        else afterBlock (readBlocks results) recv' inp'

/-- `case Recv::WantBlock`. -/
def blockLoop (results : List ReadResult) (recv : Recv) (inp : List UInt8) :
    Parsed × List UInt8 :=
  if (recv.haveLen : ℤ) < recv.need then readBlocks results recv inp
  else afterBlock (readBlocks results) recv inp

abbrev headSize : ℕ := packetBlockHeaderSize + packetHeaderSize

/-- `PacketConnection::parsePacket`, with the bytes left on the wire. -/
def parsePacket (results : List ReadResult) (recv : Recv) (inp : List UInt8) :
    Parsed × List UInt8 :=
  match recv.state, results with
  | .wantHead, [] => (.wait recv, inp)
  | .wantHead, .eof :: _ => (.closed, inp)
  | .wantHead, .data k :: results =>
      let bs := inp.take (min k (headSize - recv.haveLen))
      let inp' := inp.drop bs.length
      if bs = [] then (.wait recv, inp)
      else
        let headBuf := recv.headBuf.store () recv.haveLen bs
        if recv.haveLen + bs.length < headSize then
          (.wait { recv with headBuf := headBuf, haveLen := recv.haveLen + bs.length }, inp')
        else
          let firstLen := intOf (ofLe (headBuf.load () 4 4))
          if firstLen < 0 then (.fault, inp')
          else
            let buf := appendBlock recv.buf firstLen.toNat
            let buf := buf.store (buf.blocks.length - 1, 0) (headBuf.load () 0 headSize)
            blockLoop results ⟨.wantBlock, headBuf, buf, headSize, firstLen⟩ inp'
  | .wantBlock, results => blockLoop results recv inp

/-! ## A connection -/

/-- What `dispatchPacket` finds in `recv`. -/
structure Packet where
  blocks : List (List UInt8)
  msgId : ℕ
  totalLen : ℕ
  deriving DecidableEq

/-- The blocks in `recv.buf`, with `recv.head`. -/
def Rope.packet (r : Rope) : Packet := ⟨r.contents, r.u32 (0, 12), r.u32 (0, 8)⟩

inductive ConnStatus
  | open
  | closed
  | fault
  deriving DecidableEq

/-- The receiving side, with the bytes on the wire and the packets dispatched. -/
structure Conn where
  recv : Recv
  inp : List UInt8
  out : List Packet
  status : ConnStatus

/-- One call of `parsePacket`. A closed connection gets none. -/
def Conn.parse (c : Conn) (results : List ReadResult) : Conn :=
  if c.status = .open then
    match parsePacket results c.recv c.inp with
    | (.wait recv, inp) => { c with recv := recv, inp := inp }
    | (.dispatch recv, inp) =>
        { c with
          recv := { recv with buf := { recv.buf with blocks := [] } }
          inp := inp
          out := c.out ++ [recv.buf.packet] }
    | (.closed, inp) => { c with inp := inp, status := .closed }
    | (.fault, inp) => { c with inp := inp, status := .fault }
  else c

def Conn.parseAll (c : Conn) (calls : List (List ReadResult)) : Conn := calls.foldl Conn.parse c

/-- A new connection with these bytes coming. -/
def Conn.start (headBuf : Mem Unit) (mem : Mem ℕ) (need : ℤ) (inp : List UInt8) : Conn :=
  ⟨⟨.wantHead, headBuf, ⟨[], mem⟩, 0, need⟩, inp, [], .open⟩

end Netp.Genf
