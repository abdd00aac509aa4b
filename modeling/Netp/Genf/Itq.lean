import Mathlib.Algebra.Group.Nat.Defs
import Netp.Lib.Chain
import Netp.Lib.Run

/-! # The inter-thread queue

`ItQueue` and `ItWriter` of `genf/itq.cc`: writers allocate messages in blocks of their own and link
them into one queue; the reader takes them off it and releases their bytes.

Blocks have names that are never used twice, and the list of blocks of a writer stands for the links
from `hblk` to `tblk`. The headers of the messages are memory, by address: the queue runs through
their `next` fields. A writer is never taken out of `writerVect`, so a new one gets the next index.
A null pointer that is followed, and a message length that leaves the range of `int`, have no
result.
-/

namespace Netp.Genf.Itq
open Netp.Lib
set_option autoImplicit false

abbrev itBlockSz : ℕ := 4098

/-- A block and an index in its data. -/
abbrev Addr := ℕ × ℕ

structure ItHeader where
  msgId : ℕ
  writerId : ℕ
  length : ℕ
  next : Option Addr

abbrev sizeofItHeader : ℕ := 16

structure ItBlock where
  name : ℕ
  size : ℕ
  deriving DecidableEq

structure ItWriter where
  id : ℕ
  /-- From `hblk` to `tblk`. -/
  blocks : List ItBlock
  hoff : ℕ
  toff : ℕ
  mlen : ℕ
  toSend : Option Addr

structure ItQueue where
  head : Option Addr
  tail : Option Addr
  /-- `writerVect`, below `writerVect.size()`. -/
  size : ℕ
  writerVect : ℕ → ItWriter
  /-- The headers in memory. -/
  hdrs : Addr → ItHeader
  /-- The next name for a block, and the blocks freed. -/
  fresh : ℕ
  freed : List ℕ

/-! ## Operations -/

def ItWriter.new (id : ℕ) : ItWriter := ⟨id, [], 0, 0, 0, none⟩

def allocateBlock (name supporting : ℕ) : ItBlock :=
  ⟨name, if supporting > itBlockSz then supporting else itBlockSz⟩

/-- The body of `allocBytes`: the writer, the address and the next name. -/
def ItWriter.allocBytes (fresh : ℕ) (w : ItWriter) (size : ℕ) : ItWriter × Addr × ℕ :=
  match w.blocks.getLast? with
  | none =>
      let block := allocateBlock fresh size
      ({ w with blocks := [block], hoff := 0, toff := size, mlen := w.mlen + size },
        (block.name, 0), fresh + 1)
  | some tblk =>
      let avail := tblk.size - w.toff
      if size > avail then
        let block := allocateBlock fresh size
        ({ w with blocks := w.blocks ++ [block], toff := size, mlen := w.mlen + avail + size },
          (block.name, 0), fresh + 1)
      else
        ({ w with toff := w.toff + size, mlen := w.mlen + size }, (tblk.name, w.toff), fresh)

namespace ItQueue

def setWriter (q : ItQueue) (w : ℕ) (wr : ItWriter) : ItQueue :=
  { q with writerVect := Function.update q.writerVect w wr }

def setHeader (q : ItQueue) (a : Addr) (h : ItHeader) : ItQueue :=
  { q with hdrs := Function.update q.hdrs a h }

def registerWriter (q : ItQueue) : ItQueue :=
  { q.setWriter q.size (.new q.size) with size := q.size + 1 }

def allocBytes (q : ItQueue) (w size : ℕ) : Option (ItQueue × Addr) :=
  let (wr, a, fresh) := (q.writerVect w).allocBytes q.fresh size
  if wr.mlen < 2 ^ 31 then some ({ q.setWriter w wr with fresh := fresh }, a) else none

/-- `itqOpen`. -/
def itqOpen (q : ItQueue) (w ID SZ : ℕ) : Option (ItQueue × Addr) := do
  let q := q.setWriter w { q.writerVect w with mlen := 0 }
  let (q, header) ← q.allocBytes w sizeofItHeader
  let q := q.setHeader header
    { q.hdrs header with
      msgId := ID % 2 ^ 16, writerId := (q.writerVect w).id % 2 ^ 16, length := 0 }
  let (q, msg) ← q.allocBytes w SZ
  some (q.setWriter w { q.writerVect w with toSend := some header }, msg)

def send (q : ItQueue) (w : ℕ) : Option ItQueue := do
  let msg ← (q.writerVect w).toSend
  let q := q.setHeader msg { q.hdrs msg with length := (q.writerVect w).mlen }
  let q ←
    if q.head = none then some { q with head := some msg, tail := some msg }
    else do
      let t ← q.tail
      some { q.setHeader t { q.hdrs t with next := some msg } with tail := some msg }
  some (q.setHeader msg { q.hdrs msg with next := none })

/-- `wait`, once there is a message. -/
def wait (q : ItQueue) : Option (ItQueue × Addr) := do
  let header ← q.head
  let q := { q with head := (q.hdrs header).next }
  some (q.setHeader header { q.hdrs header with next := none }, header)

end ItQueue

/-- The loop of `release`: the blocks and `hoff` after it, and the blocks popped. -/
def releaseLoop : List ItBlock → ℕ → ℕ → Option (List ItBlock × ℕ × List ℕ)
  | [], hoff, length => if length = 0 then some ([], hoff, []) else none
  | b :: bs, hoff, length =>
      if 0 < length ∧ b.size - hoff ≤ length then
        (releaseLoop bs 0 (length - (b.size - hoff))).map fun (bs', hoff', pops) =>
          (bs', hoff', b.name :: pops)
      else some (b :: bs, hoff + length, [])

/-- Where `n` bytes are: at `offset`, or at the head of the next block. -/
def seek : List ItBlock → ℕ → ℕ → Option (List ItBlock × ℕ)
  | [], _, _ => none
  | b :: bs, offset, n => if offset + n > b.size then some (bs, 0) else some (b :: bs, offset)

namespace ItQueue

def writerOf (q : ItQueue) (header : Addr) : Option ℕ :=
  let id := (q.hdrs header).writerId
  if id < q.size then some id else none

def release (q : ItQueue) (header : Addr) : Option ItQueue := do
  let w ← q.writerOf header
  let wr := q.writerVect w
  let (blocks, hoff, pops) ← releaseLoop wr.blocks wr.hoff (q.hdrs header).length
  let wr := { wr with
    blocks := blocks, hoff := hoff, toff := if blocks = [] then 0 else wr.toff }
  some { q.setWriter w wr with freed := q.freed ++ pops }

/-- `itqRead`. -/
def itqRead (q : ItQueue) (header : Addr) (SZ : ℕ) : Option Addr := do
  let w ← q.writerOf header
  let (bs, offset) ← seek (q.writerVect w).blocks (q.writerVect w).hoff sizeofItHeader
  let (bs, offset) ← seek bs (offset + sizeofItHeader) SZ
  let b ← bs.head?
  some (b.name, offset)

end ItQueue

/-! ## The system

Any number of writers, each of which opens a message, allocates further bytes and sends it, and one
reader that waits and releases. -/

/-- Bytes of a message. -/
structure Piece where
  blk : ℕ
  off : ℕ
  len : ℕ

/-- A message as its writer made it. -/
structure Msg where
  writer : ℕ
  hdr : Addr
  /-- What `itqOpen` returned. -/
  contents : Addr
  sz : ℕ
  rest : List Piece
  /-- The length sent. -/
  len : ℕ

def Msg.pieces (m : Msg) : List Piece :=
  ⟨m.hdr.1, m.hdr.2, sizeofItHeader⟩ :: ⟨m.contents.1, m.contents.2, m.sz⟩ :: m.rest

structure World where
  q : ItQueue
  /-- The message that each writer has open. -/
  opened : ℕ → Option Msg
  sent : List Msg
  /-- What `wait` returned so far. -/
  waited : List Addr
  /-- The message the reader has. -/
  cur : Option Addr
  released : ℕ

inductive Act
  | register
  | openMsg (w ID SZ : ℕ)
  | alloc (w size : ℕ)
  | send (w : ℕ)
  | wait
  | release

def init : World where
  q := ⟨none, none, 0, fun _ => .new 0, fun _ => ⟨0, 0, 0, none⟩, 0, []⟩
  opened := fun _ => none
  sent := []
  waited := []
  cur := none
  released := 0

def step (s : World) : Act → Option World
  | .register => some { s with q := s.q.registerWriter }
  | .openMsg w ID SZ =>
      if w < s.q.size ∧ s.opened w = none then do
        let (q, msg) ← s.q.itqOpen w ID SZ
        let hdr ← (q.writerVect w).toSend
        some { s with q := q, opened := Function.update s.opened w (some ⟨w, hdr, msg, SZ, [], 0⟩) }
      else none
  | .alloc w size => do
      let m ← s.opened w
      let (q, a) ← s.q.allocBytes w size
      some { s with
        q := q
        opened := Function.update s.opened w
          (some { m with rest := m.rest ++ [⟨a.1, a.2, size⟩] }) }
  | .send w => do
      let m ← s.opened w
      let q ← s.q.send w
      some { s with
        q := q
        opened := Function.update s.opened w none
        sent := s.sent ++ [{ m with len := (s.q.writerVect w).mlen }] }
  | .wait =>
      if s.cur = none then do
        let (q, header) ← s.q.wait
        some { s with q := q, waited := s.waited ++ [header], cur := some header }
      else none
  | .release => do
      let header ← s.cur
      let q ← s.q.release header
      some { s with q := q, cur := none, released := s.released + 1 }

def system : System World Act := ⟨init, step⟩

end Netp.Genf.Itq
