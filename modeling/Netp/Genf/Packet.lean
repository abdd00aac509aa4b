import Netp.Lib.Mem

/-! # Packets: ropes, generated packers and records

`genf/packet.cc` (the writer side), the layout that `genf/analysis.lm` gives to packets and structs,
and the code that `genf/record.lm` generates for them.

* A rope is a list of blocks with their bytes. Of `append(0, n)` only this is used: it gives `n`
  bytes of the tail block if they fit, and else of a fresh block of capacity `max n C`. Fresh bytes
  are whatever they are.
* `Packer`: a packet object with the list elements allocated so far. `exec` runs one setter.
* `dispatchPacket`: the record built from a rope. Members the constructor does not assign keep what
  was in memory (`Junk`).

A rope's length is an `int`; a setter that would exceed that has no next state.
-/

namespace Netp.Genf
open Netp.Lib
set_option autoImplicit false

/-! ## Ropes -/

structure RopeBlock where
  cap : ℕ
  len : ℕ
  deriving DecidableEq

/-- The blocks from `hblk` to `tblk`, with the bytes of each. -/
structure Rope where
  blocks : List RopeBlock
  mem : Mem ℕ

/-- A block of a rope and an index in it. -/
abbrev Ptr := ℕ × ℕ

namespace Rope

def length (r : Rope) : ℕ := (r.blocks.map RopeBlock.len).sum

/-- `available(tblk)`; `none` without a tail block. -/
def available (r : Rope) : Option ℕ := r.blocks.getLast?.map fun t => t.cap - t.len

/-- `append(0, n)`. -/
def append (C : ℕ) (r : Rope) (n : ℕ) : Rope × Ptr :=
  match r.blocks.getLast? with
  | some t =>
      if n ≤ t.cap - t.len then
        ({ r with blocks := r.blocks.dropLast ++ [{ t with len := t.len + n }] },
          (r.blocks.length - 1, t.len))
      else ({ r with blocks := r.blocks ++ [⟨max n C, n⟩] }, (r.blocks.length, 0))
  | none => ({ r with blocks := r.blocks ++ [⟨max n C, n⟩] }, (r.blocks.length, 0))

def store (r : Rope) (p : Ptr) (bs : List UInt8) : Rope := { r with mem := r.mem.store p.1 p.2 bs }

def load (r : Rope) (p : Ptr) (n : ℕ) : List UInt8 := r.mem.load p.1 p.2 n

/-- The bytes of every block. -/
def contents (r : Rope) : List (List UInt8) :=
  r.blocks.mapIdx fun b blk => r.mem.load b 0 blk.len

end Rope

def findFrom : ℕ → List RopeBlock → ℕ → Option Ptr
  | _, [], _ => none
  | b, blk :: rest, l => if l < blk.len then some (b, l) else findFrom (b + 1) rest (l - blk.len)

/-- `Thread::pktFind`. -/
def pktFind (r : Rope) (l : ℕ) : Option Ptr := if l = 0 then none else findFrom 0 r.blocks l

/-! ## `PacketWriter` and `PacketBase` -/

abbrev packetBlockHeaderSize : ℕ := 4
abbrev packetHeaderSize : ℕ := 12

/-- The body of `PacketWriter::allocBytes`: the rope, the address and the offset of `nb` new
bytes. -/
def allocBytesBody (C : ℕ) (r : Rope) (nb : ℕ) : Rope × Ptr × ℕ :=
  match r.available with
  | some avail =>
      if nb ≤ avail then
        let (r', p) := r.append C nb
        (r', p, r.length)
      else
        let (r', p) := r.append C (packetBlockHeaderSize + nb)
        (r', (p.1, p.2 + packetBlockHeaderSize), r.length + packetBlockHeaderSize)
  | none =>
      let (r', p) := r.append C (packetBlockHeaderSize + nb)
      (r', (p.1, p.2 + packetBlockHeaderSize), r.length + packetBlockHeaderSize)

/-- `PacketWriter::allocBytes`, as long as the length stays an `int`. -/
def allocBytes (C : ℕ) (r : Rope) (nb : ℕ) : Option (Rope × Ptr × ℕ) :=
  if (allocBytesBody C r nb).1.length < 2 ^ 31 then some (allocBytesBody C r nb) else none

/-- `PacketBase::open` on fresh memory: the rope and the address of the record. -/
def packetBaseOpen (C : ℕ) (mem : Mem ℕ) (id size : ℕ) : Option (Rope × Ptr) := do
  let (r, header, _) ← allocBytes C ⟨[], mem⟩ packetHeaderSize
  let r := r.store (header.1, header.2 + 8) (le 4 id)
  let (r, msg, _) ← allocBytes C r size
  let r := r.store msg (List.replicate size 0)
  let r := r.store (header.1, header.2 + 4) (le 4 0)
  some (r, msg)

/-- The first pass of `PacketBase::send`: every block begins with the length of the next. -/
def setNextLens : ℕ → List RopeBlock → Mem ℕ → Mem ℕ
  | _, [], m => m
  | b, _ :: rest, m =>
      setNextLens (b + 1) rest (m.store b 0 (le 4 ((rest.head?.map RopeBlock.len).getD 0)))

/-- `PacketBase::send`, up to the handing over of the blocks. -/
def packetBaseSend (r : Rope) : Rope :=
  let r := r.store (0, 8) (le 4 r.length)
  let r := r.store (0, 4) (le 4 ((r.blocks.head?.map RopeBlock.len).getD 0))
  { r with mem := setNextLens 0 r.blocks r.mem }

/-! ## Definitions and their layout -/

/-- `record_field_type`; a list names the struct of its elements. -/
inductive FieldType
  | bool
  | int
  | uint
  | long
  | ulong
  | string
  | char (n : ℕ)
  | list (struct : ℕ)
  deriving DecidableEq

/-- Bytes of a field in `consPacket` (`true`) and `consStruct` (`false`). -/
def fieldWidth (packet : Bool) : FieldType → ℕ
  | .bool => 1
  | .int => 4
  | .uint => 4
  | .long => 8
  | .ulong => 8
  | .string => 4
  | .char n => n
  | .list _ => if packet then 4 else 0

/-- `FD.Offset` of field `j`; a struct begins with its next link. -/
def fieldOffset (packet : Bool) (fields : List FieldType) (j : ℕ) : ℕ :=
  (if packet then 0 else 4) + ((fields.take j).map (fieldWidth packet)).sum

/-- `Packet->Size` and `Struct->Size`. -/
def recordSize (packet : Bool) (fields : List FieldType) : ℕ :=
  fieldOffset packet fields fields.length

/-! ## The generated packers -/

inductive Value
  | bool (b : Bool)
  | int (v : BitVec 32)
  | uint (v : BitVec 32)
  | long (v : BitVec 64)
  | ulong (v : BitVec 64)
  | string (s : List UInt8)
  | char (bs : List UInt8)
  deriving DecidableEq

/-- The packet object, or an element of the list field `field` of the packet. -/
structure Obj where
  packet : Bool
  field : ℕ
  overlay : Ptr
  fields : List FieldType

/-- A packet object being filled. -/
structure Packer where
  rope : Rope
  /-- The packet itself, then the elements in the order of their allocation. -/
  objs : List Obj
  /-- `tail_x` of each list field. -/
  tail : ℕ → Ptr

/-- A call of a setter: of object `k`, field `j`, or `alloc_x` of list field `j`. -/
inductive Op
  | set (k j : ℕ) (v : Value)
  | alloc (j : ℕ)

def Obj.slot (o : Obj) (j : ℕ) : Ptr :=
  (o.overlay.1, o.overlay.2 + fieldOffset o.packet o.fields j)

/-- What a setter of a field that holds its value in place stores there. -/
def inPlace (packet : Bool) : FieldType → Value → Option (List UInt8)
  | .bool, .bool b => some [if b then 1 else 0]
  | .int, .int v => some (le 4 v.toNat)
  | .uint, .uint v => some (le 4 v.toNat)
  | .long, .long v => some (le 8 v.toNat)
  | .ulong, .ulong v => some (le 8 v.toNat)
  | .char n, .char bs =>
      -- memcpy for a packet, strncpy for a struct
      if packet then if bs.length = n then some bs else none
      else if 0 ∈ bs then none else some ((bs ++ List.replicate n 0).take n)
  | _, _ => none

/-- `set_x` of an object. -/
def setField (C : ℕ) (r : Rope) (o : Obj) (j : ℕ) (ty : FieldType) (v : Value) : Option Rope :=
  match ty, v with
  | .string, .string src =>
      if 0 ∈ src then none
      else do
        let (r, dest, offset) ← allocBytes C r (src.length + 1)
        some ((r.store (o.slot j) (le 4 offset)).store dest (src ++ [0]))
  | ty, v => (inPlace o.packet ty v).map fun bs => r.store (o.slot j) bs

/-- `alloc_x` for a list of the struct with these fields. -/
def allocElement (C : ℕ) (pk : Packer) (o : Obj) (j : ℕ) (fields : List FieldType) :
    Option Packer := do
  let size := recordSize false fields
  let (r, elov, offset) ← allocBytes C pk.rope size
  let r := r.store elov (List.replicate size 0)
  let r :=
    if ofLe (r.load (o.slot j) 4) = 0 then r.store (o.slot j) (le 4 offset)
    else r.store (pk.tail j) (le 4 offset)
  some ⟨r, pk.objs ++ [⟨false, j, elov, fields⟩], Function.update pk.tail j elov⟩

def exec (C : ℕ) (structs : ℕ → List FieldType) (pk : Packer) : Op → Option Packer
  | .set k j v => do
      let o ← pk.objs[k]?
      let ty ← o.fields[j]?
      let r ← setField C pk.rope o j ty v
      some { pk with rope := r }
  | .alloc j =>
      pk.objs[0]?.bind fun o =>
        o.fields[j]?.bind fun
          | .list struct => allocElement C pk o j (structs struct)
          | _ => none

/-- The constructor of a packet object. -/
def openPacker (C : ℕ) (mem : Mem ℕ) (id : ℕ) (fields : List FieldType) : Option Packer := do
  let (r, msg) ← packetBaseOpen C mem id (recordSize true fields)
  some ⟨r, [⟨true, 0, msg, fields⟩], fun _ => (0, 0)⟩

def execAll (C : ℕ) (structs : ℕ → List FieldType) : Packer → List Op → Option Packer
  | pk, [] => some pk
  | pk, op :: ops => (exec C structs pk op).bind fun pk' => execAll C structs pk' ops

/-! ## The generated records -/

/-- A member of a record. -/
inductive RecField
  | bool (b : Bool)
  | int (v : BitVec 32)
  | uint (v : BitVec 32)
  | long (v : BitVec 64)
  | ulong (v : BitVec 64)
  | str (p : Option Ptr)
  | chr (bs : List UInt8)
  | head (offset : ℕ)
  deriving DecidableEq

/-- What the members held before the constructor ran. -/
structure Junk where
  uint : ℕ → BitVec 32
  chr : ℕ → ℕ → UInt8

def Rope.u32 (r : Rope) (p : Ptr) : ℕ := ofLe (r.load p 4)

def Rope.u64 (r : Rope) (p : Ptr) : ℕ := ofLe (r.load p 8)

/-- The constructor of `Record::P` for member `j`. A load through a null overlay has no value.
There is no case for `uint` and `char`, and the first case for `ulong` loads an `int`. -/
def recordPacketField (junk : Junk) (r : Rope) (overlay : Option Ptr) (offset j : ℕ) :
    FieldType → Option RecField
  | .bool => overlay.map fun p => .bool (r.mem p.1 (p.2 + offset) != 0)
  | .int => overlay.map fun p => .int (BitVec.ofNat 32 (r.u32 (p.1, p.2 + offset)))
  | .uint => some (.uint (junk.uint j))
  | .long => overlay.map fun p => .long (BitVec.ofNat 64 (r.u64 (p.1, p.2 + offset)))
  | .ulong => overlay.map fun p =>
      .ulong ((BitVec.ofNat 32 (r.u32 (p.1, p.2 + offset))).signExtend 64)
  | .string => overlay.map fun p => .str (pktFind r (r.u32 (p.1, p.2 + offset)))
  | .char n => some (.chr ((List.range n).map (junk.chr j)))
  | .list _ => overlay.map fun p => .head (r.u32 (p.1, p.2 + offset))

/-- The constructor of `Record::P`, member by member. -/
def recordPacket (junk : Junk) (r : Rope) (offset : ℕ) (fields : List FieldType) (j : ℕ) :
    Option RecField :=
  match fields[j]? with
  | some ty => recordPacketField junk r (pktFind r offset) (fieldOffset true fields j) j ty
  | none => none

/-- `dispatchPacket` of a thread that receives `P`: the record it builds if the rope's `msgId` is
that of `P`. -/
def dispatchPacket (junk : Junk) (id : ℕ) (fields : List FieldType) (r : Rope) :
    Option (ℕ → Option RecField) :=
  if r.u32 (0, packetBlockHeaderSize + 8) = id then
    some (recordPacket junk r (packetBlockHeaderSize + packetHeaderSize) fields)
  else none

end Netp.Genf
