import Netp.Genf.Describe
import Netp.Lib.Fuel

/-! # The broker's descriptions of packets (`broker/main.cc`)

`recvPacketType` makes a `Struct` of a received `PacketType`. `readStruct` reads the fields: the one
iterator over the packet's list goes through the fields of every level, and the fields of a list's struct
follow that of the list.

A call is `none` where the source goes through a null pointer, where it reads out of the block that a pointer
is in, or where its fuel is used up; a turn of a loop and a call of `readStruct` take one unit. So a call that
runs for ever is `none` at every fuel.
-/

namespace Netp.Broker.Influx
open Netp.Lib Netp.Genf
set_option autoImplicit false

/-- `PacketFieldType`. -/
inductive PacketFieldType
  | bool
  | int
  | unsignedInt
  | long
  | unsignedLong
  | string
  | char
  | list
  deriving DecidableEq

namespace PacketFieldType

/-- The values in `genf/packet.h`. -/
def code : PacketFieldType → ℤ
  | .bool => 1
  | .int => 2
  | .unsignedInt => 3
  | .long => 4
  | .unsignedLong => 5
  | .string => 6
  | .char => 7
  | .list => 8

/-- The case that a `switch` takes. -/
def ofCode (type : ℤ) : Option PacketFieldType :=
  [bool, int, unsignedInt, long, unsignedLong, string, char, list].find? fun t => t.code = type

end PacketFieldType

/-- `Field`, but for its struct. -/
structure FieldData where
  name : List UInt8
  tag : Bool
  type : ℤ
  size : ℤ
  offset : ℤ
  deriving DecidableEq

/-- `Field`. Of the struct in `listOf` only the fields are ever used; a field that is no list has none. -/
inductive Field
  | mk (data : FieldData) (listOf : List Field)

namespace Field

def data : Field → FieldData
  | mk data _ => data

def listOf : Field → List Field
  | mk _ listOf => listOf

def isList (f : Field) : Bool := f.data.type = PacketFieldType.list.code

end Field

/-- `Struct`. -/
structure Struct where
  name : List UInt8
  ID : ℤ
  fieldList : List Field

/-- `readStruct` sets `hasList` at every list field; the last one stays. -/
def Struct.hasList (s : Struct) : Option Field := s.fieldList.reverse.find? Field.isList

/-! ## Reading strings -/

/-- `strlen`, in at most `n` turns. -/
def strlen (r : Rope) : ℕ → Ptr → Option ℕ
  | 0, _ => none
  | n + 1, p =>
      if p.2 < r.len p.1 then
        if r.mem p.1 p.2 = 0 then some 0 else (strlen r n (p.1, p.2 + 1)).map (· + 1)
      else none

/-- The string that a `std::string` takes from a `char *`. -/
def cString (r : Rope) (n : ℕ) (p : Ptr) : Option (List UInt8) := (strlen r n p).map (r.load p)

/-! ## `readStruct` -/

/-- Collect the field. -/
def collect (r : Rope) (n : ℕ) (fieldIter : StructRecord) : Option FieldData :=
  match fieldIter.members 0, fieldIter.members 1, fieldIter.members 2, fieldIter.members 3,
    fieldIter.members 4 with
  | some (.str (some name)), some (.bool tag), some (.int type), some (.int size), some (.int offset) =>
      (cString r n name).map fun name => ⟨name, tag, type.toInt, size.toInt, offset.toInt⟩
  | _, _, _, _, _ => none

/-- `MainThread::readStruct`: the fields it appends, and where the iterator is then. -/
def readStruct (r : Rope) : ℕ → ℤ → StructRecord → Option (List Field × StructRecord)
  | 0, _, _ => none
  | n + 1, numFields, fieldIter =>
      if 0 < numFields ∧ fieldIter.valid then
        (collect r n fieldIter).bind fun data =>
          (fieldIter.advance r packetField).bind fun fieldIter =>
            -- the fields of the list's structure follow
            (if data.type = PacketFieldType.list.code then readStruct r n data.size fieldIter
              else some ([], fieldIter)).bind fun sub =>
                (readStruct r n (numFields - 1) sub.2).map fun rest =>
                  (.mk data sub.1 :: rest.1, rest.2)
      else some ([], fieldIter)

/-- `MainThread::recvPacketType`: the description it puts into the map. `junk` is what the iterator's
memory held before. -/
def recvPacketType (junk : StructRecord) (r : Rope) (n : ℕ) (pkt : ℕ → Option RecField) : Option Struct :=
  match pkt 0, pkt 1, pkt 2, pkt 3 with
  | some (.str (some name)), some (.int numId), some (.int numFields), some (.head fields) =>
      (cString r n name).bind fun name =>
        (StructRecord.new junk r packetField fields).bind fun fieldIter =>
          (readStruct r n numFields.toInt fieldIter).map fun s => ⟨name, numId.toInt, s.1⟩
  | _, _, _, _ => none

end Netp.Broker.Influx
