import Netp.Genf.Unset

/-! # The Java reader

`genf/RecordBase.java` and the classes that `genf/java.lm` generates for structs and packets. A record is
the list of its blocks. `none` is an exception; an exception in a field ends the whole `load` or `read`.

Of the Java compiler this is modelled: `ByteBuffer` has no `getByte` and no `putByte`, a parameter list does
not begin with a comma, a number that begins with 0 is octal, an `int` ends at 2^31, and which names of the
schema clash with a keyword, with each other or with the names that the classes use. What else may keep them
from compiling is `javac`, a parameter: `RecordCallback` is not in the repository, and the version of the
language and the limits of a class file are the compiler's. `send` and `read` of every packet stand in one file,
so that one that does not compile leaves none.
-/

namespace Netp.Genf.Java
open Netp.Lib
set_option autoImplicit false

/-! ## Schemas -/

/-- `record_field_type` as it stands in the schema: `char` with its number token. -/
inductive RecordFieldType
  | bool
  | int
  | uint
  | long
  | ulong
  | string
  | char (number : List (Fin 10))
  | list (struct : ℕ)
  deriving DecidableEq

def atoi (number : List (Fin 10)) : ℕ := number.foldl (fun n d => 10 * n + d) 0

/-- What `consStruct` and `consPacket` make of it: `CharSize = atoi( $N )`. -/
def RecordFieldType.analysed : RecordFieldType → FieldType
  | .bool => .bool
  | .int => .int
  | .uint => .uint
  | .long => .long
  | .ulong => .ulong
  | .string => .string
  | .char number => .char (atoi number)
  | .list struct => .list struct

/-- `record_field_def`. -/
structure RecordFieldDef where
  id : String
  type : RecordFieldType

/-- `packet_def` with `AppID * 1000 + NumID`. -/
structure PacketDef where
  id : String
  number : ℕ
  defs : List RecordFieldDef

/-- `struct_def`. -/
structure StructDef where
  id : String
  defs : List RecordFieldDef

/-- A list names its struct by its place in `StructMap`. -/
structure Schema where
  packetMap : List PacketDef
  structMap : List StructDef

def fieldsOf (defs : List RecordFieldDef) : List RecordFieldType := defs.map (·.type)

/-- The fields of each packet. -/
def Schema.packets (S : Schema) : List (List RecordFieldType) := S.packetMap.map fun d => fieldsOf d.defs

/-- The fields of each struct. -/
def Schema.structs (S : Schema) : List (List RecordFieldType) := S.structMap.map fun d => fieldsOf d.defs

def Schema.struct (S : Schema) (s : ℕ) : List RecordFieldType := S.structs[s]?.getD []

/-- The fields as the packers know them. -/
def fieldTypes (fields : List RecordFieldType) : List FieldType := fields.map RecordFieldType.analysed

/-! ## What the Java compiler accepts -/

/-- The `int` that a literal denotes; an octal one may have all 32 bits. -/
def intLiteral : List (Fin 10) → Option ℤ
  | 0 :: d :: ds =>
      let v := (d :: ds).foldl (fun n (d : Fin 10) => 8 * n + d.val) 0
      if (d :: ds).all (· < 8) && v < 2 ^ 32 then some (BitVec.ofNat 32 v).toInt else none
  | ds => if atoi ds < 2 ^ 31 then some (atoi ds) else none

/-- `sendP` has a parameter for such a field. -/
def isParam : RecordFieldType → Bool
  | .char _ => false
  | .list _ => false
  | _ => true

/-- The parameters of `sendP`, each with whether a comma was printed before it. -/
def sendParams (fields : List RecordFieldType) : List (Bool × RecordFieldType) :=
  (fields.foldl (fun (out, comma) ty => (if isParam ty then out ++ [(comma, ty)] else out, true))
    (([] : List (Bool × RecordFieldType)), false)).1

def fieldCompiles (packet : Bool) : RecordFieldType → Bool
  | .bool => !packet
  | .char number => (intLiteral number).isSome
  | _ => true

def packetCompiles (fields : List RecordFieldType) : Bool :=
  (sendParams fields).head?.all (fun p => !p.1) && fields.all (fieldCompiles true)

/-- Words that are no names. A name of the schema is no word of its grammar, but may be another of these. -/
def keywords : List String :=
  ["abstract", "assert", "boolean", "break", "byte", "case", "catch", "char", "class", "const", "continue",
    "default", "do", "double", "else", "enum", "extends", "final", "finally", "float", "for", "goto", "if",
    "implements", "import", "instanceof", "int", "interface", "long", "native", "new", "package", "private",
    "protected", "public", "return", "short", "static", "strictfp", "super", "switch", "synchronized", "this",
    "throw", "throws", "transient", "try", "void", "volatile", "while", "true", "false", "null"]

/-- What `sendP` declares, and what it would no longer find behind a parameter of that name. -/
def sendNames : List String := ["b", "bbb", "output", "e", "socket", "ByteBuffer", "ByteOrder"]

/-- The offsets that `sendP` uses; a parameter in place of one is to be an `int`. -/
def sendOffsets : List String := ["OFF_FIRST_LEN", "OFF_TOTAL_LEN", "OFF_MSG_ID"]

/-- What is found for `P` in `P.ID` before the class: locals and the members of `RecordBase`. -/
def variableNames : List String :=
  ["b", "bbb", "record", "factory", "socket", "callback", "WANT_HEAD", "WANT_BLOCK", "LOG_TAG",
    "SIZEOF_PACKET_BLOCK_HEADER", "SIZEOF_PACKET_HEADER", "OFF_FIRST_LEN", "OFF_TOTAL_LEN", "OFF_MSG_ID",
    "OFF_RECORD", "networkType", "BRING_UP_WIFI", "BRING_UP_MOBILE", "BRING_UP_UNKNOWN", "BRING_DOWN"]

/-- The classes that `RecordGen` uses, and itself. -/
def classNames : List String :=
  ["RecordGen", "Record", "RecordPos", "ByteBuffer", "ByteOrder", "OutputStream", "IOException"]

def isChar : RecordFieldType → Bool
  | .char _ => true
  | _ => false

/-- A struct has no member for a list. -/
def isMember : RecordFieldType → Bool
  | .list _ => false
  | _ => true

def hasInt (ty : RecordFieldType) : Bool := ty = .int || ty = .uint

/-- The members of a class beside its `own`. -/
def membersCompile (own : List String) (members : List RecordFieldDef) : Bool :=
  (members.map (·.id)).Nodup && members.all (fun f => !own.contains f.id) &&
    (!(members.any fun f => isChar f.type) || members.all (·.id ≠ "Arrays"))

def PacketDef.paramCompiles (d : PacketDef) (f : RecordFieldDef) : Bool :=
  !sendNames.contains f.id && f.id ≠ d.id && (!sendOffsets.contains f.id || hasInt f.type)

/-- `sendP` and the class of a packet, as far as names and numbers go. -/
def PacketDef.namesCompile (d : PacketDef) : Bool :=
  let params := d.defs.filter fun f => isParam f.type
  !(keywords ++ variableNames).contains d.id && d.defs.all (fun f => !keywords.contains f.id) &&
    (params.map (·.id)).Nodup && params.all d.paramCompiles &&
    membersCompile ["record", "ID", "Size"] d.defs &&
    (d.id ≠ "MonitorDisp" || d.defs.any (·.id = "content")) &&
    d.number < 2 ^ 31 && 16 + recordSize true (fieldTypes (fieldsOf d.defs)) < 2 ^ 31

/-- The class of a struct. A list is not printed, nor its offset. -/
def StructDef.namesCompile (d : StructDef) : Bool :=
  let fields := fieldsOf d.defs
  let members := d.defs.filter fun f => isMember f.type
  !keywords.contains d.id && members.all (fun f => !keywords.contains f.id) &&
    membersCompile ["next", "record", "offset"] members &&
    fields.zipIdx.all fun p => !isMember p.1 || fieldOffset false (fieldTypes fields) p.2 < 2 ^ 31

/-- The names of the classes. -/
def Schema.ids (S : Schema) : List String := S.packetMap.map (·.id) ++ S.structMap.map (·.id)

/-- Some class has such a field. -/
def Schema.uses (S : Schema) (p : RecordFieldType → Bool) : Bool := (S.packets ++ S.structs).any (·.any p)

def Schema.namesCompile (S : Schema) : Bool :=
  S.packetMap.all PacketDef.namesCompile && S.structMap.all StructDef.namesCompile &&
    (S.packetMap.map (·.number)).Nodup && S.ids.Nodup && S.ids.all (fun id => !classNames.contains id) &&
    (!S.uses (· = .string) || S.ids.all (fun id => id ≠ "String" && id ≠ "UnsupportedEncodingException")) &&
    (!S.uses isChar || S.ids.all (· ≠ "Arrays"))

/-- The compiler accepts `RecordGen.java`. -/
def Schema.compiles (javac : Schema → Bool) (S : Schema) : Bool :=
  S.packets.all packetCompiles && (S.structs.all fun fields => fields.all (fieldCompiles false)) &&
    S.namesCompile && javac S

/-! ## `RecordBase` -/

/-- `blockList`. -/
abbrev Record := List (List UInt8)

/-- An array, seen also as a little-endian `ByteBuffer`, and an index in it. -/
structure RecordPos where
  element : List UInt8
  offset : ℤ

def findFrom : Record → ℤ → Option RecordPos
  | [], _ => none
  | element :: rest, pos =>
      if pos < element.length then some ⟨element, pos⟩ else findFrom rest (pos - element.length)

def pktFind (record : Record) (pos : ℤ) : Option RecordPos :=
  if pos = 0 then none else findFrom record pos

def packetStrLen (pos : RecordPos) : Option ℕ :=
  if 0 ≤ pos.offset then
    some ((pos.element.drop pos.offset.toNat).takeWhile (· ≠ 0)).length
  else none

/-- The `n` bytes of an array from index `i` on. -/
def slice (element : List UInt8) (i : ℤ) (n : ℕ) : Option (List UInt8) :=
  if 0 ≤ i ∧ i + n ≤ element.length then some ((element.drop i.toNat).take n) else none

/-- `ByteBuffer.getInt`. -/
def getInt (block : List UInt8) (i : ℤ) : Option (BitVec 32) :=
  (slice block i 4).map fun bs => BitVec.ofNat 32 (ofLe bs)

/-- `ByteBuffer.getLong`. -/
def getLong (block : List UInt8) (i : ℤ) : Option (BitVec 64) :=
  (slice block i 8).map fun bs => BitVec.ofNat 64 (ofLe bs)

/-- A sum of `int`s. An index that overflows is negative, and an exception as one behind the array is; only
for the end of a range this makes a difference. -/
def int32 (x : ℤ) : ℤ := (BitVec.ofInt 32 x).toInt

/-- `Arrays.copyOfRange`: cut, or padded with zeros. -/
def copyOfRange (element : List UInt8) (start stop : ℤ) : Option (List UInt8) :=
  if 0 ≤ start ∧ start ≤ element.length ∧ start ≤ stop then
    some ((element.drop start.toNat ++ List.replicate (stop - start).toNat 0).take
      (stop - start).toNat)
  else none

/-- A byte in the charset `ASCII`. -/
def asciiChar (b : UInt8) : Char := if b < 128 then Char.ofNat b.toNat else '\uFFFD'

/-- `new String( element, offset, len, "ASCII" )`. -/
def newString (element : List UInt8) (offset : ℤ) (len : ℕ) : Option (List Char) :=
  (slice element offset len).map (List.map asciiChar)

/-! ## The generated classes -/

/-- What a member holds: a `bool` of a struct is a `byte`, a list field an `int`. -/
inductive Member
  | byte (b : UInt8)
  | int (v : BitVec 32)
  | long (v : BitVec 64)
  | string (s : List Char)
  | bytes (bs : List UInt8)
  deriving DecidableEq

/-- The cases that `load` and `read` have in common. -/
def loadField (record : Record) (recordPos : RecordPos) (offset : ℕ) : RecordFieldType → Option Member
  | .int => (getInt recordPos.element (recordPos.offset + offset)).map .int
  | .uint => (getInt recordPos.element (recordPos.offset + offset)).map .int
  | .long => (getLong recordPos.element (recordPos.offset + offset)).map .long
  | .ulong => (getLong recordPos.element (recordPos.offset + offset)).map .long
  | .string => do
      let stroff ← getInt recordPos.element (recordPos.offset + offset)
      let strPos ← pktFind record stroff.toInt
      let len ← packetStrLen strPos
      let s ← newString strPos.element strPos.offset len
      some (.string s)
  | .char number => do
      let n ← intLiteral number
      let bs ← copyOfRange recordPos.element (recordPos.offset + offset)
        (int32 (recordPos.offset + offset + n))
      some (.bytes bs)
  | _ => none

/-- A field in `load`. A list has no member; a `bool` is taken from the array without the offset of the
element. -/
def structField (record : Record) (recordPos : RecordPos) (offset : ℕ) :
    RecordFieldType → Option (Option Member)
  | .bool => recordPos.element[offset]?.map fun b => some (.byte b)
  | .list _ => some none
  | ty => (loadField record recordPos offset ty).map some

/-- A field in `read`. -/
def packetField (record : Record) (recordPos : RecordPos) (offset : ℕ) : RecordFieldType → Option Member
  | .list _ => (getInt recordPos.element (recordPos.offset + offset)).map .int
  | ty => loadField record recordPos offset ty

/-- An object of a struct's class, without its record. -/
structure Element where
  members : List (Option Member)
  next : ℤ
  offset : ℤ

namespace Element

def load (record : Record) (fields : List RecordFieldType) (offset : ℤ) : Option Element := do
  let recordPos ← pktFind record offset
  let members ← fields.zipIdx.mapM fun p =>
    structField record recordPos (fieldOffset false (fieldTypes fields) p.2) p.1
  let next ← getInt recordPos.element recordPos.offset
  some ⟨members, next.toInt, offset⟩

/-- The constructor. What it does not load has the value that Java gives it. -/
def new (record : Record) (fields : List RecordFieldType) (offset : ℤ) : Option Element :=
  if offset ≠ 0 then load record fields offset else some ⟨fields.map fun _ => none, 0, 0⟩

def advance (record : Record) (fields : List RecordFieldType) (el : Element) : Option Element :=
  if el.next ≠ 0 then load record fields el.next else some { el with offset := 0 }

def valid (el : Element) : Bool := el.offset ≠ 0

/-- `for ( ; el.valid(); el.advance() )`: the elements visited, in at most this many rounds. -/
def visit (record : Record) (fields : List RecordFieldType) : ℕ → Element → Option (List Element)
  | 0, _ => none
  | n + 1, el =>
      if el.valid then
        (el.advance record fields).bind fun el' => (visit record fields n el').map (el :: ·)
      else some []

end Element

/-- `read` of a packet's class. -/
def read (record : Record) (fields : List RecordFieldType) (offset : ℤ) : Option (List Member) :=
  fields.zipIdx.mapM fun p => (pktFind record offset).bind fun recordPos =>
    packetField record recordPos (fieldOffset true (fieldTypes fields) p.2) p.1

/-- The packet that `dispatch` reads, if there is such a class. -/
def dispatch (javac : Schema → Bool) (S : Schema) (record : Record) (fields : List RecordFieldType) :
    Option (List Member) :=
  if S.compiles javac then read record fields 16 else none

end Netp.Genf.Java
