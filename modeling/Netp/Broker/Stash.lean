import Netp.Broker.ReadStruct
import Netp.Lib.CString

/-! # The broker's database lines (`broker/main.cc`)

`stashStruct` writes the fields of a received packet as text, one line for each element of the packet's
list. Where the fields are comes from a description the broker got before (`Struct`), so an offset can lead
out of the packet.

A call is `none` where the source goes through a null pointer, reads out of the block that a pointer is in, or
where its fuel is used up, as in `Netp.Broker.ReadStruct`.
-/

namespace Netp.Broker.Influx
open Netp.Lib Netp.Genf
set_option autoImplicit false

/-- The text so far, and `sep`. -/
structure Post where
  text : List UInt8
  sep : UInt8

/-- `post << sep << name << "=" << value`, and the next separator. -/
def Post.put (post : Post) (name value : List UInt8) : Post :=
  ⟨post.text ++ [post.sep] ++ name ++ bytes "=" ++ value, 44⟩

/-- A number as an `std::ostream` writes it. -/
def decimal (v : ℤ) : List UInt8 := bytes (toString v)

/-- `lineProtocolStrEscape`. -/
def lineProtocolStrEscape (str : List UInt8) : List UInt8 :=
  str.flatMap fun c => if c = 34 then [92, 34] else [c]

/-- Quotes stand around a string that is no tag. -/
def quoted (tags : Bool) (str : List UInt8) : List UInt8 :=
  if tags then lineProtocolStrEscape str else [34] ++ lineProtocolStrEscape str ++ [34]

section Stash
variable (r : Rope)

/-- The bytes at `overlay + offset`, if they are in the block that `overlay` is in. Of no bytes none is read. -/
def loadAt (overlay : Option Ptr) (offset : ℤ) (n : ℕ) : Option (List UInt8) :=
  if n = 0 then some []
  else
    overlay.bind fun p =>
      if 0 ≤ p.2 + offset ∧ p.2 + offset + n ≤ r.len p.1 then
        some (r.load (p.1, (p.2 + offset).toNat) n)
      else none

/-- `memchr( overlay + offset, 0, n )`, as the distance of the byte found. It reads up to that byte. -/
def memchr (overlay : Option Ptr) (offset : ℤ) (n : ℕ) : Option (Option ℕ) :=
  if n = 0 then some none
  else
    overlay.bind fun p =>
      if 0 ≤ p.2 + offset then
        let str := (p.2 + offset).toNat
        match (List.range (min n (r.len p.1 - str))).find? fun k => r.mem p.1 (str + k) = 0 with
        | some null => some (some null)
        | none => if str + n ≤ r.len p.1 then some none else none
      else none

/-- A field of `width` bytes in the record at `base`, written by `show'`. -/
def stashValue (width : ℕ) (show' : ℕ → List UInt8) (base : ℕ) (f : Field) (post : Post) : Option Post :=
  (loadAt r (pktFind r base) f.data.offset width).map fun value => post.put f.data.name (show' (ofLe value))

def stashBool : ℕ → Field → Post → Option Post :=
  stashValue r 1 fun v => if v = 0 then bytes "f" else bytes "t"

def stashInt : ℕ → Field → Post → Option Post := stashValue r 4 fun v => decimal (intOf v)

def stashUnsignedInt : ℕ → Field → Post → Option Post := stashValue r 4 fun v => decimal v

def stashLong : ℕ → Field → Post → Option Post :=
  stashValue r 8 fun v => decimal (BitVec.ofNat 64 v).toInt

def stashUnsignedLong : ℕ → Field → Post → Option Post := stashValue r 8 fun v => decimal v

/-- `stashString`. The length goes through an `int`. -/
def stashString (n : ℕ) (tags : Bool) (base : ℕ) (f : Field) (post : Post) : Option Post :=
  (loadAt r (pktFind r base) f.data.offset 4).bind fun offset =>
    (pktFind r (ofLe offset)).bind fun str =>
      (strlen r n str).map fun len =>
        post.put f.data.name (quoted tags (r.load str (intOf len).toNat))

/-- The size of a field, as the `int` that it is. -/
def intSize (f : Field) : ℤ := f.data.size.bmod (2 ^ 32)

/-- `stashChar`. The size goes through a `size_t`, a distance through an `int`. -/
def stashChar (tags : Bool) (base : ℕ) (f : Field) (post : Post) : Option Post :=
  (memchr r (pktFind r base) f.data.offset (intSize f % 2 ^ 64).toNat).bind fun null =>
    (loadAt r (pktFind r base) f.data.offset ((null.map intOf).getD (intSize f)).toNat).map fun str =>
      post.put f.data.name (quoted tags str)

/-- One turn of `stashFieldList`. -/
def stashField (n : ℕ) (tags : Bool) (base : ℕ) (post : Post) (f : Field) : Option Post :=
  if tags = f.data.tag then
    match PacketFieldType.ofCode f.data.type with
    | some .bool => stashBool r base f post
    | some .int => stashInt r base f post
    | some .unsignedInt => stashUnsignedInt r base f post
    | some .long => stashLong r base f post
    | some .unsignedLong => stashUnsignedLong r base f post
    | some .string => stashString r n tags base f post
    | some .char => stashChar r tags base f post
    -- not including these explicitly
    | some .list => some post
    | none => some post
  else some post

/-- `MainThread::stashFieldList`. -/
def stashFieldList (n : ℕ) (tags : Bool) (base : ℕ) (fieldList : List Field) (post : Post) : Option Post :=
  fieldList.foldlM (stashField r n tags base) post

/-- The line of the element at `itemOffset`. -/
def stashItem (n : ℕ) (strct : Struct) (listOf : List Field) (itemOffset : ℕ) (text : List UInt8) :
    Option (List UInt8) :=
  (stashFieldList r n true headSize strct.fieldList ⟨text ++ strct.name, 44⟩).bind fun post =>
    (stashFieldList r n true itemOffset listOf post).bind fun post =>
      (stashFieldList r n false headSize strct.fieldList { post with sep := 32 }).bind fun post =>
        (stashFieldList r n false itemOffset listOf post).map fun post => post.text ++ bytes "\n"

/-- `while ( itemOffset != 0 )`. -/
def stashItems (strct : Struct) (listOf : List Field) : ℕ → ℕ → List UInt8 → Option (List UInt8)
  | 0, _, _ => none
  | n + 1, itemOffset, text =>
      if itemOffset = 0 then some text
      else
        (stashItem r n strct listOf itemOffset text).bind fun text =>
          -- next pointer is offset 0 from the offset of the item
          (loadAt r (pktFind r itemOffset) 0 4).bind fun next => stashItems strct listOf n (ofLe next) text

/-- `MainThread::stashStruct`. -/
def stashStruct (n : ℕ) (strct : Struct) (text : List UInt8) : Option (List UInt8) :=
  match strct.hasList with
  | some list =>
      (loadAt r (pktFind r headSize) list.data.offset 4).bind fun head =>
        stashItems r strct list.listOf n (ofLe head) text
  | none =>
      (stashFieldList r n true headSize strct.fieldList ⟨text ++ strct.name, 44⟩).bind fun post =>
        (stashFieldList r n false headSize strct.fieldList { post with sep := 32 }).map Post.text

end Stash

/-! ## Receiving -/

/-- `structMap`. -/
abbrev StructMap := ℤ → Option Struct

/-- What does not depend on the packet: whether there is an `influxToken`, and what is in memory that was
never written. -/
structure Surroundings where
  influxToken : Bool
  junk : Junk
  junkField : StructRecord

/-- `MainThread::dispatchPacket` for a received rope, as far as descriptions and lines go: the map, and the
text posted. -/
def dispatchPacket (env : Surroundings) (n : ℕ) (structMap : StructMap) (r : Rope) :
    Option (StructMap × List UInt8) :=
  let msgId := r.u32 (0, packetBlockHeaderSize + 8)
  (match structMap (intOf msgId) with
    | some strct => if env.influxToken then stashStruct r n strct [] else some []
    | none => some []).bind fun post =>
      if msgId = idPacketType then
        -- the constructor of the record reads all of it
        (loadAt r (pktFind r headSize) 0 (recordSize true packetType)).bind fun _ =>
          (recvPacketType env.junkField r n (recordPacket env.junk r headSize packetType)).map fun s : Struct =>
            (Function.update structMap s.ID (some s), post)
      else some (structMap, post)

/-- The packets one after the other. -/
def receiveAll (env : Surroundings) (n : ℕ) (structMap : StructMap) (ropes : List Rope) : Option StructMap :=
  ropes.foldlM (fun structMap r => (dispatchPacket env n structMap r).map Prod.fst) structMap

end Netp.Broker.Influx
