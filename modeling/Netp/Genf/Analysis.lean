import Netp.Lib.CString
import Netp.Lib.Table

/-! # Analysis of a program

`semanticAnalysis` of the generator (`genf/analysis.lm`), as far as threads, messages and packets go, and
what is generated of it by which packets are told apart (`genf/record.lm`): the constant `ID`, the `switch`
of `dispatchPacket` and the one of `packetLowerName`. What it makes of options, structs, kernel objects
and capabilities is left out, as none of it can fail, and so is the layout of a packet.

A program is the list of its definitions. `openUse` gives the program of a `use` statement: what the first
file in `OptInc` is parsed to, if there is one and it can be parsed.
-/

namespace Netp.Genf.Analysis
open Netp.Lib
set_option autoImplicit false

abbrev Id := List UInt8

inductive Definition
  | threadDef (id : Id)
  | messageDef (id : Id)
  /-- `GlobalPacketId` is zero in what is read from a file. -/
  | packetDef (id : Id) (globalPacketId : ℤ)
  | packetId (id : Id) (number : List UInt8)
  | startsDecl (owner thread : Id)
  | sendsToDecl (sender message receiver : Id)
  | sendsDecl (sender packet : Id)
  | receivesDecl (receiver packet : Id)
  | useDecl (path : List UInt8)
  | appidDecl (number : List UInt8)
  | other

abbrev Program := List Definition

/-- `PacketType` -/
def packetType : Id := bytes "PacketType"

def addDefaultDefs (P : Program) : Program :=
  .other :: .other :: .other :: .threadDef (bytes "Main") :: .other :: .packetDef packetType 1 :: P

/-! ## Packets -/

structure Packet where
  id : Id
  numID : ℤ
  appID : ℤ
  deriving DecidableEq

def consPacket (applicationId : ℤ) (d : Id × ℤ) : Packet :=
  if d.2 ≠ 0 then ⟨d.1, d.2, 0⟩ else ⟨d.1, 0, applicationId⟩

/-- `PacketMap`; its `insert` leaves a packet alone that is there. -/
abbrev PacketMap := Table Packet.id

def packetDefs (P : Program) : List (Id × ℤ) :=
  P.filterMap fun d => match d with
    | .packetDef id globalPacketId => some (id, globalPacketId)
    | _ => none

def packetIds (P : Program) : List (Id × List UInt8) :=
  P.filterMap fun d => match d with
    | .packetId id number => some (id, number)
    | _ => none

/-- The rounds of the loops over `packet_id`; a packet that is not found ends the program. -/
def packetIdRound (m : PacketMap) (d : Id × List UInt8) : Option PacketMap :=
  (m.find d.1).map fun packet =>
    m.update packet.id (fun p => { p with numID := atoi d.2 }) fun _ => rfl

/-! ## Applications -/

def NUM_APP_ID : ℤ := 64

def findApplicationId (P : Program) : Option ℤ :=
  let appIdDecl := P.findSome? fun d => match d with
    | .appidDecl number => some number
    | _ => none
  let applicationId := match appIdDecl with
    | some number => atoi number
    | none => 0
  if applicationId < 1 ∨ applicationId ≥ NUM_APP_ID then none else some applicationId

def uses (P : Program) : List (List UInt8) :=
  P.filterMap fun d => match d with
    | .useDecl path => some path
    | _ => none

/-- A round of `useDecls`. -/
def useRound (openUse : List UInt8 → Option Program) (m : PacketMap) (path : List UInt8) :
    Option PacketMap := do
  let useP ← openUse path
  let applicationId ← findApplicationId useP
  let usePacketMap : PacketMap :=
    Table.empty.insertAll ((packetDefs useP).map (consPacket applicationId))
  (packetIds useP).foldlM packetIdRound (m.insertAll usePacketMap.entries)

def useDecls (openUse : List UInt8 → Option Program) (P : Program) (m : PacketMap) :
    Option PacketMap :=
  (uses P).foldlM (useRound openUse) m

/-! ## Threads -/

/-- `thread`: the other threads by their names, and in `sendsMap` the messages for a receiver. -/
structure Thread where
  id : Id
  starts : List Id
  sendsMap : List (Id × List Id)
  recvsList : List Id
  sendsPktList : List Packet
  recvsPktList : List Packet

abbrev ThreadMap := Table Thread.id

def consThread (id : Id) : Thread := ⟨id, [], [], [], [], []⟩

def threadDefs (P : Program) : List Id :=
  P.filterMap fun d => match d with
    | .threadDef id => some id
    | _ => none

def messageDefs (P : Program) : List Id :=
  P.filterMap fun d => match d with
    | .messageDef id => some id
    | _ => none

def startsRound (m : ThreadMap) (d : Id × Id) : Option ThreadMap := do
  let owner ← m.find d.1
  let thread ← m.find d.2
  return m.update owner.id (fun t => { t with starts := t.starts ++ [thread.id] }) fun _ => rfl

/-- A message for a receiver, that the sender may have sent to before. -/
def addSends (message receiver : Id) : List (Id × List Id) → List (Id × List Id)
  | [] => [(receiver, [message])]
  | (r, messageList) :: sends =>
      if r = receiver then (r, messageList ++ [message]) :: sends
      else (r, messageList) :: addSends message receiver sends

def sendsToRound (messageMap : List Id) (m : ThreadMap) (d : Id × Id × Id) : Option ThreadMap := do
  let sender ← m.find d.1
  let message ← messageMap.find? (· = d.2.1)
  let receiver ← m.find d.2.2
  let m := m.update sender.id
    (fun t => { t with sendsMap := addSends message receiver.id t.sendsMap }) fun _ => rfl
  return m.update receiver.id (fun t => { t with recvsList := t.recvsList ++ [message] }) fun _ => rfl

def sendsRound (packetMap : PacketMap) (m : ThreadMap) (d : Id × Id) : Option ThreadMap := do
  let sender ← m.find d.1
  let packet ← packetMap.find d.2
  return m.update sender.id (fun t => { t with sendsPktList := t.sendsPktList ++ [packet] })
    fun _ => rfl

def receivesRound (packetMap : PacketMap) (m : ThreadMap) (d : Id × Id) : Option ThreadMap := do
  let receiver ← m.find d.1
  let packet ← packetMap.find d.2
  return m.update receiver.id (fun t => { t with recvsPktList := t.recvsPktList ++ [packet] })
    fun _ => rfl

/-! ## The whole -/

/-- What it leaves behind for the generation. -/
structure Maps where
  threadMap : ThreadMap
  packetMap : PacketMap

def startsDecls (P : Program) : List (Id × Id) :=
  P.filterMap fun d => match d with
    | .startsDecl owner thread => some (owner, thread)
    | _ => none

def sendsToDecls (P : Program) : List (Id × Id × Id) :=
  P.filterMap fun d => match d with
    | .sendsToDecl sender message receiver => some (sender, message, receiver)
    | _ => none

def sendsDecls (P : Program) : List (Id × Id) :=
  P.filterMap fun d => match d with
    | .sendsDecl sender packet => some (sender, packet)
    | _ => none

def receivesDecls (P : Program) : List (Id × Id) :=
  P.filterMap fun d => match d with
    | .receivesDecl receiver packet => some (receiver, packet)
    | _ => none

/-- The packets, as `semanticAnalysis` has them before it comes to the threads. -/
def analysePackets (openUse : List UInt8 → Option Program) (P : Program) : Option PacketMap := do
  let applicationId ← findApplicationId P
  let packetMap : PacketMap := Table.empty.insertAll ((packetDefs P).map (consPacket applicationId))
  let packetMap ← (packetIds P).foldlM packetIdRound packetMap
  useDecls openUse P packetMap

/-- `semanticAnalysis`, or `none` where it ends the program. -/
def semanticAnalysis (openUse : List UInt8 → Option Program) (P : Program) : Option Maps := do
  let packetMap ← analysePackets openUse P
  let threadMap : ThreadMap := Table.empty.insertAll ((threadDefs P).map consThread)
  let threadMap ← (startsDecls P).foldlM startsRound threadMap
  let threadMap ← (sendsToDecls P).foldlM (sendsToRound (messageDefs P)) threadMap
  let threadMap ← (sendsDecls P).foldlM (sendsRound packetMap) threadMap
  let threadMap ← (receivesDecls P).foldlM (receivesRound packetMap) threadMap
  return ⟨threadMap, packetMap⟩

/-! ## The generated code -/

/-- `static const unsigned short ID = [Packet->AppID * 1000 + Packet->NumID];` -/
def Packet.ID (p : Packet) : BitVec 16 := BitVec.ofInt 16 (p.appID * 1000 + p.numID)

/-- What `PacketBase::open` puts into the header of a packet. -/
def Packet.msgId (p : Packet) : BitVec 32 := p.ID.setWidth 32

/-- Whose `recv` the `switch` of `dispatchPacket` calls. Two cases with one label are none that a compiler
takes; it is the first of them here. -/
def Thread.dispatchPacket (t : Thread) (msgId : BitVec 32) : Option Packet :=
  t.recvsPktList.find? fun p => p.ID.setWidth 32 = msgId

def islower (c : UInt8) : Bool := 97 ≤ c ∧ c ≤ 122
def isalpha (c : UInt8) : Bool := islower (tolower c)
def isdigit (c : UInt8) : Bool := 48 ≤ c ∧ c ≤ 57

/-- A `component` goes on with this character: `[A-Za-z][a-z]*` and `[0-9]+`. -/
def goesOn (component : List UInt8) (c : UInt8) : Bool :=
  match component.getLast? with
  | none => false
  | some d => (isalpha d && islower c) || (isdigit d && isdigit c)

/-- The components of a name, behind the one that is being read. -/
def components : List UInt8 → List UInt8 → List (List UInt8)
  | component, [] => [component]
  | component, c :: cs =>
      if goesOn component c then components (component ++ [c]) cs
      -- underscores are ignored
      else component :: components (if c = 95 then [] else [c]) cs

def makeLower (name : Id) : Option (List UInt8) :=
  let lower := ((components [] name).filter (· ≠ [])).foldl
    (fun lower c => (if lower.length > 0 then lower ++ bytes "-" else lower) ++ c.map tolower) []
  if lower.length = 0 then none else some lower

example : makeLower (bytes "PacketType") = some (bytes "packet-type") := by decide

/-- `packetLowerName`; `none` where `makeLower` ends the generation. -/
def Maps.packetLowerName (A : Maps) (id : BitVec 16) : Option (List UInt8) :=
  match A.packetMap.entries.find? fun p => p.ID = id with
  | some p => makeLower p.id
  | none => some (bytes "unknown")

end Netp.Genf.Analysis
