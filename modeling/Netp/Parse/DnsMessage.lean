import Netp.Parse.DnsCalls

/-! # DNS messages

Messages of RFC 1035 as data, their bytes, and what their names stand for. Nothing here is from the
parser, except for the records and the calls of `DnsCalls.lean`, in which the outcome is written.

A pointer may lead to the labels of the names before it, wherever these stand: in questions, as owners,
in NS, CNAME, PTR and MX data.
-/

namespace Netp.Parse.Dns.Wire
open Netp.Lib
set_option autoImplicit false

structure Label where
  octets : List UInt8
  pos : 0 < octets.length
  le : octets.length ≤ 63

/-- Labels, and a pointer or a zero. -/
structure Name where
  labels : List Label
  pointer : Option (Fin 16384)

structure Question where
  name : Name
  qtype : UInt16
  qclass : UInt16

inductive Rdata
  | a (address : Vector UInt8 4)
  | aaaa (address : Vector UInt8 16)
  | ns (name : Name)
  | cname (name : Name)
  | ptr (name : Name)
  | mx (preference : UInt16) (name : Name)
  | other (type : UInt16) (htype : type.toNat ∉ [1, 2, 5, 12, 15, 28]) (data : List UInt8)
      (hdata : data.length < 65536)

structure ResourceRecord where
  name : Name
  rrClass : UInt16
  ttl : UInt16 × UInt16
  rdata : Rdata

structure Message where
  id : UInt16
  options : UInt16
  qd : List Question
  an : List ResourceRecord
  ns : List ResourceRecord
  ar : List ResourceRecord
  qd_lt : qd.length < 65536
  an_lt : an.length < 65536
  ns_lt : ns.length < 65536
  ar_lt : ar.length < 65536

/-! ## The bytes -/

/-- Two octets, the high one first. -/
def word (n : ℕ) : List UInt8 := [UInt8.ofNat (n / 256), UInt8.ofNat n]

def Label.encode (l : Label) : List UInt8 := UInt8.ofNat l.octets.length :: l.octets

/-- The octets of a pointer: two bits and the offset. -/
def high (off : Fin 16384) : UInt8 := UInt8.ofNat (192 + off.val / 256)

def low (off : Fin 16384) : UInt8 := UInt8.ofNat off.val

def Name.encode (n : Name) : List UInt8 :=
  n.labels.flatMap Label.encode ++
    match n.pointer with
    | none => [0]
    | some off => [high off, low off]

def Question.encode (q : Question) : List UInt8 :=
  q.name.encode ++ (word q.qtype.toNat ++ word q.qclass.toNat)

def Rdata.type : Rdata → ℕ
  | a _ => 1
  | aaaa _ => 28
  | ns _ => 2
  | cname _ => 5
  | ptr _ => 12
  | mx _ _ => 15
  | other type _ _ _ => type.toNat

def Rdata.encode : Rdata → List UInt8
  | a address => address.toList
  | aaaa address => address.toList
  | ns name => name.encode
  | cname name => name.encode
  | ptr name => name.encode
  | mx preference name => word preference.toNat ++ name.encode
  | other _ _ data _ => data

/-- Type, class, ttl and rdlength. -/
def ResourceRecord.fixed (r : ResourceRecord) : List UInt8 :=
  word r.rdata.type ++ (word r.rrClass.toNat ++ (word r.ttl.1.toNat ++ word r.ttl.2.toNat)) ++
    word r.rdata.encode.length

def ResourceRecord.encode (r : ResourceRecord) : List UInt8 :=
  r.name.encode ++ (r.fixed ++ r.rdata.encode)

def Message.header (m : Message) : List UInt8 :=
  word m.id.toNat ++ word m.options.toNat ++
    (word m.qd.length ++ (word m.an.length ++ (word m.ns.length ++ word m.ar.length)))

def Message.encode (m : Message) : List UInt8 :=
  m.header ++ (m.qd.flatMap Question.encode ++ (m.an.flatMap ResourceRecord.encode ++
    (m.ns.flatMap ResourceRecord.encode ++ m.ar.flatMap ResourceRecord.encode)))

/-! ## The names -/

/-- The positions of labels, with the parts of the name from there on. -/
abbrev Table := List (ℕ × List (List UInt8))

def Name.parts (n : Name) : List (List UInt8) := n.labels.map Label.octets

/-- The labels of a name at `p`, which goes on with the parts `tail`. -/
def suffixes (p : ℕ) (tail : List (List UInt8)) : List Label → Table
  | [] => []
  | l :: ls => (p, (l :: ls).map Label.octets ++ tail) ::
      suffixes (p + 1 + l.octets.length) tail ls

/-- The parts that come after the labels. -/
def Name.tail (known : Table) (n : Name) : Option (List (List UInt8)) :=
  match n.pointer with
  | none => some []
  | some off => known.lookup off.val

/-- What a name at `p` stands for, at most 255 bytes with its dots, and the table after it. -/
def Name.resolve (known : Table) (p : ℕ) (n : Name) : Option (List UInt8 × Table) :=
  (n.tail known).bind fun tail =>
    if (text (n.parts ++ tail)).length ≤ 255 then
      some (text (n.parts ++ tail), known ++ suffixes p tail n.labels)
    else none

def Question.resolve (known : Table) (p : ℕ) (q : Question) : Option (Record × Table) :=
  (q.name.resolve known p).map fun r => (.other, r.2)

/-- The data of a record, at `p`. -/
def Rdata.resolve (known : Table) (owner : List UInt8) (p : ℕ) : Rdata → Option (Record × Table)
  | a address => some (.a owner address.toList, known)
  | aaaa _ => some (.aaaa, known)
  | ns name => (name.resolve known p).map fun r => (.other, r.2)
  | cname name => (name.resolve known p).map fun r => (.cname owner r.1, r.2)
  | ptr name => (name.resolve known p).map fun r => (.other, r.2)
  | mx _ name => (name.resolve known (p + 2)).map fun r => (.other, r.2)
  | other _ _ _ _ => some (.other, known)

def ResourceRecord.resolve (known : Table) (p : ℕ) (r : ResourceRecord) : Option (Record × Table) :=
  (r.name.resolve known p).bind fun owner =>
    r.rdata.resolve owner.2 owner.1 (p + r.name.encode.length + 10)

/-- A list of items one behind the other. -/
def resolveAll {α : Type} (encode : α → List UInt8)
    (resolve : Table → ℕ → α → Option (Record × Table)) :
    Table → ℕ → List α → Option (List Record × Table)
  | known, _, [] => some ([], known)
  | known, p, x :: xs =>
      (resolve known p x).bind fun r =>
        (resolveAll encode resolve r.2 (p + (encode x).length) xs).map fun rs =>
          (r.1 :: rs.1, rs.2)

/-- The record with its names as C strings. -/
def cutRecord : Record → Record
  | .a name addr => .a (cstr name) addr
  | .aaaa => .aaaa
  | .cname name target => .cname (cstr name) (cstr target)
  | .other => .other

def cutMessage (m : Dns.Message) : Dns.Message :=
  ⟨m.qd.map cutRecord, m.an.map cutRecord, m.ns.map cutRecord, m.ar.map cutRecord⟩

namespace Message

/-- Where the sections begin. -/
def anAt (m : Message) : ℕ := 12 + (m.qd.flatMap Question.encode).length

def nsAt (m : Message) : ℕ := m.anAt + (m.an.flatMap ResourceRecord.encode).length

def arAt (m : Message) : ℕ := m.nsAt + (m.ns.flatMap ResourceRecord.encode).length

/-- The records of the message with what their names stand for, and all its labels. It is `none` where
a pointer does not lead to an earlier label, or a name is too long. -/
def resolve (m : Message) : Option (Dns.Message × Table) :=
  (resolveAll Question.encode Question.resolve [] 12 m.qd).bind fun qd =>
  (resolveAll ResourceRecord.encode ResourceRecord.resolve qd.2 m.anAt m.an).bind fun an =>
  (resolveAll ResourceRecord.encode ResourceRecord.resolve an.2 m.nsAt m.ns).bind fun ns =>
  (resolveAll ResourceRecord.encode ResourceRecord.resolve ns.2 m.arAt m.ar).map fun ar =>
    (⟨qd.1, an.1, ns.1, ar.1⟩, ar.2)

/-- Well formed, with what it resolves to: at most 32 labels. -/
def WellFormed (m : Message) (records : Dns.Message) : Prop :=
  ∃ known, m.resolve = some (records, known) ∧ known.length ≤ 32

def sections (m : Message) : Sections :=
  ⟨⟨m.qd.length, .dnsQuestion⟩, ⟨m.an.length, .dnsAnswer⟩, ⟨m.ns.length, .dnsAuthority⟩,
    ⟨m.ar.length, .dnsAdditional⟩⟩

/-- The end of each question and record. -/
def ends (m : Message) : List ℕ :=
  ((m.qd.map fun q => q.encode.length) ++
    ((m.an ++ m.ns ++ m.ar).map fun r => r.encode.length)).scanl (· + ·) 12 |>.tail

end Message

end Netp.Parse.Dns.Wire
