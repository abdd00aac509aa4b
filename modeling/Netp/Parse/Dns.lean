import Netp.Lib.Run
import Netp.Lib.CString
import Netp.Parse.Vpt

/-! # The DNS parser (`parse/dns.rl`, `DnsParser` in `parse/parse.h`)

The three machines scan one packet and never look at a name buffer or at what `copyName` returns, so
what they do is a list of actions in order. `parsing` performs them one at a time, and a call of
`copyName` one turn of its loop at a time, so a call that does not return holds up all that follows.

Addresses are offsets from `packet_start`, a null `p` is `none`. `names` and the name buffers are
lists without a bound, so that what follows a write out of bounds is not the code's: there a run is of no
use (`InBounds` in `Netp.Parse.DnsBounds`). Log lines are left out, and with them `id` and `options`.
-/

namespace Netp.Parse.Dns
open Netp.Lib
set_option autoImplicit false

abbrev Packet := List UInt8

/-- The buffers for names: that of `question` and the two of `resource_record`. -/
inductive Buf
  | namebuf | namebuf1 | namebuf2
  deriving DecidableEq

inductive Action
  | copyName (nb : Buf) (ptr : ℕ)
  /-- The second half of `name_end`. -/
  | register (name_start : ℕ)
  | push (type : NodeType)
  | setText (nb : Buf)
  | setData (data : List UInt8)
  | pop (type : NodeType)

/-! ## Names -/

/-- What becomes of a `name` before the end of the packet. -/
inductive Scan
  | final (next : ℕ)
  | more
  | error
  deriving DecidableEq

/-- The machine `name` at `p`, with `k` octets of a part to come. -/
def name (p : ℕ) : ℕ → List UInt8 → Scan
  | _, [] => .more
  | k + 1, _ :: cs => name (p + 1) k cs
  | 0, c :: cs =>
      if c = 0 then .final (p + 1)
      else if c ≤ 0x3f then name (p + 1) c.toNat cs
      else if 0xc0 ≤ c then if cs = [] then .more else .final (p + 2)
      else .error

/-- The positions that `name_end` registers, `k` octets before the next length. -/
def registered (s : ℕ) : ℕ → List UInt8 → List ℕ
  | _, [] => []
  | k + 1, _ :: cs => registered (s + 1) k cs
  | 0, sl :: cs => if sl < 1 ∨ 63 < sl then [] else s :: registered (s + 1) sl.toNat cs

def nameEnd (namebuf : Option Buf) (name_start : ℕ) : List Action :=
  (namebuf.map fun nb => .copyName nb name_start).toList ++ [.register name_start]

/-! ## The machines

Each has the packet and `p`, and gives the new `p` with the actions on the way. -/

/-- Two octets, the high one first. -/
def word (pkt : Packet) (p : ℕ) : ℕ := (pkt.getD p 0).toNat * 256 + (pkt.getD (p + 1) 0).toNat

def question (pkt : Packet) (p : ℕ) : Option ℕ × List Action :=
  match name p 0 (pkt.drop p) with
  | .error => (none, [])
  | .more => (some pkt.length, [])
  | .final q => (some (min (q + 4) pkt.length), nameEnd (some .namebuf) p)

/-- An address of `n` octets at `p`, then the calls on the tree. -/
def address (pkt : Packet) (n p : ℕ) (tree : List UInt8 → List Action) : Option ℕ × List Action :=
  if p + n ≤ pkt.length then (some (p + n), tree ((pkt.drop p).take n)) else (some pkt.length, [])

/-- A name in the rdata, then the calls on the tree. -/
def rdataName (pkt : Packet) (namebuf : Option Buf) (p : ℕ) (tree : List Action) :
    Option ℕ × List Action :=
  match name p 0 (pkt.drop p) with
  | .error => (none, [])
  | .more => (some pkt.length, [])
  | .final q => (some q, nameEnd namebuf p ++ tree)

def rrA (pkt : Packet) (p : ℕ) : Option ℕ × List Action :=
  address pkt 4 p fun addr =>
    [.push .dnsRrA, .push .dnsName, .setText .namebuf1, .pop .dnsName,
      .push .dnsAddr, .setData addr, .pop .dnsAddr, .pop .dnsRrA]

def rrAAAA (pkt : Packet) (p : ℕ) : Option ℕ × List Action :=
  address pkt 16 p fun _ => [.push .dnsRrAAAA, .pop .dnsRrAAAA]

def rrNs (pkt : Packet) (p : ℕ) : Option ℕ × List Action := rdataName pkt none p []

def rrCname (pkt : Packet) (p : ℕ) : Option ℕ × List Action :=
  rdataName pkt (some .namebuf2) p
    [.push .dnsRrCname, .push .dnsName, .setText .namebuf1, .pop .dnsName,
      .push .dnsName, .setText .namebuf2, .pop .dnsName, .pop .dnsRrCname]

def rrPtr (pkt : Packet) (p : ℕ) : Option ℕ × List Action := rdataName pkt (some .namebuf2) p []

/-- Two octets of preference come before the name. -/
def rrMx (pkt : Packet) (p : ℕ) : Option ℕ × List Action := rdataName pkt none (p + 2) []

/-- At the last octet of `rdlength`, before `p`. -/
def rrUnknown (pkt : Packet) (rdlength p : ℕ) : Option ℕ × List Action :=
  if p - 1 + rdlength < pkt.length then (some (p + rdlength), []) else (none, [])

/-- The types the machine knows; `RR_UNKNOWN` is the rest. -/
inductive RrType
  | a | ns | cname | ptr | mx | aaaa | unknown

def rrType : ℕ → RrType
  | 1 => .a
  | 2 => .ns
  | 5 => .cname
  | 12 => .ptr
  | 15 => .mx
  | 28 => .aaaa
  | _ => .unknown

/-- What follows the owner name: type, class, ttl and rdlength, ten octets, and the rdata. -/
def afterName (pkt : Packet) (q : ℕ) : Option ℕ × List Action :=
  if pkt.length < q + 10 then (some pkt.length, [])
  else match rrType (word pkt q) with
    | .a => rrA pkt (q + 10)
    | .ns => rrNs pkt (q + 10)
    | .cname => rrCname pkt (q + 10)
    | .ptr => rrPtr pkt (q + 10)
    | .mx => rrMx pkt (q + 10)
    | .aaaa => rrAAAA pkt (q + 10)
    | .unknown => rrUnknown pkt (word pkt (q + 8)) (q + 10)

def resourceRecord (pkt : Packet) (p : ℕ) : Option ℕ × List Action :=
  match name p 0 (pkt.drop p) with
  | .error => (none, [])
  | .more => (some pkt.length, [])
  | .final q => ((afterName pkt q).1, nameEnd (some .namebuf1) p ++ (afterName pkt q).2)

/-! ## `DnsParser::data` -/

/-- `DnsSection`. -/
structure Section where
  count : ℕ
  tree : NodeType

/-- The array `sect`. -/
structure Sections where
  qd : Section
  an : Section
  ns : Section
  ar : Section

/-- A packet that ends inside the header leaves what was in the later sections. -/
def header (pkt : Packet) (sect : Sections) : ℕ × Sections :=
  let count i (tree : NodeType) (old : Section) :=
    if i + 2 ≤ pkt.length then (⟨word pkt i, tree⟩ : Section) else old
  (min 12 pkt.length,
    ⟨count 4 .dnsQuestion sect.qd, count 6 .dnsAnswer sect.an,
      count 8 .dnsAuthority sect.ns, count 10 .dnsAdditional sect.ar⟩)

/-- The `while` over the items of a section. -/
def items (machine : ℕ → Option ℕ × List Action) : ℕ → Option ℕ → Option ℕ × List Action
  | 0, p => (p, [])
  | _ + 1, none => (none, [])
  | count + 1, some p =>
      let r := machine p
      let rest := items machine count r.1
      (rest.1, r.2 ++ rest.2)

/-- One turn of the `for` over the sections. -/
def sectionItems (machine : ℕ → Option ℕ × List Action) (sect : Section) (p : Option ℕ) :
    Option ℕ × List Action :=
  if sect.count = 0 then (p, [])
  else
    let r := items machine sect.count p
    (r.1, .push sect.tree :: r.2 ++ [.pop sect.tree])

/-- All that `data` does with a packet. No header is in error. -/
def data (pkt : Packet) (sect : Sections) : List Action :=
  let h := header pkt sect
  let q := sectionItems (question pkt) h.2.qd (some h.1)
  let an := sectionItems (resourceRecord pkt) h.2.an q.1
  let ns := sectionItems (resourceRecord pkt) h.2.ns an.1
  let ar := sectionItems (resourceRecord pkt) h.2.ar ns.1
  .push .dnsPacket :: (q.2 ++ an.2 ++ ns.2 ++ ar.2) ++ [.pop .dnsPacket]

/-! ## `copyName` -/

/-- One turn of the loop: it goes on, it returns, or it has read past the packet. -/
inductive Turn
  | next (ptr : ℕ) (nb : List UInt8)
  | ret (r : ℤ) (nb : List UInt8)
  | outside
  deriving DecidableEq

/-- The offset of a pointer. -/
def offset (c d : UInt8) : ℕ := (c.toNat % 64) * 256 + d.toNat

/-- With `nb` the bytes written so far, so that `dlen` is their number. -/
def copyTurn (pkt : Packet) (names : List ℕ) (ptr : ℕ) (nb : List UInt8) : Turn :=
  match pkt[ptr]? with
  | none => .outside
  | some c =>
      if c = 0 then .ret 0 (nb ++ [0])
      else if c ≤ 63 then
        let part := (pkt.drop (ptr + 1)).take c.toNat
        if part.length < c.toNat then .outside
        else .next (ptr + 1 + c.toNat) ((if nb = [] then nb else nb ++ [46]) ++ part)
      else if 192 ≤ c then match pkt[ptr + 1]? with
        | none => .outside
        | some d => if offset c d ∈ names then .next (offset c d) nb else .ret (-1) (0 :: nb.drop 1)
      -- no branch of the loop takes a length from 64 to 191
      else .next ptr nb

/-- After `n` turns. -/
def copyName (pkt : Packet) (names : List ℕ) (start : ℕ) : ℕ → Turn
  | 0 => .next start []
  | n + 1 => match copyName pkt names start n with
      | .next ptr nb => copyTurn pkt names ptr nb
      | r => r

/-! ## The run -/

/-- The calls on `ctx->vpt`. -/
inductive TreeCall
  | push (type : NodeType)
  | setText (text : Text)
  | setData (data : List UInt8)
  | pop (type : NodeType)
  deriving DecidableEq

/-- A call of `copyName` at work: the buffer, where it started, and the loop. -/
structure Copying where
  buf : Buf
  start : ℕ
  turn : Turn

structure Config where
  todo : List Action
  copying : Option Copying
  names : List ℕ
  bufs : Buf → List UInt8
  tree : List TreeCall

def Config.step (pkt : Packet) (c : Config) : Option Config :=
  match c.copying with
  | some ⟨buf, start, .next ptr nb⟩ =>
      some { c with copying := some ⟨buf, start, copyTurn pkt c.names ptr nb⟩ }
  | some ⟨buf, _, .ret _ nb⟩ =>
      some { c with copying := none, bufs := Function.update c.bufs buf nb }
  | some ⟨_, _, .outside⟩ => none
  | none => match c.todo with
      | [] => none
      | .copyName buf ptr :: as => some { c with todo := as, copying := some ⟨buf, ptr, .next ptr []⟩ }
      | .register s :: as =>
          some { c with todo := as, names := c.names ++ registered s 0 (pkt.drop s) }
      | .push type :: as => some { c with todo := as, tree := c.tree ++ [.push type] }
      | .setText buf :: as =>
          some { c with todo := as, tree := c.tree ++ [.setText (cstr (c.bufs buf))] }
      | .setData addr :: as => some { c with todo := as, tree := c.tree ++ [.setData addr] }
      | .pop type :: as => some { c with todo := as, tree := c.tree ++ [.pop type] }

/-- `data` at work on a packet, in a parser that has `sect` from before and anything in its buffers. -/
def parsing (pkt : Packet) (sect : Sections) (bufs : Buf → List UInt8) : System Config Unit where
  init := ⟨data pkt sect, none, [], bufs, []⟩
  step c _ := c.step pkt

end Netp.Parse.Dns
