import Netp.Kring.CtrlQueue
import Netp.Lib.Mem
import Netp.Lib.Scan
import Netp.Shuttle.Block

/-! # The frames of the shuttle (`shuttle/attribute.c`)

`shuttle_handle_frame` takes every frame of the two ports of a link. Before it looks at the frame it
takes at most one command from the control ring of the link. All links share the tree `block`.

The links are there from the start, each with its network device and the reader of its control ring;
`name` and the ring for captured frames are left out, of which only what is written to it is kept. The
kernel is an input: which device a name stands for, and whether there is memory for a clone. A handler
that is registered for a device stays when another one is to be registered.

A step is `none` where the source follows a null pointer or writes beyond the end of a buffer, and for a
frame of a device without a handler.
-/

namespace Netp.Shuttle
open Netp.Lib Netp.Kring
set_option autoImplicit false

/-- `LINK_IPS`. -/
def linkIps : ℕ := 256

def kdataDirInside : ℤ := 1
def kdataDirOutside : ℤ := 2

/-- A `struct net_device`. -/
abbrev Dev := ℕ

/-! ## A frame -/

/-- A `struct sk_buff`: the Ethernet header, the data behind it, and the memory behind that. -/
structure SkBuff where
  eth : List UInt8
  data : List UInt8
  behind : ℕ → UInt8

namespace SkBuff

/-- The frame, from the Ethernet header on. -/
def bytes (skb : SkBuff) : List UInt8 := skb.eth ++ skb.data

/-- A byte behind `ip_hdr`. -/
def ip (skb : SkBuff) (i : ℕ) : UInt8 := skb.data.getD i (skb.behind i)

/-- A 16-bit word as it lies in the packet. -/
def ip16 (skb : SkBuff) (i : ℕ) : UInt16 := UInt16.ofNat (ofLe [skb.ip i, skb.ip (i + 1)])

def ip32 (skb : SkBuff) (i : ℕ) : UInt32 :=
  UInt32.ofNat (ofLe [skb.ip i, skb.ip (i + 1), skb.ip (i + 2), skb.ip (i + 3)])

def hProto (skb : SkBuff) : UInt16 := UInt16.ofNat (ofLe [skb.eth.getD 12 0, skb.eth.getD 13 0])

/-- `ihl` is the lower half of the first byte. -/
def ihlen (skb : SkBuff) : ℕ := (skb.ip 0 &&& 15).toNat * 4

def protocol (skb : SkBuff) : UInt8 := skb.ip 9

/-- What `block_conn` reads. -/
def headers (skb : SkBuff) : Skb where
  saddr := skb.ip32 12
  daddr := skb.ip32 16
  source := skb.ip16 skb.ihlen
  dest := skb.ip16 (skb.ihlen + 2)

/-- `h_proto == htons( ETH_P_ARP )` -/
def isArp (skb : SkBuff) : Bool := skb.hProto = ntohs 0x0806

/-- `h_proto == htons( ETH_P_IP )`, and then `protocol == IPPROTO_TCP` -/
def isTcp (skb : SkBuff) : Bool := skb.hProto = ntohs 0x0800 && skb.protocol = 6

/-- `th->dest == htons( 443 )` -/
def isTls (skb : SkBuff) : Bool := skb.headers.dest = ntohs 443

end SkBuff

/-! ## The state -/

/-- `struct link`; `ips` are the first `nips` entries. -/
structure Link where
  inside : Option Dev
  outside : Option Dev
  dev : Dev
  ips : List UInt32
  /-- The control ring it reads, with the page it took last. -/
  cmd : Ctrl.Ring

/-- The links by name, the tree `block`, and the link registered with the handler of a device. -/
structure Links (Λ : Type) where
  block : Block
  link : Λ → Link
  rxHandlerData : Dev → Option Λ

/-- What is done with a frame. -/
inductive Effect (Λ : Type)
  | kfreeSkb
  | kwrite (l : Λ) (dir : ℤ) (bytes : List UInt8)
  | netifReceiveSkb (dev : Dev) (bytes : List UInt8)
  | devQueueXmit (dev : Dev) (bytes : List UInt8)

/-! ## Commands -/

deriving instance DecidableEq for Cmd

inductive KringCommand
  | block (cmd : Cmd)
  | ip (ip : List UInt8)
  deriving DecidableEq

/-- The words that are scanned go to arrays of 32 bytes. -/
def Arg.fits : Arg → Bool
  | .word s => s.length < 32
  | _ => true

/-- What `parse_kring_command` reads of a string; `none` if a word does not fit. -/
def scanCommand (s : List UInt8) : Option (Option KringCommand) :=
  match s with
  | 98 :: _ =>
    let args := sscanf [.char, .space, .word, .space, .long, .space, .word, .space, .long] s
    if args.all Arg.fits then
      match args with
      | [.char _, .word ip1, .long port1, .word ip2, .long port2] =>
        some (some (.block ⟨ip1, port1, ip2, port2⟩))
      | _ => some none
    else none
  | 112 :: _ =>
    let args := sscanf [.char, .space, .word] s
    if args.all Arg.fits then
      match args with
      | [.char _, .word ip] => some (some (.ip ip))
      | _ => some none
    else none
  | _ => some none

/-- The values in the text of a command. -/
def KringCommand.args : KringCommand → List Lib.Arg
  | .block cmd => [.char 98, .word cmd.ip1, .long cmd.port1, .word cmd.ip2, .long cmd.port2]
  | .ip addr => [.char 112, .word addr]

/-- A command is read from its text, whatever white space is between the values. -/
theorem scanCommand_printed {cmd : KringCommand} {s : List UInt8} (h : Printed cmd.args s)
    (hfits : cmd.args.all Arg.fits = true) : scanCommand s = some (some cmd) := by
  have hscan := sscanf_printed h
  cases cmd with
  | block cmd =>
    cases h with
    | cons ha =>
      cases ha with
      | char =>
        rw [KringCommand.args] at hscan hfits
        simp only [List.map_cons, List.map_nil, Arg.conv, List.intersperse, List.cons_append,
          List.nil_append] at hscan
        simp only [scanCommand, List.cons_append, List.nil_append, hscan, hfits, if_true]
  | ip ip =>
    cases h with
    | cons ha =>
      cases ha with
      | char =>
        rw [KringCommand.args] at hscan hfits
        simp only [List.map_cons, List.map_nil, Arg.conv, List.intersperse, List.cons_append,
          List.nil_append] at hscan
        simp only [scanCommand, List.cons_append, List.nil_append, hscan, hfits, if_true]

/-- The string in a page, whose memory is zero behind what was ever written. -/
def pageString (p : Ctrl.Page) : Option (List UInt8) :=
  if 0 ∈ p.bytes ∨ p.bytes.length < Ctrl.kctrlPlainMaxData then some (cstr p.bytes) else none

section Handler
variable {Λ : Type} [DecidableEq Λ] (inAton : List UInt8 → UInt32) (s : Links Λ)

namespace Links

def setLink (l : Λ) (link : Link) : Links Λ := { s with link := Function.update s.link l link }

def linkIpAddStore (l : Λ) (ip : List UInt8) : Links Λ :=
  if (s.link l).ips.length < linkIps then
    s.setLink l { s.link l with ips := (s.link l).ips ++ [inAton ip] }
  else s

/-- `link_block_store`, which does not look at the link. -/
def blockStore (cmd : Cmd) : Option (Links Λ) :=
  (linkBlockStore inAton s.block cmd).map fun block => { s with block := block }

def parseKringCommand (l : Λ) (bytes : List UInt8) : Option (Links Λ) :=
  (scanCommand bytes).bind fun
    | none => some s
    | some (.block cmd) => s.blockStore inAton cmd
    | some (.ip ip) => some (s.linkIpAddStore inAton l ip)

/-- `kctrl_knext_plain`, with the page that `bytes` points into. -/
def kctrlKnextPlain (ring : Ctrl.Ring) : Option (Ctrl.Ring × Ctrl.Page) :=
  ring.area.kctrlNextGeneric.map fun n => (⟨n.1, some n.2⟩, n.1.page n.2)

/-- The command that is taken before a frame, if there is one. -/
def takeCommand (l : Λ) : Option (Links Λ) :=
  if (s.link l).cmd.area.kctrlAvail then
    (kctrlKnextPlain (s.link l).cmd).bind fun r => (pageString r.2).bind fun bytes =>
      (s.setLink l { s.link l with cmd := r.1 }).parseKringCommand inAton l bytes
  else some s

/-! ## The handler -/

/-- `in_ip_list`. -/
def inIpList (l : Λ) (ip : UInt32) : Bool := (s.link l).ips.any fun x => x = ip

/-- A frame of the inside port; `cloned` if `skb_clone` has memory. -/
def fromInside (l : Λ) (outside : Dev) (skb : SkBuff) (cloned : Bool) : Option (List (Effect Λ)) :=
  let forward := [.kwrite l kdataDirInside skb.bytes, .devQueueXmit outside skb.bytes]
  if skb.isArp then
    if cloned then some (.netifReceiveSkb (s.link l).dev skb.bytes :: forward) else none
  else if skb.isTcp then
    (blockConn s.block skb.headers).map fun blocked =>
      if blocked then [.kfreeSkb]
      else if skb.isTls && s.inIpList l skb.headers.daddr then
        [.kwrite l kdataDirInside skb.bytes, .netifReceiveSkb (s.link l).dev skb.bytes]
      else forward
  else some forward

def fromOutside (l : Λ) (inside : Dev) (skb : SkBuff) : Option (List (Effect Λ)) :=
  let forward := [.kwrite l kdataDirOutside skb.bytes, .devQueueXmit inside skb.bytes]
  if skb.isTcp then
    (blockConn s.block skb.headers).map fun blocked => if blocked then [.kfreeSkb] else forward
  else some forward

/-- `shuttle_handle_frame` for a frame of `dev`, whose handler has the link `l`. -/
def shuttleHandleFrame (l : Λ) (dev : Dev) (skb : SkBuff) (cloned : Bool) :
    Option (Links Λ × List (Effect Λ)) :=
  match (s.link l).inside, (s.link l).outside with
  | some inside, some outside =>
    (s.takeCommand inAton l).bind fun s =>
      if dev = inside then (s.fromInside l outside skb cloned).map fun e => (s, e)
      else if dev = outside then (s.fromOutside l inside skb).map fun e => (s, e)
      else some (s, [.kfreeSkb])
  | _, _ => some (s, [.kfreeSkb])

/-- `shuttle_dev_xmit`: a frame that the host sends on the device of the link. -/
def shuttleDevXmit (l : Λ) (skb : SkBuff) : Option (List (Effect Λ)) :=
  (s.link l).inside.map fun inside =>
    [.kwrite l kdataDirOutside skb.bytes, .devQueueXmit inside skb.bytes]

/-! ## The ports -/

/-- `-EINVAL`. -/
def einval : ℤ := -22

/-- `link_port_add_store`; `dev` is what `dev_get_by_name` finds. -/
def linkPortAddStore (l : Λ) (dev : Option Dev) (dir : List UInt8) : Links Λ × ℤ :=
  if dir = Lib.bytes "inside" ∨ dir = Lib.bytes "outside" then
    match dev with
    | some dev =>
      let link := s.link l
      let link := if dir = Lib.bytes "inside" then { link with inside := some dev }
        else { link with outside := some dev }
      let handler := if (s.rxHandlerData dev).isSome then s.rxHandlerData
        else Function.update s.rxHandlerData dev (some l)
      ({ s.setLink l link with rxHandlerData := handler }, 0)
    | none => (s, einval)
  else (s, einval)

/-- `link_port_del_store`. -/
def linkPortDelStore (l : Λ) (dev : Option Dev) : Links Λ × ℤ :=
  match dev with
  | some dev =>
    let link := s.link l
    let link := if link.inside = some dev then { link with inside := none }
      else if link.outside = some dev then { link with outside := none } else link
    ({ s.setLink l link with rxHandlerData := Function.update s.rxHandlerData dev none }, 0)
  | none => (s, einval)

end Links

end Handler

/-! ## The machine -/

inductive Event (Λ : Type)
  /-- A frame arrives at a device. -/
  | frame (dev : Dev) (skb : SkBuff) (cloned : Bool)
  | xmit (l : Λ) (skb : SkBuff)
  /-- A program writes to the control ring of a link: a round of `kctrl_write_plain`. -/
  | write (l : Λ) (w : Ctrl.WriterId) (data : List UInt8)
  | ipAdd (l : Λ) (ip : List UInt8)
  | block (cmd : Cmd)
  | portAdd (l : Λ) (dev : Option Dev) (dir : List UInt8)
  | portDel (l : Λ) (dev : Option Dev)

inductive Out (Λ : Type)
  | effects (e : List (Effect Λ))
  | wrote (first : Bool)
  | returned (v : ℤ)

section Machine
variable {Λ : Type} [DecidableEq Λ] (inAton : List UInt8 → UInt32)

def Links.step (s : Links Λ) : Event Λ → Option (Links Λ × Out Λ)
  | .frame dev skb cloned => (s.rxHandlerData dev).bind fun l =>
      (s.shuttleHandleFrame inAton l dev skb cloned).map fun r => (r.1, .effects r.2)
  | .xmit l skb => (s.shuttleDevXmit l skb).map fun e => (s, .effects e)
  | .write l w data =>
      let r := (s.link l).cmd.area.kctrlWritePlain w data
      some (s.setLink l { s.link l with cmd := ⟨r.1, (s.link l).cmd.taken⟩ }, .wrote r.2)
  | .ipAdd l ip => some (s.linkIpAddStore inAton l ip, .returned 0)
  | .block cmd => (s.blockStore inAton cmd).map fun s => (s, .returned 0)
  | .portAdd l dev dir => some ((s.linkPortAddStore l dev dir).1, .returned (s.linkPortAddStore l dev dir).2)
  | .portDel l dev => some ((s.linkPortDelStore l dev).1, .returned (s.linkPortDelStore l dev).2)

/-- No port, no address, no command, and nothing blocked. -/
def shuttle (el : Ptr → AvlEl Ptr) (conn : Ptr → Connection) (dev : Λ → Dev) :
    Machine (Links Λ) (Event Λ) (Out Λ) where
  init := ⟨Block.start el conn, fun l => ⟨none, none, dev l, [], Ctrl.queue.init⟩, fun _ => none⟩
  step := Links.step inAton

end Machine

end Netp.Shuttle
