import Netp.Lib.Refine
import Netp.Shuttle.Frames

/-! # What the shuttle is for

`Bridge` is the shuttle without its tree and its ring: the set of blocked connections, the addresses each
link was given, and a queue of commands. The shuttle gives the outputs of the bridge on every sequence of
events (`shuttle_refines_bridge`), as long as the commands that programs write end with a zero byte.
-/

namespace Netp.Shuttle
open Netp.Lib Netp.Kring
set_option autoImplicit false

/-- The ports and devices, the commands not yet taken, the blocked connections, and all addresses that
were to be added, also those for which a link had no room. -/
structure Bridge (Λ : Type) where
  inside : Λ → Option Dev
  outside : Λ → Option Dev
  dev : Λ → Dev
  handler : Dev → Option Λ
  queue : Λ → Ctrl.Fifo
  blocked : Set Connection
  added : Λ → List UInt32

section Model
variable {Λ : Type} [DecidableEq Λ] (inAton : List UInt8 → UInt32) (b : Bridge Λ)

namespace Bridge

/-- A command blocks its connection in both directions. -/
def block (cmd : Cmd) : Bridge Λ :=
  { b with blocked := b.blocked ∪ {cmd.conn inAton, mirror (cmd.conn inAton)} }

def add (l : Λ) (ip : List UInt8) : Bridge Λ :=
  { b with added := Function.update b.added l (b.added l ++ [inAton ip]) }

def obey (l : Λ) : Option KringCommand → Bridge Λ
  | none => b
  | some (.block cmd) => b.block inAton cmd
  | some (.ip ip) => b.add inAton l ip

/-- The oldest command of a link is taken and obeyed. -/
def take (l : Λ) : Option (Bridge Λ) :=
  match (b.queue l).unread with
  | [] => some b
  | m :: ms => (scanCommand (cstr m)).map fun cmd =>
      { b with queue := Function.update b.queue l ⟨ms, some m⟩ }.obey inAton l cmd

/-- A TCP packet of a blocked connection. -/
def Drops (skb : SkBuff) : Prop := skb.isTcp = true ∧ skb.headers.conn ∈ b.blocked

/-- A TLS packet to one of the addresses a link has room for. -/
def Diverts (l : Λ) (skb : SkBuff) : Prop :=
  skb.isTcp = true ∧ skb.isTls = true ∧ skb.headers.daddr ∈ (b.added l).take linkIps

open Classical in
/-- A frame of the inside port is dropped, or given to the host, or sent out of the other port. An ARP
packet is sent on and given to the host as well. -/
noncomputable def fromInside (l : Λ) (outside : Dev) (skb : SkBuff) (cloned : Bool) :
    Option (List (Effect Λ)) :=
  let host := Effect.netifReceiveSkb (b.dev l) skb.bytes
  let forward := [.kwrite l kdataDirInside skb.bytes, .devQueueXmit outside skb.bytes]
  if skb.isArp then if cloned then some (host :: forward) else none
  else if b.Drops skb then some [.kfreeSkb]
  else if b.Diverts l skb then some [.kwrite l kdataDirInside skb.bytes, host]
  else some forward

open Classical in
noncomputable def fromOutside (l : Λ) (inside : Dev) (skb : SkBuff) : List (Effect Λ) :=
  if b.Drops skb then [.kfreeSkb]
  else [.kwrite l kdataDirOutside skb.bytes, .devQueueXmit inside skb.bytes]

noncomputable def handle (l : Λ) (dev : Dev) (skb : SkBuff) (cloned : Bool) :
    Option (Bridge Λ × List (Effect Λ)) :=
  match b.inside l, b.outside l with
  | some inside, some outside => (b.take inAton l).bind fun b =>
      if dev = inside then (b.fromInside l outside skb cloned).map fun e => (b, e)
      else if dev = outside then some (b, b.fromOutside l inside skb)
      else some (b, [.kfreeSkb])
  | _, _ => some (b, [.kfreeSkb])

def portAdd (l : Λ) (dev : Option Dev) (dir : List UInt8) : Bridge Λ × ℤ :=
  match dev with
  | none => (b, Links.einval)
  | some dev =>
    let b' := { b with handler := if (b.handler dev).isSome then b.handler
      else Function.update b.handler dev (some l) }
    if dir = Lib.bytes "inside" then ({ b' with inside := Function.update b.inside l (some dev) }, 0)
    else if dir = Lib.bytes "outside" then
      ({ b' with outside := Function.update b.outside l (some dev) }, 0)
    else (b, Links.einval)

def portDel (l : Λ) (dev : Option Dev) : Bridge Λ × ℤ :=
  match dev with
  | none => (b, Links.einval)
  | some dev =>
    let b' := { b with handler := Function.update b.handler dev none }
    if b.inside l = some dev then ({ b' with inside := Function.update b.inside l none }, 0)
    else if b.outside l = some dev then ({ b' with outside := Function.update b.outside l none }, 0)
    else (b', 0)

noncomputable def step : Event Λ → Option (Bridge Λ × Out Λ)
  | .frame dev skb cloned => (b.handler dev).bind fun l =>
      (b.handle inAton l dev skb cloned).map fun r => (r.1, .effects r.2)
  | .xmit l skb => (b.inside l).map fun inside =>
      (b, .effects [.kwrite l kdataDirOutside skb.bytes, .devQueueXmit inside skb.bytes])
  | .write l _ data =>
      if (b.queue l).unread.length = Ctrl.kctrlNpages - 1 then some (b, .wrote false)
      else
        let q := ⟨(b.queue l).unread ++ [Ctrl.clip data], (b.queue l).taken⟩
        some ({ b with queue := Function.update b.queue l q }, .wrote true)
  | .ipAdd l ip => some (b.add inAton l ip, .returned 0)
  | .block cmd => some (b.block inAton cmd, .returned 0)
  | .portAdd l dev dir => some ((b.portAdd l dev dir).1, .returned (b.portAdd l dev dir).2)
  | .portDel l dev => some ((b.portDel l dev).1, .returned (b.portDel l dev).2)

end Bridge

noncomputable def bridge (dev : Λ → Dev) : Machine (Bridge Λ) (Event Λ) (Out Λ) where
  init := ⟨fun _ => none, fun _ => none, dev, fun _ => none, fun _ => ⟨[], none⟩, ∅, fun _ => []⟩
  step := Bridge.step inAton

end Model

/-- A program ends its command with a zero byte, within what a page holds. -/
def Event.Terminated {Λ : Type} : Event Λ → Prop
  | .write _ _ data => 0 ∈ Ctrl.clip data
  | _ => True

/-! ## The refinement -/

section Refinement
variable {Λ : Type} {inAton : List UInt8 → UInt32} {s s' : Links Λ} {b b' : Bridge Λ} {link : Link} {l : Λ}

/-- A link of the shuttle is the link `l` of the bridge. -/
structure SameLink (link : Link) (b : Bridge Λ) (l : Λ) : Prop where
  inside : link.inside = b.inside l
  outside : link.outside = b.outside l
  dev : link.dev = b.dev l
  ips : link.ips = (b.added l).take linkIps
  cmd : Ctrl.Holds link.cmd (b.queue l)
  terminated : ∀ m ∈ (b.queue l).unread, 0 ∈ m

structure Refines (s : Links Λ) (b : Bridge Λ) : Prop where
  block : Holds s.block fun c => c ∈ b.blocked
  mirrored : ∀ c, c ∈ b.blocked → mirror c ∈ b.blocked
  link : ∀ l, SameLink (s.link l) b l
  handler : s.rxHandlerData = b.handler

theorem Refines.blockConn (h : Refines s b) (skb : Skb) :
    ∃ r, blockConn s.block skb = some r ∧ (r = true ↔ skb.conn ∈ b.blocked) := by
  obtain ⟨r, hr, hfound⟩ := h.block.connFind skb.conn
  exact ⟨r.isSome, by rw [Shuttle.blockConn, hr]; rfl, hfound⟩

theorem Refines.blockStore (inAton : List UInt8 → UInt32) (h : Refines s b) (cmd : Cmd) :
    ∃ s', s.blockStore inAton cmd = some s' ∧ Refines s' (b.block inAton cmd) := by
  obtain ⟨block, hs, hblock⟩ := h.block.linkBlockStore inAton h.mirrored cmd
  refine ⟨{ s with block := block }, by rw [Links.blockStore, hs]; rfl, ?_, ?_, ?_, h.handler⟩
  · exact hblock
  · rintro c (hc | rfl | rfl)
    · exact .inl (h.mirrored c hc)
    · exact .inr (.inr rfl)
    · exact .inr (.inl rfl)
  · exact fun l => { h.link l with }

theorem Refines.inIpList (h : Refines s b) (ip : UInt32) :
    s.inIpList l ip = true ↔ ip ∈ (b.added l).take linkIps := by
  rw [Links.inIpList, (h.link l).ips]
  simp

theorem Refines.fromInside (h : Refines s b) (outside : Dev) (skb : SkBuff) (cloned : Bool) :
    s.fromInside l outside skb cloned = b.fromInside l outside skb cloned := by
  obtain ⟨r, hr, hblocked⟩ := h.blockConn skb.headers
  have hip := h.inIpList (l := l) skb.headers.daddr
  unfold Links.fromInside Bridge.fromInside
  rw [(h.link l).dev, hr]
  by_cases harp : skb.isArp = true
  · simp only [harp, if_true]
  · by_cases htcp : skb.isTcp = true
    · by_cases hdrop : r = true
      · have : b.Drops skb := ⟨htcp, hblocked.1 hdrop⟩
        simp [harp, htcp, hdrop, this]
      · have hpass : ¬ b.Drops skb := fun hd => hdrop (hblocked.2 hd.2)
        have hdiverts : b.Diverts l skb ↔ (skb.isTls && s.inIpList l skb.headers.daddr) = true := by
          rw [Bool.and_eq_true, hip, Bridge.Diverts]
          exact ⟨And.right, And.intro htcp⟩
        by_cases htls : (skb.isTls && s.inIpList l skb.headers.daddr) = true
        · simp [harp, htcp, hdrop, hpass, hdiverts, htls]
        · simp [harp, htcp, hdrop, hpass, hdiverts, htls]
    · have hpass : ¬ b.Drops skb := fun hd => htcp hd.1
      have hplain : ¬ b.Diverts l skb := fun hd => htcp hd.1
      simp [harp, htcp, hpass, hplain]

theorem Refines.fromOutside (h : Refines s b) (inside : Dev) (skb : SkBuff) :
    s.fromOutside l inside skb = some (b.fromOutside l inside skb) := by
  obtain ⟨r, hr, hblocked⟩ := h.blockConn skb.headers
  unfold Links.fromOutside Bridge.fromOutside
  rw [hr]
  by_cases htcp : skb.isTcp = true
  · by_cases hdrop : r = true
    · have : b.Drops skb := ⟨htcp, hblocked.1 hdrop⟩
      simp [htcp, hdrop, this]
    · have hpass : ¬ b.Drops skb := fun hd => hdrop (hblocked.2 hd.2)
      simp [htcp, hdrop, hpass]
  · have hpass : ¬ b.Drops skb := fun hd => htcp hd.1
    simp [htcp, hpass]

/-- The two bridges have the same link `l`. -/
def Bridge.SameAt (b b' : Bridge Λ) (l : Λ) : Prop :=
  b'.inside l = b.inside l ∧ b'.outside l = b.outside l ∧ b'.dev l = b.dev l ∧
    b'.queue l = b.queue l ∧ b'.added l = b.added l

theorem SameLink.congr (h : SameLink link b l) (hsame : b.SameAt b' l) : SameLink link b' l := by
  obtain ⟨hin, hout, hdev, hqueue, hadded⟩ := hsame
  exact ⟨by rw [hin, h.inside], by rw [hout, h.outside], by rw [hdev, h.dev], by rw [hadded, h.ips],
    by rw [hqueue]; exact h.cmd, by rw [hqueue]; exact h.terminated⟩

variable [DecidableEq Λ]

/-- A change of one link, in both. -/
theorem Refines.setLink (h : Refines s b) (hl : SameLink link b' l)
    (hsame : ∀ k, k ≠ l → b.SameAt b' k) (hblocked : b'.blocked = b.blocked)
    (hhandler : b'.handler = b.handler) : Refines (s.setLink l link) b' where
  block := by
    rw [hblocked]
    exact h.block
  mirrored := by
    rw [hblocked]
    exact h.mirrored
  link k := by
    by_cases hk : k = l
    · subst hk
      have hlink : (s.setLink k link).link k = link := Function.update_self _ _ _
      rw [hlink]
      exact hl
    · have hlink : (s.setLink l link).link k = s.link k := Function.update_of_ne hk _ _
      rw [hlink]
      exact (h.link k).congr (hsame k hk)
  handler := h.handler.trans hhandler.symm

/-- Another queue for the link, and for its ring. -/
theorem SameLink.queue (h : SameLink link b l) {ring : Ctrl.Ring} {q : Ctrl.Fifo} (hring : Ctrl.Holds ring q)
    (hterm : ∀ m ∈ q.unread, 0 ∈ m) :
    SameLink { link with cmd := ring } { b with queue := Function.update b.queue l q } l := by
  have hq : Function.update b.queue l q l = q := Function.update_self _ _ _
  refine { h with cmd := ?_, terminated := ?_ }
  · show Ctrl.Holds ring (Function.update b.queue l q l)
    rw [hq]
    exact hring
  · show ∀ m ∈ (Function.update b.queue l q l).unread, 0 ∈ m
    rw [hq]
    exact hterm

/-- Another device for the inside port, or none. -/
theorem SameLink.setInside (h : SameLink link b l) (d : Option Dev) :
    SameLink { link with inside := d } { b with inside := Function.update b.inside l d } l := by
  refine { h with inside := ?_ }
  show d = Function.update b.inside l d l
  rw [Function.update_self]

theorem SameLink.setOutside (h : SameLink link b l) (d : Option Dev) :
    SameLink { link with outside := d } { b with outside := Function.update b.outside l d } l := by
  refine { h with outside := ?_ }
  show d = Function.update b.outside l d l
  rw [Function.update_self]

theorem sameAt_add (ip : List UInt8) {k : Λ} (hk : k ≠ l) : b.SameAt (b.add inAton l ip) k :=
  ⟨rfl, rfl, rfl, rfl, Function.update_of_ne hk _ _⟩

theorem Refines.linkIpAddStore (h : Refines s b) (ip : List UInt8) :
    Refines (s.linkIpAddStore inAton l ip) (b.add inAton l ip) := by
  have hadded : (b.add inAton l ip).added l = b.added l ++ [inAton ip] := Function.update_self _ _ _
  have hlen : (s.link l).ips.length = min linkIps (b.added l).length := by
    rw [(h.link l).ips, List.length_take]
  unfold Links.linkIpAddStore
  split_ifs with hroom
  · refine h.setLink { h.link l with ips := ?_ } (fun k hk => sameAt_add ip hk) rfl rfl
    have hshort : (b.added l).length < linkIps := by omega
    rw [hadded, (h.link l).ips, List.take_of_length_le hshort.le, List.take_of_length_le]
    rw [List.length_append]
    exact hshort
  · have hfull : linkIps ≤ (b.added l).length := by omega
    refine { h with link := fun k => ?_ }
    by_cases hk : k = l
    · subst hk
      refine { h.link k with ips := ?_ }
      rw [hadded, (h.link k).ips, List.take_append_of_le_length hfull]
    · exact (h.link k).congr (sameAt_add ip hk)

/-! ### Taking a command -/

theorem pageString_plain {p : Ctrl.Page} (h : 0 ∈ p.plain) : pageString p = some (cstr p.plain) := by
  have hmem : 0 ∈ p.bytes := List.mem_of_mem_take h
  rw [pageString, if_pos (.inl hmem)]
  have hstr : ∀ x y : List UInt8, 0 ∈ x → cstr (x ++ y) = cstr x := by
    intro x
    induction x with
    | nil => simp
    | cons c x ih =>
      intro y hx
      by_cases hc : c = 0
      · simp [cstr, hc]
      · have hx' : 0 ∈ x := by
          rcases List.mem_cons.1 hx with h | h
          · exact absurd h.symm hc
          · exact h
        have := ih y hx'
        simp only [cstr] at this ⊢
        rw [List.cons_append, List.takeWhile_cons_of_pos (by simpa using hc), this,
          List.takeWhile_cons_of_pos (by simpa using hc)]
  have hsplit := hstr (p.bytes.take p.len) (p.bytes.drop p.len) h
  rw [List.take_append_drop] at hsplit
  rw [hsplit]
  rfl

theorem Refines.parseKringCommand (h : Refines s b) (bytes : List UInt8) :
    Option.Rel Refines (s.parseKringCommand inAton l bytes)
      ((scanCommand bytes).map (b.obey inAton l)) := by
  unfold Links.parseKringCommand
  cases scanCommand bytes with
  | none => exact .none
  | some cmd =>
    cases cmd with
    | none => exact .some h
    | some cmd =>
      cases cmd with
      | block cmd =>
        obtain ⟨s', hs, hs'⟩ := h.blockStore inAton cmd
        rw [Option.bind_some, Option.map_some]
        simp only [hs]
        exact .some hs'
      | ip ip => exact .some (h.linkIpAddStore ip)

theorem Refines.takeCommand (h : Refines s b) :
    Option.Rel Refines (s.takeCommand inAton l) (b.take inAton l) := by
  have hl := h.link l
  unfold Links.takeCommand Bridge.take
  rw [hl.cmd.avail]
  cases hq : (b.queue l).unread with
  | nil => exact .some h
  | cons m ms =>
    obtain ⟨n, hn, hm, hholds⟩ := Ctrl.holds_next hl.cmd hq
    have hzero : 0 ∈ m := hl.terminated m (by rw [hq]; exact List.mem_cons_self)
    have hpage : pageString (n.1.page n.2) = some (cstr m) := by
      rw [pageString_plain (by rw [hm]; exact hzero), hm]
    have hrest : Refines (s.setLink l { s.link l with cmd := ⟨n.1, some n.2⟩ })
        { b with queue := Function.update b.queue l ⟨ms, some m⟩ } := by
      refine h.setLink (hl.queue hholds fun x hx => ?_)
        (fun k hk => ⟨rfl, rfl, rfl, Function.update_of_ne hk _ _, rfl⟩) rfl rfl
      exact hl.terminated x (by rw [hq]; exact List.mem_cons_of_mem _ hx)
    simp only [List.isEmpty_cons, Bool.not_false, if_true, Links.kctrlKnextPlain, hn, Option.map_some,
      Option.bind_some, hpage]
    exact hrest.parseKringCommand (cstr m)

/-! ### A frame -/

/-- The two do the same, and go to states that are related. -/
abbrev SameStep {ο : Type} (x : Links Λ × ο) (y : Bridge Λ × ο) : Prop := Refines x.1 y.1 ∧ x.2 = y.2

theorem Refines.handle (h : Refines s b) (dev : Dev) (skb : SkBuff) (cloned : Bool) :
    Option.Rel SameStep (s.shuttleHandleFrame inAton l dev skb cloned)
      (b.handle inAton l dev skb cloned) := by
  have hl := h.link l
  unfold Links.shuttleHandleFrame Bridge.handle
  rw [hl.inside, hl.outside]
  cases b.inside l with
  | none => exact .some ⟨h, rfl⟩
  | some inside =>
    cases b.outside l with
    | none => exact .some ⟨h, rfl⟩
    | some outside =>
      refine rel_bind h.takeCommand fun s b h => ?_
      split_ifs with hin hout
      · rw [h.fromInside]
        cases b.fromInside l outside skb cloned with
        | none => exact .none
        | some e => exact .some ⟨h, rfl⟩
      · rw [h.fromOutside]
        exact .some ⟨h, rfl⟩
      · exact .some ⟨h, rfl⟩

/-! ### The ports -/

omit [DecidableEq Λ] in
/-- Other handlers, in both. -/
theorem Refines.setHandler (h : Refines s b) (f : Dev → Option Λ) :
    Refines { s with rxHandlerData := f } { b with handler := f } :=
  ⟨h.block, h.mirrored, fun k => (h.link k).congr ⟨rfl, rfl, rfl, rfl, rfl⟩, rfl⟩

theorem Refines.setInside (h : Refines s b) (d : Option Dev) :
    Refines (s.setLink l { s.link l with inside := d })
      { b with inside := Function.update b.inside l d } :=
  h.setLink ((h.link l).setInside d) (fun _ hk => ⟨Function.update_of_ne hk _ _, rfl, rfl, rfl, rfl⟩)
    rfl rfl

theorem Refines.setOutside (h : Refines s b) (d : Option Dev) :
    Refines (s.setLink l { s.link l with outside := d })
      { b with outside := Function.update b.outside l d } :=
  h.setLink ((h.link l).setOutside d) (fun _ hk => ⟨rfl, Function.update_of_ne hk _ _, rfl, rfl, rfl⟩)
    rfl rfl

theorem Refines.portAdd (h : Refines s b) (dev : Option Dev) (dir : List UInt8) :
    SameStep (s.linkPortAddStore l dev dir) (b.portAdd l dev dir) := by
  have hne : Lib.bytes "outside" ≠ Lib.bytes "inside" := by decide
  unfold Links.linkPortAddStore Bridge.portAdd
  cases dev with
  | none =>
    by_cases hdir : dir = Lib.bytes "inside" ∨ dir = Lib.bytes "outside"
    · simp only [hdir, if_true]
      exact ⟨h, rfl⟩
    · simp only [hdir, if_false]
      exact ⟨h, rfl⟩
  | some dev =>
    rw [h.handler]
    by_cases hin : dir = Lib.bytes "inside"
    · simp only [hin, true_or, if_true]
      exact ⟨(h.setInside (some dev)).setHandler _, rfl⟩
    · by_cases hout : dir = Lib.bytes "outside"
      · simp only [hout, hne, or_true, if_true, if_false]
        exact ⟨(h.setOutside (some dev)).setHandler _, rfl⟩
      · simp only [hin, hout, or_self, if_false]
        exact ⟨h, rfl⟩

theorem Refines.portDel (h : Refines s b) (dev : Option Dev) :
    SameStep (s.linkPortDelStore l dev) (b.portDel l dev) := by
  have hl := h.link l
  unfold Links.linkPortDelStore Bridge.portDel
  cases dev with
  | none => exact ⟨h, rfl⟩
  | some dev =>
    rw [h.handler]
    by_cases hin : b.inside l = some dev
    · have hlink : (s.link l).inside = some dev := hl.inside.trans hin
      simp only [hin, hlink, if_true]
      exact ⟨(h.setInside none).setHandler _, rfl⟩
    · have hlink : (s.link l).inside ≠ some dev := fun hd => hin (hl.inside.symm.trans hd)
      by_cases hout : b.outside l = some dev
      · have hlink' : (s.link l).outside = some dev := hl.outside.trans hout
        simp only [hin, hlink, hout, hlink', if_true, if_false]
        exact ⟨(h.setOutside none).setHandler _, rfl⟩
      · have hlink' : (s.link l).outside ≠ some dev := fun hd => hout (hl.outside.symm.trans hd)
        simp only [hin, hlink, hout, hlink', if_false]
        have hsame := h.setLink hl (fun _ _ => ⟨rfl, rfl, rfl, rfl, rfl⟩) rfl rfl
        exact ⟨hsame.setHandler _, rfl⟩

/-! ### Every event -/

theorem Refines.write (inAton : List UInt8 → UInt32) (h : Refines s b) (l : Λ) (w : Ctrl.WriterId) {data : List UInt8}
    (hterm : 0 ∈ Ctrl.clip data) :
    Option.Rel SameStep (s.step inAton (.write l w data)) (b.step inAton (.write l w data)) := by
  have hl := h.link l
  obtain ⟨q, hq, hholds⟩ := Ctrl.holds_write w data hl.cmd
  simp only [Links.step, Bridge.step]
  unfold Ctrl.fifoStep at hq
  split_ifs at hq with hfull
  · obtain ⟨rfl, hfalse⟩ := Prod.mk.inj (Option.some.inj hq)
    rw [if_pos hfull]
    refine .some ⟨?_, by rw [← Ctrl.Out.wrote.inj hfalse]⟩
    exact h.setLink { hl with cmd := hholds } (fun k _ => ⟨rfl, rfl, rfl, rfl, rfl⟩) rfl rfl
  · obtain ⟨rfl, htrue⟩ := Prod.mk.inj (Option.some.inj hq)
    rw [if_neg hfull]
    refine .some ⟨?_, by rw [← Ctrl.Out.wrote.inj htrue]⟩
    refine h.setLink (hl.queue hholds fun x hx => ?_)
      (fun k hk => ⟨rfl, rfl, rfl, Function.update_of_ne hk _ _, rfl⟩) rfl rfl
    rcases List.mem_append.1 hx with hx | hx
    · exact hl.terminated x hx
    · exact List.mem_singleton.1 hx ▸ hterm

theorem Refines.step (inAton : List UInt8 → UInt32) (h : Refines s b) (e : Event Λ) (hterm : e.Terminated) :
    Option.Rel SameStep (s.step inAton e) (b.step inAton e) := by
  cases e with
  | frame dev skb cloned =>
    simp only [Links.step, Bridge.step, h.handler]
    cases b.handler dev with
    | none => exact .none
    | some l =>
      refine rel_map (h.handle dev skb cloned) fun x y hxy => ?_
      exact ⟨hxy.1, congrArg Out.effects hxy.2⟩
  | xmit l skb =>
    simp only [Links.step, Bridge.step, Links.shuttleDevXmit, (h.link l).inside]
    cases b.inside l with
    | none => exact .none
    | some inside => exact .some ⟨h, rfl⟩
  | write l w data => exact h.write inAton l w hterm
  | ipAdd l ip => exact .some ⟨h.linkIpAddStore ip, rfl⟩
  | block cmd =>
    obtain ⟨s', hs, hs'⟩ := h.blockStore inAton cmd
    simp only [Links.step, Bridge.step, hs]
    exact .some ⟨hs', rfl⟩
  | portAdd l dev dir =>
    have hport := h.portAdd (l := l) dev dir
    exact .some ⟨hport.1, congrArg Out.returned hport.2⟩
  | portDel l dev =>
    have hport := h.portDel (l := l) dev
    exact .some ⟨hport.1, congrArg Out.returned hport.2⟩

theorem shuttle_simulation (inAton : List UInt8 → UInt32) (el : Ptr → AvlEl Ptr) (conn : Ptr → Connection) (dev : Λ → Dev) :
    SimulationOn (shuttle inAton el conn dev) (bridge inAton dev) Event.Terminated Refines where
  init :=
    { block := Holds.start el conn
      mirrored := fun _ hc => hc
      link := fun _ => ⟨rfl, rfl, rfl, rfl, Ctrl.holds_init, fun _ hm => absurd hm List.not_mem_nil⟩
      handler := rfl }
  step _ _ e h hterm := h.step inAton e hterm

end Refinement

/-- On every sequence of events the shuttle gives the outputs of the bridge, and is stuck where the
bridge is. -/
theorem shuttle_refines_bridge {Λ : Type} [DecidableEq Λ] (inAton : List UInt8 → UInt32)
    (el : Ptr → AvlEl Ptr) (conn : Ptr → Connection) (dev : Λ → Dev) (events : List (Event Λ))
    (hterm : ∀ e ∈ events, e.Terminated) :
    ((shuttle inAton el conn dev).trace (shuttle inAton el conn dev).init events).map Prod.snd =
      ((bridge inAton dev).trace (bridge inAton dev).init events).map Prod.snd := by
  have hsim := shuttle_simulation inAton el conn dev
  have hrel := hsim.trace hsim.init events hterm
  cases hc : (shuttle inAton el conn dev).trace (shuttle inAton el conn dev).init events with
  | none =>
    rw [hc] at hrel
    cases ha : (bridge inAton dev).trace (bridge inAton dev).init events with
    | none => rfl
    | some y =>
      rw [ha] at hrel
      cases hrel
  | some x =>
    rw [hc] at hrel
    cases ha : (bridge inAton dev).trace (bridge inAton dev).init events with
    | none =>
      rw [ha] at hrel
      cases hrel
    | some y =>
      rw [ha] at hrel
      cases hrel with
      | some hxy => exact congrArg some hxy.2

/-- An IPv6 packet without anything in it. -/
def ipv6 : SkBuff := ⟨List.replicate 12 0 ++ [0x86, 0xdd], [], fun _ => 0⟩

/-- A TCP packet from 10.0.0.2, port 443, to 10.0.0.1, port 5. -/
def reply : SkBuff where
  eth := List.replicate 12 0 ++ [8, 0]
  data := [0x45, 0, 0, 40, 0, 0, 0, 0, 64, 6, 0, 0, 10, 0, 0, 2, 10, 0, 0, 1, 1, 187, 0, 5]
  behind _ := 0

/-- `in_aton` of the two addresses. -/
def twoHosts (ip : List UInt8) : UInt32 := if ip = bytes "10.0.0.1" then 0x0100000a else 0x0200000a

inductive LinkName
  | l0
  deriving DecidableEq

def writer0 : Kring.Ctrl.WriterId := ⟨0, by decide⟩

def oneLink (inAton : List UInt8 → UInt32) : Machine (Links LinkName) (Event LinkName) (Out LinkName) :=
  shuttle inAton (fun _ => ⟨none, none, none, 0⟩) (fun _ => ⟨0, 0, 0, 0⟩) fun _ => 2

/-- A command in the ring, and a packet that takes it and is freed. -/
theorem shuttle_refines_bridge_reply :
    let events : List (Event LinkName) := [.portAdd .l0 (some 0) (bytes "inside"),
      .portAdd .l0 (some 1) (bytes "outside"),
      .write .l0 writer0 (bytes "b 10.0.0.1 5 10.0.0.2 443" ++ [0]), .frame 1 reply true]
    let outputs : List (Out LinkName) := [.returned 0, .returned 0, .wrote true, .effects [.kfreeSkb]]
    ((oneLink twoHosts).trace (oneLink twoHosts).init events).map Prod.snd = some outputs ∧
      ((bridge twoHosts fun _ => 2).trace (bridge twoHosts fun _ => 2).init events).map Prod.snd =
        some outputs := by
  intro events outputs
  have hout : ((oneLink twoHosts).trace (oneLink twoHosts).init events).map Prod.snd = some outputs := by
    rfl
  refine ⟨hout, (shuttle_refines_bridge twoHosts _ _ _ events ?_).symm.trans hout⟩
  have hzero : 0 ∈ Ctrl.clip (bytes "b 10.0.0.1 5 10.0.0.2 443" ++ [0]) := by decide
  simp only [events, List.mem_cons, List.not_mem_nil, or_false]
  rintro e (rfl | rfl | rfl | rfl)
  · trivial
  · trivial
  · exact hzero
  · trivial

end Netp.Shuttle
