import Netp.Genf.OutputStream
import Netp.Genf.ParseDelivers

/-! # Two connections

A `PacketConnection` that sends, the bytes on the way, and one that receives. Packets are sent at any
time, the event loop of the sender has its turns, and the receiver calls `parsePacket` on what has come
so far. The receiver may see the end of the stream at any time.

In every state the packets dispatched are the first ones sent (`link_delivers`). The receiver is followed
through the bytes that will come, those still in the queue of the sender included: a call that gets fewer
bytes is one whose reads are shorter (`parsePacket_begin`).
-/

namespace Netp.Genf.Link
open Netp.Lib Netp.Genf
set_option autoImplicit false

/-- The sender, with the packets that were sent, and the receiver, with the bytes on the way. -/
structure State where
  tx : Out.PacketConn
  packets : List (ℕ × Rope)
  rx : Conn

inductive Event
  /-- `PacketBase::send` of a packet whose rope has these blocks. -/
  | send (p : ℕ × Rope) (blocks : List Out.RopeBlock) (canConsume : Bool) (results : List Out.WriteRes)
  /-- Anything else that happens to the sender. -/
  | tx (a : Out.Act)
  | rx (results : List ReadResult)

/-- The bytes of a packet. -/
def packetBytes (p : ℕ × Rope) : List UInt8 := (packetBaseSend p.2).contents.flatten

/-- What a step of the sender writes is on the way. -/
def transmit (s : State) (tx : Out.PacketConn) : State :=
  { s with tx := tx, rx := { s.rx with inp := s.rx.inp ++ tx.written.drop s.tx.written.length } }

def isSend : Out.Act → Bool
  | .send _ _ _ => true
  | _ => false

def step (C : ℕ) (s : State) : Event → Option State
  | .send p blocks canConsume results => (Out.step C s.tx (.send blocks canConsume results)).map fun tx =>
      { transmit s tx with packets := s.packets ++ [p] }
  | .tx a => if isSend a then none else (Out.step C s.tx a).map (transmit s)
  | .rx results => some { s with rx := s.rx.parse results }

/-- A new connection, either end of which may have been accepted. -/
def system (C : ℕ) (how : Out.Start) (headBuf : Mem Unit) (mem : Mem ℕ) (need : ℤ) : System State Event :=
  ⟨⟨Out.start how, [], Conn.start headBuf mem need []⟩, step C⟩

/-- The packet was built by `open` and `allocBytes`, the blocks are its bytes, and the step of the sender
does not lose the flag for its queue. -/
def Ok (C : ℕ) (s : State) : Event → Prop
  | .send p blocks canConsume results =>
      p.1 < 2 ^ 32 ∧ Built C p.1 p.2 ∧ (Out.Rope.ofBlocks blocks).bytes = packetBytes p ∧
        Out.Ok s.tx (.send blocks canConsume results)
  | .tx a => Out.Ok s.tx a
  | .rx _ => True

/-! ## Shorter reads -/

section Prefix
variable {more : List UInt8}

/-- The same outcome, with more bytes behind those that are left. -/
def extend (more : List UInt8) (r : Parsed × List UInt8) : Parsed × List UInt8 := (r.1, r.2 ++ more)

theorem take_prefix (inp more : List UInt8) (k : ℕ) :
    (inp ++ more).take (inp.take k).length = inp.take k ∧
      (inp ++ more).drop (inp.take k).length = inp.drop (inp.take k).length ++ more := by
  have hle : (inp.take k).length ≤ inp.length := by
    rw [List.length_take]
    exact Nat.min_le_right _ _
  refine ⟨?_, List.drop_append_of_le_length hle⟩
  rw [List.take_append_of_le_length hle, List.length_take]
  rcases Nat.le_total k inp.length with hk | hk
  · rw [Nat.min_eq_left hk]
  · rw [Nat.min_eq_right hk, List.take_length, List.take_of_length_le hk]

theorem afterBlock_begin {results : List ReadResult}
    (h : ∀ recv inp, ∃ results', readBlocks results' recv (inp ++ more) =
      extend more (readBlocks results recv inp)) (recv : Recv) (inp : List UInt8) :
    ∃ results', afterBlock (readBlocks results') recv (inp ++ more) =
      extend more (afterBlock (readBlocks results) recv inp) := by
  unfold afterBlock
  simp only
  split_ifs
  · exact ⟨[], rfl⟩
  · exact ⟨[], rfl⟩
  · exact h _ _

theorem readBlocks_begin (results : List ReadResult) : ∀ recv inp, ∃ results',
    readBlocks results' recv (inp ++ more) = extend more (readBlocks results recv inp) := by
  induction results with
  | nil => exact fun recv inp => ⟨[], rfl⟩
  | cons res results ih =>
    intro recv inp
    cases res with
    | eof => exact ⟨[.eof], rfl⟩
    | data k =>
      obtain ⟨m, hm⟩ : ∃ m, m = min k (recv.need.toNat - recv.haveLen) := ⟨_, rfl⟩
      obtain ⟨htake, hdrop⟩ := take_prefix inp more m
      have hmin : min (inp.take m).length (recv.need.toNat - recv.haveLen) = (inp.take m).length := by
        rw [List.length_take]
        omega
      by_cases hnil : inp.take m = []
      · refine ⟨[.data (inp.take m).length], ?_⟩
        simp only [readBlocks, hmin, htake, ← hm, if_pos hnil, extend]
      · let recv' := { recv with
          buf := recv.buf.store (recv.dataBlock, recv.haveLen) (inp.take m)
          haveLen := recv.haveLen + (inp.take m).length }
        by_cases hshort : (recv'.haveLen : ℤ) < recv.need
        · refine ⟨[.data (inp.take m).length], ?_⟩
          simp only [readBlocks, hmin, htake, ← hm, if_neg hnil, hdrop, extend]
          rw [if_pos hshort, if_pos hshort]
        · obtain ⟨results', h⟩ := afterBlock_begin ih recv' (inp.drop (inp.take m).length)
          refine ⟨.data (inp.take m).length :: results', ?_⟩
          simp only [readBlocks, hmin, htake, ← hm, if_neg hnil, hdrop]
          rw [if_neg hshort, if_neg hshort]
          exact h

theorem blockLoop_begin (more : List UInt8) (results : List ReadResult) (recv : Recv)
    (inp : List UInt8) : ∃ results',
    blockLoop results' recv (inp ++ more) = extend more (blockLoop results recv inp) := by
  unfold blockLoop
  split_ifs
  · exact readBlocks_begin results recv inp
  · exact afterBlock_begin (readBlocks_begin results) recv inp

/-- A call that finds the first bytes only is a call with shorter reads. -/
theorem parsePacket_begin (results : List ReadResult) (recv : Recv) (inp more : List UInt8) :
    ∃ results', parsePacket results' recv (inp ++ more) = extend more (parsePacket results recv inp) := by
  cases hstate : recv.state with
  | wantBlock =>
    obtain ⟨results', h⟩ := blockLoop_begin more results recv inp
    refine ⟨results', ?_⟩
    simp only [parsePacket, hstate]
    exact h
  | wantHead =>
    cases results with
    | nil => exact ⟨[], by simp only [parsePacket, hstate, extend]⟩
    | cons res results =>
      cases res with
      | eof => exact ⟨[.eof], by simp only [parsePacket, hstate, extend]⟩
      | data k =>
        obtain ⟨m, hm⟩ : ∃ m, m = min k (headSize - recv.haveLen) := ⟨_, rfl⟩
        obtain ⟨htake, hdrop⟩ := take_prefix inp more m
        have hmin : min (inp.take m).length (headSize - recv.haveLen) = (inp.take m).length := by
          rw [List.length_take]
          omega
        by_cases hnil : inp.take m = []
        · refine ⟨[.data (inp.take m).length], ?_⟩
          simp only [parsePacket, hstate, hmin, htake, ← hm, if_pos hnil, extend]
        · by_cases hshort : recv.haveLen + (inp.take m).length < headSize
          · refine ⟨[.data (inp.take m).length], ?_⟩
            simp only [parsePacket, hstate, hmin, htake, ← hm, if_neg hnil, if_pos hshort, hdrop, extend]
          · let headBuf := recv.headBuf.store () recv.haveLen (inp.take m)
            by_cases hneg : intOf (ofLe (headBuf.load () 4 4)) < 0
            · refine ⟨[.data (inp.take m).length], ?_⟩
              simp only [parsePacket, hstate, hmin, htake, ← hm, if_neg hnil, if_neg hshort, hdrop, extend]
              rw [if_pos hneg, if_pos hneg]
            · let buf := appendBlock recv.buf (intOf (ofLe (headBuf.load () 4 4))).toNat
              let buf := buf.store (buf.blocks.length - 1, 0) (headBuf.load () 0 headSize)
              obtain ⟨results', h⟩ := blockLoop_begin more results
                ⟨.wantBlock, headBuf, buf, headSize, intOf (ofLe (headBuf.load () 4 4))⟩
                (inp.drop (inp.take m).length)
              refine ⟨.data (inp.take m).length :: results', ?_⟩
              simp only [parsePacket, hstate, hmin, htake, ← hm, if_neg hnil, if_neg hshort, hdrop]
              rw [if_neg hneg, if_neg hneg]
              exact h

end Prefix

/-- The receiver with more bytes on the way. -/
def ahead (more : List UInt8) (c : Conn) : Conn := { c with inp := c.inp ++ more }

theorem parse_ahead (c : Conn) (results : List ReadResult) (more : List UInt8) :
    ∃ results', (ahead more c).parse results' = ahead more (c.parse results) := by
  obtain ⟨results', h⟩ := parsePacket_begin results c.recv c.inp more
  refine ⟨results', ?_⟩
  unfold Conn.parse
  by_cases hopen : c.status = .open
  · rw [if_pos hopen, if_pos (show (ahead more c).status = .open from hopen)]
    simp only [ahead]
    rw [h]
    obtain ⟨outcome, rest⟩ := parsePacket results c.recv c.inp
    cases outcome <;> rfl
  · rw [if_neg hopen, if_neg (show ¬ (ahead more c).status = .open from hopen)]

/-! ## The sender -/

section Sender
variable {C : ℕ} {c c' : Out.PacketConn}

/-- What an action adds to the bytes that are to be sent. -/
def sentBy : Out.Act → List UInt8
  | .send blocks _ _ => (Out.Rope.ofBlocks blocks).bytes
  | _ => []

/-- A step only writes more, and sends what it is given. -/
theorem step_sent {a : Out.Act} (h : Out.step C c a = some c') :
    c'.sent = c.sent ++ sentBy a ∧ c.written <+: c'.written := by
  unfold Out.step at h
  obtain ⟨-, h⟩ := Option.ite_none_right_eq_some.1 h
  cases h
  cases a with
  | send blocks canConsume results =>
    let c₁ : Out.PacketConn := { c with sent := c.sent ++ (Out.Rope.ofBlocks blocks).bytes }
    obtain ⟨ws, hws, -, -⟩ := (Out.writeBlocks_spec (Out.Rope.ofBlocks blocks).blocks results c₁).step
    have hwritten : c.written <+: (Out.writeBlocks (Out.Rope.ofBlocks blocks).blocks results c₁).conn.written :=
      hws.written ▸ List.prefix_append _ _
    have hsent : (Out.writeBlocks (Out.Rope.ofBlocks blocks).blocks results c₁).conn.sent =
      c.sent ++ (Out.Rope.ofBlocks blocks).bytes := hws.rest.2.2.2
    simp only [Out.effect, Out.send, sentBy]
    split
    · exact ⟨rfl, List.prefix_rfl⟩
    · split
      · exact ⟨hsent, hwritten⟩
      · exact ⟨hsent, hwritten⟩
      · exact ⟨hsent, hwritten⟩
  | writeReady results =>
    obtain ⟨ws, hws, -, -⟩ := (Out.writeBlocks_spec c.queue.blocks results c).step
    have hwritten : c.written <+: (Out.writeBlocks c.queue.blocks results c).conn.written :=
      hws.written ▸ List.prefix_append _ _
    have hsent : (Out.writeBlocks c.queue.blocks results c).conn.sent = c.sent := hws.rest.2.2.2
    simp only [Out.effect, Out.writeReady, sentBy, List.append_nil]
    split
    · exact ⟨rfl, List.prefix_rfl⟩
    · split
      · split
        · exact ⟨hsent, hwritten⟩
        · exact ⟨hsent, hwritten⟩
      · exact ⟨hsent, hwritten⟩
      · exact ⟨hsent, hwritten⟩
  | sendEos =>
    simp only [Out.effect, Out.sendEos, sentBy, List.append_nil]
    split <;> exact ⟨rfl, List.prefix_rfl⟩
  | connectReady success =>
    simp only [Out.effect, Out.connConnectReady, sentBy, List.append_nil]
    split
    · split <;> exact ⟨rfl, List.prefix_rfl⟩
    · exact ⟨rfl, List.prefix_rfl⟩
  | tlsConnectReady result =>
    simp only [Out.effect, Out.connTlsConnectReady, sentBy, List.append_nil]
    split <;> exact ⟨rfl, List.prefix_rfl⟩
  | tlsAcceptReady result =>
    simp only [Out.effect, Out.connTlsAcceptReady, sentBy, List.append_nil]
    split <;> exact ⟨rfl, List.prefix_rfl⟩
  | tlsRead wantsWrite => exact ⟨(List.append_nil _).symm, List.prefix_rfl⟩
  | wantReadSet v => exact ⟨(List.append_nil _).symm, List.prefix_rfl⟩
  | close => exact ⟨(List.append_nil _).symm, List.prefix_rfl⟩

end Sender

/-! ## The invariant -/

section Inv
variable {C : ℕ} {how : Out.Start} {headBuf : Mem Unit} {mem : Mem ℕ} {need : ℤ} {s s' : State}

/-- The bytes that the receiver will get if nothing is lost: those on the way, and those not yet written. -/
def upcoming (s : State) : Conn := ahead (s.tx.sent.drop s.tx.written.length) s.rx

structure Inv (C : ℕ) (s : State) : Prop where
  tx : Out.Inv s.tx ∧ Out.Good s.tx
  built : ∀ p ∈ s.packets, p.1 < 2 ^ 32 ∧ Built C p.1 p.2
  rx : ConnInv s.packets (upcoming s)

theorem Inv.framed (h : Inv C s) : ∀ p ∈ s.packets, p.1 < 2 ^ 32 ∧ Framed p.1 p.2 :=
  fun p hp => ⟨(h.built p hp).1, (h.built p hp).2.framed⟩

/-- What is written moves from the queue to the way. -/
theorem upcoming_transmit {tx : Out.PacketConn} (hg : Out.Good s.tx) (hg' : Out.Good tx)
    (hw : s.tx.written <+: tx.written) {bs : List UInt8} (hsent : tx.sent = s.tx.sent ++ bs) :
    upcoming (transmit s tx) = ahead bs (upcoming s) := by
  obtain ⟨rest, hrest⟩ := hg'.written
  have hle := hw.length_le
  have hle' := hg.written.length_le
  have hdrop : tx.written.drop s.tx.written.length ++ tx.sent.drop tx.written.length =
      s.tx.sent.drop s.tx.written.length ++ bs := by
    rw [← List.drop_append_of_le_length hle', ← hsent, ← hrest, List.drop_left,
      List.drop_append_of_le_length hle]
  simp only [upcoming, transmit, ahead, List.append_assoc, hdrop]

theorem wire_append (fs : List (List (List UInt8))) (f : List (List UInt8)) :
    wire (fs ++ [f]) = wire fs ++ f.flatten := by
  simp [wire]

/-- One more packet behind those still to come. -/
theorem RecvInv.snoc {recv : Recv} {inp : List UInt8} {fs : List (List (List UInt8))}
    (h : RecvInv recv inp fs) (f : List (List UInt8)) : RecvInv recv (inp ++ f.flatten) (fs ++ [f]) := by
  cases h with
  | head state blocks lt inp_eq =>
    refine .head state blocks lt ?_
    rw [← List.append_assoc, inp_eq, wire_append]
  | block fs_eq h lt =>
    subst fs_eq
    refine .block rfl { h with inp_eq := ?_ } lt
    rw [h.inp_eq]
    show _ = _ ++ (_ ++ wire (_ ++ [f]))
    rw [wire_append]
    simp only [List.append_assoc]

theorem ConnInv.snoc {packets : List (ℕ × Rope)} {c : Conn} (h : ConnInv packets c) {p : ℕ × Rope}
    (hp : Framed p.1 p.2) : ConnInv (packets ++ [p]) (ahead (packetBytes p) c) := by
  obtain ⟨done, todo, hsplit, hout, hrecv, -⟩ := h.split
  have hne : packetBytes p ≠ [] := by
    obtain ⟨b, hb, h16, -⟩ := hp.frame.first
    intro hnil
    have hmem : b ∈ (packetBaseSend p.2).contents := List.mem_of_getElem? hb
    have hflat := List.flatten_eq_nil_iff.1 hnil b hmem
    rw [hflat] at h16
    simp at h16
  refine ⟨h.fault, done, todo ++ [p], by rw [hsplit, List.append_assoc], hout, fun hopen => ?_, fun hnil => ?_⟩
  · rw [List.map_append]
    exact RecvInv.snoc (hrecv hopen) _
  · exact absurd (List.append_eq_nil_iff.1 hnil).2 hne

theorem inv_init : Inv C (system C how headBuf mem need).init where
  tx := Out.inv_start how
  built := fun _ hp => absurd hp List.not_mem_nil
  rx := by
    have hstart := connInv_start (List.forall_mem_nil fun p : ℕ × Rope => p.1 < 2 ^ 32 ∧ Framed p.1 p.2) headBuf mem need
    have hsent : (Out.start how).sent = [] := by
      rcases how with tls | tls
      · rfl
      · cases tls <;> rfl
    have hupcoming : upcoming (system C how headBuf mem need).init = Conn.start headBuf mem need [] := by
      simp [upcoming, system, ahead, hsent, Conn.start]
    rw [hupcoming]
    exact hstart

theorem inv_step {e : Event} (h : Inv C s) (hok : Ok C s e) (hs : step C s e = some s') : Inv C s' := by
  cases e with
  | send p blocks canConsume results =>
    obtain ⟨hid, hbuilt, hbytes, hok⟩ := hok
    obtain ⟨tx, htx, rfl⟩ := Option.map_eq_some_iff.1 hs
    obtain ⟨hsent, hw⟩ := step_sent htx
    have hgood := (Out.good_step_iff h.tx.1 h.tx.2 htx).2 hok
    have hbuilt' : ∀ q ∈ s.packets ++ [p], q.1 < 2 ^ 32 ∧ Built C q.1 q.2 := by
      intro q hq
      rcases List.mem_append.1 hq with hq | hq
      · exact h.built q hq
      · rw [List.mem_singleton.1 hq]
        exact ⟨hid, hbuilt⟩
    refine ⟨⟨Out.inv_step h.tx.1 htx, hgood⟩, hbuilt', ?_⟩
    have hup := upcoming_transmit h.tx.2 hgood hw hsent
    have hrx := ConnInv.snoc h.rx hbuilt.framed
    rw [← hbytes] at hrx
    exact hup ▸ hrx
  | tx a =>
    simp only [step] at hs
    split_ifs at hs with hsend
    obtain ⟨tx, htx, rfl⟩ := Option.map_eq_some_iff.1 hs
    obtain ⟨hsent, hw⟩ := step_sent htx
    have hnone : sentBy a = [] := by
      cases a with
      | send => exact absurd rfl hsend
      | _ => rfl
    rw [hnone] at hsent
    have hgood := (Out.good_step_iff h.tx.1 h.tx.2 htx).2 hok
    refine ⟨⟨Out.inv_step h.tx.1 htx, hgood⟩, h.built, ?_⟩
    rw [upcoming_transmit h.tx.2 hgood hw hsent]
    simpa [ahead, transmit] using h.rx
  | rx results =>
    obtain rfl := Option.some.inj hs
    refine ⟨h.tx, h.built, ?_⟩
    obtain ⟨results', hahead⟩ := parse_ahead s.rx results (s.tx.sent.drop s.tx.written.length)
    have hrx := h.rx.parse h.framed results'
    rw [upcoming, hahead] at hrx
    exact hrx

end Inv

/-- In every run the packets dispatched are the first of those sent, each once and as it was sent; all of
them, once nothing is in the queue of an open sender nor on the way. The receiver finds no fault. -/
theorem link_delivers {C : ℕ} {how : Out.Start} {headBuf : Mem Unit} {mem : Mem ℕ} {need : ℤ} {s : State}
    (h : ReachIf (system C how headBuf mem need) (Ok C) s) :
    s.rx.out <+: s.packets.map sentPacket ∧ s.rx.status ≠ .fault ∧
      (s.tx.fd.closed = false → s.tx.queue.bytes = [] → s.rx.inp = [] →
        s.rx.out = s.packets.map sentPacket) := by
  have hinv : Inv C s := h.invariant inv_init fun _ _ _ hi hok hs => inv_step hi hok hs
  obtain ⟨done, todo, hsplit, hout, -, hnil⟩ := hinv.rx.split
  have hout' : s.rx.out = done.map sentPacket := hout
  refine ⟨?_, hinv.rx.fault, fun hopen hqueue hway => ?_⟩
  · rw [hout', hsplit, List.map_append]
    exact List.prefix_append _ _
  · have hwritten := hinv.tx.2.queued hopen
    rw [hqueue, List.append_nil] at hwritten
    have hupcoming : (upcoming s).inp = [] := by
      simp [upcoming, ahead, hway, hwritten]
    rw [hout', hsplit, hnil hupcoming, List.append_nil]

theorem open_two : (packetBaseOpen 16 (fun _ _ => 0) 7 4).isSome = true := by decide +kernel

/-- The second allocation does not fit the block of the headers. -/
def twoBlocks : Rope := ((packetBaseOpen 16 (fun _ _ => 0) 7 4).get open_two).1

theorem built_twoBlocks : Built 16 7 twoBlocks := .opened (Option.some_get open_two).symm

def sendTwo : Event := .send (7, twoBlocks) [⟨packetBytes (7, twoBlocks), 0⟩] true [.wrote 5]

/-- The five bytes that were written at once are read; the event loop writes the rest, which three more
calls of `parsePacket` read. -/
def turns : List Event :=
  [.rx [.data 5], .tx (.writeReady [.wrote 100]), .rx [.data 6], .rx [.data 5, .data 3], .rx [.data 100]]

theorem ok_turns : ∀ e ∈ turns, ∀ s, Ok 16 s e := by
  simp only [turns, List.mem_cons, List.not_mem_nil, or_false]
  rintro e (rfl | rfl | rfl | rfl | rfl) s <;> trivial

theorem link_delivers_turns : ∃ s : State,
    ReachIf (system 16 (.accept false) (fun _ _ => 0) (fun _ _ => 0) 0) (Ok 16) s ∧
      s.rx.out = [⟨[[8, 0, 0, 0, 16, 0, 0, 0, 24, 0, 0, 0, 7, 0, 0, 0], [0, 0, 0, 0, 0, 0, 0, 0]], 7, 24⟩] ∧
      s.rx.out = s.packets.map sentPacket := by
  let M := system 16 (.accept false) (fun _ _ => 0) (fun _ _ => 0) 0
  have hsend : Ok 16 M.init sendTwo := by
    refine ⟨by omega, built_twoBlocks, ?_, .inr (by decide)⟩
    simp [Out.Rope.bytes, Out.Rope.ofBlocks]
  have hrun : (run M M.init (sendTwo :: turns)).map
        (fun s => (s.rx.out, s.tx.fd.closed, s.tx.queue.bytes, s.rx.inp)) =
      some ([⟨[[8, 0, 0, 0, 16, 0, 0, 0, 24, 0, 0, 0, 7, 0, 0, 0], [0, 0, 0, 0, 0, 0, 0, 0]], 7, 24⟩], false,
        [], []) := by decide +kernel
  obtain ⟨s, hs, hfields⟩ := Option.map_eq_some_iff.mp hrun
  simp only [Prod.mk.injEq] at hfields
  obtain ⟨hout, hopen, hqueue, hread⟩ := hfields
  have hreach : ReachIf M (Ok 16) s := by
    simp only [run, runIf, if_true, Option.bind_eq_some_iff] at hs
    obtain ⟨t, ht, hs⟩ := hs
    exact .run_of ok_turns (.next .init hsend ht) hs
  exact ⟨s, hreach, hout, (link_delivers hreach).2.2 hopen hqueue hread⟩

end Netp.Genf.Link
