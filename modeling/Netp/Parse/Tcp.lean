import Netp.Parse.HandlerFrames

/-! # The tracking of connections

`Handler::tcp` (`parse/tcp.cc`) with what the handler of the frames leaves out: the addresses and the
ports that the halves of a connection hold, their sequence numbers, and `packet->tcp.half`.
`forget` takes it all away again, and `forget_tcp` says that the rest is the handler of the frames.

A connection that begins with a reply or in the middle is built with its ends swapped, but the half of
the packet is `h1` whichever way it was built.
-/

namespace Netp.Parse
open Netp.Lib
set_option autoImplicit false

/-! ## The model -/

/-- `packet->tcp.th->seq` and `packet->tcp.th->ack_seq`. -/
def thSeq (page : Text) : UInt32 := .ofNat (be32 page (thOff page + 4))

def thAckSeq (page : Text) : UInt32 := .ofNat (be32 page (thOff page + 8))

/-- `Half`: its addresses and ports, and its sequence number. -/
structure TcpHalf where
  key : HalfKey
  seq : UInt32
  deriving DecidableEq

/-- `Conn`, with the addresses, the ports and the sequence numbers of its halves. -/
structure TrackedConn where
  conn : TcpConn
  h1 : TcpHalf
  h2 : TcpHalf

/-- The constructor, with the sequence numbers that are set behind it. -/
def TrackedConn.new (key : HalfKey) (conn : TcpConn) (seq1 seq2 : UInt32) : TrackedConn where
  conn := conn
  h1 := ⟨key, seq1⟩
  h2 := ⟨key.swapDir, seq2⟩

def TrackedConn.half (c : TrackedConn) : Side → TcpHalf
  | .h1 => c.h1
  | .h2 => c.h2

def TrackedConn.setSeq (c : TrackedConn) (side : Side) (seq : UInt32) : TrackedConn :=
  match side with
  | .h1 => { c with h1 := ⟨c.h1.key, seq⟩ }
  | .h2 => { c with h2 := ⟨c.h2.key, seq⟩ }

def Side.opposite : Side → Side
  | .h1 => .h2
  | .h2 => .h1

structure Tracker where
  conns : List TrackedConn
  halfDict : List (HalfKey × HalfRef)
  continuation : Bool
  /-- `contPacket.tcp.half` -/
  contHalf : HalfRef

namespace Tracker

def init : Tracker := ⟨[], [], false, (0, .h1)⟩

/-- `halfDict.find`. -/
def find (s : Tracker) (key : HalfKey) : Option HalfRef :=
  (s.halfDict.find? fun p => p.1 = key).map Prod.snd

/-- `halfDict.insert`, which leaves an entry of the same key alone. -/
def insert (s : Tracker) (key : HalfKey) (half : HalfRef) : Tracker :=
  if (s.find key).isSome then s else { s with halfDict := s.halfDict ++ [(key, half)] }

/-- A new connection, with its halves in `halfDict`. -/
def add (s : Tracker) (c : TrackedConn) : Tracker :=
  let n := s.conns.length
  ({ s with conns := s.conns ++ [c] }.insert c.h1.key (n, .h1)).insert c.h2.key (n, .h2)

/-- `createConnection`, and the half that the packet is given. -/
def createConnection (s : Tracker) (dir : Dir) (page : Text) : Tracker × HalfRef :=
  let key := halfKey page
  let n := s.conns.length
  match synAckBits page with
  | (true, false) => (s.add (.new key ⟨.syn, dir, Conn.init⟩ (thSeq page) 0), (n, .h1))
  | (true, true) =>
      (s.add (.new key.swapDir ⟨.synAck, if dir = .ingress then .egress else .ingress, Conn.init⟩
        (thAckSeq page) (thSeq page)), (n, .h1))
  | (false, true) =>
      (s.add (.new (if dir = .ingress then key.swapDir else key)
        (TcpConn.established ⟨.established, dir, Conn.init⟩) (thSeq page) (thAckSeq page)), (n, .h1))
  | (false, false) =>
      (s.add (.new (if dir = .ingress then key.swapDir else key)
        (TcpConn.established ⟨.established, .unknown, Conn.init⟩) (thAckSeq page) (thSeq page)),
        (n, .h1))

def setConn (s : Tracker) (n : ℕ) (f : TrackedConn → TrackedConn) : Tracker :=
  { s with conns := s.conns.modify n f }

def flowSynState (s : Tracker) (n : ℕ) (c : TrackedConn) (dir : Dir) (page : Text) : Tracker :=
  if dir = c.conn.dir then s
  else match synAckBits page with
    | (true, true) => s.setConn n fun c =>
        (({ c with conn := { c.conn with state := .synAck } }).setSeq .h1 (c.h1.seq + 1)).setSeq .h2
          (thSeq page)
    | _ => s

def flowSynAckState (s : Tracker) (n : ℕ) (c : TrackedConn) (dir : Dir) (page : Text) : Tracker :=
  if dir = c.conn.dir then
    match synAckBits page with
    | (false, true) => s.setConn n fun c =>
        ({ c with conn := c.conn.established }).setSeq .h2 (c.h2.seq + 1)
    | _ => s
  else s

/-- The machines of the half have stopped by themselves. -/
def stopped (s : Tracker) (half : HalfRef) : Bool :=
  (s.conns[half.1]?).all fun c => c.conn.conn.stopped half.2

/-- `flowEstabState`, with `pktseq` as it is read. With a negative `caplen` the machines go on until they
stop by themselves, or past the end of the memory. -/
def flowEstabState (s : Tracker) (half : HalfRef) (pktseq : UInt32) (data : Text) (dlen caplen : ℤ) :
    Option Tracker :=
  let s := s.setConn half.1 fun c =>
    { c with conn := { c.conn with conn := flowData c.conn.conn half.2 (readBytes data caplen) } }
  if caplen < 0 ∧ s.stopped half = false then none
  else if caplen < dlen then some { s with continuation := true, contHalf := half }
  else
    let s := s.setConn half.1 fun c => c.setSeq half.2 (pktseq + UInt32.ofInt dlen)
    some { s with continuation := false }

/-- `tcp`, with `flow` for a connection that is known, and `packet->tcp.half` behind it. -/
def tcp (s : Tracker) (dir : Dir) (page : Text) (caplen : ℤ) : Option (Tracker × HalfRef) :=
  match s.find (halfKey page) with
  | none => some (s.createConnection dir page)
  | some half =>
      match s.conns[half.1]? with
      | none => none
      | some c =>
          match c.conn.state with
          | .syn => some (s.flowSynState half.1 c dir page, half)
          | .synAck => some (s.flowSynAckState half.1 c dir page, half)
          | .established =>
              (s.flowEstabState half (thSeq page) (page.drop (dataOff page))
                ((totLen page : ℤ) - thlen page - ihlen page)
                (caplen - thlen page - ihlen page - sizeofEthhdr)).map fun s => (s, half)

end Tracker

/-! ## The handler of the frames -/

namespace Tracker

/-- The handler without the addresses and the sequence numbers. -/
def forget (s : Tracker) : Handler where
  conns := s.conns.map TrackedConn.conn
  halfDict := s.halfDict
  continuation := s.continuation
  contHalf := s.contHalf

theorem forget_find (s : Tracker) (key : HalfKey) : s.forget.find key = s.find key := rfl

theorem forget_insert (s : Tracker) (key : HalfKey) (half : HalfRef) :
    (s.insert key half).forget = s.forget.insert key half := by
  unfold insert Handler.insert
  rw [forget_find]
  split_ifs <;> rfl

theorem forget_add (s : Tracker) (key : HalfKey) (c : TcpConn) (seq1 seq2 : UInt32) :
    (s.add (.new key c seq1 seq2)).forget = s.forget.add key c := by
  have hconns : ({ s with conns := s.conns ++ [.new key c seq1 seq2] } : Tracker).forget =
      { s.forget with conns := s.forget.conns ++ [c] } := by
    simp only [forget, List.map_append]
    rfl
  have hlen : s.forget.conns.length = s.conns.length := List.length_map _
  simp only [add, Handler.add, forget_insert, hconns, hlen]
  rfl

theorem forget_createConnection (s : Tracker) (dir : Dir) (page : Text) :
    (s.createConnection dir page).1.forget = s.forget.createConnection dir page := by
  unfold createConnection Handler.createConnection
  rcases synAckBits page with ⟨_ | _, _ | _⟩ <;> exact forget_add s _ _ _ _

theorem forget_setConn (s : Tracker) (n : ℕ) {f : TrackedConn → TrackedConn}
    {g : TcpConn → TcpConn} (hf : ∀ c, (f c).conn = g c.conn) :
    (s.setConn n f).forget = s.forget.setConn n g := by
  have hmap : (s.conns.modify n f).map TrackedConn.conn =
      (s.conns.map TrackedConn.conn).modify n g := by
    refine List.ext_getElem? fun i => ?_
    rw [List.getElem?_map, List.getElem?_modify, List.getElem?_modify, List.getElem?_map]
    cases s.conns[i]? with
    | none => rfl
    | some c =>
      by_cases hi : n = i
      · simp [hi, hf]
      · simp [hi]
  simp only [forget, setConn, Handler.setConn, hmap]

theorem setSeq_conn (c : TrackedConn) (side : Side) (seq : UInt32) :
    (c.setSeq side seq).conn = c.conn := by
  cases side <;> rfl

theorem forget_flowSynState (s : Tracker) (n : ℕ) (c : TrackedConn) (dir : Dir) (page : Text) :
    (s.flowSynState n c dir page).forget = s.forget.flowSynState n c.conn dir page := by
  unfold flowSynState Handler.flowSynState
  split_ifs
  · rfl
  · rcases synAckBits page with ⟨_ | _, _ | _⟩
    · rfl
    · rfl
    · rfl
    · exact forget_setConn s n fun c => by simp only [setSeq_conn]

theorem forget_flowSynAckState (s : Tracker) (n : ℕ) (c : TrackedConn) (dir : Dir) (page : Text) :
    (s.flowSynAckState n c dir page).forget = s.forget.flowSynAckState n c.conn dir page := by
  unfold flowSynAckState Handler.flowSynAckState
  split_ifs
  · rcases synAckBits page with ⟨_ | _, _ | _⟩
    · rfl
    · exact forget_setConn s n fun c => by simp only [setSeq_conn]
    · rfl
    · rfl
  · rfl

theorem forget_stopped (s : Tracker) (half : HalfRef) : s.forget.stopped half = s.stopped half := by
  unfold stopped Handler.stopped forget
  rw [List.getElem?_map, Option.all_map]

theorem forget_flowEstabState (s : Tracker) (half : HalfRef) (pktseq : UInt32) (data : Text)
    (dlen caplen : ℤ) (continued : Bool) :
    (s.flowEstabState half pktseq data dlen caplen).map forget =
      (s.forget.flowEstabState half data dlen caplen continued).map Prod.fst := by
  have hdata : (s.setConn half.1 fun c => { c with conn := { c.conn with
        conn := flowData c.conn.conn half.2 (readBytes data caplen) } }).forget =
      s.forget.setConn half.1 fun c =>
        { c with conn := flowData c.conn half.2 (readBytes data caplen) } :=
    forget_setConn s _ fun _ => rfl
  have hseq : ∀ t : Tracker, (t.setConn half.1 fun c =>
      c.setSeq half.2 (pktseq + UInt32.ofInt dlen)).forget = t.forget := by
    intro t
    rw [forget_setConn t half.1 (g := id) fun c => setSeq_conn c _ _]
    simp [Handler.setConn]
  unfold flowEstabState Handler.flowEstabState
  simp only
  rw [← hdata, forget_stopped]
  by_cases hneg : caplen < 0 ∧ (s.setConn half.1 fun c => { c with conn := { c.conn with
      conn := flowData c.conn.conn half.2 (readBytes data caplen) } }).stopped half = false
  · rw [if_pos hneg, if_pos hneg]
    rfl
  · rw [if_neg hneg, if_neg hneg]
    by_cases hlt : caplen < dlen
    · simp only [hlt, if_true, decide_true, Option.map_some]
      rfl
    · simp only [hlt, if_false, decide_false, Option.map_some]
      exact congrArg (fun t : Handler => some { t with continuation := false }) (hseq _)

/-- What the tracking adds does not change what becomes of a packet. -/
theorem forget_tcp (s : Tracker) (dir : Dir) (page : Text) (caplen : ℤ) :
    (s.tcp dir page caplen).map (fun r => r.1.forget) =
      (s.forget.tcp dir page caplen).map Prod.fst := by
  unfold tcp Handler.tcp
  rw [forget_find]
  cases hfind : s.find (halfKey page) with
  | none =>
    simp only [Option.map_some]
    rw [forget_createConnection]
  | some half =>
    have hget : s.forget.conns[half.1]? = s.conns[half.1]?.map TrackedConn.conn :=
      List.getElem?_map
    simp only [hget]
    cases s.conns[half.1]? with
    | none => rfl
    | some c =>
      simp only [Option.map_some]
      cases c.conn.state with
      | syn => exact congrArg some (forget_flowSynState s half.1 c dir page)
      | synAck => exact congrArg some (forget_flowSynAckState s half.1 c dir page)
      | established =>
        simp only [Option.map_map]
        exact forget_flowEstabState s half _ _ _ _ false

end Tracker

/-! ## Runs -/

/-- History: a packet that `tcp` has processed. -/
structure Processed where
  page : Text
  /-- The packet has created its connection. -/
  created : Bool
  /-- The connection behind it, and the side of it that `packet->tcp.half` is. -/
  conn : TrackedConn
  side : Side

structure Tracking where
  tracker : Tracker
  packets : List Processed

/-- What the handler is given: a packet for `tcp`, or what continues the packet before it. The page of
that packet is not the handler's any more, and `pktseq` is what its header is read as by then. -/
inductive Arrival
  | packet (dir : Dir) (page : Text) (caplen : ℤ)
  | rest (pktseq : UInt32) (bytes : Text) (dlen caplen : ℤ)

def Tracking.step (s : Tracking) : Arrival → Option Tracking
  | .packet dir page caplen =>
      if s.tracker.continuation then none
      else do
        let (t, half) ← s.tracker.tcp dir page caplen
        let c ← t.conns[half.1]?
        some ⟨t, s.packets ++ [⟨page, (s.tracker.find (halfKey page)).isNone, c, half.2⟩]⟩
  | .rest pktseq bytes dlen caplen =>
      if s.tracker.continuation then
        (s.tracker.flowEstabState s.tracker.contHalf pktseq bytes dlen caplen).map fun t =>
          { s with tracker := t }
      else none

def tracking : System Tracking Arrival where
  init := ⟨.init, []⟩
  step := Tracking.step

/-! ## Orientation -/

/-- `addr1` and `port1` are the source of the packet. -/
def TcpHalf.IsSource (h : TcpHalf) (page : Text) : Prop :=
  h.key.addr1 = (halfKey page).addr1 ∧ h.key.port1 = (halfKey page).port1

instance (h : TcpHalf) (page : Text) : Decidable (h.IsSource page) :=
  inferInstanceAs (Decidable (_ ∧ _))

/-- The acknowledgement number of a packet, zero if it has none. -/
def ackNumber (page : Text) : UInt32 := if (synAckBits page).2 then thAckSeq page else 0

/-- The half of the sender holds the sequence number of the packet, and the opposite half what the
packet acknowledges. -/
def Processed.Numbered (p : Processed) : Prop :=
  ∃ sender, (∀ side, (p.conn.half side).IsSource p.page ↔ side = sender) ∧
    (p.conn.half sender).seq = thSeq p.page ∧
    (p.conn.half sender.opposite).seq = ackNumber p.page

structure Tracking.Oriented (s : Tracking) : Prop where
  mirrored : ∀ c ∈ s.tracker.conns, c.h2.key = c.h1.key.swapDir
  findable : ∀ (n : ℕ) (c : TrackedConn), s.tracker.conns[n]? = some c → ∀ side,
    s.tracker.find (c.half side).key = some (n, side)
  /-- No other entry has the key of a half. -/
  alone : ∀ (n : ℕ) (c : TrackedConn), s.tracker.conns[n]? = some c → ∀ side,
    s.tracker.halfDict.filter (fun p => p.1 = (c.half side).key) = [((c.half side).key, (n, side))]
  half : ∀ p ∈ s.packets, (p.conn.half p.side).IsSource p.page
  numbers : ∀ p ∈ s.packets, p.created = true → p.Numbered

/-- The packets that may begin a connection. -/
def Orientable (dir : Dir) (page : Text) : Prop :=
  (halfKey page).swapDir ≠ halfKey page ∧
    match synAckBits page with
    | (true, false) => True
    | (true, true) => False
    | (false, true) => dir ≠ .ingress
    | (false, false) => dir ≠ .ingress ∧ thSeq page = 0 ∧ thAckSeq page = 0

/-- A packet of no known half may begin a connection. -/
def Tracking.BeginsWell (s : Tracking) : Arrival → Prop
  | .packet dir page _ => s.tracker.find (halfKey page) = none → Orientable dir page
  | .rest _ _ _ _ => True

end Netp.Parse
