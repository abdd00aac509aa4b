import Netp.Genf.Parse
import Netp.Genf.OutputStream

/-! # The event loop and its packet connections

`pselectLoop` and `selectFdReady` of `genf/select.cc`, the ready functions of `genf/connection.cc` and
the callbacks of `PacketConnection`, for any number of connections. The loop keeps the `SelectFd` of a
connection that has been closed, the connection's own pointer to it is null from then on.

A visit is what the loop does for one descriptor of a round; the descriptors of a round and the order
of the visits are arbitrary, and so is the mask, of which nothing here depends on that `pselect` was
asked for it. Where `dispatchPacket` is called the position of the loop is in the packet handler,
which may send on any connection. What follows `packetClosed` is left out: it is empty, or marks the
connection.
-/

namespace Netp.Genf.Loop
open Netp.Lib Netp.Genf.Out
set_option autoImplicit false

/-- `PacketConnection`. `out.fd` is the `SelectFd` the loop has, `selectFd` that the connection's
pointer to it is not null. -/
structure PacketConnection where
  out : PacketConn
  selectFd : Bool
  recv : Recv
  inp : List UInt8

/-- What `pselect` left in the two sets for a descriptor. -/
structure Mask where
  readReady : Bool
  writeReady : Bool
  deriving DecidableEq, Repr

/-- Between two visits, or in the packet handler called in the visit of a connection. -/
inductive Pos
  | idle
  | handler (i : ℕ) (mask : Mask)

structure State where
  conns : ℕ → Option PacketConnection := fun _ => none
  pos : Pos := .idle

inductive Fault
  /-- The callbacks of a connection that has been closed. -/
  | readReady (i : ℕ)
  | writeReady (i : ℕ)
  /-- `WriteBuffer::send` with a null `selectFd`, in a packet handler or elsewhere. -/
  | handlerSend (i : ℕ)
  | otherSend (i : ℕ)
  /-- A block of negative length. -/
  | blockLength (i : ℕ)
  deriving DecidableEq, Repr

def State.setConn (s : State) (i : ℕ) (c : PacketConnection) : State :=
  { s with conns := Function.update s.conns i (some c) }

/-- `Connection::close`. -/
def PacketConnection.close (c : PacketConnection) : PacketConnection :=
  { c with out := Out.close c.out, selectFd := false }

/-- The write loop of `send` ends in `bufClose`. -/
def sendCloses (blocks : List Out.RopeBlock) (results : List WriteRes) (c : PacketConn) : Bool :=
  !c.fd.wantWriteGet && (writeBlocks blocks results c).ended = .error

def PacketConnection.send (C : ℕ) (blocks : List Out.RopeBlock) (canConsume : Bool)
    (results : List WriteRes) (c : PacketConnection) : PacketConnection :=
  { c with
    out := Out.send C (Out.Rope.ofBlocks blocks) canConsume results c.out
    selectFd := c.selectFd && !sendCloses blocks results c.out }

/-- The write loop of `writeReady` ends in `bufClose`. -/
def writeReadyCloses (results : List WriteRes) (c : PacketConn) : Bool :=
  c.queue.ropeLen ≠ 0 && (writeBlocks c.queue.blocks results c).ended = .error

def PacketConnection.writeReady (results : List WriteRes) (c : PacketConnection) : PacketConnection :=
  { c with
    out := Out.writeReady results c.out
    selectFd := c.selectFd && !writeReadyCloses results c.out }

/-- The flag that the reads of the TLS layer leave. -/
def readFlag (wantsWrite : Bool) (c : PacketConn) : PacketConn :=
  if c.tlsConnect then tlsRead wantsWrite c else c

/-- What happens in a visit: the results of the reads and of the writes, whether the last read wants
to write first, the outcome of a connect and of a handshake. -/
structure Inputs where
  reads : List ReadResult
  readWantsWrite : Bool
  writes : List WriteRes
  connected : Bool
  handshake : Handshake

/-- The test before `readReady` in `connEstablishedReady` and `connTlsEstablishedReady`. -/
def readDue (mask : Mask) (fd : SelectFd) : Bool :=
  match fd.state with
  | .established => mask.readReady
  | .tlsEstablished => fd.tlsWantRead
  | _ => false

/-- The test before `writeReady`. -/
def writeDue (mask : Mask) (fd : SelectFd) : Bool :=
  match fd.state with
  | .established => mask.writeReady && fd.wantWrite
  | .tlsEstablished => fd.tlsWantWrite
  | _ => false

/-- The second half of a visit. -/
def visitWrite (s : State) (i : ℕ) (mask : Mask) (writes : List WriteRes) : Except Fault State :=
  match s.conns i with
  | none => .ok { s with pos := .idle }
  | some c =>
    if writeDue mask c.out.fd then
      if c.selectFd then .ok { s.setConn i (c.writeReady writes) with pos := .idle }
      else .error (.writeReady i)
    else .ok { s with pos := .idle }

/-- `readReady`, that is `parsePacket`, and what follows. The rope in `recv` is emptied after the
handler; nothing looks at it in between. -/
def visitRead (s : State) (i : ℕ) (mask : Mask) (inputs : Inputs) (c : PacketConnection) :
    Except Fault State :=
  if c.selectFd then
    match parsePacket inputs.reads c.recv c.inp with
    | (.wait recv, inp) =>
      visitWrite (s.setConn i ⟨readFlag inputs.readWantsWrite c.out, c.selectFd, recv, inp⟩) i mask
        inputs.writes
    | (.closed, inp) =>
      visitWrite (s.setConn i (PacketConnection.close ⟨readFlag false c.out, c.selectFd, c.recv, inp⟩))
        i mask inputs.writes
    | (.dispatch recv, inp) =>
      .ok { s.setConn i ⟨readFlag false c.out, c.selectFd,
        { recv with buf := { recv.buf with blocks := [] } }, inp⟩ with pos := .handler i mask }
    | (.fault, _) => .error (.blockLength i)
  else .error (.readReady i)

/-- `selectFdReady` for a connection. -/
def selectFdReady (s : State) (i : ℕ) (mask : Mask) (inputs : Inputs) (c : PacketConnection) :
    Except Fault State :=
  match c.out.fd.state with
  | .connect =>
    if mask.writeReady then
      let out := connConnectReady inputs.connected c.out
      .ok (s.setConn i { c with out := out, selectFd := c.selectFd && inputs.connected })
    else .ok s
  | .tlsAccept => .ok (s.setConn i { c with out := connTlsAcceptReady inputs.handshake c.out })
  | .tlsConnect =>
    .ok (s.setConn i { c with
      out := connTlsConnectReady inputs.handshake c.out
      selectFd := c.selectFd && inputs.handshake ≠ .success false })
  | _ =>
    if readDue mask c.out.fd then visitRead s i mask inputs c
    else visitWrite s i mask inputs.writes

inductive Act
  /-- A new connection, connecting or accepted. -/
  | start (i : ℕ) (how : Start) (headBuf : Mem Unit) (mem : Mem ℕ) (need : ℤ)
  | arrive (i : ℕ) (bytes : List UInt8)
  | visit (i : ℕ) (mask : Mask) (inputs : Inputs)
  | handlerSend (i : ℕ) (blocks : List Out.RopeBlock) (canConsume : Bool) (results : List WriteRes)
  | handlerReturn (writes : List WriteRes)
  /-- A `send` from a timer or a message between the visits. -/
  | otherSend (i : ℕ) (blocks : List Out.RopeBlock) (canConsume : Bool) (results : List WriteRes)

def newConnection (how : Start) (headBuf : Mem Unit) (mem : Mem ℕ) (need : ℤ) : PacketConnection :=
  ⟨Out.start how, true, ⟨.wantHead, headBuf, ⟨[], mem⟩, 0, need⟩, []⟩

/-- One act. What cannot happen at the position the loop is in changes nothing. -/
def step (C : ℕ) (s : State) : Act → Except Fault State
  | .start i how headBuf mem need =>
    match s.conns i with
    | some _ => .ok s
    | none => .ok (s.setConn i (newConnection how headBuf mem need))
  | .arrive i bytes =>
    match s.conns i with
    | none => .ok s
    | some c => .ok (s.setConn i { c with inp := c.inp ++ bytes })
  | .visit i mask inputs =>
    match s.pos, s.conns i with
    | .idle, some c =>
      -- the loop skips closed descriptors, and those in neither set
      if c.out.fd.closed || !(mask.readReady || mask.writeReady) then .ok s
      else selectFdReady s i mask inputs c
    | _, _ => .ok s
  | .handlerSend i blocks canConsume results =>
    match s.pos, s.conns i with
    | .handler _ _, some c =>
      if c.selectFd then .ok (s.setConn i (c.send C blocks canConsume results))
      else .error (.handlerSend i)
    | _, _ => .ok s
  | .handlerReturn writes =>
    match s.pos with
    | .idle => .ok s
    | .handler i mask => visitWrite s i mask writes
  | .otherSend i blocks canConsume results =>
    match s.pos, s.conns i with
    | .idle, some c =>
      if c.selectFd then .ok (s.setConn i (c.send C blocks canConsume results))
      else .error (.otherSend i)
    | _, _ => .ok s

def exec (C : ℕ) (s : State) (acts : List Act) : Except Fault State := acts.foldlM (step C) s

/-- The faults of the ready handlers: a callback on a closed connection, or a `WriteBuffer` entered
with a null `selectFd`. -/
def Fault.OfReady : Fault → Prop
  | .readReady _ | .writeReady _ | .handlerSend _ => True
  | .otherSend _ | .blockLength _ => False

/-- What the ready handlers rely on. Where a visit is due to read and to write, the reads meet no end
of file and no error; and a packet handler sends on no connection that has been closed. -/
def Safe (s : State) : Act → Prop
  | .visit i mask inputs => ∀ c, s.pos = .idle → s.conns i = some c → c.out.fd.closed = false →
      (mask.readReady || mask.writeReady) = true → readDue mask c.out.fd = true →
      writeDue mask c.out.fd = true → (parsePacket inputs.reads c.recv c.inp).1 ≠ .closed
  | .handlerSend j _ _ _ => ∀ i mask c, s.pos = .handler i mask → s.conns j = some c →
      c.selectFd = true
  | _ => True

/-! ## The invariant -/

/-- A connection's pointer is null exactly if its descriptor is closed. -/
structure Kept (c : PacketConnection) : Prop where
  pointer : c.selectFd = !c.out.fd.closed
  flushed : c.out.closeOnFlushed = false
  out : Out.Inv c.out

structure Inv (s : State) : Prop where
  kept : ∀ {i c}, s.conns i = some c → Kept c
  /-- A handler closes the connection it was called for only where no write is due after it. -/
  handler : ∀ {i mask c}, s.pos = .handler i mask → s.conns i = some c →
    c.selectFd = true ∨ writeDue mask c.out.fd = false

variable {C i j : ℕ} {s s' : State} {c c' : PacketConnection} {mask : Mask} {inputs : Inputs}
  {results : List WriteRes} {blocks : List Out.RopeBlock} {canConsume : Bool}

theorem Kept.close (h : Kept c) : Kept c.close := ⟨rfl, h.flushed, h.out.close⟩

theorem readFlag_spec (b : Bool) (o : PacketConn) : (readFlag b o).closeOnFlushed = o.closeOnFlushed ∧
    (readFlag b o).queue = o.queue ∧
    ∃ b', (readFlag b o).fd = { o.fd with tlsReadWantsWrite := b' } := by
  unfold readFlag
  split
  · exact ⟨rfl, rfl, b, rfl⟩
  · exact ⟨rfl, rfl, o.fd.tlsReadWantsWrite, rfl⟩

theorem Kept.read (h : Kept c) (b : Bool) (recv : Recv) (inp : List UInt8) :
    Kept ⟨readFlag b c.out, c.selectFd, recv, inp⟩ := by
  obtain ⟨hflush, hq, b', hfd⟩ := readFlag_spec b c.out
  refine ⟨?_, hflush.trans h.flushed, ?_⟩
  · rw [hfd]
    exact h.pointer
  · refine h.out.of_same (by rw [hq]; exact h.out.sound) ?_ ?_ ?_ <;> simp [hfd]

theorem writeDue_read (b : Bool) : writeDue mask (readFlag b c.out).fd = writeDue mask c.out.fd := by
  obtain ⟨-, -, b', hfd⟩ := readFlag_spec b c.out
  rw [hfd]
  rfl

theorem writeBlocks_fd (bs : List Out.RopeBlock) (results : List WriteRes) (o : PacketConn) :
    (∃ b, (writeBlocks bs results o).conn.fd = { o.fd with tlsWriteWantsRead := b }) ∧
      (writeBlocks bs results o).conn.closeOnFlushed = o.closeOnFlushed := by
  obtain ⟨ws, hstep, -⟩ := (writeBlocks_spec bs results o).step
  exact ⟨hstep.fd, hstep.rest.2.2.1⟩

/-- What a call of the write buffer does to the descriptor: it is closed if `b`, with the flags as
they were. -/
structure FdStep (o o' : PacketConn) (b : Bool) : Prop where
  flushed : o'.closeOnFlushed = o.closeOnFlushed
  closed : o'.fd.closed = (o.fd.closed || b)
  due : b = true → ∀ mask, writeDue mask o'.fd = writeDue mask o.fd

theorem wantWriteSet_closed (fd : SelectFd) (v : Bool) : (fd.wantWriteSet v).closed = fd.closed := by
  unfold SelectFd.wantWriteSet
  split <;> rfl

/-- How a write goes depends on the connection only by its being TLS or not. -/
theorem bufWrite_congr {o o' : PacketConn} (h : o.tlsConnect = o'.tlsConnect) (data : List UInt8)
    (res : WriteRes) : (bufWrite o data res).2 = (bufWrite o' data res).2 ∧
      (bufWrite o data res).1.tlsConnect = (bufWrite o' data res).1.tlsConnect := by
  unfold bufWrite
  rw [← h]
  split
  · split
    · exact ⟨rfl, h⟩
    · cases res <;> exact ⟨rfl, rfl⟩
  · cases res
    · exact ⟨rfl, rfl⟩
    · exact ⟨rfl, h⟩
    · exact ⟨rfl, h⟩

theorem writeBlocks_ended (o o' : PacketConn) (h : o.tlsConnect = o'.tlsConnect)
    (bs : List Out.RopeBlock) (results : List WriteRes) :
    (writeBlocks bs results o).ended = (writeBlocks bs results o').ended := by
  induction bs generalizing results o o' with
  | nil => rfl
  | cons rb rest ih =>
    obtain ⟨hres, htls⟩ := bufWrite_congr h rb.data (results.headD (.wrote 0))
    unfold writeBlocks
    cases hw : bufWrite o rb.data (results.headD (.wrote 0)) with
    | mk o1 r =>
      cases hw' : bufWrite o' rb.data (results.headD (.wrote 0)) with
      | mk o1' r' =>
        rw [hw, hw'] at hres htls
        dsimp only at hres htls
        subst hres
        cases r with
        | none => rfl
        | some n =>
          dsimp only
          split
          · rfl
          · exact ih _ _ htls _

theorem send_fdStep (C : ℕ) (blocks : List Out.RopeBlock) (canConsume : Bool)
    (results : List WriteRes) (o : PacketConn) :
    FdStep o (Out.send C (Out.Rope.ofBlocks blocks) canConsume results o)
      (sendCloses blocks results o) := by
  unfold Out.send sendCloses
  cases hw : o.fd.wantWriteGet with
  | true =>
    simp only [hw, if_true]
    exact ⟨rfl, by simp, by simp⟩
  | false =>
    simp only [hw, Bool.false_eq_true, if_false, Bool.not_false, Bool.true_and]
    have hended := writeBlocks_ended
      { o with sent := o.sent ++ (Out.Rope.ofBlocks blocks).bytes } o rfl blocks results
    obtain ⟨⟨b, hfd⟩, hflush⟩ := writeBlocks_fd blocks results
      { o with sent := o.sent ++ (Out.Rope.ofBlocks blocks).bytes }
    rw [← hended, show (Out.Rope.ofBlocks blocks).blocks = blocks from rfl]
    cases hl : (writeBlocks blocks results
        { o with sent := o.sent ++ (Out.Rope.ofBlocks blocks).bytes }).ended with
    | all => exact ⟨hflush, by simp [hfd], by simp⟩
    | error => exact ⟨hflush, by simp [Out.close], fun _ mask => by simp [Out.close, hfd, writeDue]⟩
    | short =>
      exact ⟨hflush, (wantWriteSet_closed _ true).trans (by simp [hfd]), by simp⟩

theorem writeReady_fdStep (o : PacketConn) (hflush : o.closeOnFlushed = false) :
    FdStep o (Out.writeReady results o) (writeReadyCloses results o) := by
  unfold Out.writeReady writeReadyCloses
  split
  · next hq => exact ⟨rfl, (wantWriteSet_closed o.fd false).trans (by simp [hq]), by simp [hq]⟩
  · next hq =>
    obtain ⟨⟨b, hfd⟩, hfl⟩ := writeBlocks_fd o.queue.blocks results o
    cases hl : (writeBlocks o.queue.blocks results o).ended with
    | all =>
      have hopen : (writeBlocks o.queue.blocks results o).conn.closeOnFlushed = false := by
        rw [hfl, hflush]
      simp only [hl, hopen, Bool.false_eq_true, if_false]
      exact ⟨hflush.symm, by simp [hfd], by simp⟩
    | error =>
      simp only [hl]
      exact ⟨hfl, by simp [Out.close, hq], fun _ mask => by simp [Out.close, hfd, writeDue]⟩
    | short =>
      simp only [hl]
      exact ⟨hfl, by simp [hfd], by simp⟩

theorem Kept.fdStep (h : Kept c) {out : PacketConn} {b : Bool} (hs : FdStep c.out out b)
    (hinv : Out.Inv out) : Kept { c with out := out, selectFd := c.selectFd && !b } := by
  refine ⟨?_, hs.flushed.trans h.flushed, hinv⟩
  rw [hs.closed, h.pointer, Bool.not_or]

theorem Kept.send (h : Kept c) : Kept (c.send C blocks canConsume results) :=
  h.fdStep (send_fdStep C blocks canConsume results c.out) (inv_send h.out (ofBlocks_sound blocks))

theorem Kept.writeReady (h : Kept c) : Kept (c.writeReady results) :=
  h.fdStep (writeReady_fdStep c.out h.flushed) (inv_writeReady h.out)

theorem Kept.start (how : Start) (headBuf : Mem Unit) (mem : Mem ℕ) (need : ℤ) :
    Kept (newConnection how headBuf mem need) := by
  refine ⟨?_, ?_, (inv_start how).1⟩
  · rcases how with tls | tls <;> cases tls <;> rfl
  · rcases how with tls | tls <;> cases tls <;> rfl

theorem Kept.connect (h : Kept c) (hstate : c.out.fd.state = .connect) (connected : Bool) :
    Kept { c with
      out := connConnectReady connected c.out
      selectFd := c.selectFd && connected } := by
  refine ⟨?_, ?_, inv_connect h.out hstate⟩
  · cases connected with
    | false => simp [connConnectReady, Out.close]
    | true =>
      simp only [connConnectReady, if_true, Bool.and_true]
      split <;> exact h.pointer
  · unfold connConnectReady
    dsimp only
    split
    · split <;> exact h.flushed
    · exact h.flushed

theorem Kept.tlsAccept (h : Kept c) (handshake : Handshake) :
    Kept { c with out := connTlsAcceptReady handshake c.out } := by
  refine ⟨?_, ?_, inv_tlsAccept h.out⟩
  · cases handshake <;> exact h.pointer
  · cases handshake <;> exact h.flushed

theorem Kept.tlsConnect (h : Kept c) (handshake : Handshake) :
    Kept { c with
      out := connTlsConnectReady handshake c.out
      selectFd := c.selectFd && handshake ≠ .success false } := by
  refine ⟨?_, ?_, inv_tlsConnect h.out⟩
  · cases handshake with
    | success verified =>
      cases verified with
      | true => simpa [connTlsConnectReady] using h.pointer
      | false => simp [connTlsConnectReady, Out.close]
    | wantRead => simpa [connTlsConnectReady, prepNextRound] using h.pointer
    | wantWrite => simpa [connTlsConnectReady, prepNextRound] using h.pointer
    | error => simpa [connTlsConnectReady, prepNextRound] using h.pointer
  · rcases handshake with verified | _ | _ | _
    · cases verified <;> exact h.flushed
    · exact h.flushed
    · exact h.flushed
    · exact h.flushed

/-! ## Steps -/

theorem Inv.setConn (h : Inv s) (hc : Kept c) (hpos : s'.pos = .idle)
    (hconns : s'.conns = Function.update s.conns i (some c)) : Inv s' where
  kept := by
    intro j d hd
    rw [hconns] at hd
    by_cases hj : j = i
    · subst hj
      rw [Function.update_self] at hd
      exact Option.some.inj hd ▸ hc
    · rw [Function.update_of_ne hj] at hd
      exact h.kept hd
  handler := by
    intro j m d hp
    rw [hpos] at hp
    cases hp

theorem Inv.setInHandler (h : Inv s) (hc : Kept c)
    (hdue : ∀ mask, s.pos = .handler i mask → c.selectFd = true ∨ writeDue mask c.out.fd = false) :
    Inv (s.setConn i c) where
  kept := by
    intro j d hd
    by_cases hj : j = i
    · subst hj
      simp only [State.setConn, Function.update_self] at hd
      exact Option.some.inj hd ▸ hc
    · simp only [State.setConn, Function.update_of_ne hj] at hd
      exact h.kept hd
  handler := by
    intro j mask d hp hd
    by_cases hj : j = i
    · subst hj
      simp only [State.setConn, Function.update_self] at hd
      exact Option.some.inj hd ▸ hdue mask hp
    · simp only [State.setConn, Function.update_of_ne hj] at hd
      exact h.handler hp hd

theorem visitWrite_keeps (h : Inv s) (hs : visitWrite s i mask results = .ok s') : Inv s' := by
  unfold visitWrite at hs
  split at hs
  · cases hs
    exact ⟨h.kept, by simp⟩
  · next c hc =>
    split_ifs at hs
    · cases hs
      exact h.setConn (h.kept hc).writeReady rfl rfl
    · cases hs
      exact ⟨h.kept, by simp⟩

theorem visitWrite_fault : (∃ e, e.OfReady ∧ visitWrite s i mask results = .error e) ↔
    ∃ c, s.conns i = some c ∧ writeDue mask c.out.fd = true ∧ c.selectFd = false := by
  unfold visitWrite
  cases hc : s.conns i with
  | none => simp
  | some c =>
    dsimp only
    split_ifs with hdue hptr
    · simp [hptr]
    · simp [hdue, hptr, Fault.OfReady]
    · simp [hdue]

/-- In the second half of a visit with no call of `close` before it nothing goes wrong. -/
theorem visitWrite_attached (s : State) (i : ℕ) (mask : Mask) (writes : List WriteRes)
    (hc : s.conns i = some c) (hptr : c.selectFd = true) :
    ¬ ∃ e, e.OfReady ∧ visitWrite s i mask writes = .error e := by
  rw [visitWrite_fault]
  rintro ⟨d, hd, -, hfalse⟩
  rw [hc] at hd
  cases hd
  rw [hptr] at hfalse
  cases hfalse

theorem setConn_self (s : State) (i : ℕ) (c : PacketConnection) : (s.setConn i c).conns i = some c :=
  Function.update_self ..

theorem visitRead_keeps (h : Inv s) (hpos : s.pos = .idle) (hc : s.conns i = some c)
    (hs : visitRead s i mask inputs c = .ok s') : Inv s' := by
  have hk := h.kept hc
  unfold visitRead at hs
  split at hs
  · next hptr =>
    split at hs
    · refine visitWrite_keeps (h.setInHandler (hk.read _ _ _) ?_) hs
      intro m hp
      rw [hpos] at hp
      cases hp
    · refine visitWrite_keeps (h.setInHandler (hk.read _ _ _).close ?_) hs
      intro m hp
      rw [hpos] at hp
      cases hp
    · next recv inp heq =>
      cases hs
      refine ⟨(h.setInHandler (hk.read false _ inp) ?_).kept, ?_⟩
      · intro m hp
        rw [hpos] at hp
        cases hp
      · intro j m d hp hd
        cases hp
        rw [show _ = some _ from setConn_self s i _] at hd
        cases hd
        exact .inl hptr
    · cases hs
  · cases hs

theorem visitRead_fault (hptr : c.selectFd = true) :
    (∃ e, e.OfReady ∧ visitRead s i mask inputs c = .error e) ↔
      writeDue mask c.out.fd = true ∧ (parsePacket inputs.reads c.recv c.inp).1 = .closed := by
  unfold visitRead
  rw [if_pos hptr]
  generalize parsePacket inputs.reads c.recv c.inp = parsed
  obtain ⟨outcome, inp⟩ := parsed
  cases outcome with
  | wait recv =>
    dsimp only
    have hno := visitWrite_attached _ i mask inputs.writes
      (setConn_self s i ⟨readFlag inputs.readWantsWrite c.out, c.selectFd, recv, inp⟩) hptr
    simp [hno]
  | closed =>
    dsimp only
    rw [visitWrite_fault, setConn_self]
    constructor
    · rintro ⟨d, hd, hdue, -⟩
      cases hd
      exact ⟨(writeDue_read false).symm.trans hdue, rfl⟩
    · rintro ⟨hdue, -⟩
      exact ⟨_, rfl, (writeDue_read false).trans hdue, rfl⟩
  | dispatch recv => simp
  | fault => simp [Fault.OfReady]

theorem selectFdReady_keeps (h : Inv s) (hpos : s.pos = .idle) (hc : s.conns i = some c)
    (hs : selectFdReady s i mask inputs c = .ok s') : Inv s' := by
  have hk := h.kept hc
  unfold selectFdReady at hs
  split at hs
  · next hstate =>
    split_ifs at hs
    · cases hs
      exact h.setConn (hk.connect hstate _) hpos rfl
    · cases hs
      exact h
  · cases hs
    exact h.setConn (hk.tlsAccept _) hpos rfl
  · cases hs
    exact h.setConn (hk.tlsConnect _) hpos rfl
  · split_ifs at hs
    · exact visitRead_keeps h hpos hc hs
    · exact visitWrite_keeps h hs

theorem selectFdReady_fault (hc : s.conns i = some c) (hptr : c.selectFd = true) :
    (∃ e, e.OfReady ∧ selectFdReady s i mask inputs c = .error e) ↔
      readDue mask c.out.fd = true ∧ writeDue mask c.out.fd = true ∧
        (parsePacket inputs.reads c.recv c.inp).1 = .closed := by
  have hrest : (∃ e, e.OfReady ∧ (if readDue mask c.out.fd then visitRead s i mask inputs c
      else visitWrite s i mask inputs.writes) = .error e) ↔ readDue mask c.out.fd = true ∧
        writeDue mask c.out.fd = true ∧ (parsePacket inputs.reads c.recv c.inp).1 = .closed := by
    split_ifs with hread
    · rw [visitRead_fault hptr]
      simp only [hread, true_and]
    · have hno := visitWrite_attached s i mask inputs.writes hc hptr
      simp only [hno, hread, Bool.false_eq_true, false_and]
  cases hstate : c.out.fd.state with
  | connect =>
    have hread : readDue mask c.out.fd = false := by simp [readDue, hstate]
    simp only [selectFdReady, hstate, hread]
    split_ifs <;> simp
  | tlsAccept =>
    have hread : readDue mask c.out.fd = false := by simp [readDue, hstate]
    simp only [selectFdReady, hstate, hread]
    simp
  | tlsConnect =>
    have hread : readDue mask c.out.fd = false := by simp [readDue, hstate]
    simp only [selectFdReady, hstate, hread]
    simp
  | tlsEstablished =>
    simp only [selectFdReady, hstate]
    exact hrest
  | established =>
    simp only [selectFdReady, hstate]
    exact hrest

/-- A write loop of `send` fails only where the descriptor wanted no write. -/
theorem sendCloses_due (h : Out.Inv c.out) (hcl : sendCloses blocks results c.out = true) :
    writeDue mask c.out.fd = false := by
  unfold sendCloses at hcl
  rw [Bool.and_eq_true, Bool.not_eq_true'] at hcl
  have hwant := hcl.1
  unfold SelectFd.wantWriteGet at hwant
  unfold writeDue
  split
  · next hstate =>
    have hplain : c.out.fd.tlsEstablished = false := not_established h (by simp [hstate])
    rw [hplain] at hwant
    simp only [Bool.not_false, if_true] at hwant
    rw [hwant, Bool.and_false]
  · next hstate =>
    have htls : c.out.fd.tlsEstablished = true := h.established.mpr hstate
    rw [htls] at hwant
    simp only [Bool.not_true, Bool.false_eq_true, if_false, Bool.or_eq_false_iff] at hwant
    exact hwant.1
  · rfl

theorem step_keeps {a : Act} (h : Inv s) (hs : step C s a = .ok s') : Inv s' := by
  cases a with
  | start i how headBuf mem need =>
    simp only [step] at hs
    split at hs
    · cases hs
      exact h
    · next hnone =>
      cases hs
      exact h.setInHandler (.start how headBuf mem need) fun _ _ => .inl rfl
  | arrive i bytes =>
    simp only [step] at hs
    split at hs
    · cases hs
      exact h
    · next c hc =>
      cases hs
      have hk := h.kept hc
      have hdue := fun m (hp : s.pos = .handler i m) => h.handler hp hc
      exact h.setInHandler ⟨hk.pointer, hk.flushed, hk.out⟩ hdue
  | visit i mask inputs =>
    simp only [step] at hs
    split at hs
    · next c hpos hc =>
      split_ifs at hs
      · cases hs
        exact h
      · exact selectFdReady_keeps h hpos hc hs
    · cases hs
      exact h
  | handlerSend j blocks canConsume results =>
    simp only [step] at hs
    split at hs
    · next i mask c hpos hc =>
      split_ifs at hs with hptr
      cases hs
      have hk := h.kept hc
      refine h.setInHandler hk.send ?_
      intro m hp
      cases hcl : sendCloses blocks results c.out with
      | true =>
        refine .inr ?_
        have hdue := (send_fdStep C blocks canConsume results c.out).due hcl m
        exact hdue.trans (sendCloses_due hk.out hcl)
      | false => exact .inl (by simp [PacketConnection.send, hptr, hcl])
    · cases hs
      exact h
  | handlerReturn writes =>
    simp only [step] at hs
    split at hs
    · cases hs
      exact h
    · exact visitWrite_keeps h hs
  | otherSend j blocks canConsume results =>
    simp only [step] at hs
    split at hs
    · next c hpos hc =>
      split_ifs at hs with hptr
      cases hs
      exact h.setConn (h.kept hc).send hpos rfl
    · cases hs
      exact h

theorem step_fault (h : Inv s) (a : Act) :
    (∃ e, e.OfReady ∧ step C s a = .error e) ↔ ¬ Safe s a := by
  cases a with
  | start i how headBuf mem need =>
    simp only [step, Safe]
    split <;> simp
  | arrive i bytes =>
    simp only [step, Safe]
    split <;> simp
  | visit i mask inputs =>
    simp only [step, Safe]
    split
    · next c hpos hc =>
      split_ifs with hskip
      · rw [Bool.or_eq_true, Bool.not_eq_true'] at hskip
        constructor
        · rintro ⟨e, -, he⟩
          cases he
        · intro hun
          refine absurd ?_ hun
          intro d _ hd hopen hready
          rw [hc] at hd
          cases hd
          rcases hskip with hclosed | hnone
          · rw [hopen] at hclosed
            cases hclosed
          · rw [hready] at hnone
            cases hnone
      · rw [Bool.not_eq_true, Bool.or_eq_false_iff, Bool.not_eq_false'] at hskip
        have hptr : c.selectFd = true := by rw [(h.kept hc).pointer, hskip.1]; rfl
        rw [selectFdReady_fault hc hptr]
        constructor
        · rintro ⟨hread, hwrite, hclosed⟩ hsafe
          exact hsafe c hpos hc hskip.1 hskip.2 hread hwrite hclosed
        · intro hun
          push Not at hun
          obtain ⟨d, -, hd, -, -, hread, hwrite, hclosed⟩ := hun
          rw [hc] at hd
          cases hd
          exact ⟨hread, hwrite, hclosed⟩
    · next hne =>
      constructor
      · rintro ⟨e, -, he⟩
        cases he
      · intro hun
        refine absurd ?_ hun
        intro c hpos hc
        exact (hne c hpos hc).elim
  | handlerSend j blocks canConsume results =>
    simp only [step, Safe]
    split
    · next i mask c hpos hc =>
      split_ifs with hptr
      · simp [hpos, hc, hptr]
      · simp [hpos, hc, hptr, Fault.OfReady]
    · next hne =>
      constructor
      · rintro ⟨e, -, he⟩
        cases he
      · intro hun
        refine absurd ?_ hun
        intro i mask c hpos hc
        exact (hne i mask c hpos hc).elim
  | handlerReturn writes =>
    simp only [step, Safe, not_true, iff_false]
    split
    · rintro ⟨e, -, he⟩
      cases he
    · next i mask hpos =>
      rw [visitWrite_fault]
      rintro ⟨c, hc, hdue, hptr⟩
      rcases h.handler hpos hc with htrue | hfalse
      · rw [hptr] at htrue
        cases htrue
      · rw [hdue] at hfalse
        cases hfalse
  | otherSend j blocks canConsume results =>
    simp only [step, Safe]
    split
    · split_ifs <;> simp [Fault.OfReady]
    · simp

/-- The ready handlers call back a closed connection, or enter a `WriteBuffer` with a null `selectFd`,
in exactly the sequences that have a step which is not safe. -/
theorem no_callback_after_close (C : ℕ) (acts : List Act) :
    (∀ e : Fault, e.OfReady → exec C {} acts ≠ .error e) ↔
      ∀ pre a post s, acts = pre ++ a :: post → exec C {} pre = .ok s → Safe s a := by
  have h0 : Inv {} := by
    constructor
    · intro i c hc
      cases hc
    · intro i mask c hp
      cases hp
  have hiff := foldlM_fault_iff (f := step C) (fun s a s' h hs => step_keeps h hs)
    (fun s a h => step_fault h a) acts {} h0
  have hnot := not_congr hiff
  push Not at hnot
  exact hnot

/-- Output is queued on an accepted connection, and then it is ready for both: the read meets the end
of the file. -/
theorem callback_after_close :
    exec 16 {} [.start 0 (.accept false) (fun _ _ => 0) (fun _ _ => 0) 0,
      .otherSend 0 [⟨[1], 15⟩] false [.wrote 0],
      .visit 0 ⟨true, true⟩ ⟨[.eof], false, [], false, .error⟩] = .error (.writeReady 0) := by
  rfl

end Netp.Genf.Loop
