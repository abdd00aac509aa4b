import Netp.Genf.WriteBuffer

/-! # The output byte stream of a connection

`Good`: the bytes written and those queued are the bytes sent, in order, and while there are queued
bytes the flag is on that makes the event loop call `writeReady`. Some steps turn that flag off, or
queue without turning it on, whatever is in the queue; a step keeps `Good` exactly if it is none of
them (`good_step_iff`).
-/

namespace Netp.Genf.Out
open Netp.Lib
set_option autoImplicit false

/-! ## Ropes -/

/-- The recorded length is the number of bytes. -/
def Rope.Sound (r : Rope) : Prop := r.ropeLen = r.bytes.length

theorem appendData_bytes (C : ℕ) (r : Rope) (data : List UInt8) :
    (r.appendData C data).bytes = r.bytes ++ data := by
  obtain ⟨blocks, n⟩ := r
  unfold Rope.appendData
  rcases List.eq_nil_or_concat blocks with rfl | ⟨bs, t, rfl⟩
  · simp [Rope.bytes]
  · rw [List.concat_eq_append, List.getLast?_append]
    simp only [List.getLast?_singleton, Option.some_or]
    split
    · simp [Rope.bytes]
    · simp [Rope.bytes]

theorem appendData_len (C : ℕ) (r : Rope) (data : List UInt8) :
    (r.appendData C data).ropeLen = r.ropeLen + data.length := by
  unfold Rope.appendData
  split
  · split
    · rfl
    · rfl
  · rfl

theorem foldl_appendData (C : ℕ) (bs : List RopeBlock) (q : Rope) :
    (bs.foldl (fun q rb => q.appendData C rb.data) q).bytes =
      q.bytes ++ (bs.map RopeBlock.data).flatten ∧
    (bs.foldl (fun q rb => q.appendData C rb.data) q).ropeLen =
      q.ropeLen + ((bs.map RopeBlock.data).flatten).length := by
  induction bs generalizing q with
  | nil => simp
  | cons b bs ih =>
    obtain ⟨h1, h2⟩ := ih (q.appendData C b.data)
    rw [List.foldl_cons, h1, h2, appendData_bytes, appendData_len]
    simp [Nat.add_assoc]

theorem queueRest_bytes (C : ℕ) (canConsume : Bool) (q r : Rope) :
    (queueRest C canConsume q r).bytes = q.bytes ++ r.bytes := by
  unfold queueRest
  split
  · simp [Rope.appendRope, Rope.bytes]
  · exact (foldl_appendData C r.blocks q).1

theorem queueRest_sound (C : ℕ) (canConsume : Bool) {q r : Rope} (hq : q.Sound) (hr : r.Sound) :
    (queueRest C canConsume q r).Sound := by
  unfold Rope.Sound at *
  rw [queueRest_bytes, List.length_append, ← hq, ← hr]
  unfold queueRest
  split
  · rfl
  · rw [(foldl_appendData C r.blocks q).2, hr]
    rfl

theorem ofBlocks_sound (bs : List RopeBlock) : (Rope.ofBlocks bs).Sound := rfl

/-! ## Writing -/

/-- All that a write changes is what is written and a flag. -/
structure WriteStep (c c' : PacketConn) (bs : List UInt8) : Prop where
  written : c'.written = c.written ++ bs
  fd : ∃ b, c'.fd = { c.fd with tlsWriteWantsRead := b }
  rest : c'.tlsConnect = c.tlsConnect ∧ c'.queue = c.queue ∧
    c'.closeOnFlushed = c.closeOnFlushed ∧ c'.sent = c.sent

theorem WriteStep.refl (c : PacketConn) : WriteStep c c [] :=
  ⟨(List.append_nil _).symm, ⟨c.fd.tlsWriteWantsRead, rfl⟩, rfl, rfl, rfl, rfl⟩

theorem WriteStep.trans {c c' c'' : PacketConn} {bs bs' : List UInt8} (h : WriteStep c c' bs)
    (h' : WriteStep c' c'' bs') : WriteStep c c'' (bs ++ bs') := by
  obtain ⟨h1, ⟨b, h2⟩, h3, h4, h5, h6⟩ := h
  obtain ⟨h1', ⟨b', h2'⟩, h3', h4', h5', h6'⟩ := h'
  refine ⟨by rw [h1', h1, List.append_assoc], ⟨b', by rw [h2', h2]⟩, h3'.trans h3, h4'.trans h4,
    h5'.trans h5, h6'.trans h6⟩

/-- A write took the first bytes. -/
def Wrote (c : PacketConn) (data : List UInt8) : PacketConn × Option ℕ → Prop
  | (c', some n) => n ≤ data.length ∧ WriteStep c c' (data.take n)
  | (c', none) => WriteStep c c' []

theorem bufWrite_spec (c : PacketConn) (data : List UInt8) (res : WriteRes) :
    Wrote c data (bufWrite c data res) := by
  have hmin : ∀ k, data.take k = data.take (min k data.length) := by
    intro k
    rcases Nat.le_total k data.length with hk | hk
    · rw [Nat.min_eq_left hk]
    · rw [Nat.min_eq_right hk, List.take_length, List.take_of_length_le hk]
  unfold bufWrite
  split
  · split
    · exact ⟨Nat.zero_le _, .refl c⟩
    · cases res with
      | wrote k =>
        refine ⟨Nat.min_le_right _ _, ?_, ⟨false, rfl⟩, rfl, rfl, rfl, rfl⟩
        rw [← hmin]
      | wantsRead =>
        refine ⟨Nat.zero_le _, (List.append_nil _).symm, ⟨true, rfl⟩, rfl, rfl, rfl, rfl⟩
      | error => exact ⟨(List.append_nil _).symm, ⟨false, rfl⟩, rfl, rfl, rfl, rfl⟩
  · cases res with
    | wrote k =>
      refine ⟨Nat.min_le_right _ _, ?_, ⟨c.fd.tlsWriteWantsRead, rfl⟩, rfl, rfl, rfl, rfl⟩
      rw [← hmin]
    | wantsRead => exact ⟨Nat.zero_le _, .refl c⟩
    | error => exact .refl c

/-- A write loop writes a first part of the blocks and leaves the rest. -/
structure LoopSpec (bs : List RopeBlock) (c : PacketConn) (l : Looped) : Prop where
  step : ∃ ws, WriteStep c l.conn ws ∧ ws ++ (l.rest.map RopeBlock.data).flatten =
    (bs.map RopeBlock.data).flatten ∧ l.count = ws.length
  all : l.ended = .all → l.rest = []

theorem writeBlocks_spec (bs : List RopeBlock) (results : List WriteRes) (c : PacketConn) :
    LoopSpec bs c (writeBlocks bs results c) := by
  induction bs generalizing results c with
  | nil => exact ⟨⟨[], .refl c, rfl, rfl⟩, fun _ => rfl⟩
  | cons rb rest ih =>
    unfold writeBlocks
    have hw := bufWrite_spec c rb.data (results.headD (.wrote 0))
    generalize bufWrite c rb.data (results.headD (.wrote 0)) = r at hw ⊢
    match r, hw with
    | (c', none), hw =>
      refine ⟨⟨[], hw, rfl, rfl⟩, ?_⟩
      intro he
      cases he
    | (c', some n), ⟨hle, hw⟩ =>
      simp only
      split
      · refine ⟨⟨rb.data.take n, hw, ?_, ?_⟩, ?_⟩
        · simp only [List.map_cons, List.flatten_cons]
          rw [← List.append_assoc, List.take_append_drop]
        · rw [List.length_take, Nat.min_eq_left hle]
        · intro he
          cases he
      · next hfull =>
        have hn : n = rb.data.length := by omega
        obtain ⟨⟨ws, hws, hrest, hcount⟩, hall⟩ := ih results.tail c'
        refine ⟨⟨rb.data ++ ws, ?_, ?_, ?_⟩, hall⟩
        · rw [hn, List.take_length] at hw
          exact hw.trans hws
        · simp only [List.map_cons, List.flatten_cons, List.append_assoc]
          rw [hrest]
        · simp only
          rw [hcount, hn, List.length_append]

/-! ## The stream -/

/-- The flag for which the event loop calls `writeReady`. -/
def writeFlag (fd : SelectFd) : Bool := if fd.tlsEstablished then fd.tlsWantWrite else fd.wantWrite

/-- What is written is a first part of what was sent. As long as the connection is open the queue
has exactly the rest, and the flag is on while there is any. -/
structure Good (c : PacketConn) : Prop where
  written : c.written <+: c.sent
  queued : c.fd.closed = false → c.written ++ c.queue.bytes = c.sent
  flag : c.fd.closed = false → c.queue.bytes ≠ [] → writeFlag c.fd = true

/-- What goes wrong: bytes that are queued because a read waits to write, without the flag; and the
steps of connecting that turn the flag off while there are bytes in the queue. -/
def Ok (c : PacketConn) : Act → Prop
  | .send blocks _ _ => (Rope.ofBlocks blocks).bytes = [] ∨
      ¬ (c.fd.tlsEstablished = true ∧ c.fd.tlsWantWrite = false ∧ c.fd.tlsWantRead = true ∧
        c.fd.tlsReadWantsWrite = true)
  | .connectReady success => success = false ∨ c.tlsConnect = true ∨ c.queue.bytes = []
  | .tlsConnectReady result => result = .wantWrite ∨ result = .success false ∨ c.queue.bytes = []
  | .tlsAcceptReady result => result = .wantWrite ∨ c.queue.bytes = []
  | _ => True

instance (c : PacketConn) : (a : Act) → Decidable (Ok c a)
  | .send _ _ _ => inferInstanceAs (Decidable (_ ∨ ¬ _))
  | .connectReady _ => inferInstanceAs (Decidable (_ ∨ _ ∨ _))
  | .tlsConnectReady _ => inferInstanceAs (Decidable (_ ∨ _ ∨ _))
  | .tlsAcceptReady _ => inferInstanceAs (Decidable (_ ∨ _))
  | .sendEos | .writeReady _ | .tlsRead _ | .wantReadSet _ | .close => .isTrue trivial

/-- What always holds of the flags and the queue's length. -/
structure Inv (c : PacketConn) : Prop where
  sound : c.queue.Sound
  established : c.fd.tlsEstablished = true ↔ c.fd.state = .tlsEstablished
  before : c.fd.tlsEstablished = false → c.fd.tlsWantWrite = false

section Steps
variable {C : ℕ} {c c' : PacketConn}

theorem wantWriteGet_of_flag {fd : SelectFd} (h : writeFlag fd = true) : fd.wantWriteGet = true := by
  unfold writeFlag at h
  unfold SelectFd.wantWriteGet
  cases he : fd.tlsEstablished
  · simpa [he] using h
  · simp_all

/-- Without the flag `send` queues only for a read that waits to write. -/
theorem wantWriteGet_without_flag {fd : SelectFd} (h : writeFlag fd = false) :
    fd.wantWriteGet = true ↔ fd.tlsEstablished = true ∧ fd.tlsWantWrite = false ∧
      fd.tlsWantRead = true ∧ fd.tlsReadWantsWrite = true := by
  unfold writeFlag at h
  unfold SelectFd.wantWriteGet
  cases he : fd.tlsEstablished
  · simp_all
  · simp_all

theorem writeFlag_set (fd : SelectFd) (v : Bool) : writeFlag (fd.wantWriteSet v) = v := by
  unfold writeFlag SelectFd.wantWriteSet
  cases fd.tlsEstablished
  · simp
  · simp

theorem WriteStep.writeFlag {bs : List UInt8} (h : WriteStep c c' bs) :
    writeFlag c'.fd = Out.writeFlag c.fd ∧ c'.fd.closed = c.fd.closed := by
  obtain ⟨b, hfd⟩ := h.fd
  rw [hfd]
  exact ⟨rfl, rfl⟩

theorem good_of_closed (h : c.written <+: c.sent) (hc : c.fd.closed = true) : Good c := by
  refine ⟨h, ?_, ?_⟩
  · intro he
    rw [hc] at he
    cases he
  · intro he
    rw [hc] at he
    cases he

/-- With nothing in the queue there is nothing to ask of the flag. -/
theorem good_of_empty (h : c.written = c.sent) (hq : c.queue.bytes = []) : Good c := by
  refine ⟨h ▸ List.prefix_rfl, ?_, ?_⟩
  · intro _
    rw [hq, List.append_nil, h]
  · intro _ hne
    exact absurd hq hne

theorem Good.empty (h : Good c) (hc : c.fd.closed = false) (hf : writeFlag c.fd = false) :
    c.queue.bytes = [] := by
  by_contra hne
  have := h.flag hc hne
  rw [hf] at this
  cases this

theorem good_send_write {blocks : Rope} {canConsume : Bool} {results : List WriteRes}
    (hg : Good c) (hc : c.fd.closed = false) (hget : c.fd.wantWriteGet = false) :
    Good (send C blocks canConsume results c) := by
  have hf : writeFlag c.fd = false := by
    cases hf : writeFlag c.fd with
    | false => rfl
    | true =>
      rw [wantWriteGet_of_flag hf] at hget
      cases hget
  have hempty := hg.empty hc hf
  have hsent : c.written = c.sent := by
    have := hg.queued hc
    rwa [hempty, List.append_nil] at this
  unfold send
  simp only [hget]
  obtain ⟨⟨ws, hws, hrest, hcount⟩, hall⟩ := writeBlocks_spec blocks.blocks results
    { c with sent := c.sent ++ blocks.bytes }
  generalize writeBlocks blocks.blocks results { c with sent := c.sent ++ blocks.bytes } = l at *
  obtain ⟨hw, -, -, hq, -, hs⟩ := hws
  simp only at hw hq hs
  have htotal : ws ++ (l.rest.map RopeBlock.data).flatten = blocks.bytes := hrest
  cases he : l.ended with
  | all =>
    rw [hall he] at htotal
    have hwb : ws = blocks.bytes := by simpa using htotal
    refine good_of_empty ?_ ?_
    · simp only [Bool.false_eq_true, if_false]
      rw [hw, hs, hsent, hwb]
    · simp only [Bool.false_eq_true, if_false]
      rw [hq]
      exact hempty
  | error =>
    refine good_of_closed ?_ rfl
    simp only [Bool.false_eq_true, if_false, close]
    rw [hw, hs, hsent, ← htotal, ← List.append_assoc]
    exact List.prefix_append _ _
  | short =>
    simp only [Bool.false_eq_true, if_false]
    have hbytes : (queueRest C canConsume l.conn.queue ⟨l.rest, blocks.ropeLen - l.count⟩).bytes =
        (l.rest.map RopeBlock.data).flatten := by
      rw [queueRest_bytes, hq, hempty]
      rfl
    refine ⟨?_, fun _ => ?_, fun _ _ => writeFlag_set _ _⟩
    · rw [hw, hs, hsent, ← htotal, ← List.append_assoc]
      exact List.prefix_append _ _
    · simp only
      rw [hbytes, hw, hs, hsent, List.append_assoc, htotal]

theorem good_send_iff {blocks : List RopeBlock} {canConsume : Bool} {results : List WriteRes}
    (hg : Good c) (hc : c.fd.closed = false) :
    Good (send C (.ofBlocks blocks) canConsume results c) ↔ Ok c (.send blocks canConsume results) := by
  cases hget : c.fd.wantWriteGet with
  | false =>
    refine ⟨fun _ => .inr ?_, fun _ => good_send_write hg hc hget⟩
    rintro ⟨h1, h2, h3, h4⟩
    simp [SelectFd.wantWriteGet, h1, h2, h3, h4] at hget
  | true =>
    have hbytes := queueRest_bytes C canConsume c.queue (.ofBlocks blocks)
    have hq := hg.queued hc
    have hstream : c.written ++ (queueRest C canConsume c.queue (.ofBlocks blocks)).bytes =
        c.sent ++ (Rope.ofBlocks blocks).bytes := by
      rw [hbytes, ← List.append_assoc, hq]
    have hpre : c.written <+: c.sent ++ (Rope.ofBlocks blocks).bytes :=
      hg.written.trans (List.prefix_append _ _)
    unfold send
    simp only [hget, if_true]
    cases hf : writeFlag c.fd with
    | true =>
      refine ⟨fun _ => .inr ?_, fun _ => ⟨hpre, fun _ => hstream, fun _ _ => hf⟩⟩
      rintro ⟨h1, h2, -, -⟩
      simp [writeFlag, h1, h2] at hf
    | false =>
      have hempty := hg.empty hc hf
      have hcond := (wantWriteGet_without_flag hf).1 hget
      constructor
      · intro hgood
        left
        by_contra hne
        have hne' : (queueRest C canConsume c.queue (.ofBlocks blocks)).bytes ≠ [] := by
          rw [hbytes, hempty]
          exact hne
        have := hgood.flag hc hne'
        simp only at this
        rw [hf] at this
        cases this
      · rintro (hnil | hno)
        · refine ⟨hpre, fun _ => hstream, fun _ hne => ?_⟩
          simp only at hne
          rw [hbytes, hempty, hnil] at hne
          exact absurd rfl hne
        · exact absurd hcond hno

theorem good_flags_iff (fd : SelectFd) (hg : Good c) (hc : c.fd.closed = false)
    (hc' : fd.closed = false) :
    Good { c with fd := fd } ↔ writeFlag fd = true ∨ c.queue.bytes = [] := by
  constructor
  · intro h
    by_cases hne : c.queue.bytes = []
    · exact .inr hne
    · exact .inl (h.flag hc' hne)
  · intro h
    refine ⟨hg.written, fun _ => hg.queued hc, fun _ hne => ?_⟩
    rcases h with h | h
    · exact h
    · exact absurd h hne

theorem good_close (hg : Good c) : Good (close c) := good_of_closed hg.written rfl

theorem not_established (hi : Inv c) (h : c.fd.state ≠ .tlsEstablished) :
    c.fd.tlsEstablished = false := by
  cases he : c.fd.tlsEstablished with
  | false => rfl
  | true => exact absurd (hi.established.1 he) h

theorem good_connect_iff {success : Bool} (hi : Inv c) (hg : Good c) (hc : c.fd.closed = false)
    (hstate : c.fd.state = .connect) :
    Good (connConnectReady success c) ↔ Ok c (.connectReady success) := by
  have hest : c.fd.tlsEstablished = false := not_established hi (by simp [hstate])
  unfold connConnectReady Ok
  cases success with
  | false =>
    have hgood : Good (close { c with fd := { c.fd with wantWrite := false } }) :=
      good_of_closed hg.written rfl
    simpa using hgood
  | true =>
    simp only [if_true, Bool.true_eq_false, false_or]
    by_cases ht : c.tlsConnect = true
    · rw [if_pos ht]
      refine Iff.trans (good_flags_iff _ hg hc hc) ?_
      simp [writeFlag, hest, ht]
    · rw [if_neg ht]
      refine Iff.trans (good_flags_iff _ hg hc hc) ?_
      simp [writeFlag, hest, ht]

theorem good_prepNextRound_iff (result : Handshake) (hg : Good c) (hc : c.fd.closed = false)
    (hest : c.fd.tlsEstablished = false) :
    Good { c with fd := prepNextRound c.fd result } ↔
      result = .wantWrite ∨ c.queue.bytes = [] := by
  refine (good_flags_iff (prepNextRound c.fd result) hg hc hc).trans ?_
  simp [writeFlag, prepNextRound, hest]

theorem good_tlsConnect_iff {result : Handshake} (hi : Inv c) (hg : Good c)
    (hc : c.fd.closed = false) (hstate : c.fd.state = .tlsConnect) :
    Good (connTlsConnectReady result c) ↔ Ok c (.tlsConnectReady result) := by
  have hest : c.fd.tlsEstablished = false := not_established hi (by simp [hstate])
  have hwant := hi.before hest
  unfold connTlsConnectReady Ok
  cases result with
  | success verified =>
    cases verified with
    | true =>
      refine Iff.trans (good_flags_iff _ hg hc hc) ?_
      simp [writeFlag, hwant]
    | false => simpa using good_close hg
  | wantRead => simpa using good_prepNextRound_iff .wantRead hg hc hest
  | wantWrite => simpa using good_prepNextRound_iff .wantWrite hg hc hest
  | error => simpa using good_prepNextRound_iff .error hg hc hest

theorem good_tlsAccept_iff {result : Handshake} (hi : Inv c) (hg : Good c)
    (hc : c.fd.closed = false) (hstate : c.fd.state = .tlsAccept) :
    Good (connTlsAcceptReady result c) ↔ Ok c (.tlsAcceptReady result) := by
  have hest : c.fd.tlsEstablished = false := not_established hi (by simp [hstate])
  have hwant := hi.before hest
  unfold connTlsAcceptReady Ok
  cases result with
  | success verified =>
    refine Iff.trans (good_flags_iff _ hg hc hc) ?_
    simp [writeFlag, SelectFd.wantReadSet, hwant]
  | wantRead => simpa using good_prepNextRound_iff .wantRead hg hc hest
  | wantWrite => simpa using good_prepNextRound_iff .wantWrite hg hc hest
  | error => simpa using good_prepNextRound_iff .error hg hc hest

theorem flag_of_called (hi : Inv c) (h : writeReadyCalled c.fd) : writeFlag c.fd = true := by
  rcases h with ⟨hs, hw⟩ | ⟨hs, hw⟩
  · have := hi.established.2 hs
    simp [writeFlag, this, hw]
  · have := not_established hi (by simp [hs])
    simp [writeFlag, this, hw]

theorem good_writeReady {results : List WriteRes} (hi : Inv c) (hg : Good c)
    (hc : c.fd.closed = false) (h : writeReadyCalled c.fd) : Good (writeReady results c) := by
  have hflag := flag_of_called hi h
  have hq := hg.queued hc
  unfold writeReady
  split
  · next hz =>
    have hsound := hi.sound
    unfold Rope.Sound at hsound
    have hnil : c.queue.bytes = [] := by
      rw [← List.length_eq_zero_iff, ← hsound, hz]
    rw [hnil, List.append_nil] at hq
    exact good_of_empty hq rfl
  · obtain ⟨⟨ws, hws, hrest, hcount⟩, hall⟩ := writeBlocks_spec c.queue.blocks results c
    generalize writeBlocks c.queue.blocks results c = l at *
    obtain ⟨hfl, hcl⟩ := hws.writeFlag
    obtain ⟨hw, -, -, -, -, hs⟩ := hws
    have htotal : ws ++ (l.rest.map RopeBlock.data).flatten = c.queue.bytes := hrest
    have hstream : l.conn.written ++ (Rope.mk l.rest (c.queue.ropeLen - l.count)).bytes =
        l.conn.sent := by
      show l.conn.written ++ (l.rest.map RopeBlock.data).flatten = _
      rw [hw, hs, List.append_assoc, htotal, hq]
    have hpre : l.conn.written <+: l.conn.sent := by
      rw [← hstream]
      exact List.prefix_append _ _
    have hgood : Good { l.conn with queue := ⟨l.rest, c.queue.ropeLen - l.count⟩ } := by
      refine ⟨hpre, fun _ => hstream, fun _ _ => ?_⟩
      simp only
      rw [hfl]
      exact hflag
    simp only
    cases l.ended with
    | all =>
      simp only
      split
      · exact good_of_closed hpre rfl
      · exact hgood
    | error => exact good_of_closed hpre rfl
    | short => exact hgood

/-! ## The flags -/

theorem Inv.of_same (h : Inv c) (hq : c'.queue.Sound) (hs : c'.fd.state = c.fd.state)
    (he : c'.fd.tlsEstablished = c.fd.tlsEstablished)
    (hw : c.fd.tlsEstablished = false → c'.fd.tlsWantWrite = c.fd.tlsWantWrite) : Inv c' := by
  refine ⟨hq, ?_, ?_⟩
  · rw [he, hs]
    exact h.established
  · intro hne
    rw [he] at hne
    rw [hw hne]
    exact h.before hne

theorem Inv.writeStep {bs : List UInt8} (h : Inv c) (hw : WriteStep c c' bs) : Inv c' := by
  obtain ⟨-, ⟨b, hfd⟩, -, hq, -⟩ := hw
  refine h.of_same (hq ▸ h.sound) ?_ ?_ ?_
  · rw [hfd]
  · rw [hfd]
  · rw [hfd]
    intro _
    rfl

theorem Inv.queue {q : Rope} (h : Inv c) (hq : q.Sound) : Inv { c with queue := q } :=
  h.of_same hq rfl rfl fun _ => rfl

theorem Inv.wantWriteSet (h : Inv c) (v : Bool) : Inv { c with fd := c.fd.wantWriteSet v } := by
  unfold SelectFd.wantWriteSet
  by_cases he : c.fd.tlsEstablished = true
  · refine h.of_same h.sound ?_ ?_ ?_
    · simp [he]
    · simp [he]
    · intro hne
      rw [he] at hne
      cases hne
  · refine h.of_same h.sound ?_ ?_ ?_
    · simp [he]
    · simp [he]
    · simp [he]

theorem Inv.wantReadSet (h : Inv c) (v : Bool) : Inv { c with fd := c.fd.wantReadSet v } := by
  unfold SelectFd.wantReadSet
  by_cases he : c.fd.tlsEstablished = true
  · refine h.of_same h.sound ?_ ?_ ?_
    · simp [he]
    · simp [he]
    · simp [he]
  · refine h.of_same h.sound ?_ ?_ ?_
    · simp [he]
    · simp [he]
    · simp [he]

theorem Inv.close (h : Inv c) : Inv (close c) := h.of_same h.sound rfl rfl fun _ => rfl

/-- The blocks that a loop leaves, with what it took off the length. -/
theorem rest_sound {bs : List RopeBlock} {n : ℕ} {l : Looped} (hl : LoopSpec bs c l)
    (hn : (Rope.mk bs n).Sound) : (Rope.mk l.rest (n - l.count)).Sound := by
  obtain ⟨⟨ws, -, hrest, hcount⟩, -⟩ := hl
  unfold Rope.Sound Rope.bytes at *
  simp only at hn ⊢
  rw [hcount, hn, ← hrest, List.length_append]
  omega

theorem inv_send {blocks : Rope} {canConsume : Bool} {results : List WriteRes} (h : Inv c)
    (hb : blocks.Sound) : Inv (send C blocks canConsume results c) := by
  have h' : Inv { c with sent := c.sent ++ blocks.bytes } := h.of_same h.sound rfl rfl fun _ => rfl
  unfold send
  simp only
  split
  · exact h'.queue (queueRest_sound C canConsume h.sound hb)
  · have hl := writeBlocks_spec blocks.blocks results { c with sent := c.sent ++ blocks.bytes }
    generalize writeBlocks blocks.blocks results { c with sent := c.sent ++ blocks.bytes } = l at *
    have hrest := rest_sound hl hb
    obtain ⟨ws, hws, -, -⟩ := hl.step
    have hconn := h'.writeStep hws
    cases l.ended with
    | all => exact hconn
    | error => exact hconn.close
    | short => exact (hconn.wantWriteSet true).queue (queueRest_sound C canConsume hconn.sound hrest)

theorem inv_writeReady {results : List WriteRes} (h : Inv c) : Inv (writeReady results c) := by
  unfold writeReady
  split
  · exact (h.wantWriteSet false).queue rfl
  · have hl := writeBlocks_spec c.queue.blocks results c
    generalize writeBlocks c.queue.blocks results c = l at *
    have hrest := rest_sound hl h.sound
    obtain ⟨ws, hws, -, -⟩ := hl.step
    have hconn := (h.writeStep hws).queue hrest
    simp only
    cases l.ended with
    | all =>
      simp only
      split
      · exact hconn.close
      · exact hconn
    | error => exact hconn.close
    | short => exact hconn

theorem inv_connect {success : Bool} (h : Inv c) (hstate : c.fd.state = .connect) :
    Inv (connConnectReady success c) := by
  have hest := not_established h (by simp [hstate])
  unfold connConnectReady
  simp only
  split
  · split
    · exact ⟨h.sound, by simp [hest], fun _ => h.before hest⟩
    · exact ⟨h.sound, by simp [hest], fun _ => h.before hest⟩
  · exact h.of_same h.sound rfl rfl fun _ => rfl

theorem inv_prepNextRound (result : Handshake) (h : Inv c) :
    Inv { c with fd := prepNextRound c.fd result } :=
  h.of_same h.sound rfl rfl fun _ => rfl

theorem inv_tlsConnect {result : Handshake} (h : Inv c) : Inv (connTlsConnectReady result c) := by
  unfold connTlsConnectReady
  split
  · exact ⟨h.sound, by simp, by simp⟩
  · exact h.close
  · exact inv_prepNextRound _ h

theorem inv_tlsAccept {result : Handshake} (h : Inv c) : Inv (connTlsAcceptReady result c) := by
  unfold connTlsAcceptReady
  split
  · exact ⟨h.sound, by simp [SelectFd.wantReadSet], by simp [SelectFd.wantReadSet]⟩
  · exact inv_prepNextRound _ h

theorem inv_step {a : Act} (h : Inv c) (hs : step C c a = some c') : Inv c' := by
  unfold step at hs
  obtain ⟨⟨-, hen⟩, hs⟩ := Option.ite_none_right_eq_some.1 hs
  cases hs
  cases a with
  | send blocks canConsume results => exact inv_send h (ofBlocks_sound blocks)
  | sendEos =>
    show Inv (sendEos c)
    unfold sendEos
    split
    · exact h.of_same h.sound rfl rfl fun _ => rfl
    · exact h.close
  | connectReady success => exact inv_connect h hen
  | tlsConnectReady result => exact inv_tlsConnect h
  | tlsAcceptReady result => exact inv_tlsAccept h
  | writeReady results => exact inv_writeReady h
  | tlsRead wantsWrite => exact h.of_same h.sound rfl rfl fun _ => rfl
  | wantReadSet v => exact h.wantReadSet v
  | close => exact h.close

/-! ## Steps and runs -/

theorem writeFlag_wantReadSet (fd : SelectFd) (v : Bool) :
    writeFlag (fd.wantReadSet v) = writeFlag fd ∧ (fd.wantReadSet v).closed = fd.closed := by
  unfold SelectFd.wantReadSet
  split
  · exact ⟨rfl, rfl⟩
  · exact ⟨rfl, rfl⟩

theorem Good.same (hg : Good c) (hc : c.fd.closed = false) {fd : SelectFd} {b : Bool}
    (hf : writeFlag fd = writeFlag c.fd) : Good { c with fd := fd, closeOnFlushed := b } :=
  ⟨hg.written, fun _ => hg.queued hc, fun _ hne => hf.trans (hg.flag hc hne)⟩

/-- A step keeps the stream exactly if it is none of the steps that lose the flag. -/
theorem good_step_iff {a : Act} (hi : Inv c) (hg : Good c) (hs : step C c a = some c') :
    Good c' ↔ Ok c a := by
  unfold step at hs
  obtain ⟨⟨hc, hen⟩, hs⟩ := Option.ite_none_right_eq_some.1 hs
  cases hs
  cases a with
  | send blocks canConsume results => exact good_send_iff hg hc
  | connectReady success => exact good_connect_iff hi hg hc hen
  | tlsConnectReady result => exact good_tlsConnect_iff hi hg hc hen
  | tlsAcceptReady result => exact good_tlsAccept_iff hi hg hc hen
  | sendEos =>
    refine iff_of_true ?_ trivial
    show Good (sendEos c)
    unfold sendEos
    split
    · exact hg.same hc rfl
    · exact good_close hg
  | writeReady results => exact iff_of_true (good_writeReady hi hg hc hen) trivial
  | tlsRead wantsWrite => exact iff_of_true (hg.same hc rfl) trivial
  | wantReadSet v => exact iff_of_true (hg.same hc (writeFlag_wantReadSet c.fd v).1) trivial
  | close => exact iff_of_true (good_close hg) trivial

end Steps

theorem inv_start (how : Start) : Inv (start how) ∧ Good (start how) := by
  have hfresh : (start how).written = (start how).sent ∧ (start how).queue = ⟨[], 0⟩ := by
    rcases how with tls | tls
    · exact ⟨rfl, rfl⟩
    · cases tls
      · exact ⟨rfl, rfl⟩
      · exact ⟨rfl, rfl⟩
  refine ⟨⟨?_, ?_, ?_⟩, good_of_empty hfresh.1 ?_⟩
  · rw [hfresh.2]
    rfl
  · rcases how with tls | tls
    · simp [start]
    · cases tls
      · simp [start]
      · simp [start]
  · intro _
    rcases how with tls | tls
    · rfl
    · cases tls
      · rfl
      · rfl
  · rw [hfresh.2]
    rfl

/-- In every run without such a step the written bytes are a first part of the bytes sent, the queue
has the rest, and the flag is on while it has any. -/
theorem output_stream {C : ℕ} {how : Start} {c : PacketConn}
    (h : ReachIf (system C how) Ok c) : Good c := by
  have hstep : ∀ s a s', Inv s ∧ Good s → Ok s a → (system C how).step s a = some s' →
      Inv s' ∧ Good s' := by
    intro s a s' hs hok hstep
    exact ⟨inv_step hs.1 hstep, (good_step_iff hs.1 hs.2 hstep).2 hok⟩
  exact (ReachIf.invariant (I := fun c => Inv c ∧ Good c) (inv_start how) hstep h).2

/-- A TLS connection: three bytes are sent after the handshake, two of them are taken; a fourth is
queued behind the third while a read waits to write, and `writeReady` gets one of the two out. -/
theorem output_stream_tls : ∃ c, ReachIf (system 16 (.initiate true)) Ok c ∧
    c.written = [1, 2, 3] ∧ c.queue.bytes = [4] ∧ Good c := by
  have hrun : runIf (system 16 (.initiate true)) (fun c a => decide (Ok c a)) (start (.initiate true))
      [.connectReady true, .tlsConnectReady .wantRead, .tlsConnectReady (.success true),
        .send [⟨[1], 15⟩, ⟨[2, 3], 14⟩] true [.wrote 1, .wrote 1], .tlsRead true,
        .send [⟨[4], 15⟩] false [], .writeReady [.wrote 1, .wantsRead]] = some _ := rfl
  have hreach := ReachIf.runIf (fun _ _ => of_decide_eq_true) .init hrun
  exact ⟨_, hreach, rfl, rfl, output_stream hreach⟩

/-- A byte is sent while the connection is made, and one after: the second is written first. -/
theorem output_stream_fails : ¬ ∀ (C : ℕ) (how : Start) (c : PacketConn),
    Reach (system C how) c → Good c := by
  intro h
  have hrun : run (system 16 (.initiate false)) (start (.initiate false))
      [.send [⟨[1], 15⟩] true [], .connectReady true, .send [⟨[2], 15⟩] true [.wrote 1]] =
        some _ := rfl
  have hwritten := (h 16 (.initiate false) _ (Reach.run .init hrun)).written
  revert hwritten
  decide

end Netp.Genf.Out
