import Netp.Genf.OutputStream

/-! # End of stream

`WriteBuffer::sendEos` closes the descriptor, or leaves that to the `writeReady` that empties the
queue, if the want-write flag is on. The flag goes off one ready event after the queue has run
empty. In between `sendEos` waits for a `writeReady` that has nothing left to write, and that one
only turns the flag off.

Here is any sequence of both sends and `writeReady`, then `sendEos`, then more `writeReady`, on a
descriptor with any flags. No write fails.
-/

namespace Netp.Genf.Out
open Netp.Lib
set_option autoImplicit false

/-- `WriteBuffer::write`. -/
def write (c : PacketConn) (data : List UInt8) : WriteRes → PacketConn × Option ℕ
  | .wrote k => ({ c with written := c.written ++ data.take k }, some (min k data.length))
  | .wantsRead => (c, some 0)
  | .error => (c, none)

/-- `WriteBuffer::send` of bytes. -/
def sendData (C : ℕ) (data : List UInt8) (res : WriteRes) (c : PacketConn) : PacketConn :=
  let c := { c with sent := c.sent ++ data }
  if c.fd.wantWriteGet then { c with queue := c.queue.appendData C data }
  else
    match write c data res with
    | (c, none) => close c
    | (c, some n) =>
        if n < data.length then
          { c with queue := c.queue.appendData C (data.drop n), fd := c.fd.wantWriteSet true }
        else c

/-- What a `WriteBuffer` is asked before `sendEos`. -/
inductive BufCall
  | send (blocks : List RopeBlock) (canConsume : Bool) (results : List WriteRes)
  | sendData (data : List UInt8) (res : WriteRes)
  | writeReady (results : List WriteRes)

def BufCall.NoError : BufCall → Prop
  | .send _ _ results => .error ∉ results
  | .sendData _ res => res ≠ .error
  | .writeReady results => .error ∉ results

def BufCall.run (C : ℕ) (c : PacketConn) : BufCall → PacketConn
  | .send blocks canConsume results => Out.send C (.ofBlocks blocks) canConsume results c
  | .sendData data res => Out.sendData C data res c
  | .writeReady results => Out.writeReady results c

/-- A new `WriteBuffer`, on an open descriptor with these flags. -/
def fresh (fd : SelectFd) (tls : Bool) : PacketConn :=
  ⟨{ fd with closed := false }, tls, ⟨[], 0⟩, false, [], []⟩

/-! ## Loops without errors -/

section Loops

theorem bufWrite_noError (c : PacketConn) (data : List UInt8) {res : WriteRes} (h : res ≠ .error) :
    (bufWrite c data res).2 ≠ none := by
  unfold bufWrite
  split
  · split
    · simp
    · cases res with
      | error => exact absurd rfl h
      | _ => simp
  · cases res with
    | error => exact absurd rfl h
    | _ => simp

theorem headD_noError {results : List WriteRes} (h : .error ∉ results) :
    results.headD (.wrote 0) ≠ .error := by
  cases results with
  | nil => simp
  | cons res results =>
    rintro rfl
    exact h List.mem_cons_self

/-- A loop that no error ends stops at a byte that is left, or has written all. -/
theorem writeBlocks_noError (bs : List RopeBlock) {results : List WriteRes} (h : .error ∉ results)
    (c : PacketConn) : (writeBlocks bs results c).ended = .all ∨
      (writeBlocks bs results c).ended = .short ∧
      ((writeBlocks bs results c).rest.map RopeBlock.data).flatten ≠ [] := by
  induction bs generalizing results c with
  | nil => exact .inl rfl
  | cons rb rest ih =>
    unfold writeBlocks
    have hne := bufWrite_noError c rb.data (headD_noError h)
    obtain ⟨⟨c', res⟩, hr⟩ : ∃ p, bufWrite c rb.data (results.headD (.wrote 0)) = p := ⟨_, rfl⟩
    rw [hr] at hne
    simp only [hr]
    cases res with
    | none => exact absurd rfl hne
    | some n =>
      simp only
      split
      · next hlt =>
        refine .inr ⟨rfl, ?_⟩
        rw [List.map_cons, List.flatten_cons]
        intro hnil
        have := congrArg List.length (List.append_eq_nil_iff.1 hnil).1
        rw [List.length_drop, List.length_nil] at this
        omega
      · exact ih (fun he => h (List.mem_of_mem_tail he)) c'

end Loops

/-! ## The calls -/

theorem wantWriteGet_set (fd : SelectFd) : (fd.wantWriteSet true).wantWriteGet = true :=
  wantWriteGet_of_flag (writeFlag_set fd true)

theorem closed_set (fd : SelectFd) (v : Bool) : (fd.wantWriteSet v).closed = fd.closed := by
  unfold SelectFd.wantWriteSet
  split
  · rfl
  · rfl

theorem WriteStep.wantWriteGet {c c' : PacketConn} {bs : List UInt8} (h : WriteStep c c' bs) :
    c'.fd.wantWriteGet = c.fd.wantWriteGet ∧ c'.fd.closed = c.fd.closed := by
  obtain ⟨b, hfd⟩ := h.fd
  rw [hfd]
  exact ⟨rfl, rfl⟩

theorem Rope.Sound.len_zero {r : Rope} (h : r.Sound) : r.ropeLen = 0 ↔ r.bytes = [] := by
  rw [h, List.length_eq_zero_iff]

/-- Before `sendEos`: bytes are queued in want-write mode only. -/
structure Sending (c : PacketConn) : Prop where
  live : c.fd.closed = false
  eos : c.closeOnFlushed = false
  sound : c.queue.Sound
  waits : c.queue.bytes ≠ [] → c.fd.wantWriteGet = true

/-- Where a loop stands when it is done: the length left is that of the bytes left. -/
theorem LoopSpec.sound {bs : List RopeBlock} {c : PacketConn} {l : Looped} (h : LoopSpec bs c l)
    {n : ℕ} (hn : n = ((bs.map RopeBlock.data).flatten).length) :
    Rope.Sound ⟨l.rest, n - l.count⟩ := by
  obtain ⟨ws, -, hrest, hcount⟩ := h.step
  have hlen := congrArg List.length hrest
  rw [List.length_append] at hlen
  unfold Rope.Sound Rope.bytes
  simp only
  omega

section Calls
variable {C : ℕ} {c : PacketConn}

theorem Sending.empty (h : Sending c) (hget : c.fd.wantWriteGet = false) : c.queue.bytes = [] := by
  by_contra hne
  rw [h.waits hne] at hget
  cases hget

theorem appendData_sound (C : ℕ) {r : Rope} (hr : r.Sound) (data : List UInt8) :
    (r.appendData C data).Sound := by
  unfold Rope.Sound at *
  rw [appendData_len, appendData_bytes, List.length_append, hr]

theorem Sending.send (h : Sending c) (blocks : List RopeBlock) (canConsume : Bool)
    {results : List WriteRes} (hres : .error ∉ results) :
    Sending (Out.send C (.ofBlocks blocks) canConsume results c) := by
  unfold Out.send
  cases hget : c.fd.wantWriteGet with
  | true =>
    simp only [hget, if_true]
    exact ⟨h.live, h.eos, queueRest_sound C canConsume h.sound (ofBlocks_sound blocks),
      fun _ => hget⟩
  | false =>
    simp only [hget, Bool.false_eq_true, if_false]
    have hspec := writeBlocks_spec (Rope.ofBlocks blocks).blocks results
      { c with sent := c.sent ++ (Rope.ofBlocks blocks).bytes }
    have hended := writeBlocks_noError (Rope.ofBlocks blocks).blocks hres
      { c with sent := c.sent ++ (Rope.ofBlocks blocks).bytes }
    have hleft := hspec.sound (n := (Rope.ofBlocks blocks).ropeLen) rfl
    obtain ⟨⟨ws, hstep, -⟩, -⟩ := hspec
    generalize writeBlocks (Rope.ofBlocks blocks).blocks results
      { c with sent := c.sent ++ (Rope.ofBlocks blocks).bytes } = l at *
    obtain ⟨hgetl, hclosed⟩ := hstep.wantWriteGet
    obtain ⟨-, -, -, hq, heos, -⟩ := hstep
    simp only at hq heos hclosed
    rcases hended with hall | ⟨hshort, -⟩
    · simp only [hall]
      refine ⟨hclosed.trans h.live, heos.trans h.eos, ?_, fun hne => ?_⟩
      · rw [hq]
        exact h.sound
      · rw [hq, h.empty hget] at hne
        exact absurd rfl hne
    · simp only [hshort]
      refine ⟨?_, heos.trans h.eos, ?_, fun _ => wantWriteGet_set _⟩
      · rw [closed_set]
        exact hclosed.trans h.live
      · rw [hq]
        exact queueRest_sound C canConsume h.sound hleft

theorem Sending.sendData (h : Sending c) (data : List UInt8) {res : WriteRes}
    (hres : res ≠ .error) : Sending (Out.sendData C data res c) := by
  unfold Out.sendData
  cases hget : c.fd.wantWriteGet with
  | true =>
    simp only [hget, if_true]
    exact ⟨h.live, h.eos, appendData_sound C h.sound data, fun _ => hget⟩
  | false =>
    simp only [hget, Bool.false_eq_true, if_false]
    have hshort : ∀ (c' : PacketConn) (n : ℕ), c'.fd = c.fd → c'.queue = c.queue →
        c'.closeOnFlushed = c.closeOnFlushed → Sending (if n < data.length then
          { c' with queue := c'.queue.appendData C (data.drop n), fd := c'.fd.wantWriteSet true }
          else c') := by
      intro c' n hfd hq heos
      split
      · refine ⟨?_, heos.trans h.eos, ?_, fun _ => wantWriteGet_set _⟩
        · rw [closed_set, hfd]
          exact h.live
        · rw [hq]
          exact appendData_sound C h.sound _
      · refine ⟨by rw [hfd]; exact h.live, heos.trans h.eos, by rw [hq]; exact h.sound, ?_⟩
        rw [hq, hfd]
        exact h.waits
    cases res with
    | error => exact absurd rfl hres
    | wrote k => exact hshort { c with
        sent := c.sent ++ data, written := c.written ++ data.take k } _ rfl rfl rfl
    | wantsRead => exact hshort { c with sent := c.sent ++ data } 0 rfl rfl rfl

/-- What `writeReady` leaves of a queue with bytes: the rest of them, or none and the descriptor as
`closeOnFlushed` says. -/
theorem writeReady_bytes {results : List WriteRes} (hs : c.queue.Sound) (hne : c.queue.bytes ≠ [])
    (hres : .error ∉ results) :
    (writeReady results c).queue.Sound ∧
    (writeReady results c).closeOnFlushed = c.closeOnFlushed ∧
    (writeReady results c).fd.wantWriteGet = c.fd.wantWriteGet ∧
    ((writeReady results c).queue.bytes ≠ [] ∧ (writeReady results c).fd.closed = c.fd.closed ∨
      (writeReady results c).queue.bytes = [] ∧
      (writeReady results c).fd.closed = (c.closeOnFlushed || c.fd.closed)) := by
  unfold writeReady
  rw [if_neg fun h0 => hne (hs.len_zero.1 h0)]
  have hspec := writeBlocks_spec c.queue.blocks results c
  have hended := writeBlocks_noError c.queue.blocks hres c
  have hleft := hspec.sound (n := c.queue.ropeLen) hs
  obtain ⟨⟨ws, hstep, -⟩, hrest⟩ := hspec
  simp only
  generalize writeBlocks c.queue.blocks results c = l at *
  obtain ⟨hget, hclosed⟩ := hstep.wantWriteGet
  have heos := hstep.rest.2.2.1
  rcases hended with hall | ⟨hshort, hbytes⟩
  · have hnil : Rope.bytes ⟨l.rest, c.queue.ropeLen - l.count⟩ = [] := by
      rw [hrest hall]
      rfl
    simp only [hall]
    cases hflush : l.conn.closeOnFlushed with
    | true =>
      have hc : c.closeOnFlushed = true := heos.symm.trans hflush
      refine ⟨hleft, hc.symm, hget, .inr ⟨hnil, ?_⟩⟩
      rw [hc]
      rfl
    | false =>
      have hc : c.closeOnFlushed = false := heos.symm.trans hflush
      refine ⟨hleft, hc.symm, hget, .inr ⟨hnil, ?_⟩⟩
      rw [hc]
      exact hclosed
  · simp only [hshort]
    exact ⟨hleft, heos, hget, .inl ⟨hbytes, hclosed⟩⟩

theorem writeReady_empty (results : List WriteRes) (hs : c.queue.Sound)
    (hnil : c.queue.bytes = []) : writeReady results c =
      { c with fd := c.fd.wantWriteSet false, queue := ⟨[], 0⟩ } := by
  unfold writeReady
  rw [if_pos (hs.len_zero.2 hnil)]

theorem Sending.writeReady (h : Sending c) {results : List WriteRes} (hres : .error ∉ results) :
    Sending (Out.writeReady results c) := by
  by_cases hnil : c.queue.bytes = []
  · rw [writeReady_empty results h.sound hnil]
    exact ⟨(closed_set _ _).trans h.live, h.eos, rfl, fun hne => absurd rfl hne⟩
  · obtain ⟨hs, heos, hget, hcase⟩ := writeReady_bytes h.sound hnil hres
    have hclosed : (Out.writeReady results c).fd.closed = false := by
      rcases hcase with ⟨-, hc⟩ | ⟨-, hc⟩
      · exact hc.trans h.live
      · rw [hc, h.eos, h.live]
        rfl
    exact ⟨hclosed, heos.trans h.eos, hs, fun _ => hget.trans (h.waits hnil)⟩

theorem Sending.run (h : Sending c) {call : BufCall} (hcall : call.NoError) :
    Sending (call.run C c) := by
  cases call with
  | send blocks canConsume results => exact h.send blocks canConsume hcall
  | sendData data res => exact h.sendData data hcall
  | writeReady results => exact h.writeReady hcall

/-- After a `sendEos` that came in time: closed with nothing queued, or to be closed by the
`writeReady` that empties the queue. -/
def Ending (c : PacketConn) : Prop :=
  c.queue.Sound ∧ (c.fd.closed = true ∧ c.queue.bytes = [] ∨
    c.fd.closed = false ∧ c.queue.bytes ≠ [] ∧ c.closeOnFlushed = true)

theorem Ending.writeReady (h : Ending c) {results : List WriteRes} (hres : .error ∉ results) :
    Ending (Out.writeReady results c) := by
  obtain ⟨hs, ⟨hclosed, hnil⟩ | ⟨hlive, hne, heos⟩⟩ := h
  · rw [writeReady_empty results hs hnil]
    exact ⟨rfl, .inl ⟨(closed_set _ _).trans hclosed, rfl⟩⟩
  · obtain ⟨hs', heos', -, ⟨hne', hc⟩ | ⟨hnil', hc⟩⟩ := writeReady_bytes hs hne hres
    · exact ⟨hs', .inr ⟨hc.trans hlive, hne', heos'.trans heos⟩⟩
    · refine ⟨hs', .inl ⟨?_, hnil'⟩⟩
      rw [hc, heos]
      rfl

theorem Sending.sendEos (h : Sending c)
    (hcond : ¬ (c.fd.wantWriteGet = true ∧ c.queue.bytes = [])) : Ending (Out.sendEos c) := by
  unfold Out.sendEos
  cases hget : c.fd.wantWriteGet with
  | true =>
    rw [if_pos rfl]
    exact ⟨h.sound, .inr ⟨h.live, fun hnil => hcond ⟨hget, hnil⟩, rfl⟩⟩
  | false =>
    rw [if_neg (by simp)]
    exact ⟨h.sound, .inl ⟨rfl, h.empty hget⟩⟩

end Calls

/-! ## Runs -/

/-- The descriptor is never closed while bytes are queued, and from `sendEos` on it is closed as soon
as none are. -/
def EosKept (C : ℕ) (fd : SelectFd) (tls : Bool) (pre : List BufCall)
    (posts : List (List WriteRes)) : Prop :=
  (∀ c ∈ pre.scanl (BufCall.run C) (fresh fd tls), c.fd.closed = true → c.queue.bytes = []) ∧
  ∀ c ∈ posts.scanl (fun c results => writeReady results c)
      (sendEos (pre.foldl (BufCall.run C) (fresh fd tls))),
    (c.fd.closed = true → c.queue.bytes = []) ∧ (c.queue.bytes = [] → c.fd.closed = true)

theorem sending_fresh (fd : SelectFd) (tls : Bool) : Sending (fresh fd tls) :=
  ⟨rfl, rfl, rfl, fun hne => absurd rfl hne⟩

/-- For any calls without write errors, the end of the stream is kept exactly if `sendEos` is not
called in want-write mode with an empty queue. -/
theorem eosKept_iff (C : ℕ) (fd : SelectFd) (tls : Bool) {pre : List BufCall}
    {posts : List (List WriteRes)} (hpre : ∀ call ∈ pre, call.NoError)
    (hposts : ∀ results ∈ posts, .error ∉ results) :
    EosKept C fd tls pre posts ↔
      ¬ ((pre.foldl (BufCall.run C) (fresh fd tls)).fd.wantWriteGet = true ∧
        (pre.foldl (BufCall.run C) (fresh fd tls)).queue.bytes = []) := by
  obtain ⟨hall, hlast⟩ := scanl_invariant (f := BufCall.run C) (I := Sending) (sending_fresh fd tls)
    fun c call hcall hc => hc.run (hpre call hcall)
  constructor
  · rintro ⟨-, hkept⟩ ⟨hget, hnil⟩
    -- `sendEos` itself leaves the queue empty and the descriptor open
    have hmem : sendEos (pre.foldl (BufCall.run C) (fresh fd tls)) ∈
        posts.scanl (fun c results => writeReady results c)
          (sendEos (pre.foldl (BufCall.run C) (fresh fd tls))) := by
      cases posts with
      | nil => simp
      | cons results posts => simp [List.scanl_cons]
    have hclosed := (hkept _ hmem).2
    unfold sendEos at hclosed
    rw [if_pos hget] at hclosed
    have := hclosed hnil
    rw [hlast.live] at this
    cases this
  · intro hcond
    have hend := (scanl_invariant (f := fun c results => writeReady results c) (I := Ending)
      (hlast.sendEos hcond) fun c results hr hc => hc.writeReady (hposts results hr)).1
    refine ⟨fun c hc hclosed => ?_, fun c hc => ?_⟩
    · rw [(hall c hc).live] at hclosed
      cases hclosed
    · obtain ⟨-, ⟨hclosed, hnil⟩ | ⟨hlive, hne, -⟩⟩ := hend c hc
      · exact ⟨fun _ => hnil, fun _ => hclosed⟩
      · refine ⟨fun hc => ?_, fun hnil => absurd hnil hne⟩
        rw [hlive] at hc
        cases hc

/-- An established connection without TLS. -/
def plainFd : SelectFd := ⟨.established, true, false, false, false, false, false, false, false⟩

/-- A byte that waits in the queue when the stream ends. -/
theorem eosKept_queued : EosKept 16 plainFd false [.sendData [1] (.wrote 0)] [[.wrote 1]] := by
  apply (eosKept_iff 16 plainFd false (by simp [BufCall.NoError]) (by simp)).2
  rintro ⟨-, hnil⟩
  cases hnil

/-- The byte is written, the flag is still on, and `sendEos` waits for a `writeReady` that writes the
last byte. -/
theorem eos_lost : ¬ ∀ (C : ℕ) (fd : SelectFd) (tls : Bool) (pre : List BufCall)
    (posts : List (List WriteRes)), (∀ call ∈ pre, call.NoError) →
    (∀ results ∈ posts, .error ∉ results) → EosKept C fd tls pre posts := by
  intro h
  have hkept := (h 16 plainFd false [.sendData [1] (.wrote 0), .writeReady [.wrote 1]] [[], []]
    (by simp [BufCall.NoError]) (by simp)).2
  have hclosed := (hkept (writeReady [] (writeReady [] (sendEos (writeReady [.wrote 1]
    (sendData 16 [1] (.wrote 0) (fresh plainFd false)))))) (by simp [BufCall.run])).2 rfl
  cases hclosed

end Netp.Genf.Out
