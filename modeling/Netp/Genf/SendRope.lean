import Mathlib.Data.Int.Order.Basic
import Mathlib.Tactic.Ring
import Netp.Genf.OutputStream

/-! # Consuming and copying sends

`WriteBuffer::send` of a rope, `genf/process.cc`, over any `WriteFuncs`. With `canConsume` it unlinks
the blocks that are written, moves the head offset of the one that is written in part, keeps the
rope's length by hand and moves the blocks left to the queue. Without, it walks over the blocks and
copies.

`Netp.Genf.Out.send` is this function over `Connection::write` (`send_conn`).
-/

namespace Netp.Genf.Buf
open Netp.Lib
set_option autoImplicit false

/-- A block as aapl has it: what was put into it, the head offset, and the room behind. -/
structure RopeBlock where
  buf : List UInt8
  hoff : ℕ
  room : ℕ

namespace RopeBlock

/-- The bytes from `data(rb)` on. -/
def data (rb : RopeBlock) : List UInt8 := rb.buf.drop rb.hoff

/-- `length(rb)`. -/
def length (rb : RopeBlock) : ℤ := rb.data.length

end RopeBlock

structure Rope where
  blocks : List RopeBlock
  ropeLen : ℤ

namespace Rope

def empty : Rope := ⟨[], 0⟩

def bytes (r : Rope) : List UInt8 := (r.blocks.map RopeBlock.data).flatten

/-- `append(data, len)`: in the last block if there is room, else in a new one. -/
def append (C : ℕ) (r : Rope) (data : List UInt8) : Rope :=
  match r.blocks.getLast? with
  | some t =>
      if data.length ≤ t.room then
        ⟨r.blocks.dropLast ++ [⟨t.buf ++ data, t.hoff, t.room - data.length⟩],
          r.ropeLen + data.length⟩
      else ⟨r.blocks ++ [⟨data, 0, max data.length C - data.length⟩], r.ropeLen + data.length⟩
  | none => ⟨r.blocks ++ [⟨data, 0, max data.length C - data.length⟩], r.ropeLen + data.length⟩

/-- `append(Rope&)`. The argument is empty afterwards. -/
def appendRope (r s : Rope) : Rope := ⟨r.blocks ++ s.blocks, r.ropeLen + s.ropeLen⟩

/-- The recorded length is the number of bytes, and no head offset is beyond its block. -/
structure Sound (r : Rope) : Prop where
  len : r.ropeLen = r.bytes.length
  hoff : ∀ rb ∈ r.blocks, rb.hoff ≤ rb.buf.length

end Rope

/-- The virtual functions of a `WriteFuncs`, with the descriptor's want-write flag. A write takes no
more than it is given. -/
structure WriteFuncs (σ : Type) where
  bufWrite : σ → List UInt8 → σ × ℤ
  bufClose : σ → σ
  wantWriteGet : σ → Bool
  wantWriteSet : Bool → σ → σ
  bufWrite_le : ∀ s data, (bufWrite s data).2 ≤ data.length

/-- A call that `send` makes. -/
inductive Call
  | bufWrite (data : List UInt8)
  | bufClose
  deriving DecidableEq

/-- What `send` leaves, with the calls it made. -/
structure Sent (σ : Type) where
  env : σ
  queue : Rope
  blocks : Rope
  calls : List Call

section Send
variable {σ : Type} (W : WriteFuncs σ) (C : ℕ) (canConsume : Bool)

/-- The copies of blocks that go to the queue. -/
def copyBlocks (queue : Rope) (bs : List RopeBlock) : Rope :=
  bs.foldl (fun q rb => q.append C rb.data) queue

/-- The loop, from the block `rb` on. When blocks are consumed it is the head of `blocks`. -/
def sendLoop : List RopeBlock → Rope → σ → Rope → Sent σ
  | [], blocks, env, queue => ⟨env, queue, blocks, []⟩
  | rb :: next, blocks, env, queue =>
      let (env, res) := W.bufWrite env rb.data
      if res < 0 then ⟨W.bufClose env, queue, blocks, [.bufWrite rb.data, .bufClose]⟩
      else if res < rb.length then
        if canConsume then
          let blocks := ⟨{ rb with hoff := rb.hoff + res.toNat } :: next, blocks.ropeLen - res⟩
          ⟨W.wantWriteSet true env, queue.appendRope blocks, .empty, [.bufWrite rb.data]⟩
        else
          let queue := queue.append C (rb.data.drop res.toNat)
          ⟨W.wantWriteSet true env, copyBlocks C queue next, blocks, [.bufWrite rb.data]⟩
      else
        let blocks := if canConsume then ⟨next, blocks.ropeLen - res⟩ else blocks
        let s := sendLoop next blocks env queue
        { s with calls := .bufWrite rb.data :: s.calls }

/-- `WriteBuffer::send`. -/
def send (env : σ) (queue blocks : Rope) : Sent σ :=
  if W.wantWriteGet env then
    if canConsume then ⟨env, queue.appendRope blocks, .empty, []⟩
    else ⟨env, copyBlocks C queue blocks.blocks, blocks, []⟩
  else sendLoop W C canConsume blocks.blocks blocks env queue

end Send

section Cases
variable {σ : Type} (W : WriteFuncs σ) (C : ℕ) (canConsume : Bool) {env : σ} (queue blocks : Rope)

theorem send_queues (h : W.wantWriteGet env = true) : send W C canConsume env queue blocks =
    if canConsume then ⟨env, queue.appendRope blocks, .empty, []⟩
    else ⟨env, copyBlocks C queue blocks.blocks, blocks, []⟩ := by
  unfold send
  rw [if_pos h]

theorem send_writes (h : W.wantWriteGet env = false) : send W C canConsume env queue blocks =
    sendLoop W C canConsume blocks.blocks blocks env queue := by
  unfold send
  rw [if_neg (by simp [h])]

end Cases

/-! ## Ropes -/

theorem append_bytes (C : ℕ) {r : Rope} (hr : ∀ rb ∈ r.blocks, rb.hoff ≤ rb.buf.length)
    (data : List UInt8) : (r.append C data).bytes = r.bytes ++ data ∧
      ∀ rb ∈ (r.append C data).blocks, rb.hoff ≤ rb.buf.length := by
  obtain ⟨blocks, n⟩ := r
  unfold Rope.append
  rcases List.eq_nil_or_concat blocks with rfl | ⟨bs, t, rfl⟩
  · simp [Rope.bytes, RopeBlock.data]
  · rw [List.concat_eq_append] at *
    have ht : t.hoff ≤ t.buf.length := hr t (by simp)
    have hbs : ∀ rb ∈ bs, rb.hoff ≤ rb.buf.length :=
      fun rb hrb => hr rb (List.mem_append_left _ hrb)
    rw [List.getLast?_append, List.getLast?_singleton, Option.some_or]
    simp only
    split
    · refine ⟨?_, ?_⟩
      · simp [Rope.bytes, RopeBlock.data, List.drop_append_of_le_length ht]
      · intro rb hrb
        rw [List.dropLast_concat] at hrb
        rcases List.mem_append.1 hrb with hrb | hrb
        · exact hbs rb hrb
        · rw [List.mem_singleton.1 hrb, List.length_append]
          exact ht.trans (Nat.le_add_right _ _)
    · refine ⟨by simp [Rope.bytes, RopeBlock.data], ?_⟩
      intro rb hrb
      rcases List.mem_append.1 hrb with hrb | hrb
      · exact hr rb hrb
      · rw [List.mem_singleton.1 hrb]
        exact Nat.zero_le _

theorem append_len (C : ℕ) (r : Rope) (data : List UInt8) :
    (r.append C data).ropeLen = r.ropeLen + data.length := by
  unfold Rope.append
  split
  · split
    · rfl
    · rfl
  · rfl

theorem appendRope_bytes (r s : Rope) : (r.appendRope s).bytes = r.bytes ++ s.bytes := by
  simp [Rope.appendRope, Rope.bytes]

theorem copyBlocks_spec (C : ℕ) (bs : List RopeBlock) {q : Rope}
    (hq : ∀ rb ∈ q.blocks, rb.hoff ≤ rb.buf.length) :
    (copyBlocks C q bs).bytes = q.bytes ++ (bs.map RopeBlock.data).flatten ∧
    (copyBlocks C q bs).ropeLen = q.ropeLen + ((bs.map RopeBlock.data).flatten).length := by
  induction bs generalizing q with
  | nil => simp [copyBlocks]
  | cons b bs ih =>
    obtain ⟨hbytes, hhoff⟩ := append_bytes C hq b.data
    obtain ⟨h1, h2⟩ := ih hhoff
    unfold copyBlocks at h1 h2 ⊢
    rw [List.foldl_cons, h1, h2, hbytes, append_len]
    refine ⟨by simp, ?_⟩
    simp only [List.map_cons, List.flatten_cons, List.length_append, Nat.cast_add]
    ring

/-! ## Both sends -/

/-- The same calls, the same state outside, and the same bytes and length in the queue. -/
structure Agree {σ : Type} (s t : Sent σ) : Prop where
  env : s.env = t.env
  calls : s.calls = t.calls
  bytes : s.queue.bytes = t.queue.bytes
  ropeLen : s.queue.ropeLen = t.queue.ropeLen

section Agree
variable {σ : Type} (W : WriteFuncs σ) (C : ℕ)

/-- `blocks` is what the copying loop walks over, and `bs` what is left of it. -/
theorem sendLoop_agree (bs : List RopeBlock) (blocks : Rope) (env : σ) {queue : Rope}
    (hq : ∀ rb ∈ queue.blocks, rb.hoff ≤ rb.buf.length) :
    Agree (sendLoop W C true bs ⟨bs, ((bs.map RopeBlock.data).flatten).length⟩ env queue)
      (sendLoop W C false bs blocks env queue) := by
  induction bs generalizing env with
  | nil => exact ⟨rfl, rfl, rfl, rfl⟩
  | cons rb next ih =>
    have hle := W.bufWrite_le env rb.data
    unfold sendLoop
    generalize W.bufWrite env rb.data = p at hle
    obtain ⟨env', res⟩ := p
    simp only at hle ⊢
    by_cases herr : res < 0
    · simp only [if_pos herr]
      exact ⟨rfl, rfl, rfl, rfl⟩
    · have hres : ((res.toNat : ℕ) : ℤ) = res := Int.toNat_of_nonneg (not_lt.1 herr)
      simp only [if_neg herr]
      by_cases hshort : res < rb.length
      · simp only [if_pos hshort, if_true, Bool.false_eq_true, if_false]
        have hn : res.toNat ≤ rb.data.length := by omega
        obtain ⟨hbytes, hhoff⟩ := append_bytes C hq (rb.data.drop res.toNat)
        obtain ⟨hcopy, hlen⟩ := copyBlocks_spec C next hhoff
        have hdata : RopeBlock.data { rb with hoff := rb.hoff + res.toNat } =
            rb.data.drop res.toNat := by
          simp [RopeBlock.data]
        refine ⟨rfl, rfl, ?_, ?_⟩
        · rw [appendRope_bytes, hcopy, hbytes, List.append_assoc]
          simp only [Rope.bytes, List.map_cons, List.flatten_cons, hdata]
        · rw [hlen, append_len]
          simp only [Rope.appendRope, List.map_cons, List.flatten_cons, List.length_append,
            List.length_drop]
          omega
      · have hfull : res = rb.data.length := le_antisymm hle (not_lt.1 hshort)
        have hrest : (((rb :: next).map RopeBlock.data).flatten.length : ℤ) - res =
            ((next.map RopeBlock.data).flatten).length := by
          simp only [List.map_cons, List.flatten_cons, List.length_append, Nat.cast_add, hfull]
          ring
        simp only [if_neg hshort, if_true, Bool.false_eq_true, if_false, hrest]
        obtain ⟨h1, h2, h3, h4⟩ := ih env'
        exact ⟨h1, congrArg (Call.bufWrite rb.data :: ·) h2, h3, h4⟩

end Agree

/-- For every rope, queue and flag, and whatever the writes return, a consuming and a copying send
make the same calls of `bufWrite` and `bufClose`, and leave the same bytes and length in the queue
and the same want-write flag. -/
theorem send_consume_copy {σ : Type} (W : WriteFuncs σ) (C : ℕ) (env : σ) {queue blocks : Rope}
    (hq : queue.Sound) (hb : blocks.Sound) :
    (send W C true env queue blocks).calls = (send W C false env queue blocks).calls ∧
    (send W C true env queue blocks).queue.bytes = (send W C false env queue blocks).queue.bytes ∧
    (send W C true env queue blocks).queue.ropeLen =
      (send W C false env queue blocks).queue.ropeLen ∧
    W.wantWriteGet (send W C true env queue blocks).env =
      W.wantWriteGet (send W C false env queue blocks).env ∧
    (send W C true env queue blocks).env = (send W C false env queue blocks).env := by
  have hagree : Agree (send W C true env queue blocks) (send W C false env queue blocks) := by
    cases hw : W.wantWriteGet env with
    | true =>
      obtain ⟨hcopy, hlen⟩ := copyBlocks_spec C blocks.blocks hq.hoff
      rw [send_queues W C true queue blocks hw, send_queues W C false queue blocks hw]
      refine ⟨rfl, rfl, ?_, ?_⟩
      · exact (appendRope_bytes queue blocks).trans hcopy.symm
      · exact (congrArg (queue.ropeLen + ·) hb.len).trans hlen.symm
    | false =>
      rw [send_writes W C true queue blocks hw, send_writes W C false queue blocks hw]
      have := sendLoop_agree W C blocks.blocks blocks env hq.hoff
      obtain ⟨bs, n⟩ := blocks
      have hn : n = ((bs.map RopeBlock.data).flatten).length := hb.len
      rw [← hn] at this
      exact this
  exact ⟨hagree.calls, hagree.bytes, hagree.ropeLen, congrArg W.wantWriteGet hagree.env, hagree.env⟩

/-- Writes whose results are given in advance, and a flag. -/
def scripted : WriteFuncs (Bool × List ℤ) where
  bufWrite s data := ((s.1, s.2.tail), min (s.2.headD 0) data.length)
  bufClose s := s
  wantWriteGet s := s.1
  wantWriteSet v s := (v, s.2)
  bufWrite_le _ _ := min_le_right _ _

/-- Two blocks, the first with an offset; the second is written in part. -/
theorem send_consume_copy_short :
    (send scripted 16 true (false, [2, 1]) .empty ⟨[⟨[9, 1, 2], 1, 0⟩, ⟨[3, 4], 0, 5⟩], 4⟩).calls =
      [.bufWrite [1, 2], .bufWrite [3, 4]] ∧
    (send scripted 16 false (false, [2, 1]) .empty
      ⟨[⟨[9, 1, 2], 1, 0⟩, ⟨[3, 4], 0, 5⟩], 4⟩).queue.bytes = [4] := by
  have hq : Rope.Sound .empty := ⟨rfl, by simp [Rope.empty]⟩
  have hb : Rope.Sound ⟨[⟨[9, 1, 2], 1, 0⟩, ⟨[3, 4], 0, 5⟩], 4⟩ := ⟨rfl, by simp⟩
  obtain ⟨hcalls, hbytes, -⟩ := send_consume_copy scripted 16 (false, [2, 1]) hq hb
  exact ⟨hcalls.trans rfl, hbytes.symm.trans rfl⟩

/-! ## On a connection -/

def RopeBlock.conn (rb : RopeBlock) : Out.RopeBlock := ⟨rb.data, rb.room⟩

def Rope.conn (r : Rope) : Out.Rope := ⟨r.blocks.map RopeBlock.conn, r.ropeLen.toNat⟩

/-- The `int` that a write returns. -/
def resultOf : Option ℕ → ℤ
  | some n => n
  | none => -1

/-- `Connection::write` and `Connection::close`, with the results of the writes to come. -/
def connFuncs : WriteFuncs (Out.PacketConn × List Out.WriteRes) where
  bufWrite s data :=
    let (c, res) := Out.bufWrite s.1 data (s.2.headD (.wrote 0))
    ((c, s.2.tail), resultOf res)
  bufClose s := (Out.close s.1, s.2)
  wantWriteGet s := s.1.fd.wantWriteGet
  wantWriteSet v s := ({ s.1 with fd := s.1.fd.wantWriteSet v }, s.2)
  bufWrite_le s data := by
    have hw := Out.bufWrite_spec s.1 data (s.2.headD (.wrote 0))
    generalize Out.bufWrite s.1 data (s.2.headD (.wrote 0)) = r at hw
    match r, hw with
    | (_, some n), hw => exact Int.ofNat_le.2 hw.1
    | (_, none), _ =>
      simp only [resultOf]
      omega

section Fields
variable (c : Out.PacketConn) (results : List Out.WriteRes)

@[simp] theorem connFuncs_bufWrite (data : List UInt8) : connFuncs.bufWrite (c, results) data =
    (((Out.bufWrite c data (results.headD (.wrote 0))).1, results.tail),
      resultOf (Out.bufWrite c data (results.headD (.wrote 0))).2) := rfl

@[simp] theorem connFuncs_bufClose : connFuncs.bufClose (c, results) = (Out.close c, results) := rfl

@[simp] theorem connFuncs_wantWriteGet : connFuncs.wantWriteGet (c, results) =
    c.fd.wantWriteGet := rfl

@[simp] theorem connFuncs_wantWriteSet (v : Bool) : connFuncs.wantWriteSet v (c, results) =
    ({ c with fd := c.fd.wantWriteSet v }, results) := rfl

end Fields

section Conn
variable (C : ℕ)

theorem conn_append {r : Rope} (hr : r.Sound) (data : List UInt8) :
    (r.append C data).conn = r.conn.appendData C data := by
  have hn : (r.ropeLen + data.length).toNat = r.ropeLen.toNat + data.length := by
    have := hr.len
    omega
  have hhoff := hr.hoff
  obtain ⟨blocks, n⟩ := r
  simp only at hn hhoff
  unfold Rope.append Out.Rope.appendData Rope.conn
  rcases List.eq_nil_or_concat blocks with rfl | ⟨bs, t, rfl⟩
  · simp [RopeBlock.conn, RopeBlock.data, hn]
  · rw [List.concat_eq_append] at *
    have ht : t.hoff ≤ t.buf.length := hhoff t (by simp)
    simp only [List.getLast?_append, List.getLast?_singleton, Option.some_or, List.map_append,
      List.map_cons, List.map_nil, RopeBlock.conn]
    split
    · simp [RopeBlock.conn, RopeBlock.data, hn, List.drop_append_of_le_length ht]
    · simp [RopeBlock.conn, RopeBlock.data, hn]

theorem append_sound {r : Rope} (hr : r.Sound) (data : List UInt8) : (r.append C data).Sound := by
  obtain ⟨hbytes, hhoff⟩ := append_bytes C hr.hoff data
  refine ⟨?_, hhoff⟩
  rw [append_len, hbytes, hr.len, List.length_append, Nat.cast_add]

theorem conn_copyBlocks (bs : List RopeBlock) {q : Rope} (hq : q.Sound) :
    (copyBlocks C q bs).conn =
      (bs.map RopeBlock.conn).foldl (fun q rb => q.appendData C rb.data) q.conn := by
  induction bs generalizing q with
  | nil => rfl
  | cons b bs ih =>
    have := ih (append_sound C hq b.data)
    rw [conn_append C hq] at this
    exact this

theorem conn_appendRope {q r : Rope} (hq : q.Sound) (hr : r.Sound) :
    (q.appendRope r).conn = q.conn.appendRope r.conn := by
  have h1 := hq.len
  have h2 := hr.len
  simp only [Rope.conn, Rope.appendRope, Out.Rope.appendRope, List.map_append,
    Out.Rope.mk.injEq, true_and]
  omega

/-- What `send` makes of the end of the loop, with `n` bytes in the rope. -/
def finish (canConsume : Bool) (n : ℕ) (l : Out.Looped) : Out.PacketConn :=
  match l.ended with
  | .all => l.conn
  | .error => Out.close l.conn
  | .short =>
      { l.conn with
        queue := Out.queueRest C canConsume l.conn.queue ⟨l.rest, n - l.count⟩
        fd := l.conn.fd.wantWriteSet true }

theorem finish_count (canConsume : Bool) (n k : ℕ) (l : Out.Looped) :
    finish C canConsume n { l with count := k + l.count } = finish C canConsume (n - k) l := by
  unfold finish
  simp only [Nat.sub_sub]

/-- The loop of `send` does on a connection what `writeBlocks` does. -/
theorem conn_sendLoop (canConsume : Bool) (bs : List RopeBlock) (blocks : Rope)
    (c : Out.PacketConn) (results : List Out.WriteRes) {queue : Rope} (hq : queue.Sound)
    (hc : c.queue = queue.conn) (hbs : ∀ rb ∈ bs, rb.hoff ≤ rb.buf.length)
    (hblocks : canConsume = true →
      blocks.ropeLen = ((bs.map RopeBlock.data).flatten).length) :
    { (sendLoop connFuncs C canConsume bs blocks (c, results) queue).env.1 with
      queue := (sendLoop connFuncs C canConsume bs blocks (c, results) queue).queue.conn } =
      finish C canConsume ((bs.map RopeBlock.data).flatten).length
        (Out.writeBlocks (bs.map RopeBlock.conn) results c) := by
  induction bs generalizing blocks c results with
  | nil =>
    show { c with queue := queue.conn } = c
    rw [← hc]
  | cons rb next ih =>
    have hrb := hbs rb List.mem_cons_self
    have hnext : ∀ rb ∈ next, rb.hoff ≤ rb.buf.length :=
      fun rb hrb => hbs rb (List.mem_cons_of_mem _ hrb)
    have hlen : ((rb :: next).map RopeBlock.data).flatten.length =
        rb.data.length + (next.map RopeBlock.data).flatten.length := by simp
    have hw := Out.bufWrite_spec c rb.data (results.headD (.wrote 0))
    obtain ⟨⟨c', res⟩, hr⟩ : ∃ p, Out.bufWrite c rb.data (results.headD (.wrote 0)) = p := ⟨_, rfl⟩
    rw [hr] at hw
    have hcall : connFuncs.bufWrite (c, results) rb.data = ((c', results.tail), resultOf res) := by
      rw [connFuncs_bufWrite, hr]
    cases res with
    | none =>
      have hc' : c'.queue = queue.conn := hw.rest.2.1.trans hc
      have hl : Out.writeBlocks ((rb :: next).map RopeBlock.conn) results c =
          ⟨c', rb.conn :: next.map RopeBlock.conn, 0, .error⟩ := by
        simp only [List.map_cons, Out.writeBlocks, RopeBlock.conn, hr]
      have hneg : resultOf none < 0 := by decide
      unfold sendLoop
      simp only [hcall, if_pos hneg, connFuncs_bufClose]
      rw [hl, ← hc']
      rfl
    | some n =>
      obtain ⟨hle, hw⟩ := hw
      have hcall : connFuncs.bufWrite (c, results) rb.data = ((c', results.tail), (n : ℤ)) := hcall
      have hc' : c'.queue = queue.conn := hw.rest.2.1.trans hc
      have hneg : ¬ (n : ℤ) < 0 := by omega
      unfold sendLoop
      simp only [hcall, if_neg hneg, connFuncs_wantWriteSet]
      by_cases hshort : n < rb.data.length
      · have hl : Out.writeBlocks ((rb :: next).map RopeBlock.conn) results c =
            ⟨c', ⟨rb.data.drop n, rb.room⟩ :: next.map RopeBlock.conn, n, .short⟩ := by
          simp only [List.map_cons, Out.writeBlocks, RopeBlock.conn, hr, if_pos hshort]
        have hlt : (n : ℤ) < rb.length := Int.ofNat_lt.2 hshort
        rw [hl]
        unfold finish
        simp only [if_pos hlt, Int.toNat_natCast, hc']
        cases canConsume with
        | true =>
          have hdata : RopeBlock.data { rb with hoff := rb.hoff + n } = rb.data.drop n := by
            simp [RopeBlock.data]
          have hrope := hblocks rfl
          have hleft : Rope.Sound
              ⟨{ rb with hoff := rb.hoff + n } :: next, blocks.ropeLen - n⟩ := by
            refine ⟨?_, ?_⟩
            · rw [hrope, hlen]
              simp only [Rope.bytes, List.map_cons, List.flatten_cons, hdata, List.length_append,
                List.length_drop]
              omega
            · intro b hb
              rcases List.mem_cons.1 hb with rfl | hb
              · have : rb.data.length = rb.buf.length - rb.hoff := by simp [RopeBlock.data]
                simp only
                omega
              · exact hnext b hb
          have hnat : (blocks.ropeLen - n).toNat =
              ((rb :: next).map RopeBlock.data).flatten.length - n := by
            rw [hrope]
            omega
          simp only [if_true, Out.queueRest]
          rw [conn_appendRope hq hleft]
          simp only [Rope.conn, List.map_cons, RopeBlock.conn, hdata, hnat]
        | false =>
          simp only [Bool.false_eq_true, if_false, Out.queueRest]
          rw [conn_copyBlocks C next (append_sound C hq _), conn_append C hq]
          rfl
      · have hn : n = rb.data.length := by omega
        have hl : Out.writeBlocks ((rb :: next).map RopeBlock.conn) results c =
            { Out.writeBlocks (next.map RopeBlock.conn) results.tail c' with
              count := n + (Out.writeBlocks (next.map RopeBlock.conn) results.tail c').count } := by
          simp only [List.map_cons, Out.writeBlocks, RopeBlock.conn, hr, if_neg hshort]
        have hge : ¬ (n : ℤ) < rb.length := fun h => hshort (Int.ofNat_lt.1 h)
        simp only [if_neg hge]
        rw [hl, finish_count, hlen, hn, Nat.add_sub_cancel_left]
        apply ih _ c' results.tail hc' hnext
        intro hcons
        rw [if_pos hcons]
        simp only
        rw [hblocks hcons, hlen]
        push_cast
        ring

theorem send_conn (canConsume : Bool) (c : Out.PacketConn) (results : List Out.WriteRes)
    {queue blocks : Rope} (hq : queue.Sound) (hb : blocks.Sound) (hc : c.queue = queue.conn) :
    Out.send C blocks.conn canConsume results c =
      let s := send connFuncs C canConsume
        ({ c with sent := c.sent ++ blocks.bytes }, results) queue blocks
      { s.env.1 with queue := s.queue.conn } := by
  have hbytes : blocks.conn.bytes = blocks.bytes := by
    simp [Rope.conn, Out.Rope.bytes, Rope.bytes, RopeBlock.conn, Function.comp_def]
  have hget : connFuncs.wantWriteGet ({ c with sent := c.sent ++ blocks.bytes }, results) =
      c.fd.wantWriteGet := rfl
  unfold Out.send
  rw [hbytes]
  cases hw : c.fd.wantWriteGet with
  | true =>
    rw [send_queues connFuncs C canConsume queue blocks (hget.trans hw)]
    simp only [hw, if_true]
    cases canConsume with
    | true =>
      simp only [if_true, Out.queueRest]
      rw [conn_appendRope hq hb, hc]
    | false =>
      simp only [Bool.false_eq_true, if_false, Out.queueRest]
      rw [conn_copyBlocks C blocks.blocks hq, hc]
      rfl
  | false =>
    have hloop := conn_sendLoop C canConsume blocks.blocks blocks
      { c with sent := c.sent ++ blocks.bytes } results hq hc hb.hoff fun _ => hb.len
    have hn : blocks.ropeLen.toNat = ((blocks.blocks.map RopeBlock.data).flatten).length := by
      have := hb.len
      unfold Rope.bytes at this
      omega
    rw [send_writes connFuncs C canConsume queue blocks (hget.trans hw), hloop]
    simp only [hw, Bool.false_eq_true, if_false, Rope.conn, hn]
    unfold finish
    generalize Out.writeBlocks (blocks.blocks.map RopeBlock.conn) results
      { c with sent := c.sent ++ blocks.bytes } = l
    cases l.ended with
    | all => rfl
    | error => rfl
    | short => rfl

end Conn

end Netp.Genf.Buf
