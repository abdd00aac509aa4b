import Netp.Genf.ParseDelivers

/-! # Offsets

What `allocBytes` gives on one writer, call after call, and what `pktFind` makes of its offsets: in
the writer's rope, at the time and later, and in the rope that `parsePacket` builds of the blocks
when the packet is sent.
-/

namespace Netp.Genf
open Netp.Lib
set_option autoImplicit false

/-- What a call of `allocBytes` gave. -/
structure Alloc where
  size : ℕ
  data : Ptr
  offset : ℕ

def Alloc.region (a : Alloc) : Region ℕ := ⟨a.data.1, a.data.2, a.size⟩

/-- A writer, with what its calls of `allocBytes` gave. -/
structure PacketWriter where
  buf : Rope
  allocs : List Alloc

/-- A call of `allocBytes`, or bytes written from index `i` on of what call `k` gave. -/
inductive WriterOp
  | alloc (nb : ℕ)
  | write (k i : ℕ) (bs : List UInt8)

def WriterOp.Positive : WriterOp → Prop
  | .alloc nb => 0 < nb
  | .write _ _ _ => True

namespace PacketWriter

/-- `reset`, on memory that holds what it holds. -/
def reset (mem : Mem ℕ) : PacketWriter := ⟨⟨[], mem⟩, []⟩

def step (C : ℕ) (w : PacketWriter) : WriterOp → Option PacketWriter
  | .alloc nb =>
      (allocBytes C w.buf nb).map fun (r, p, offset) => ⟨r, w.allocs ++ [⟨nb, p, offset⟩]⟩
  | .write k i bs =>
      w.allocs[k]?.bind fun a =>
        if i + bs.length ≤ a.size then
          some { w with buf := w.buf.store (a.data.1, a.data.2 + i) bs }
        else none

def run (C : ℕ) : PacketWriter → List WriterOp → Option PacketWriter
  | w, [] => some w
  | w, op :: ops => (w.step C op).bind fun w' => w'.run C ops

end PacketWriter

/-! ## On the writer -/

/-- What was allocated lies apart, behind the block headers, where its offset leads. -/
structure WriterInv (w : PacketWriter) : Prop where
  headed : Headed w.buf
  small : w.buf.length < 2 ^ 31
  apart : w.allocs.Pairwise fun a b => a.region.Disjoint b.region
  room : ∀ a ∈ w.allocs, a.data.2 + a.size ≤ w.buf.len a.data.1
  off_header : ∀ a ∈ w.allocs, 4 ≤ a.data.2
  found : ∀ a ∈ w.allocs, pktFind w.buf a.offset = some a.data
  pos : ∀ a ∈ w.allocs, 0 < a.size

section Writer
variable {C : ℕ} {w w' : PacketWriter} {ops : List WriterOp}

theorem writerInv_reset (mem : Mem ℕ) : WriterInv (PacketWriter.reset mem) := by
  refine ⟨?_, by simp [PacketWriter.reset, Rope.length], List.Pairwise.nil, ?_, ?_, ?_, ?_⟩
  · intro t ht
    cases ht
  all_goals
    intro a ha
    cases ha

theorem WriterInv.alloc (h : WriterInv w) {nb offset : ℕ} {r : Rope} {p : Ptr} (hnb : 0 < nb)
    (ha : allocBytes C w.buf nb = some (r, p, offset)) :
    WriterInv ⟨r, w.allocs ++ [⟨nb, p, offset⟩]⟩ := by
  have hs := allocBytes_spec h.headed ha
  -- an allocation is an old one or the new one
  have hmem : ∀ {a : Alloc}, a ∈ w.allocs ++ [⟨nb, p, offset⟩] →
      a ∈ w.allocs ∨ a = ⟨nb, p, offset⟩ := by
    intro a ha
    simpa using ha
  refine ⟨hs.headed, allocBytes_small ha, ?_, ?_, ?_, ?_, ?_⟩
  · apply List.pairwise_append.2
    refine ⟨h.apart, List.pairwise_singleton _ _, ?_⟩
    intro a ha b hb
    rw [List.mem_singleton.1 hb]
    exact hs.behind (h.room a ha)
  · intro a ha
    rcases hmem ha with ha | rfl
    · exact (h.room a ha).trans (hs.ext.len_le a.data.1)
    · exact hs.room
  · intro a ha
    rcases hmem ha with ha | rfl
    · exact h.off_header a ha
    · exact hs.off_header
  · intro a ha
    rcases hmem ha with ha | rfl
    · exact hs.ext.pktFind (h.found a ha)
    · exact hs.found hnb
  · intro a ha
    rcases hmem ha with ha | rfl
    · exact h.pos a ha
    · exact hnb

theorem WriterInv.step (h : WriterInv w) {op : WriterOp} (hop : op.Positive)
    (hs : w.step C op = some w') : WriterInv w' ∧ w.allocs <+: w'.allocs := by
  cases op with
  | alloc nb =>
    simp only [PacketWriter.step, Option.map_eq_some_iff] at hs
    obtain ⟨⟨r, p, offset⟩, ha, rfl⟩ := hs
    exact ⟨h.alloc hop ha, List.prefix_append _ _⟩
  | write k i bs =>
    simp only [PacketWriter.step, Option.bind_eq_some_iff, Option.ite_none_right_eq_some,
      Option.some.injEq] at hs
    obtain ⟨a, -, -, rfl⟩ := hs
    exact ⟨⟨h.headed, h.small, h.apart, h.room, h.off_header, h.found, h.pos⟩,
      List.prefix_refl _⟩

theorem WriterInv.run (h : WriterInv w) (hops : ∀ op ∈ ops, op.Positive)
    (hrun : w.run C ops = some w') : WriterInv w' ∧ w.allocs <+: w'.allocs := by
  induction ops generalizing w with
  | nil =>
    simp only [PacketWriter.run, Option.some.injEq] at hrun
    subst hrun
    exact ⟨h, List.prefix_refl _⟩
  | cons op ops ih =>
    simp only [PacketWriter.run, Option.bind_eq_some_iff] at hrun
    obtain ⟨w1, h1, h2⟩ := hrun
    obtain ⟨hinv, hpre⟩ := h.step (hops op List.mem_cons_self) h1
    obtain ⟨hinv', hpre'⟩ := ih hinv (fun o ho => hops o (List.mem_cons_of_mem _ ho)) h2
    exact ⟨hinv', hpre.trans hpre'⟩

end Writer

/-! ## Through `send` and `parsePacket` -/

/-- A writer whose first allocation is `toSend`, the packet header. -/
def Opened (C : ℕ) (w : PacketWriter) : Prop :=
  ∃ (mem : Mem ℕ) (nb : ℕ) (ops : List WriterOp), packetHeaderSize ≤ nb ∧
    (∀ op ∈ ops, op.Positive) ∧ (PacketWriter.reset mem).run C (.alloc nb :: ops) = some w

section Opened
variable {C : ℕ} {w : PacketWriter}

/-- The header is the first thing in the first block, and only it lies there before index 16. -/
theorem Opened.inv (h : Opened C w) : WriterInv w ∧
    ∃ header rest, w.allocs = header :: rest ∧ header.data = (0, 4) ∧ 12 ≤ header.size := by
  obtain ⟨mem, nb, ops, hnb, hops, hrun⟩ := h
  have h12 : 12 ≤ nb := hnb
  simp only [PacketWriter.run, PacketWriter.step, Option.bind_eq_some_iff,
    Option.map_eq_some_iff] at hrun
  obtain ⟨w1, ⟨⟨r, p, offset⟩, ha, rfl⟩, hrun⟩ := hrun
  have hfirst := (writerInv_reset mem).alloc (by omega) ha
  obtain ⟨hinv, hpre⟩ := hfirst.run hops hrun
  refine ⟨hinv, ?_⟩
  have hp : p = (0, 4) := by
    unfold allocBytes at ha
    rw [Option.ite_none_right_eq_some, Option.some.injEq] at ha
    have := ha.2
    simp only [allocBytesBody, PacketWriter.reset, Rope.available, Rope.append, List.getLast?_nil,
      Option.map_none, List.length_nil, packetBlockHeaderSize, Prod.mk.injEq] at this
    exact this.2.1.symm
  obtain ⟨rest, hrest⟩ := hpre
  exact ⟨⟨nb, p, offset⟩, rest, hrest.symm, hp, h12⟩

theorem Opened.framed (h : Opened C w) : Framed (w.buf.u32 (0, 12)) w.buf := by
  obtain ⟨hinv, header, rest, hallocs, hdata, hsize⟩ := h.inv
  have hroom := hinv.room header (by rw [hallocs]; exact List.mem_cons_self)
  simp only [hdata] at hroom
  refine ⟨hinv.headed, by omega, hinv.small, ?_⟩
  have := le_ofLe (w.buf.load (0, 12) 4)
  rw [Rope.load, Mem.load_length] at this
  exact this.symm

theorem Opened.send_load (h : Opened C w) :
    ∀ a ∈ w.allocs.tail, (packetBaseSend w.buf).load a.data a.size = w.buf.load a.data a.size := by
  obtain ⟨hinv, header, rest, hallocs, hdata, hsize⟩ := h.inv
  intro a ha
  have hapart := hinv.apart
  rw [hallocs] at ha hapart
  have hmem : a ∈ w.allocs := by
    rw [hallocs]
    exact List.mem_cons_of_mem _ ha
  apply packetBaseSend_load w.buf (hinv.off_header a hmem)
  intro h0
  have hd := (List.pairwise_cons.1 hapart).1 a ha
  have h4 := hinv.off_header a hmem
  have hpos := hinv.pos a hmem
  simp only [Region.Disjoint, Alloc.region, hdata, h0] at hd
  omega

end Opened

/-- The rope is what `parsePacket` has in `recv.buf` when it dispatches packet `p`, sent among others
on one connection. -/
inductive Received (p : ℕ × Rope) : Rope → Prop
  | dispatch (before after : List (ℕ × Rope)) (headBuf : Mem Unit) (mem : Mem ℕ) (need : ℤ)
      (calls : List (List ReadResult)) (results : List ReadResult) (c : Conn) (recv : Recv)
      (inp : List UInt8) (hothers : ∀ q ∈ before ++ after, q.1 < 2 ^ 32 ∧ Framed q.1 q.2)
      (hc : c = (Conn.start headBuf mem need (sentBytes (before ++ p :: after))).parseAll calls)
      (hopen : c.status = .open) (hout : c.out.length = before.length)
      (hdispatch : parsePacket results c.recv c.inp = (.dispatch recv, inp)) :
      Received p recv.buf

/-- Whatever the memory and the pieces, it has the bytes that were sent. -/
theorem Received.contents {p : ℕ × Rope} {r : Rope} (h : Received p r) (hid : p.1 < 2 ^ 32)
    (hp : Framed p.1 p.2) : r.contents = (packetBaseSend p.2).contents := by
  obtain ⟨before, after, headBuf, mem, need, calls, results, c, recv, inp, hothers, hc, hopen,
    hout, hdispatch⟩ := h
  have hsent : ∀ q ∈ before ++ p :: after, q.1 < 2 ^ 32 ∧ Framed q.1 q.2 := by
    intro q hq
    rcases List.mem_append.1 hq with hq | hq
    · exact hothers q (List.mem_append_left _ hq)
    · rcases List.mem_cons.1 hq with rfl | hq
      · exact ⟨hid, hp⟩
      · exact hothers q (List.mem_append_right _ hq)
  have hinv : ConnInv (before ++ p :: after) c := by
    rw [hc]
    exact (connInv_start hsent headBuf mem need).parseAll hsent calls
  obtain ⟨done, todo, hsplit, hdone, hrecv, -⟩ := hinv.split
  have hlen : before.length = done.length := by rw [← hout, hdone, List.length_map]
  have htodo : todo = p :: after := (List.append_inj hsplit.symm hlen.symm).2
  have hframes : ∀ f ∈ todo.map fun q => (packetBaseSend q.2).contents, Frame f := by
    intro f hf
    obtain ⟨q, hq, rfl⟩ := List.mem_map.1 hf
    apply (hsent q _).2.frame
    rw [hsplit]
    exact List.mem_append_right _ hq
  have hspec := parsePacket_spec results hframes (hrecv hopen)
  rw [hdispatch, htodo] at hspec
  obtain ⟨f, fs, hfs, hcontents, -⟩ := hspec
  rw [List.map_cons, List.cons.injEq] at hfs
  rw [hcontents, ← hfs.1]

theorem exists_received {p : ℕ × Rope} (hid : p.1 < 2 ^ 32) (hp : Framed p.1 p.2) :
    ∃ r, Received p r := by
  have hsent : ∀ q ∈ [p], q.1 < 2 ^ 32 ∧ Framed q.1 q.2 := by
    intro q hq
    rw [List.mem_singleton.1 hq]
    exact ⟨hid, hp⟩
  have hstart := connInv_start hsent (fun _ _ => 0) (fun _ _ => 0) 0
  obtain ⟨calls, hcalls⟩ := hstart.read_all hsent rfl
  obtain ⟨done, todo, hsplit, hout, -, htodo⟩ := (hstart.parseAll hsent calls).split
  rw [htodo hcalls, List.append_nil] at hsplit
  have hmore : 0 < ((Conn.start (fun _ _ => 0) (fun _ _ => 0) 0 (sentBytes [p])).parseAll
      calls).out.length := by
    rw [hout, ← hsplit]
    exact Nat.one_pos
  obtain ⟨pre, results, recv, inp, hopen, hlen, hdispatch⟩ :=
    parseAll_dispatch (n := 0) (le_refl 0) hmore
  exact ⟨recv.buf, .dispatch [] [] _ _ _ pre results _ recv inp (by simp) rfl hopen hlen hdispatch⟩

theorem pktFind_of_contents {r r' : Rope} (h : r'.contents = r.contents) (l : ℕ) :
    pktFind r' l = pktFind r l := by
  have hfind : ∀ (bs cs : List RopeBlock) (b l : ℕ),
      bs.map RopeBlock.len = cs.map RopeBlock.len → findFrom b bs l = findFrom b cs l := by
    intro bs
    induction bs with
    | nil =>
      intro cs b l hlens
      rw [List.map_nil, eq_comm, List.map_eq_nil_iff] at hlens
      rw [hlens]
    | cons t bs ih =>
      intro cs b l hlens
      cases cs with
      | nil => cases hlens
      | cons u cs =>
        rw [List.map_cons, List.map_cons, List.cons.injEq] at hlens
        rw [findFrom, findFrom, hlens.1, ih cs (b + 1) _ hlens.2]
  unfold pktFind
  rw [hfind _ _ 0 l (lens_of_contents h)]

/-- The ranges that the calls of `allocBytes` with positive sizes give on one writer are disjoint
and off the block headers, and `pktFind` finds each under its offset: in the writer's rope, at the
time and after any later calls, and in the rope that `parsePacket` has built of the packet, where
the bytes are those sent. -/
theorem offsets_agree {C : ℕ} {mem : Mem ℕ} {ops : List WriterOp} {w : PacketWriter}
    (hops : ∀ op ∈ ops, op.Positive) (hrun : (PacketWriter.reset mem).run C ops = some w) :
    w.allocs.Pairwise (fun a b => a.region.Disjoint b.region) ∧
    (∀ a ∈ w.allocs, ∀ b, Region.Disjoint ⟨b, 0, 4⟩ a.region) ∧
    (∀ ops' w', (∀ op ∈ ops', op.Positive) → w.run C ops' = some w' →
      ∀ a ∈ w.allocs, a ∈ w'.allocs ∧ pktFind w'.buf a.offset = some a.data) ∧
    (Opened C w → ∀ r, Received (w.buf.u32 (0, 12), w.buf) r →
      (∀ a ∈ w.allocs, pktFind r a.offset = some a.data ∧
        r.load a.data a.size = (packetBaseSend w.buf).load a.data a.size) ∧
      ∀ a ∈ w.allocs.tail, r.load a.data a.size = w.buf.load a.data a.size) := by
  have hinv := ((writerInv_reset mem).run hops hrun).1
  refine ⟨hinv.apart, ?_, ?_, ?_⟩
  · intro a ha b
    exact .inr (.inl (hinv.off_header a ha))
  · intro ops' w' hops' hrun' a ha
    obtain ⟨hinv', hpre⟩ := hinv.run hops' hrun'
    have hmem := hpre.subset ha
    exact ⟨hmem, hinv'.found a hmem⟩
  · intro hopened r hr
    have hid : w.buf.u32 (0, 12) < 2 ^ 32 := by
      have := ofLe_lt (w.buf.load (0, 12) 4)
      rw [Rope.load, Mem.load_length] at this
      exact this
    have hcontents := hr.contents hid hopened.framed
    have hload : ∀ a ∈ w.allocs, r.load a.data a.size =
        (packetBaseSend w.buf).load a.data a.size :=
      fun a ha => load_of_contents hcontents (hinv.room a ha)
    refine ⟨fun a ha => ⟨?_, hload a ha⟩, ?_⟩
    · rw [pktFind_of_contents hcontents]
      exact hinv.found a ha
    · intro a ha
      rw [hload a (List.mem_of_mem_tail ha)]
      exact hopened.send_load a ha

/-- A header, and two fields of which the second opens a block. -/
theorem offsets_agree_block : ∃ w r, (PacketWriter.reset fun _ _ => 0).run 32
    [.alloc 12, .alloc 16, .alloc 5, .write 2 0 [1, 2]] = some w ∧
    Received (w.buf.u32 (0, 12), w.buf) r ∧ pktFind w.buf 36 = some (1, 4) ∧
    pktFind r 36 = some (1, 4) ∧ r.load (1, 4) 5 = [1, 2, 0, 0, 0] := by
  obtain ⟨w, hw⟩ : ∃ w, (PacketWriter.reset fun _ _ => 0).run 32
    [.alloc 12, .alloc 16, .alloc 5, .write 2 0 [1, 2]] = some w := ⟨_, rfl⟩
  have hops : ∀ op ∈ [WriterOp.alloc 12, .alloc 16, .alloc 5, .write 2 0 [1, 2]],
      op.Positive := by
    simp [WriterOp.Positive]
  have hopened : Opened 32 w :=
    ⟨_, 12, _, le_refl 12, fun op ho => hops op (List.mem_cons_of_mem _ ho), hw⟩
  have hwv := Option.some.inj hw
  have hallocs : w.allocs = [⟨12, (0, 4), 4⟩, ⟨16, (0, 16), 16⟩, ⟨5, (1, 4), 36⟩] := by
    rw [← hwv]
    rfl
  have hmem : ⟨5, (1, 4), 36⟩ ∈ w.allocs := by
    rw [hallocs]
    simp
  have hid : w.buf.u32 (0, 12) < 2 ^ 32 := by
    rw [← hwv]
    decide
  obtain ⟨r, hr⟩ := exists_received (p := (_, w.buf)) hid hopened.framed
  obtain ⟨-, -, hfound, hreceived⟩ := offsets_agree hops hw
  obtain ⟨hat, hbytes⟩ := hreceived hopened r hr
  refine ⟨w, r, hw, hr, (hfound [] w (by simp) rfl _ hmem).2, (hat _ hmem).1, ?_⟩
  refine (hbytes ⟨5, (1, 4), 36⟩ (by rw [hallocs]; simp)).trans ?_
  rw [← hwv]
  rfl

end Netp.Genf
