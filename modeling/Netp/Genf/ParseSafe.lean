import Netp.Genf.ParseDelivers

/-! # What the parser does with lengths from the wire

`parsePacket` takes the length of the first block from the packet's header and that of every other
block from the block before it, and believes both. The calls are run once more with a record of the
blocks appended, the reads issued and the lengths loaded (`Event`), and a call is safe if every one
of these is.

Whether anything unsafe happens depends on the bytes alone, not on how they arrive: it does exactly
if a length on the wire is too small (`lengthsOk`).
-/

namespace Netp.Genf
open Netp.Lib
set_option autoImplicit false

/-! ## The calls with their events -/

inductive Event
  /-- `appendBlock`, of the first block of a packet or of another. -/
  | append (first : Bool) (len : ℤ)
  /-- A `read` up to `need` bytes where `haveLen` are there. -/
  | read (haveLen : ℕ) (need : ℤ)
  /-- The load of the next length from a block of `need` bytes of which `haveLen` are there. -/
  | nextLen (haveLen : ℕ) (need : ℤ)

/-- Into the first block the headers are copied. -/
def Event.Safe : Event → Prop
  | .append first len => (if first then (headSize : ℤ) else packetBlockHeaderSize) ≤ len
  | .read haveLen need => 0 ≤ need ∧ haveLen ≤ need
  | .nextLen haveLen need => need ≤ haveLen

/-- `afterBlock` with its events. -/
def afterBlockTr (next : Recv → List UInt8 → List Event × Parsed × List UInt8) (recv : Recv)
    (inp : List UInt8) : List Event × Parsed × List UInt8 :=
  let need := intOf (recv.buf.u32 (recv.dataBlock, 0))
  if need = 0 then
    ([.nextLen recv.haveLen recv.need],
      .dispatch { recv with state := .wantHead, need := 0, haveLen := 0 }, inp)
  else if need < 0 then ([.nextLen recv.haveLen recv.need, .append false need], .fault, inp)
  else
    let t := next { recv with buf := appendBlock recv.buf need.toNat, need := need, haveLen := 0 }
      inp
    (.nextLen recv.haveLen recv.need :: .append false need :: t.1, t.2)

/-- `readBlocks` with its events. -/
def readBlocksTr : List ReadResult → Recv → List UInt8 → List Event × Parsed × List UInt8
  | [], recv, inp => ([.read recv.haveLen recv.need], .wait recv, inp)
  | .eof :: _, recv, inp => ([.read recv.haveLen recv.need], .closed, inp)
  | .data k :: results, recv, inp =>
      let bs := inp.take (min k (recv.need.toNat - recv.haveLen))
      let inp' := inp.drop bs.length
      if bs = [] then ([.read recv.haveLen recv.need], .wait recv, inp)
      else
        let recv' := { recv with
          buf := recv.buf.store (recv.dataBlock, recv.haveLen) bs
          haveLen := recv.haveLen + bs.length }
        if (recv'.haveLen : ℤ) < recv.need then
          ([.read recv.haveLen recv.need], .wait recv', inp')
        else
          let t := afterBlockTr (readBlocksTr results) recv' inp'
          (.read recv.haveLen recv.need :: t.1, t.2)

/-- `blockLoop` with its events. -/
def blockLoopTr (results : List ReadResult) (recv : Recv) (inp : List UInt8) :
    List Event × Parsed × List UInt8 :=
  if (recv.haveLen : ℤ) < recv.need then readBlocksTr results recv inp
  else afterBlockTr (readBlocksTr results) recv inp

/-- `parsePacket` with its events. The headers are read up to their size, whatever `need` is. -/
def parsePacketTr (results : List ReadResult) (recv : Recv) (inp : List UInt8) :
    List Event × Parsed × List UInt8 :=
  match recv.state, results with
  | .wantHead, [] => ([.read recv.haveLen headSize], .wait recv, inp)
  | .wantHead, .eof :: _ => ([.read recv.haveLen headSize], .closed, inp)
  | .wantHead, .data k :: results =>
      let bs := inp.take (min k (headSize - recv.haveLen))
      let inp' := inp.drop bs.length
      if bs = [] then ([.read recv.haveLen headSize], .wait recv, inp)
      else
        let headBuf := recv.headBuf.store () recv.haveLen bs
        if recv.haveLen + bs.length < headSize then
          ([.read recv.haveLen headSize],
            .wait { recv with headBuf := headBuf, haveLen := recv.haveLen + bs.length }, inp')
        else
          let firstLen := intOf (ofLe (headBuf.load () 4 4))
          if firstLen < 0 then
            ([.read recv.haveLen headSize, .append true firstLen], .fault, inp')
          else
            let buf := appendBlock recv.buf firstLen.toNat
            let buf := buf.store (buf.blocks.length - 1, 0) (headBuf.load () 0 headSize)
            let t := blockLoopTr results ⟨.wantBlock, headBuf, buf, headSize, firstLen⟩ inp'
            (.read recv.haveLen headSize :: .append true firstLen :: t.1, t.2)
  | .wantBlock, results => blockLoopTr results recv inp

/-! ### The events change nothing -/

section Erase

theorem afterBlockTr_snd {next : Recv → List UInt8 → List Event × Parsed × List UInt8}
    {next' : Recv → List UInt8 → Parsed × List UInt8} (h : ∀ recv inp, (next recv inp).2 =
      next' recv inp) (recv : Recv) (inp : List UInt8) :
    (afterBlockTr next recv inp).2 = afterBlock next' recv inp := by
  unfold afterBlockTr afterBlock
  simp only
  split
  · rfl
  · split
    · rfl
    · exact h _ _

theorem readBlocksTr_snd (results : List ReadResult) (recv : Recv) (inp : List UInt8) :
    (readBlocksTr results recv inp).2 = readBlocks results recv inp := by
  induction results generalizing recv inp with
  | nil => rfl
  | cons res results ih =>
    cases res with
    | eof => rfl
    | data k =>
      unfold readBlocksTr readBlocks
      simp only
      split
      · rfl
      · split
        · rfl
        · exact afterBlockTr_snd ih _ _

theorem blockLoopTr_snd (results : List ReadResult) (recv : Recv) (inp : List UInt8) :
    (blockLoopTr results recv inp).2 = blockLoop results recv inp := by
  unfold blockLoopTr blockLoop
  split
  · exact readBlocksTr_snd results recv inp
  · exact afterBlockTr_snd (readBlocksTr_snd results) recv inp

theorem parsePacketTr_snd (results : List ReadResult) (recv : Recv) (inp : List UInt8) :
    (parsePacketTr results recv inp).2 = parsePacket results recv inp := by
  unfold parsePacketTr parsePacket
  cases recv.state with
  | wantBlock => exact blockLoopTr_snd results recv inp
  | wantHead =>
    match results with
    | [] => rfl
    | .eof :: _ => rfl
    | .data k :: results =>
      simp only
      split
      · rfl
      · split
        · rfl
        · split
          · rfl
          · exact blockLoopTr_snd _ _ _

end Erase

/-- The events of a call on a connection. -/
def Conn.events (c : Conn) (results : List ReadResult) : List Event :=
  if c.status = .open then (parsePacketTr results c.recv c.inp).1 else []

/-- The events of all calls. -/
def Conn.trace : Conn → List (List ReadResult) → List Event
  | _, [] => []
  | c, results :: calls => c.events results ++ (c.parse results).trace calls

/-! ## The lengths on the wire -/

/-- `firstLen` of a packet that begins here. -/
def firstLenOf (s : List UInt8) : ℤ := intOf (ofLe ((s.drop 4).take 4))

/-- The length of the next block, in a block that begins here. -/
def nextLenOf (s : List UInt8) : ℤ := intOf (ofLe (s.take 4))

/-- The lengths in these bytes, from the head of a packet or of a block of `n` bytes on: as far as
they are there, the first block of a packet is long enough for its headers, and any other for the
block header. -/
def lengthsOk : Option ℕ → List UInt8 → Bool
  | none, s =>
      if s.length < headSize then true
      else headSize ≤ firstLenOf s && lengthsOk (some (firstLenOf s).toNat) s
  | some n, s =>
      if s.length < n ∨ n = 0 then true
      else if nextLenOf s = 0 then lengthsOk none (s.drop n)
      else packetBlockHeaderSize ≤ nextLenOf s && lengthsOk (some (nextLenOf s).toNat) (s.drop n)
termination_by n s => (s.length, if n = none then 1 else 0)
decreasing_by
  · exact Prod.Lex.right _ (by simp)
  · apply Prod.Lex.left
    rw [List.length_drop]
    omega
  · apply Prod.Lex.left
    rw [List.length_drop]
    omega

/-! ## Where the parser stands on the wire -/

/-- Of a block of `n` bytes, with which the bytes `s` begin, those up to `inp` are there. -/
structure BlockAt (recv : Recv) (inp : List UInt8) (n : ℕ) (s : List UInt8) : Prop where
  state : recv.state = .wantBlock
  need : recv.need = n
  le : recv.haveLen ≤ n
  header : packetBlockHeaderSize ≤ n
  stream : recv.buf.load (recv.dataBlock, 0) recv.haveLen ++ inp = s

/-- Between two calls the parser is in the headers of a packet or in a block. -/
inductive RecvAt (recv : Recv) (inp : List UInt8) : Option ℕ → List UInt8 → Prop
  | head (state : recv.state = .wantHead) (lt : recv.haveLen < headSize) :
      RecvAt recv inp none (recv.headBuf.load () 0 recv.haveLen ++ inp)
  | block {n : ℕ} {s : List UInt8} (h : BlockAt recv inp n s) (lt : recv.haveLen < n) :
      RecvAt recv inp (some n) s

/-- How a call may end where the lengths still to come are right, or not (`b`). -/
def Outcome (b : Bool) : Parsed × List UInt8 → Prop
  | (.wait recv, inp) => ∃ n s, RecvAt recv inp n s ∧ lengthsOk n s = b
  | (.dispatch recv, inp) => recv.state = .wantHead ∧ recv.haveLen = 0 ∧ lengthsOk none inp = b
  | (.closed, _) => True
  | (.fault, _) => False

/-- With right lengths a call is safe. As long as it is safe the rest is as right as the whole. -/
def Traced (b : Bool) (t : List Event × Parsed × List UInt8) : Prop :=
  (b = true → ∀ e ∈ t.1, e.Safe) ∧ ((∀ e ∈ t.1, e.Safe) → Outcome b t.2)

theorem Traced.cons {b : Bool} {t : List Event × Parsed × List UInt8} (h : Traced b t) {e : Event}
    (he : e.Safe) : Traced b (e :: t.1, t.2) := by
  refine ⟨fun hb e' he' => ?_, fun hall => h.2 fun e' he' => hall e' (List.mem_cons_of_mem _ he')⟩
  rcases List.mem_cons.1 he' with rfl | he'
  · exact he
  · exact h.1 hb e' he'

theorem traced_unsafe {t : List Event × Parsed × List UInt8} {e : Event} (he : e ∈ t.1)
    (hbad : ¬ e.Safe) : Traced false t :=
  ⟨fun hb => (Bool.false_ne_true hb).elim, fun hall => absurd (hall e he) hbad⟩

theorem traced_one {b : Bool} {res : Parsed × List UInt8} {e : Event} (he : e.Safe)
    (h : Outcome b res) : Traced b ([e], res) :=
  Traced.cons (t := ([], res)) ⟨fun _ _ he => absurd he List.not_mem_nil, fun _ => h⟩ he

section Blocks
variable {recv : Recv} {inp s : List UInt8} {n : ℕ}

theorem take_append (inp : List UInt8) (m : ℕ) :
    inp.take m ++ inp.drop (inp.take m).length = inp :=
  List.prefix_iff_eq_append.1 (List.take_prefix m inp)

theorem BlockAt.read (h : BlockAt recv inp n s) {m : ℕ} (hm : m ≤ n - recv.haveLen) :
    BlockAt { recv with
        buf := recv.buf.store (recv.dataBlock, recv.haveLen) (inp.take m)
        haveLen := recv.haveLen + (inp.take m).length } (inp.drop (inp.take m).length) n s := by
  have hle := h.le
  have hlen : (inp.take m).length ≤ m := List.length_take_le m inp
  refine ⟨h.state, h.need, by simp only; omega, h.header, ?_⟩
  have hold : (recv.buf.store (recv.dataBlock, recv.haveLen) (inp.take m)).load
      (recv.dataBlock, 0) recv.haveLen = recv.buf.load (recv.dataBlock, 0) recv.haveLen :=
    Mem.load_store_of_disjoint _ (.inr (.inl (by simp)))
  have hnew := Mem.load_store_self recv.buf.mem recv.dataBlock recv.haveLen (inp.take m)
  have hload : (recv.buf.store (recv.dataBlock, recv.haveLen) (inp.take m)).load
      (recv.dataBlock, 0) (recv.haveLen + (inp.take m).length) =
      recv.buf.load (recv.dataBlock, 0) recv.haveLen ++ inp.take m := by
    unfold Rope.load at hold ⊢
    rw [Mem.load_add, hold, Nat.zero_add]
    exact congrArg _ hnew
  calc _ = recv.buf.load (recv.dataBlock, 0) recv.haveLen ++ inp.take m ++
        inp.drop (inp.take m).length := congrArg (· ++ _) hload
    _ = recv.buf.load (recv.dataBlock, 0) recv.haveLen ++ inp := by
        rw [List.append_assoc, take_append]
    _ = s := h.stream

section Full
variable (h : BlockAt recv inp n s) (hfull : recv.haveLen = n)
include h hfull

theorem BlockAt.not_short : ¬ (s.length < n ∨ n = 0) := by
  have hlen := congrArg List.length h.stream
  rw [List.length_append, Rope.load, Mem.load_length, hfull] at hlen
  have h4 := h.header
  unfold packetBlockHeaderSize at h4
  omega

theorem BlockAt.drop : s.drop n = inp := by
  rw [← h.stream, List.drop_left' (by rw [Rope.load, Mem.load_length, hfull])]

theorem BlockAt.nextLen : intOf (recv.buf.u32 (recv.dataBlock, 0)) = nextLenOf s := by
  have h4 := h.header
  unfold nextLenOf Rope.u32 Rope.load
  rw [← h.stream, hfull, Rope.load,
    List.take_append_of_le_length (by rw [Mem.load_length]; exact h4), Mem.load_take _ _ _ h4]

/-- After a complete block comes the block whose length it holds, or the end of the packet. -/
theorem afterBlockTr_traced {next : Recv → List UInt8 → List Event × Parsed × List UInt8}
    (hnext : ∀ recv' m, BlockAt recv' inp m inp → recv'.haveLen = 0 →
      Traced (lengthsOk (some m) inp) (next recv' inp)) :
    Traced (lengthsOk (some n) s) (afterBlockTr next recv inp) := by
  have hsafe : Event.Safe (.nextLen recv.haveLen recv.need) := by
    rw [h.need, hfull]
    exact le_refl _
  unfold afterBlockTr
  rw [lengthsOk, if_neg (h.not_short hfull), h.drop hfull, h.nextLen hfull]
  simp only
  by_cases h0 : nextLenOf s = 0
  · rw [if_pos h0, if_pos h0]
    exact traced_one hsafe ⟨rfl, rfl, rfl⟩
  · rw [if_neg h0, if_neg h0]
    by_cases h4 : (packetBlockHeaderSize : ℤ) ≤ nextLenOf s
    · have hm : (((nextLenOf s).toNat : ℕ) : ℤ) = nextLenOf s := by
        apply Int.toNat_of_nonneg
        unfold packetBlockHeaderSize at h4
        omega
      have hblock : BlockAt { recv with
          buf := appendBlock recv.buf (nextLenOf s).toNat
          need := nextLenOf s
          haveLen := 0 } inp (nextLenOf s).toNat inp :=
        ⟨h.state, hm.symm, Nat.zero_le _, by omega, rfl⟩
      rw [if_neg (by unfold packetBlockHeaderSize at h4; omega), decide_eq_true h4, Bool.true_and]
      exact ((hnext _ _ hblock rfl).cons (e := .append false (nextLenOf s)) h4).cons hsafe
    · rw [decide_eq_false h4, Bool.false_and]
      split
      · exact traced_unsafe (e := .append false (nextLenOf s)) (by simp) h4
      · exact traced_unsafe (e := .append false (nextLenOf s)) (by simp) h4

end Full

theorem BlockAt.read_safe (h : BlockAt recv inp n s) :
    Event.Safe (.read recv.haveLen recv.need) := by
  have hle := h.le
  unfold Event.Safe
  rw [h.need]
  omega

theorem readBlocksTr_traced (results : List ReadResult) (h : BlockAt recv inp n s)
    (hlt : recv.haveLen < n) : Traced (lengthsOk (some n) s) (readBlocksTr results recv inp) := by
  induction results generalizing recv inp n s with
  | nil => exact traced_one h.read_safe ⟨some n, s, .block h hlt, rfl⟩
  | cons res results ih =>
    cases res with
    | eof => exact traced_one h.read_safe trivial
    | data k =>
      have hneed := h.need
      have hread := h.read (m := min k (recv.need.toNat - recv.haveLen)) (by
        rw [h.need, Int.toNat_natCast]
        exact min_le_right _ _)
      unfold readBlocksTr
      simp only
      split
      · exact traced_one h.read_safe ⟨some n, s, .block h hlt, rfl⟩
      · split
        · next hmore =>
          refine traced_one h.read_safe ⟨some n, s, .block hread ?_, rfl⟩
          simp only
          omega
        · next hfull =>
          have hle := hread.le
          simp only at hle
          refine (afterBlockTr_traced hread (by simp only; omega) ?_).cons h.read_safe
          intro recv' m hblock h0
          have h4 := hblock.header
          unfold packetBlockHeaderSize at h4
          exact ih hblock (by omega)

theorem blockLoopTr_traced (results : List ReadResult) (h : BlockAt recv inp n s) :
    Traced (lengthsOk (some n) s) (blockLoopTr results recv inp) := by
  have hle := h.le
  unfold blockLoopTr
  split
  · next hlt =>
    rw [h.need] at hlt
    exact readBlocksTr_traced results h (Int.ofNat_lt.1 hlt)
  · next hfull =>
    rw [h.need] at hfull
    refine afterBlockTr_traced h (by omega) ?_
    intro recv' m hblock h0
    have h4 := hblock.header
    unfold packetBlockHeaderSize at h4
    exact readBlocksTr_traced results hblock (by omega)

end Blocks

/-! ## Calls -/

section Call
variable {recv : Recv} {inp s : List UInt8} {n : Option ℕ}

theorem head_load (recv : Recv) (inp : List UInt8) (m : ℕ) :
    (recv.headBuf.store () recv.haveLen (inp.take m)).load () 0
      (recv.haveLen + (inp.take m).length) ++ inp.drop (inp.take m).length =
      recv.headBuf.load () 0 recv.haveLen ++ inp := by
  have hold : (recv.headBuf.store () recv.haveLen (inp.take m)).load () 0 recv.haveLen =
      recv.headBuf.load () 0 recv.haveLen :=
    Mem.load_store_of_disjoint _ (.inr (.inl (by simp)))
  have hnew := Mem.load_store_self recv.headBuf () recv.haveLen (inp.take m)
  rw [Mem.load_add, hold, Nat.zero_add, hnew, List.append_assoc, take_append]

theorem parsePacketTr_traced (results : List ReadResult) (h : RecvAt recv inp n s) :
    Traced (lengthsOk n s) (parsePacketTr results recv inp) := by
  unfold parsePacketTr
  cases h with
  | block h hlt =>
    rw [h.state]
    exact blockLoopTr_traced results h
  | head hstate hlt =>
    have hread : Event.Safe (.read recv.haveLen headSize) := ⟨by omega, by omega⟩
    rw [hstate]
    match results with
    | [] => exact traced_one hread ⟨none, _, .head hstate hlt, rfl⟩
    | .eof :: _ => exact traced_one hread trivial
    | .data k :: results =>
      have hload := head_load recv inp (min k (headSize - recv.haveLen))
      simp only
      split
      · exact traced_one hread ⟨none, _, .head hstate hlt, rfl⟩
      · rw [← hload]
        split
        · next hmore =>
          refine traced_one hread ⟨none, _, RecvAt.head ?_ ?_, rfl⟩
          · rfl
          · exact hmore
        · next hfull =>
          have h16 : recv.haveLen + (inp.take (min k (headSize - recv.haveLen))).length =
              headSize := by
            have := List.length_take_le (min k (headSize - recv.haveLen)) inp
            omega
          generalize hb : recv.headBuf.store () recv.haveLen
            (inp.take (min k (headSize - recv.haveLen))) = headBuf at *
          generalize inp.drop (inp.take (min k (headSize - recv.haveLen))).length = inp' at *
          have hfirst : firstLenOf (headBuf.load () 0 headSize ++ inp') =
              intOf (ofLe (headBuf.load () 4 4)) := by
            unfold firstLenOf
            rw [List.drop_append_of_le_length (by rw [Mem.load_length]; decide),
              Mem.load_drop _ _ _ (by decide), List.take_append_of_le_length
              (by rw [Mem.load_length]; decide), Mem.load_take _ _ _ (by decide), Nat.zero_add]
          have hlong : ¬ (headBuf.load () 0 headSize ++ inp').length < headSize := by
            rw [List.length_append, Mem.load_length]
            omega
          rw [h16, lengthsOk, if_neg hlong, hfirst]
          by_cases hok : (headSize : ℤ) ≤ intOf (ofLe (headBuf.load () 4 4))
          · have hpos : (0 : ℤ) ≤ intOf (ofLe (headBuf.load () 4 4)) :=
              (Int.natCast_nonneg headSize).trans hok
            have hm := Int.toNat_of_nonneg hpos
            rw [decide_eq_true hok, Bool.true_and, if_neg (by omega)]
            refine ((blockLoopTr_traced results ?_).cons
              (e := .append true (intOf (ofLe (headBuf.load () 4 4)))) hok).cons hread
            refine ⟨rfl, hm.symm, by simp only; omega, ?_, ?_⟩
            · have : packetBlockHeaderSize ≤ headSize := by decide
              omega
            · have hself := Mem.load_store_self recv.buf.mem recv.buf.blocks.length 0
                (headBuf.load () 0 headSize)
              rw [Mem.load_length] at hself
              simp only [Recv.dataBlock, appendBlock, Rope.store, Rope.load, List.length_append,
                List.length_singleton, Nat.add_sub_cancel]
              rw [hself]
          · rw [decide_eq_false hok, Bool.false_and]
            split
            · exact traced_unsafe (e := .append true _) (by simp) hok
            · exact traced_unsafe (e := .append true _) (by simp) hok

theorem RecvAt.lengthsOk_nil (h : RecvAt recv [] n s) : lengthsOk n s = true := by
  cases h with
  | head _ hlt =>
    rw [lengthsOk, if_pos]
    rw [List.append_nil, Mem.load_length]
    exact hlt
  | block h hlt =>
    rw [lengthsOk, if_pos]
    have hlen := congrArg List.length h.stream
    rw [List.append_nil, Rope.load, Mem.load_length] at hlen
    exact .inl (by omega)

theorem RecvAt.shorter (h : RecvAt recv inp n s) (hne : inp ≠ []) :
    (parsePacket [.data 1] recv inp).2.length < inp.length := by
  apply parsePacket_shorter [] _ _ Nat.one_pos hne
  · intro hstate
    cases h with
    | head _ hlt => exact hlt
    | block h _ => cases h.state.symm.trans hstate
  · intro hstate
    cases h with
    | head hs _ => cases hs.symm.trans hstate
    | block h hlt =>
      rw [h.need]
      exact Int.ofNat_lt.2 hlt

end Call

/-! ## Connections -/

section Run
variable {c : Conn} {n : Option ℕ} {s : List UInt8}

/-- A call on a connection: what stands after it is what stood before, unless something unsafe was
done or the file has ended. -/
theorem parse_traced (hopen : c.status = .open) (h : RecvAt c.recv c.inp n s)
    (results : List ReadResult) :
    (lengthsOk n s = true → ∀ e ∈ c.events results, e.Safe) ∧
    ((∀ e ∈ c.events results, e.Safe) → (c.parse results).status = .closed ∨
      (c.parse results).status = .open ∧
      ∃ n' s', RecvAt (c.parse results).recv (c.parse results).inp n' s' ∧
        lengthsOk n' s' = lengthsOk n s) := by
  obtain ⟨hsafe, hout⟩ := parsePacketTr_traced results h
  rw [parsePacketTr_snd] at hout
  unfold Conn.events Conn.parse
  rw [if_pos hopen, if_pos hopen]
  refine ⟨hsafe, fun hall => ?_⟩
  have hres := hout hall
  generalize parsePacket results c.recv c.inp = res at hres
  match res, hres with
  | (.wait recv, inp), ⟨n', s', hat, hb⟩ => exact .inr ⟨hopen, n', s', hat, hb⟩
  | (.dispatch recv, inp), ⟨hstate, hhave, hb⟩ =>
    have hlt : recv.haveLen < headSize := by
      rw [hhave]
      decide
    have hat : RecvAt { recv with buf := { recv.buf with blocks := [] } } inp none
        (recv.headBuf.load () 0 recv.haveLen ++ inp) := .head hstate hlt
    refine .inr ⟨hopen, none, _, hat, ?_⟩
    rw [hhave]
    exact hb
  | (.closed, inp), _ => exact .inl rfl

theorem trace_closed (h : c.status = .closed) (calls : List (List ReadResult)) :
    c.trace calls = [] := by
  induction calls with
  | nil => rfl
  | cons results calls ih =>
    have hparse : c.parse results = c := by
      unfold Conn.parse
      rw [h, if_neg (by simp)]
    rw [Conn.trace, hparse, ih, Conn.events, h, if_neg (by simp), List.nil_append]

theorem trace_safe (hopen : c.status = .open) (h : RecvAt c.recv c.inp n s)
    (hok : lengthsOk n s = true) (calls : List (List ReadResult)) :
    ∀ e ∈ c.trace calls, e.Safe := by
  induction calls generalizing c n s with
  | nil =>
    intro e he
    cases he
  | cons results calls ih =>
    obtain ⟨hsafe, hafter⟩ := parse_traced hopen h results
    have hcall := hsafe hok
    intro e he
    rcases List.mem_append.1 he with he | he
    · exact hcall e he
    · rcases hafter hcall with hclosed | ⟨hopen', n', s', hat, hb⟩
      · rw [trace_closed hclosed] at he
        cases he
      · exact ih hopen' hat (hb.trans hok) e he

theorem trace_unsafe (hopen : c.status = .open) (h : RecvAt c.recv c.inp n s)
    (hbad : lengthsOk n s = false) : ∃ calls, ∃ e ∈ c.trace calls, ¬ e.Safe := by
  generalize hlen : c.inp.length = l
  induction l using Nat.strong_induction_on generalizing c n s with
  | h l ih =>
    have hne : c.inp ≠ [] := by
      intro hnil
      rw [hnil] at h
      rw [h.lengthsOk_nil] at hbad
      cases hbad
    by_cases hall : ∀ e ∈ c.events [.data 1], e.Safe
    · have hlt := h.shorter hne
      have hclosed := parsePacket_closed [.data 1] c.recv c.inp
      rcases (parse_traced hopen h [.data 1]).2 hall with hc | ⟨hopen', n', s', hat, hb⟩
      · unfold Conn.parse at hc
        rw [if_pos hopen] at hc
        generalize parsePacket [.data 1] c.recv c.inp = res at hc hclosed
        match res, hc, hclosed with
        | (.wait _, _), hc, _ => cases hopen.symm.trans hc
        | (.dispatch _, _), hc, _ => cases hopen.symm.trans hc
        | (.closed, _), _, hclosed => simp at hclosed
      · have hlt' : (c.parse [.data 1]).inp.length < l := by
          rw [← hlen]
          unfold Conn.parse
          rw [if_pos hopen]
          generalize parsePacket [.data 1] c.recv c.inp = res at hlt
          match res, hlt with
          | (.wait _, _), hlt => exact hlt
          | (.dispatch _, _), hlt => exact hlt
          | (.closed, _), hlt => exact hlt
          | (.fault, _), hlt => exact hlt
        obtain ⟨calls, e, he, hunsafe⟩ := ih _ hlt' hopen' hat (hb.trans hbad) rfl
        exact ⟨[.data 1] :: calls, e, List.mem_append_right _ he, hunsafe⟩
    · push Not at hall
      obtain ⟨e, he, hunsafe⟩ := hall
      exact ⟨[[.data 1]], e, List.mem_append_left _ he, hunsafe⟩

end Run

/-- Whatever the pieces in which the bytes arrive, every block appended is long enough for its
header, the first of a packet for all headers, every read is for a number of bytes that is not
negative nor below those there, and a next length is loaded from a complete block only: if, and
only if, the lengths among the bytes are not too small. -/
theorem parsePacket_safe_iff (headBuf : Mem Unit) (mem : Mem ℕ) (need : ℤ) (inp : List UInt8) :
    (∀ calls, ∀ e ∈ (Conn.start headBuf mem need inp).trace calls, e.Safe) ↔
      lengthsOk none inp = true := by
  have hat : RecvAt (Conn.start headBuf mem need inp).recv inp none inp :=
    .head rfl (Nat.zero_lt_succ 15)
  constructor
  · intro hall
    by_contra hbad
    obtain ⟨calls, e, he, hunsafe⟩ := trace_unsafe rfl hat (Bool.eq_false_iff.2 hbad)
    exact hunsafe (hall calls e he)
  · intro hok calls
    exact trace_safe rfl hat hok calls

/-- A peer that gives its first block 8 bytes has 16 copied into them. -/
theorem short_first_block : ¬ ∀ (inp : List UInt8) (calls : List (List ReadResult)),
    ∀ e ∈ (Conn.start (fun _ _ => 0) (fun _ _ => 0) 0 inp).trace calls, e.Safe := by
  intro h
  have hbad := h [0, 0, 0, 0, 8, 0, 0, 0, 0, 0, 0, 0, 1, 0, 0, 0] [[.data 16]] (.append true 8)
    (by
      show _ ∈ [Event.read 0 16, .append true 8, .nextLen 16 8] ++ _
      simp)
  exact absurd hbad (by unfold Event.Safe; decide)

end Netp.Genf
