import Netp.Genf.ParseFrame

/-! # The parser delivers what was sent

Relative to the packets still to come, a call of `parsePacket` either leaves the parser at a later
point of the first of them, or it dispatches exactly that one and stands before the next
(`parsePacket_spec`). From this the packets dispatched over any calls are those sent, in order.
-/

namespace Netp.Genf
open Netp.Lib
set_option autoImplicit false

/-- The bytes of these packets, one after the other. -/
def wire (fs : List (List (List UInt8))) : List UInt8 := (fs.map List.flatten).flatten

theorem wire_cons (f : List (List UInt8)) (fs : List (List (List UInt8))) :
    wire (f :: fs) = f.flatten ++ wire fs := by
  simp [wire]

/-- Of the block `cur` of the packet `done ++ cur :: rest` the first `haveLen` bytes are there. -/
structure BlockInv (recv : Recv) (inp : List UInt8) (done : List (List UInt8)) (cur : List UInt8)
    (rest : List (List UInt8)) (fs : List (List (List UInt8))) : Prop where
  state : recv.state = .wantBlock
  frame : Frame (done ++ cur :: rest)
  lens : recv.buf.blocks.map RopeBlock.len = done.map List.length ++ [cur.length]
  done_eq : ∀ (i : ℕ) (b : List UInt8), done[i]? = some b → recv.buf.mem.load i 0 b.length = b
  cur_eq : recv.buf.mem.load done.length 0 recv.haveLen = cur.take recv.haveLen
  need : recv.need = cur.length
  le : recv.haveLen ≤ cur.length
  inp_eq : inp = cur.drop recv.haveLen ++ (rest.flatten ++ wire fs)

/-- Where the parser stands when the packets `fs` are not dispatched yet. -/
inductive RecvInv (recv : Recv) (inp : List UInt8) (fs : List (List (List UInt8))) : Prop
  | head (state : recv.state = .wantHead) (blocks : recv.buf.blocks = [])
      (lt : recv.haveLen < 16)
      (inp_eq : recv.headBuf.load () 0 recv.haveLen ++ inp = wire fs)
  | block {done : List (List UInt8)} {cur : List UInt8} {rest : List (List UInt8)}
      {fs' : List (List (List UInt8))} (fs_eq : fs = (done ++ cur :: rest) :: fs')
      (h : BlockInv recv inp done cur rest fs') (lt : recv.haveLen < cur.length)

/-- What may come of a call when the packets `fs` are not dispatched yet. -/
def ParseSpec (fs : List (List (List UInt8))) : Parsed × List UInt8 → Prop
  | (.wait recv, inp) => RecvInv recv inp fs
  | (.dispatch recv, inp) => ∃ f fs', fs = f :: fs' ∧ recv.buf.contents = f ∧
      recv.state = .wantHead ∧ recv.haveLen = 0 ∧ inp = wire fs'
  | (.closed, inp) => inp = [] → fs = []
  | (.fault, _) => False

theorem intOf_eq {n : ℕ} (h : n < 2 ^ 31) : intOf n = n := by
  have hn : (BitVec.ofNat 32 n).toNat = n := by
    rw [BitVec.toNat_ofNat]
    exact Nat.mod_eq_of_lt (by omega)
  unfold intOf
  rw [BitVec.toInt_eq_toNat_of_lt (by rw [hn]; omega), hn]

/-! ## The block loop -/

section Blocks
variable {recv : Recv} {inp : List UInt8} {done rest : List (List UInt8)} {cur : List UInt8}
  {fs : List (List (List UInt8))}

theorem BlockInv.dataBlock (h : BlockInv recv inp done cur rest fs) :
    recv.dataBlock = done.length := by
  have := congrArg List.length h.lens
  simp only [List.length_map, List.length_append, List.length_singleton] at this
  unfold Recv.dataBlock
  omega

theorem BlockInv.inp_ne (h : BlockInv recv inp done cur rest fs)
    (hlt : recv.haveLen < cur.length) : inp ≠ [] := by
  intro hnil
  have := congrArg List.length (hnil.symm.trans h.inp_eq)
  simp only [List.length_nil, List.length_append, List.length_drop] at this
  omega

theorem BlockInv.read (h : BlockInv recv inp done cur rest fs) {m : ℕ}
    (hm : m ≤ cur.length - recv.haveLen) :
    BlockInv { recv with
        buf := recv.buf.store (recv.dataBlock, recv.haveLen) ((cur.drop recv.haveLen).take m)
        haveLen := recv.haveLen + m } (inp.drop m) done cur rest fs := by
  have hlen : ((cur.drop recv.haveLen).take m).length = m := by
    rw [List.length_take, List.length_drop]
    omega
  have hle := h.le
  refine ⟨h.state, h.frame, h.lens, ?_, ?_, h.need, by simp only; omega, ?_⟩
  · intro i b hb
    have hi : i < done.length := (List.getElem?_eq_some_iff.1 hb).1
    have hne : i ≠ recv.dataBlock := by
      rw [h.dataBlock]
      omega
    exact (Mem.load_store_of_disjoint _ (.inl hne)).trans (h.done_eq i b hb)
  · simp only [Rope.store]
    rw [h.dataBlock, Mem.load_add, List.take_add]
    congr 1
    · exact (Mem.load_store_of_disjoint _ (.inr (.inl (by simp)))).trans h.cur_eq
    · have := Mem.load_store_self recv.buf.mem done.length recv.haveLen
        ((cur.drop recv.haveLen).take m)
      rw [hlen] at this
      rw [Nat.zero_add]
      exact this
  · simp only
    rw [h.inp_eq, List.drop_append_of_le_length (by rw [List.length_drop]; exact hm),
      List.drop_drop]

theorem BlockInv.nextLen (h : BlockInv recv inp done cur rest fs)
    (hfull : recv.haveLen = cur.length) :
    intOf (recv.buf.u32 (recv.dataBlock, 0)) = ((rest.head?.map List.length).getD 0 : ℕ) := by
  have hcur : (done ++ cur :: rest)[done.length]? = some cur := by simp
  obtain ⟨h4, -, hnext⟩ := h.frame.next done.length cur hcur
  have hsmall : (rest.head?.map List.length).getD 0 < 2 ^ 31 := by
    cases rest with
    | nil => simp
    | cons b rest =>
      have hb : (done ++ cur :: b :: rest)[done.length + 1]? = some b := by simp
      exact (h.frame.next _ b hb).2.1
  have hidx : (done ++ cur :: rest)[done.length + 1]? = rest.head? := by
    rw [List.getElem?_append_right (by omega), List.head?_eq_getElem?]
    simp
  have hload : recv.buf.mem.load done.length 0 4 = cur.take 4 := by
    have := h.cur_eq
    rw [hfull, List.take_length] at this
    rw [← Mem.load_take _ _ _ h4, this]
  unfold Rope.u32 Rope.load
  rw [h.dataBlock, hload, hnext, hidx]
  exact intOf_eq hsmall

theorem BlockInv.contents (h : BlockInv recv inp done cur [] fs)
    (hfull : recv.haveLen = cur.length) : recv.buf.contents = done ++ [cur] := by
  have hlens := h.lens
  apply List.ext_getElem?
  intro i
  rw [contents_getElem?]
  have hi := congrArg (fun l : List ℕ => l[i]?) hlens
  simp only [List.getElem?_map] at hi
  rcases Nat.lt_trichotomy i done.length with hlt | heq | hgt
  · rw [List.getElem?_append_left (by simpa using hlt), List.getElem?_map] at hi
    rw [List.getElem?_append_left hlt]
    have hb : done[i]? = some done[i] := List.getElem?_eq_getElem hlt
    rw [hb] at hi ⊢
    obtain ⟨t, ht, htl⟩ := Option.map_eq_some_iff.1 hi
    rw [ht, Option.map_some, htl]
    exact congrArg some (h.done_eq i _ hb)
  · subst heq
    rw [List.getElem?_append_right (by simp)] at hi
    rw [List.getElem?_append_right (le_refl _)]
    simp only [List.length_map, Nat.sub_self, List.getElem?_cons_zero] at hi ⊢
    obtain ⟨t, ht, htl⟩ := Option.map_eq_some_iff.1 hi
    have hcur := h.cur_eq
    rw [hfull, List.take_length] at hcur
    rw [ht, Option.map_some, htl, hcur]
  · have hnone : (done.map List.length ++ [cur.length])[i]? = none := by
      rw [List.getElem?_eq_none_iff]
      simp only [List.length_append, List.length_map, List.length_singleton]
      omega
    rw [hnone, Option.map_eq_none_iff] at hi
    rw [hi, List.getElem?_eq_none (by rw [List.length_append, List.length_singleton]; omega)]
    rfl

theorem afterBlock_eq (next : Recv → List UInt8 → Parsed × List UInt8) (recv : Recv)
    (inp : List UInt8) {n : ℕ} (hn : intOf (recv.buf.u32 (recv.dataBlock, 0)) = n) :
    afterBlock next recv inp =
      if n = 0 then (.dispatch { recv with state := .wantHead, need := 0, haveLen := 0 }, inp)
      else next { recv with buf := appendBlock recv.buf n, need := n, haveLen := 0 } inp := by
  unfold afterBlock
  by_cases h0 : n = 0
  · subst h0
    simp [hn]
  · simp [hn, h0]

/-- A complete block: the packet is dispatched, or the next block is begun. -/
theorem afterBlock_spec {next : Recv → List UInt8 → Parsed × List UInt8}
    (h : BlockInv recv inp done cur rest fs) (hfull : recv.haveLen = cur.length)
    (hnext : ∀ (recv' : Recv) (b : List UInt8) (rest' : List (List UInt8)), rest = b :: rest' →
      BlockInv recv' inp (done ++ [cur]) b rest' fs → recv'.haveLen < b.length →
      ParseSpec ((done ++ cur :: rest) :: fs) (next recv' inp)) :
    ParseSpec ((done ++ cur :: rest) :: fs) (afterBlock next recv inp) := by
  have hinp := h.inp_eq
  rw [hfull, List.drop_length, List.nil_append] at hinp
  cases rest with
  | nil =>
    have hn : intOf (recv.buf.u32 (recv.dataBlock, 0)) = (0 : ℕ) := h.nextLen hfull
    rw [afterBlock_eq next recv inp hn]
    refine ⟨done ++ [cur], fs, rfl, ?_, rfl, rfl, ?_⟩
    · exact h.contents hfull
    · simpa using hinp
  | cons b rest' =>
    have hb : (done ++ cur :: b :: rest')[done.length + 1]? = some b := by simp
    have h4 := (h.frame.next _ b hb).1
    have happ : done ++ cur :: b :: rest' = done ++ [cur] ++ b :: rest' := by simp
    have hn : intOf (recv.buf.u32 (recv.dataBlock, 0)) = (b.length : ℕ) := h.nextLen hfull
    rw [afterBlock_eq next recv inp hn, if_neg (by omega)]
    refine hnext _ b rest' rfl ⟨h.state, ?_, ?_, ?_, ?_, rfl, Nat.zero_le _, ?_⟩ ?_
    · rw [← happ]
      exact h.frame
    · simp only [appendBlock, List.map_append, List.map_cons, List.map_nil, h.lens,
        List.append_assoc]
    · intro i b' hb'
      simp only [appendBlock]
      rcases Nat.lt_or_ge i done.length with hlt | hge
      · rw [List.getElem?_append_left hlt] at hb'
        exact h.done_eq i b' hb'
      · have hlt := (List.getElem?_eq_some_iff.1 hb').1
        rw [List.length_append, List.length_singleton] at hlt
        have hi : i = done.length := by omega
        subst hi
        rw [List.getElem?_append_right (le_refl _), Nat.sub_self] at hb'
        cases Option.some.inj hb'
        have hcur := h.cur_eq
        rw [hfull, List.take_length] at hcur
        exact hcur
    · rfl
    · rw [hinp]
      simp
    · simp only
      omega

theorem readBlocks_spec (results : List ReadResult)
    (h : BlockInv recv inp done cur rest fs) (hlt : recv.haveLen < cur.length) :
    ParseSpec ((done ++ cur :: rest) :: fs) (readBlocks results recv inp) := by
  induction results generalizing recv inp done cur rest with
  | nil => exact .block rfl h hlt
  | cons res results ih =>
    cases res with
    | eof =>
      intro hnil
      exact absurd hnil (h.inp_ne hlt)
    | data k =>
      have hneed : recv.need.toNat = cur.length := by
        rw [h.need]
        rfl
      obtain ⟨m, hmdef⟩ : ∃ m, m = min k (cur.length - recv.haveLen) := ⟨_, rfl⟩
      have hm : m ≤ cur.length - recv.haveLen := by omega
      have hbs : inp.take m = (cur.drop recv.haveLen).take m := by
        rw [h.inp_eq, List.take_append_of_le_length (by rw [List.length_drop]; exact hm)]
      have hlen : ((cur.drop recv.haveLen).take m).length = m := by
        rw [List.length_take, List.length_drop]
        omega
      have hread := h.read hm
      unfold readBlocks
      simp only [hneed, ← hmdef, hbs, hlen]
      split
      · exact .block rfl h hlt
      · split
        · next hshort =>
          rw [h.need] at hshort
          exact .block rfl hread (by simp only; omega)
        · next hfull =>
          rw [h.need] at hfull
          apply afterBlock_spec hread
          · simp only
            omega
          · intro recv' b rest' hrest hinv hlt'
            have := ih hinv hlt'
            rw [hrest]
            simpa using this

end Blocks

/-! ## One call -/

section Call
variable {recv : Recv} {inp : List UInt8} {fs : List (List (List UInt8))}

theorem Frame.first_block {f : List (List UInt8)} (hf : Frame f) :
    ∃ b rest, f = b :: rest ∧ 16 ≤ b.length ∧ b.length < 2 ^ 31 ∧
      ofLe ((b.drop 4).take 4) = b.length := by
  obtain ⟨b, hb, h16, hfirst⟩ := hf.first
  cases f with
  | nil => cases hb
  | cons b' rest =>
    have he : b' = b := Option.some.inj hb
    subst he
    exact ⟨b', rest, rfl, h16, (hf.next 0 b' rfl).2.1, hfirst⟩

theorem RecvInv.inp_nil (hfs : ∀ f ∈ fs, Frame f) (h : RecvInv recv inp fs) :
    inp = [] → fs = [] := by
  intro hnil
  cases h with
  | block hfs' h hlt => exact absurd hnil (h.inp_ne hlt)
  | head hstate hblocks hlt hinp =>
    cases fs with
    | nil => rfl
    | cons f fs =>
      obtain ⟨b, rest, rfl, h16, -, -⟩ := (hfs f (by simp)).first_block
      have := congrArg List.length hinp
      simp only [hnil, List.append_nil, Mem.load_length, wire_cons, List.flatten_cons,
        List.length_append] at this
      omega

theorem head_read {headBuf : Mem Unit} {n k : ℕ} {w : List UInt8}
    (hinp : headBuf.load () 0 n ++ inp = w) :
    (headBuf.store () n (inp.take k)).load () 0 (n + (inp.take k).length) ++
      inp.drop (inp.take k).length = w := by
  have h1 : (headBuf.store () n (inp.take k)).load () 0 n = headBuf.load () 0 n :=
    Mem.load_store_of_disjoint _ (.inr (.inl (by simp)))
  have h2 := Mem.load_store_self headBuf () n (inp.take k)
  have h3 : inp.take k ++ inp.drop (inp.take k).length = inp := by
    rw [List.length_take]
    rcases Nat.le_total k inp.length with hk | hk
    · rw [Nat.min_eq_left hk, List.take_append_drop]
    · rw [Nat.min_eq_right hk, List.take_of_length_le hk, List.drop_length, List.append_nil]
  rw [Mem.load_add, h1, Nat.zero_add, h2, List.append_assoc, h3, hinp]

theorem first_block_inv {b : List UInt8} {rest : List (List UInt8)} {headBuf : Mem Unit}
    {buf : Rope} (hf : Frame (b :: rest)) (hblocks : buf.blocks = []) (h16 : 16 ≤ b.length)
    (hhead : headBuf.load () 0 16 = b.take 16)
    (hinp : inp = b.drop 16 ++ (rest.flatten ++ wire fs)) :
    BlockInv ⟨.wantBlock, headBuf, (appendBlock buf b.length).store
      ((appendBlock buf b.length).blocks.length - 1, 0) (headBuf.load () 0 headSize), headSize,
      b.length⟩ inp [] b rest fs := by
  refine ⟨rfl, hf, ?_, ?_, ?_, rfl, h16, hinp⟩
  · simp [appendBlock, Rope.store, hblocks]
  · intro i b' hb'
    simp at hb'
  · simp only [appendBlock, hblocks, List.nil_append, List.length_singleton, Nat.sub_self,
      List.length_nil, Rope.store]
    have := Mem.load_store_self buf.mem 0 0 (headBuf.load () 0 headSize)
    rw [Mem.load_length] at this
    exact this.trans hhead

theorem head_spec {headBuf : Mem Unit} {buf : Rope} (results : List ReadResult)
    (hfs : ∀ f ∈ fs, Frame f) (hblocks : buf.blocks = [])
    (hinp : headBuf.load () 0 16 ++ inp = wire fs) :
    ParseSpec fs
      (if intOf (ofLe (headBuf.load () 4 4)) < 0 then (.fault, inp)
      else blockLoop results ⟨.wantBlock, headBuf,
        (appendBlock buf (intOf (ofLe (headBuf.load () 4 4))).toNat).store
          ((appendBlock buf (intOf (ofLe (headBuf.load () 4 4))).toNat).blocks.length - 1, 0)
          (headBuf.load () 0 headSize), headSize, intOf (ofLe (headBuf.load () 4 4))⟩ inp) := by
  cases fs with
  | nil =>
    have := congrArg List.length hinp
    simp [wire] at this
  | cons f fs =>
    obtain ⟨b, rest, rfl, h16, hsmall, hfirst⟩ := (hfs f (by simp)).first_block
    have hframe := hfs _ (List.mem_cons_self)
    rw [wire_cons, List.flatten_cons, List.append_assoc] at hinp
    have hhead : headBuf.load () 0 16 = b.take 16 := by
      have := congrArg (List.take 16) hinp
      rwa [List.take_left' (by simp), List.take_append_of_le_length h16] at this
    have hrest : inp = b.drop 16 ++ (rest.flatten ++ wire fs) := by
      have := congrArg (List.drop 16) hinp
      rwa [List.drop_left' (by simp), List.drop_append_of_le_length h16] at this
    have hlen : intOf (ofLe (headBuf.load () 4 4)) = b.length := by
      have h4 : headBuf.load () 4 4 = (b.drop 4).take 4 := by
        have h1 : ((headBuf.load () 0 16).drop 4).take 4 = ((b.take 16).drop 4).take 4 := by
          rw [hhead]
        rw [Mem.load_drop _ _ _ (by omega), Mem.load_take _ _ _ (by omega), Nat.zero_add] at h1
        rw [h1, List.drop_take, List.take_take]
        rfl
      rw [h4, hfirst]
      exact intOf_eq hsmall
    have hinv := first_block_inv hframe hblocks h16 hhead hrest
    rw [hlen, if_neg (by omega), Int.toNat_natCast]
    unfold blockLoop
    split
    · next hlt => exact readBlocks_spec results hinv (by simp only at hlt ⊢; omega)
    · next hge =>
      apply afterBlock_spec hinv
      · have h1 : ¬ ((16 : ℕ) : ℤ) < b.length := hge
        show 16 = b.length
        omega
      · intro recv' b' rest' hr hinv' hlt'
        have := readBlocks_spec results hinv' hlt'
        rw [hr]
        exact this

theorem parsePacket_spec (results : List ReadResult) (hfs : ∀ f ∈ fs, Frame f)
    (h : RecvInv recv inp fs) : ParseSpec fs (parsePacket results recv inp) := by
  cases h with
  | block hfs h hlt =>
    subst hfs
    have hn : (recv.haveLen : ℤ) < recv.need := by
      rw [h.need]
      omega
    have hstate := h.state
    unfold parsePacket
    rw [hstate]
    simp only [blockLoop, if_pos hn]
    exact readBlocks_spec results h hlt
  | head hstate hblocks hlt hinp =>
    unfold parsePacket
    rw [hstate]
    cases results with
    | nil => exact .head hstate hblocks hlt hinp
    | cons res results =>
      cases res with
      | eof => exact RecvInv.inp_nil hfs (.head hstate hblocks hlt hinp)
      | data k =>
        simp only
        have hread := head_read (k := min k (headSize - recv.haveLen)) hinp
        have hle : (inp.take (min k (headSize - recv.haveLen))).length ≤ 16 - recv.haveLen := by
          rw [List.length_take]
          show _ ≤ headSize - recv.haveLen
          omega
        generalize inp.take (min k (headSize - recv.haveLen)) = bs at hread hle ⊢
        split
        · exact .head hstate hblocks hlt hinp
        · split
          · next hshort => exact .head rfl hblocks hshort hread
          · next hfull =>
            have h16 : recv.haveLen + bs.length = 16 := by
              have : ¬ recv.haveLen + bs.length < 16 := hfull
              omega
            rw [h16] at hread
            exact head_spec results hfs hblocks hread

theorem afterBlock_length {next : Recv → List UInt8 → Parsed × List UInt8}
    (h : ∀ recv', (next recv' inp).2.length ≤ inp.length) :
    (afterBlock next recv inp).2.length ≤ inp.length := by
  unfold afterBlock
  simp only
  split
  · exact le_refl _
  · split
    · exact le_refl _
    · exact h _

theorem readBlocks_length (results : List ReadResult) (recv : Recv) (inp : List UInt8) :
    (readBlocks results recv inp).2.length ≤ inp.length := by
  induction results generalizing recv inp with
  | nil => exact le_refl _
  | cons res results ih =>
    cases res with
    | eof => exact le_refl _
    | data k =>
      have hdrop : ∀ n, (inp.drop n).length ≤ inp.length := by
        intro n
        rw [List.length_drop]
        omega
      unfold readBlocks
      simp only
      split
      · exact le_refl _
      · split
        · exact hdrop _
        · exact (afterBlock_length fun recv' => ih recv' _).trans (hdrop _)

theorem blockLoop_length (results : List ReadResult) (recv : Recv) (inp : List UInt8) :
    (blockLoop results recv inp).2.length ≤ inp.length := by
  unfold blockLoop
  split
  · exact readBlocks_length results recv inp
  · exact afterBlock_length fun recv' => readBlocks_length results recv' inp

theorem drop_take_length {k : ℕ} (hne : inp.take k ≠ []) :
    (inp.drop (inp.take k).length).length < inp.length := by
  have := List.length_pos_iff.2 hne
  rw [List.length_take] at this
  rw [List.length_drop, List.length_take]
  omega

theorem take_ne_nil {k : ℕ} (hk : 0 < k) (hne : inp ≠ []) : inp.take k ≠ [] := by
  intro h
  rw [List.take_eq_nil_iff] at h
  rcases h with h | h
  · omega
  · exact hne h

/-- A call whose first read gives bytes gets on, if any bytes are missing. -/
theorem parsePacket_shorter {k : ℕ} (results : List ReadResult)
    (hhead : recv.state = .wantHead → recv.haveLen < headSize)
    (hblock : recv.state = .wantBlock → (recv.haveLen : ℤ) < recv.need)
    (hk : 0 < k) (hne : inp ≠ []) :
    (parsePacket (.data k :: results) recv inp).2.length < inp.length := by
  unfold parsePacket
  cases hstate : recv.state with
  | wantBlock =>
    have hn := hblock hstate
    have hm : 0 < min k (recv.need.toNat - recv.haveLen) := by omega
    have htake := take_ne_nil hm hne
    simp only [blockLoop, if_pos hn, readBlocks, if_neg htake]
    split
    · exact drop_take_length htake
    · exact (afterBlock_length fun recv' => readBlocks_length results recv' _).trans_lt
        (drop_take_length htake)
  | wantHead =>
    have hlt := hhead hstate
    have hm : 0 < min k (headSize - recv.haveLen) := by omega
    have htake := take_ne_nil hm hne
    simp only [if_neg htake]
    split
    · exact drop_take_length htake
    · split
      · exact drop_take_length htake
      · exact (blockLoop_length _ _ _).trans_lt (drop_take_length htake)

theorem parsePacket_progress {k : ℕ} (results : List ReadResult) (h : RecvInv recv inp fs)
    (hk : 0 < k) (hne : inp ≠ []) :
    (parsePacket (.data k :: results) recv inp).2.length < inp.length := by
  apply parsePacket_shorter results _ _ hk hne
  · intro hstate
    cases h with
    | head _ _ hlt _ => exact hlt
    | block _ h _ => cases h.state.symm.trans hstate
  · intro hstate
    cases h with
    | head hs _ _ _ => cases hs.symm.trans hstate
    | block _ h hlt =>
      rw [h.need]
      omega

theorem afterBlock_closed {next : Recv → List UInt8 → Parsed × List UInt8} {p : Prop}
    (h : ∀ recv', (next recv' inp).1 = .closed → p) :
    (afterBlock next recv inp).1 = .closed → p := by
  unfold afterBlock
  simp only
  split
  · intro he
    cases he
  · split
    · intro he
      cases he
    · exact h _

theorem readBlocks_closed (results : List ReadResult) (recv : Recv) (inp : List UInt8) :
    (readBlocks results recv inp).1 = .closed → .eof ∈ results := by
  induction results generalizing recv inp with
  | nil =>
    intro he
    cases he
  | cons res results ih =>
    cases res with
    | eof =>
      intro _
      exact List.mem_cons_self
    | data k =>
      unfold readBlocks
      simp only
      split
      · intro he
        cases he
      · split
        · intro he
          cases he
        · apply afterBlock_closed
          intro recv' he
          exact List.mem_cons_of_mem _ (ih recv' _ he)

theorem parsePacket_closed (results : List ReadResult) (recv : Recv) (inp : List UInt8) :
    (parsePacket results recv inp).1 = .closed → .eof ∈ results := by
  have hloop : ∀ (res : List ReadResult) (recv : Recv) (inp : List UInt8),
      (blockLoop res recv inp).1 = .closed → .eof ∈ res := by
    intro res recv inp
    unfold blockLoop
    split
    · exact readBlocks_closed res recv inp
    · exact afterBlock_closed fun recv' => readBlocks_closed res recv' inp
  unfold parsePacket
  split
  · intro he
    cases he
  · intro _
    exact List.mem_cons_self
  · simp only
    split
    · intro he
      cases he
    · split
      · intro he
        cases he
      · split
        · intro he
          cases he
        · intro he
          exact List.mem_cons_of_mem _ (hloop _ _ _ he)
  · exact hloop _ _ _

end Call

/-! ## Any number of calls -/

theorem packet_eq_of_contents {r r' : Rope} (h : r.contents = r'.contents) (h16 : 16 ≤ r.len 0) :
    r.packet = r'.packet := by
  have hpart : ∀ d, d + 4 ≤ 16 → r.u32 (0, d) = r'.u32 (0, d) := by
    intro d hd
    have := load_of_contents h.symm (p := (0, d)) (n := 4) (hd.trans h16)
    exact (congrArg ofLe this).symm
  unfold Rope.packet
  rw [h, hpart 12 (by omega), hpart 8 (by omega)]

/-- What was sent of a packet with this id. -/
def sentPacket (p : ℕ × Rope) : Packet := ⟨(packetBaseSend p.2).contents, p.1, p.2.length⟩

theorem Framed.packet {id : ℕ} {r : Rope} (h : Framed id r) (hid : id < 2 ^ 32) :
    (packetBaseSend r).packet = sentPacket (id, r) := by
  have h1 : (packetBaseSend r).u32 (0, 12) = id := by
    have := (packetBaseSend_load r (k := 0) (i := 12) (n := 4) (by omega) (by omega)).trans h.msgId
    exact (congrArg ofLe this).trans (ofLe_le_of_lt (by omega))
  have h2 : (packetBaseSend r).u32 (0, 8) = r.length := by
    have := h.small
    exact (congrArg ofLe (packetBaseSend_totalLen r)).trans (ofLe_le_of_lt (by omega))
  unfold Rope.packet sentPacket
  rw [h1, h2]

/-- The bytes of these packets after `send`. -/
def sentBytes (sent : List (ℕ × Rope)) : List UInt8 :=
  wire (sent.map fun p => (packetBaseSend p.2).contents)

/-- The packets `sent` are those dispatched and those still to come. -/
structure ConnInv (sent : List (ℕ × Rope)) (c : Conn) : Prop where
  fault : c.status ≠ .fault
  split : ∃ done todo, sent = done ++ todo ∧ c.out = done.map sentPacket ∧
    (c.status = .open → RecvInv c.recv c.inp (todo.map fun p => (packetBaseSend p.2).contents)) ∧
    (c.inp = [] → todo = [])

section Run
variable {sent : List (ℕ × Rope)} {c : Conn}

theorem ConnInv.parse (hsent : ∀ p ∈ sent, p.1 < 2 ^ 32 ∧ Framed p.1 p.2) (h : ConnInv sent c)
    (results : List ReadResult) : ConnInv sent (c.parse results) := by
  by_cases hopen : c.status = .open
  · obtain ⟨done, todo, hsplit, hout, hrecv, -⟩ := h.split
    have htodo : ∀ p ∈ todo, p.1 < 2 ^ 32 ∧ Framed p.1 p.2 := by
      intro p hp
      apply hsent p
      rw [hsplit]
      exact List.mem_append_right _ hp
    have hframes : ∀ f ∈ todo.map fun p => (packetBaseSend p.2).contents, Frame f := by
      intro f hf
      obtain ⟨p, hp, rfl⟩ := List.mem_map.1 hf
      exact (htodo p hp).2.frame
    have hspec := parsePacket_spec results hframes (hrecv hopen)
    unfold Conn.parse
    rw [if_pos hopen]
    generalize parsePacket results c.recv c.inp = res at hspec
    match res, hspec with
    | (.wait recv, inp), hinv =>
      refine ⟨h.fault, done, todo, hsplit, hout, fun _ => hinv, fun hnil => ?_⟩
      exact List.map_eq_nil_iff.1 (RecvInv.inp_nil hframes hinv hnil)
    | (.closed, inp), hnil =>
      refine ⟨by simp, done, todo, hsplit, hout, ?_, ?_⟩
      · intro he
        cases he
      · intro he
        exact List.map_eq_nil_iff.1 (hnil he)
    | (.dispatch recv, inp), hd =>
      obtain ⟨f, fs', hfs, hcontents, hstate, hhave, hinp⟩ := hd
      cases todo with
      | nil => cases hfs
      | cons p todo =>
        rw [List.map_cons, List.cons.injEq] at hfs
        obtain ⟨rfl, rfl⟩ := hfs
        obtain ⟨hid, hframed⟩ := htodo p List.mem_cons_self
        have hpacket : recv.buf.packet = sentPacket p := by
          rw [← hframed.packet hid]
          exact (packet_eq_of_contents hcontents.symm hframed.first).symm
        have hinv : RecvInv { recv with buf := { recv.buf with blocks := [] } } inp
            (todo.map fun p => (packetBaseSend p.2).contents) := by
          refine .head hstate rfl (by simp only; omega) ?_
          simp only [hhave]
          rw [hinp]
          rfl
        refine ⟨h.fault, done ++ [p], todo, by simp [hsplit], ?_, fun _ => hinv, fun hnil => ?_⟩
        · simp only
          rw [hout, hpacket, List.map_append]
          rfl
        · apply List.map_eq_nil_iff.1
          exact RecvInv.inp_nil (fun f hf => hframes f (List.mem_cons_of_mem _ hf)) hinv hnil
  · unfold Conn.parse
    rw [if_neg hopen]
    exact h

theorem ConnInv.parseAll (hsent : ∀ p ∈ sent, p.1 < 2 ^ 32 ∧ Framed p.1 p.2) (h : ConnInv sent c)
    (calls : List (List ReadResult)) : ConnInv sent (c.parseAll calls) := by
  induction calls generalizing c with
  | nil => exact h
  | cons results calls ih => exact ih (h.parse hsent results)

theorem connInv_start (hsent : ∀ p ∈ sent, p.1 < 2 ^ 32 ∧ Framed p.1 p.2) (headBuf : Mem Unit)
    (mem : Mem ℕ) (need : ℤ) : ConnInv sent (Conn.start headBuf mem need (sentBytes sent)) := by
  have hinv : RecvInv (Conn.start headBuf mem need (sentBytes sent)).recv (sentBytes sent)
      (sent.map fun p => (packetBaseSend p.2).contents) := .head rfl rfl (Nat.zero_lt_succ 15) rfl
  refine ⟨by simp [Conn.start], [], sent, rfl, rfl, fun _ => hinv, fun hnil => ?_⟩
  have hframes : ∀ f ∈ sent.map fun p => (packetBaseSend p.2).contents, Frame f := by
    intro f hf
    obtain ⟨p, hp, rfl⟩ := List.mem_map.1 hf
    exact (hsent p hp).2.frame
  exact List.map_eq_nil_iff.1 (RecvInv.inp_nil hframes hinv hnil)

theorem parse_open (hc : c.status = .open) (hfault : ∀ r, (c.parse r).status ≠ .fault)
    {results : List ReadResult} (heof : .eof ∉ results) : (c.parse results).status = .open := by
  have hf := hfault results
  have hclosed := parsePacket_closed results c.recv c.inp
  unfold Conn.parse at hf ⊢
  rw [if_pos hc] at hf ⊢
  generalize parsePacket results c.recv c.inp = res at hf hclosed
  match res, hf, hclosed with
  | (.wait _, _), _, _ => exact hc
  | (.dispatch _, _), _, _ => exact hc
  | (.closed, _), _, hclosed => exact absurd (hclosed rfl) heof
  | (.fault, _), hf, _ => exact absurd rfl hf

theorem parseAll_open (hsent : ∀ p ∈ sent, p.1 < 2 ^ 32 ∧ Framed p.1 p.2) (h : ConnInv sent c)
    (hc : c.status = .open) {calls : List (List ReadResult)}
    (heof : ∀ results ∈ calls, .eof ∉ results) : (c.parseAll calls).status = .open := by
  induction calls generalizing c with
  | nil => exact hc
  | cons results calls ih =>
    apply ih (h.parse hsent results)
    · exact parse_open hc (fun r => (h.parse hsent r).fault) (heof results List.mem_cons_self)
    · intro r hr
      exact heof r (List.mem_cons_of_mem _ hr)

theorem ConnInv.progress (h : ConnInv sent c) (hopen : c.status = .open) (hne : c.inp ≠ []) {k : ℕ}
    (hk : 0 < k) (results : List ReadResult) :
    (c.parse (.data k :: results)).inp.length < c.inp.length := by
  obtain ⟨done, todo, -, -, hrecv, -⟩ := h.split
  have hp := parsePacket_progress results (hrecv hopen) hk hne
  unfold Conn.parse
  rw [if_pos hopen]
  generalize parsePacket (.data k :: results) c.recv c.inp = res at hp
  match res, hp with
  | (.wait _, _), hp => exact hp
  | (.dispatch _, _), hp => exact hp
  | (.closed, _), hp => exact hp
  | (.fault, _), hp => exact hp

theorem ConnInv.read_all (hsent : ∀ p ∈ sent, p.1 < 2 ^ 32 ∧ Framed p.1 p.2) (h : ConnInv sent c)
    (hopen : c.status = .open) : ∃ calls, (c.parseAll calls).inp = [] := by
  generalize hn : c.inp.length = n
  induction n using Nat.strong_induction_on generalizing c with
  | h n ih =>
    by_cases hne : c.inp = []
    · exact ⟨[], hne⟩
    · have hlt := h.progress hopen hne Nat.one_pos []
      have heof : ReadResult.eof ∉ [.data 1] := by simp
      have hopen' := parse_open hopen (fun r => (h.parse hsent r).fault) heof
      obtain ⟨calls, hcalls⟩ := ih _ (hn ▸ hlt) (h.parse hsent [.data 1]) hopen' rfl
      exact ⟨[.data 1] :: calls, hcalls⟩

/-- Between a state with few dispatches and a later one with more stands the call that dispatches. -/
theorem parseAll_dispatch {calls : List (List ReadResult)} {n : ℕ} (h0 : c.out.length ≤ n)
    (h : n < (c.parseAll calls).out.length) : ∃ pre results recv inp,
      (c.parseAll pre).status = .open ∧ (c.parseAll pre).out.length = n ∧
      parsePacket results (c.parseAll pre).recv (c.parseAll pre).inp = (.dispatch recv, inp) := by
  induction calls generalizing c with
  | nil => exact absurd h (Nat.not_lt.2 h0)
  | cons results calls ih =>
    by_cases hn : (c.parse results).out.length ≤ n
    · obtain ⟨pre, results', recv, inp, hd⟩ := ih hn h
      exact ⟨results :: pre, results', recv, inp, hd⟩
    · refine ⟨[], results, ?_⟩
      unfold Conn.parse at hn
      split at hn
      · next hopen =>
        split at hn
        · exact absurd h0 hn
        · next recv inp hres =>
          rw [List.length_append, List.length_singleton] at hn
          exact ⟨recv, inp, hopen, by simp only [Conn.parseAll, List.foldl_nil]; omega, hres⟩
        · exact absurd h0 hn
        · exact absurd h0 hn
      · exact absurd h0 hn

end Run

/-- However the bytes arrive, the packets dispatched are those sent, in order, up to some packet,
and all of them once all bytes are read. A call that gets a byte gets on. -/
theorem parsePacket_delivers {C : ℕ} {sent : List (ℕ × Rope)}
    (hsent : ∀ p ∈ sent, p.1 < 2 ^ 32 ∧ Built C p.1 p.2) (headBuf : Mem Unit) (mem : Mem ℕ)
    (need : ℤ) (calls : List (List ReadResult)) :
    let c := (Conn.start headBuf mem need (sentBytes sent)).parseAll calls
    c.out <+: sent.map sentPacket ∧ (c.inp = [] → c.out = sent.map sentPacket) ∧
      ((∀ results ∈ calls, .eof ∉ results) → c.status = .open) ∧
      (c.status = .open → c.inp ≠ [] → ∀ (k : ℕ) (results : List ReadResult), 0 < k →
        (c.parse (.data k :: results)).inp.length < c.inp.length) := by
  intro c
  have hframed : ∀ p ∈ sent, p.1 < 2 ^ 32 ∧ Framed p.1 p.2 :=
    fun p hp => ⟨(hsent p hp).1, (hsent p hp).2.framed⟩
  have hstart := connInv_start hframed headBuf mem need
  have hinv : ConnInv sent c := hstart.parseAll hframed calls
  obtain ⟨done, todo, hsplit, hout, hrecv, hnil⟩ := hinv.split
  refine ⟨?_, ?_, ?_, ?_⟩
  · rw [hout, hsplit, List.map_append]
    exact List.prefix_append _ _
  · intro he
    rw [hout, hsplit, hnil he, List.append_nil]
  · intro heof
    exact parseAll_open hframed hstart rfl heof
  · intro hopen hne k results hk
    exact hinv.progress hopen hne hk results

/-- A packet of two blocks, in three pieces. -/
theorem parsePacket_delivers_pieces :
    ∃ r, Built 16 7 r ∧ ((Conn.start (fun _ _ => 0) (fun _ _ => 0) 0 (sentBytes [(7, r)])).parseAll
      [[.data 5], [.data 0], [.data 11, .data 3], [.data 100]]).out = [sentPacket (7, r)] := by
  have hopen : packetBaseOpen 16 (fun _ _ => 0) 7 4 = some _ :=
    packetBaseOpen_second (by omega) (by omega) _ _
  refine ⟨_, .opened hopen, (parsePacket_delivers (C := 16) ?_ _ _ _ _).2.1 rfl⟩
  intro p hp
  rw [List.mem_singleton.1 hp]
  exact ⟨by omega, .opened hopen⟩

end Netp.Genf
