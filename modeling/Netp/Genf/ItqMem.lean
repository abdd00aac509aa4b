import Netp.Genf.ItqWalk

/-! # The blocks of all writers

Each writer's blocks hold the messages it sent that are not released, one walk after the other, and
then what it has allocated since (`MemInv`). `allocBytes` adds a piece at the end, apart from all
others, and `release` takes the first message away.
-/

namespace Netp.Genf.Itq
open Netp.Lib
set_option autoImplicit false

/-- The walks of messages, one after the other. -/
inductive Walks : List ItBlock → ℕ → List Msg → List ItBlock → ℕ → Prop
  | nil (bs : List ItBlock) (o : ℕ) : Walks bs o [] bs o
  | cons {bs bs' bs'' : List ItBlock} {o o' o'' : ℕ} {m : Msg} {ms : List Msg}
      (h : Walk bs o m.pieces m.len bs' o') (hs : Walks bs' o' ms bs'' o'') :
      Walks bs o (m :: ms) bs'' o''

section Walks
variable {bs bs' bs'' ds : List ItBlock} {o o' o'' : ℕ} {m : Msg} {ms : List Msg}

theorem Walks.append (h : Walks bs o ms bs' o') : Walks (bs ++ ds) o ms (bs' ++ ds) o' := by
  induction h with
  | nil bs o => exact .nil _ _
  | cons h _ ih => exact .cons h.append ih

theorem Walks.snoc (hs : Walks bs o ms bs' o') (h : Walk bs' o' m.pieces m.len bs'' o'') :
    Walks bs o (ms ++ [m]) bs'' o'' := by
  induction hs with
  | nil bs o => exact .cons h (.nil _ _)
  | cons h' _ ih => exact .cons h' (ih h)

theorem Walks.walk (h : Walks bs o ms bs' o') : ∃ n, Walk bs o (ms.flatMap Msg.pieces) n bs' o' := by
  induction h with
  | nil bs o => exact ⟨0, .nil _ _⟩
  | cons h _ ih =>
    obtain ⟨n, hw⟩ := ih
    rw [List.flatMap_cons]
    exact ⟨_, h.trans hw⟩

/-- What follows the first message, from the next block if the first one is full. -/
theorem Walks.canon (hs : Walks bs o (m :: ms) bs' o') :
    Walks (canon bs o).1 (canon bs o).2 (m :: ms) bs' o' := by
  cases hs with
  | cons h hs => exact .cons (h.canon (Nat.zero_lt_succ 15)) hs

end Walks

/-- The messages `pend` and then the pieces `ps`, of length `n`, fill the blocks to the tail. -/
inductive WriterInv (w : ItWriter) (pend : List Msg) (ps : List Piece) (n : ℕ) : Prop
  | empty (hb : w.blocks = []) (hp : pend = []) (hps : ps = []) (hn : n = 0)
  | laid {t : ItBlock} {bs : List ItBlock} {o : ℕ} (last : w.blocks.getLast? = some t)
      (le : w.toff ≤ t.size) (hc : canon w.blocks w.hoff = (w.blocks, w.hoff))
      (sent : Walks w.blocks w.hoff pend bs o) (open_ : Walk bs o ps n [t] w.toff)

section Writer
variable {w : ItWriter} {pend : List Msg} {ps : List Piece} {n fresh size : ℕ}

theorem WriterInv.blk_mem (h : WriterInv w pend ps n) :
    ∀ p ∈ pend.flatMap Msg.pieces ++ ps, p.blk ∈ w.blocks.map ItBlock.name := by
  cases h with
  | empty hb hp hps hn =>
    intro p h
    rw [hp, hps] at h
    cases h
  | laid last le hc sent open_ =>
    obtain ⟨m, hw⟩ := sent.walk
    exact (hw.trans open_).blk_mem

theorem allocateBlock_le (name supporting : ℕ) : supporting ≤ (allocateBlock name supporting).size := by
  unfold allocateBlock
  simp only
  split
  · exact Nat.le_refl _
  · omega

theorem allocateBlock_pos (name supporting : ℕ) : 0 < (allocateBlock name supporting).size := by
  unfold allocateBlock itBlockSz
  simp only
  split
  · omega
  · omega

theorem WriterInv.alloc (h : WriterInv w pend ps w.mlen) (fresh size : ℕ) :
    WriterInv (w.allocBytes fresh size).1 pend
      (ps ++ [⟨(w.allocBytes fresh size).2.1.1, (w.allocBytes fresh size).2.1.2, size⟩])
      (w.allocBytes fresh size).1.mlen := by
  have hle := allocateBlock_le fresh size
  have hpos := allocateBlock_pos fresh size
  unfold ItWriter.allocBytes
  cases h with
  | empty hb hp hps hn =>
    rw [hb, hp, hps, hn]
    simp only [List.getLast?_nil]
    refine .laid (o := 0) rfl hle (canon_stay (by simp only; omega))
      (.nil _ _) ?_
    have hw : Walk [allocateBlock fresh size] 0 [⟨(allocateBlock fresh size).name, 0, size⟩]
        (size + 0) [allocateBlock fresh size] (0 + size) := .fit (by omega) (.nil _ _)
    rw [Nat.add_comm size 0, Nat.zero_add] at hw
    simpa using hw
  | laid last le hc sent open_ =>
    rename_i t bs o
    rw [last]
    simp only
    split
    · next hgt =>
      refine .laid (t := allocateBlock fresh size) (by simp) hle ?_ sent.append ?_
      · cases hb : w.blocks with
        | nil => simp [hb] at last
        | cons b cs =>
          rw [hb] at hc
          have hne : w.hoff ≠ b.size := by
            intro he
            rw [canon_full he] at hc
            have := congrArg (fun x => x.1.length) hc
            simp at this
          exact canon_stay hne
      · have := open_.snoc_move (c := allocateBlock fresh size) (by omega) le hle
        rwa [← Nat.add_assoc] at this
    · next hgt => exact .laid last (by simp only; omega) hc sent (open_.snoc_fit (by omega))

theorem allocBytes_blocks (w : ItWriter) (fresh size : ℕ) :
    ((w.allocBytes fresh size).1.blocks = w.blocks ∧ (w.allocBytes fresh size).2.2 = fresh) ∨
      ((w.allocBytes fresh size).1.blocks = w.blocks ++ [allocateBlock fresh size] ∧
        (w.allocBytes fresh size).2.2 = fresh + 1) := by
  unfold ItWriter.allocBytes
  cases hl : w.blocks.getLast? with
  | none =>
    rw [List.getLast?_eq_none_iff] at hl
    rw [hl]
    exact .inr ⟨rfl, rfl⟩
  | some t =>
    simp only
    split
    · exact .inr ⟨rfl, rfl⟩
    · exact .inl ⟨rfl, rfl⟩

theorem WriterInv.alloc_apart (h : WriterInv w pend ps n)
    (hn : (w.blocks.map ItBlock.name).Nodup) (hf : ∀ b ∈ w.blocks, b.name < fresh) :
    ∀ p ∈ pend.flatMap Msg.pieces ++ ps, 0 < p.len →
      (p.blk, p.off) ≠ (w.allocBytes fresh size).2.1 := by
  intro p hp hlen
  have hblk := h.blk_mem p hp
  have hlt : p.blk < fresh := by
    obtain ⟨b, hb, he⟩ := List.mem_map.1 hblk
    rw [← he]
    exact hf b hb
  cases h with
  | empty hb _ _ _ =>
    rw [hb] at hblk
    cases hblk
  | laid last le hc sent open_ =>
    rename_i t bs o
    obtain ⟨m, hw⟩ := sent.walk
    have hend := ((hw.trans open_).before_end rfl hn).1 p hp
    unfold ItWriter.allocBytes
    rw [last]
    simp only
    split
    · intro he
      have : p.blk = fresh := congrArg Prod.fst he
      omega
    · intro he
      have h1 : p.blk = t.name := congrArg Prod.fst he
      have h2 : p.off = w.toff := congrArg Prod.snd he
      have := hend h1
      omega

theorem canon_idem {bs : List ItBlock} {o : ℕ} (hpos : ∀ b ∈ bs, 0 < b.size) :
    canon (canon bs o).1 (canon bs o).2 = canon bs o := by
  cases bs with
  | nil => rfl
  | cons b bs =>
    by_cases h : o = b.size
    · rw [canon_full h]
      cases bs with
      | nil => rfl
      | cons c bs =>
        have := hpos c (by simp)
        exact canon_stay (by omega)
    · rw [canon_stay h, canon_stay h]

theorem getLast?_of_suffix {t : ItBlock} {bs : List ItBlock} (h : [t] <:+ bs) :
    bs.getLast? = some t := by
  obtain ⟨cs, rfl⟩ := h
  simp

theorem writerInv_of_walks {t : ItBlock} {blocks bs : List ItBlock} {hoff o : ℕ}
    (le : w.toff ≤ t.size) (hc : canon blocks hoff = (blocks, hoff))
    (sent : Walks blocks hoff pend bs o) (open_ : Walk bs o ps n [t] w.toff) :
    WriterInv { w with
      blocks := blocks, hoff := hoff, toff := if blocks = [] then 0 else w.toff } pend ps n := by
  obtain ⟨m, hw⟩ := sent.walk
  have hlast := getLast?_of_suffix (hw.trans open_).suffix
  have hne : blocks ≠ [] := by
    rintro rfl
    cases hlast
  rw [if_neg hne]
  exact .laid hlast le hc sent open_

theorem WriterInv.release {m : Msg} (h : WriterInv w (m :: pend) ps n)
    (hpos : ∀ b ∈ w.blocks, 0 < b.size) (hps : ∀ p ∈ ps.head?, 0 < p.len) :
    ∃ blocks hoff pops, releaseLoop w.blocks w.hoff m.len = some (blocks, hoff, pops) ∧
      WriterInv { w with
        blocks := blocks, hoff := hoff, toff := if blocks = [] then 0 else w.toff } pend ps n := by
  cases h with
  | empty _ hp _ _ => cases hp
  | laid last le hc sent open_ =>
    rename_i t bs o
    cases sent with
    | @cons _ bs1 _ _ o1 _ _ _ h hs =>
      have hskip := h.release hpos hc
      obtain ⟨⟨blocks, hoff, pops⟩, hr, he⟩ := Option.map_eq_some_iff.1 hskip
      have hb : blocks = (canon bs1 o1).1 := congrArg Prod.fst he
      have hh : hoff = (canon bs1 o1).2 := congrArg Prod.snd he
      have hidem : canon blocks hoff = (blocks, hoff) := by
        rw [hb, hh]
        exact canon_idem fun b hb => hpos b (h.suffix.subset hb)
      refine ⟨blocks, hoff, pops, hr, ?_⟩
      cases pend with
      | cons m' pend =>
        have hs' := hs.canon
        rw [← hb, ← hh] at hs'
        exact writerInv_of_walks le hidem hs' open_
      | nil =>
        cases hs
        cases ps with
        | cons p ps =>
          have hw := open_.canon (hps p rfl)
          rw [← hb, ← hh] at hw
          exact writerInv_of_walks le hidem (.nil _ _) hw
        | nil =>
          cases open_
          by_cases hfull : w.toff = t.size
          · rw [canon_full hfull] at hb
            exact .empty hb rfl rfl rfl
          · rw [canon_stay hfull] at hb hh
            subst hb hh
            exact writerInv_of_walks le hidem (.nil _ _) (.nil _ _)

end Writer

/-! ## All writers -/

structure Names (q : ItQueue) : Prop where
  lt : ∀ (w : ℕ) (b : ItBlock), b ∈ (q.writerVect w).blocks →
    b.name < q.fresh ∧ b.name ∉ q.freed ∧ 0 < b.size
  nodup : ∀ w, ((q.writerVect w).blocks.map ItBlock.name).Nodup
  apart : ∀ (w w' : ℕ) (b b' : ItBlock), b ∈ (q.writerVect w).blocks →
    b' ∈ (q.writerVect w').blocks → b.name = b'.name → w = w'
  freed : ∀ f ∈ q.freed, f < q.fresh

/-- One writer gets other blocks: some of its own, or a fresh one. -/
theorem Names.change {q q' : ItQueue} {w : ℕ} (h : Names q)
    (hothers : ∀ v, v ≠ w → (q'.writerVect v).blocks = (q.writerVect v).blocks)
    (hfresh : q.fresh ≤ q'.fresh)
    (hblocks : ∀ b ∈ (q'.writerVect w).blocks, b ∈ (q.writerVect w).blocks ∨
      b.name = q.fresh ∧ q.fresh < q'.fresh ∧ 0 < b.size)
    (hnodup : ((q'.writerVect w).blocks.map ItBlock.name).Nodup)
    (hfreed : ∀ f ∈ q'.freed, f ∈ q.freed ∨ f ∈ (q.writerVect w).blocks.map ItBlock.name)
    (hlive : ∀ b ∈ (q'.writerVect w).blocks, b.name ∉ q'.freed) : Names q' := by
  have hown : ∀ f ∈ (q.writerVect w).blocks.map ItBlock.name, f < q.fresh := by
    intro f hf
    obtain ⟨b, hb, rfl⟩ := List.mem_map.1 hf
    exact (h.lt w b hb).1
  -- a block of another writer is neither fresh nor one of this writer's
  have hother : ∀ v, v ≠ w → ∀ b ∈ (q'.writerVect v).blocks, ∀ c ∈ (q'.writerVect w).blocks,
      b.name ≠ c.name := by
    intro v hv b hb c hc he
    rw [hothers v hv] at hb
    rcases hblocks c hc with hc | ⟨hc, -, -⟩
    · exact hv (h.apart v w b c hb hc he)
    · have := (h.lt v b hb).1
      omega
  refine ⟨?_, ?_, ?_, ?_⟩
  · intro v b hb
    by_cases hv : v = w
    · subst hv
      refine ⟨?_, hlive b hb, ?_⟩
      · rcases hblocks b hb with hb | ⟨hb, hlt, -⟩
        · have := (h.lt v b hb).1
          omega
        · omega
      · rcases hblocks b hb with hb | ⟨-, -, hpos⟩
        · exact (h.lt v b hb).2.2
        · exact hpos
    · have hb' := hb
      rw [hothers v hv] at hb'
      obtain ⟨h1, h2, h3⟩ := h.lt v b hb'
      refine ⟨by omega, ?_, h3⟩
      intro hf
      rcases hfreed _ hf with hf | hf
      · exact h2 hf
      · obtain ⟨c, hc, he⟩ := List.mem_map.1 hf
        exact hv (h.apart v w b c hb' hc he.symm)
  · intro v
    by_cases hv : v = w
    · subst hv
      exact hnodup
    · rw [hothers v hv]
      exact h.nodup v
  · intro v v' b b' hb hb' he
    by_cases hv : v = w
    · by_cases hv' : v' = w
      · rw [hv, hv']
      · rw [hv] at hb
        exact absurd he.symm (hother v' hv' b' hb' b hb)
    · by_cases hv' : v' = w
      · rw [hv'] at hb'
        exact absurd he (hother v hv b hb b' hb')
      · rw [hothers v hv] at hb
        rw [hothers v' hv'] at hb'
        exact h.apart v v' b b' hb hb' he
  · intro f hf
    rcases hfreed f hf with hf | hf
    · have := h.freed f hf
      omega
    · have := hown f hf
      omega

/-- What the writers' blocks hold: `pend w` and then `ps w`, of length `n w`. -/
structure MemInv (q : ItQueue) (pend : ℕ → List Msg) (ps : ℕ → List Piece) (n : ℕ → ℕ) : Prop where
  writers : ∀ w, WriterInv (q.writerVect w) (pend w) (ps w) (n w)
  names : Names q

section Alloc
variable {q q' : ItQueue} {pend : ℕ → List Msg} {ps : ℕ → List Piece} {n : ℕ → ℕ} {w size : ℕ}
  {a : Addr}

/-- What an operation on writer `w` leaves alone. -/
structure SameBut (q q' : ItQueue) (w : ℕ) : Prop where
  head : q'.head = q.head
  tail : q'.tail = q.tail
  size : q'.size = q.size
  others : ∀ v, v ≠ w → q'.writerVect v = q.writerVect v
  id : (q'.writerVect w).id = (q.writerVect w).id

theorem SameBut.trans {q'' : ItQueue} (h : SameBut q q' w) (h' : SameBut q' q'' w) :
    SameBut q q'' w :=
  ⟨h'.head.trans h.head, h'.tail.trans h.tail, h'.size.trans h.size,
    fun v hv => (h'.others v hv).trans (h.others v hv), h'.id.trans h.id⟩

theorem sameBut_setWriter (wr : ItWriter) (h : wr.id = (q.writerVect w).id) :
    SameBut q (q.setWriter w wr) w := by
  refine ⟨rfl, rfl, rfl, ?_, ?_⟩
  · intro v hv
    exact Function.update_of_ne hv _ _
  · simp only [ItQueue.setWriter, Function.update_self]
    exact h

theorem writer_allocBytes_id (wr : ItWriter) (fresh size : ℕ) :
    (wr.allocBytes fresh size).1.id = wr.id := by
  unfold ItWriter.allocBytes
  split
  · rfl
  · simp only
    split
    · rfl
    · rfl

theorem writer_allocBytes_toSend {wr : ItWriter} {fresh : ℕ} :
    (wr.allocBytes fresh size).1.toSend = wr.toSend := by
  unfold ItWriter.allocBytes
  split
  · rfl
  · simp only
    split
    · rfl
    · rfl

theorem allocBytes_eq (h : q.allocBytes w size = some (q', a)) :
    q' = { q.setWriter w ((q.writerVect w).allocBytes q.fresh size).1 with
      fresh := ((q.writerVect w).allocBytes q.fresh size).2.2 } ∧
    a = ((q.writerVect w).allocBytes q.fresh size).2.1 := by
  unfold ItQueue.allocBytes at h
  simp only [Option.ite_none_right_eq_some, Option.some.injEq, Prod.mk.injEq] at h
  exact ⟨h.2.1.symm, h.2.2.symm⟩

theorem allocBytes_sameBut (h : q.allocBytes w size = some (q', a)) : SameBut q q' w := by
  obtain ⟨rfl, -⟩ := allocBytes_eq h
  have := sameBut_setWriter _ (writer_allocBytes_id (q.writerVect w) q.fresh size)
  exact ⟨this.head, this.tail, this.size, this.others, this.id⟩

theorem allocBytes_hdrs (h : q.allocBytes w size = some (q', a)) : q'.hdrs = q.hdrs := by
  obtain ⟨rfl, -⟩ := allocBytes_eq h
  rfl

theorem allocBytes_freed (h : q.allocBytes w size = some (q', a)) : q'.freed = q.freed := by
  obtain ⟨rfl, -⟩ := allocBytes_eq h
  rfl

theorem allocBytes_writer (h : q.allocBytes w size = some (q', a)) :
    q'.writerVect w = ((q.writerVect w).allocBytes q.fresh size).1 := by
  obtain ⟨rfl, -⟩ := allocBytes_eq h
  exact Function.update_self _ _ _

theorem MemInv.alloc (h : MemInv q pend ps n) (hn : n w = (q.writerVect w).mlen)
    (ha : q.allocBytes w size = some (q', a)) :
    MemInv q' pend (Function.update ps w (ps w ++ [⟨a.1, a.2, size⟩]))
      (Function.update n w (q'.writerVect w).mlen) := by
  have hsame := allocBytes_sameBut ha
  have hfreed := allocBytes_freed ha
  have hwr := allocBytes_writer ha
  have hw := h.writers w
  rw [hn] at hw
  have hnew := hw.alloc q.fresh size
  have haddr := (allocBytes_eq ha).2
  have hf : q'.fresh = ((q.writerVect w).allocBytes q.fresh size).2.2 := by
    rw [(allocBytes_eq ha).1]
  constructor
  · intro v
    by_cases hv : v = w
    · subst hv
      rw [Function.update_self, Function.update_self, hwr, haddr]
      exact hnew
    · rw [Function.update_of_ne hv, Function.update_of_ne hv, hsame.others v hv]
      exact h.writers v
  · have hold := h.names.nodup w
    have hlt := h.names.lt w
    rcases allocBytes_blocks (q.writerVect w) q.fresh size with
      ⟨hb, hfr⟩ | ⟨hb, hfr⟩
    · rw [← hwr] at hb
      refine h.names.change (w := w) ?_ (by omega) ?_ ?_ ?_ ?_
      · intro v hv
        rw [hsame.others v hv]
      · intro b hb'
        rw [hb] at hb'
        exact .inl hb'
      · rw [hb]
        exact hold
      · intro f hf
        rw [hfreed] at hf
        exact .inl hf
      · intro b hb'
        rw [hb] at hb'
        rw [hfreed]
        exact (hlt b hb').2.1
    · rw [← hwr] at hb
      refine h.names.change (w := w) ?_ (by omega) ?_ ?_ ?_ ?_
      · intro v hv
        rw [hsame.others v hv]
      · intro b hb'
        rw [hb] at hb'
        rcases List.mem_append.1 hb' with hb' | hb'
        · exact .inl hb'
        · rw [List.mem_singleton.1 hb']
          exact .inr ⟨rfl, by omega, allocateBlock_pos _ _⟩
      · rw [hb, List.map_append, List.nodup_append]
        refine ⟨hold, by simp, ?_⟩
        intro x hx y hy he
        obtain ⟨b, hb', rfl⟩ := List.mem_map.1 hx
        have h1 := (hlt b hb').1
        have h2 : y = q.fresh := List.mem_singleton.1 hy
        omega
      · intro f hf
        rw [hfreed] at hf
        exact .inl hf
      · intro b hb'
        rw [hb] at hb'
        rw [hfreed]
        rcases List.mem_append.1 hb' with hb' | hb'
        · exact (hlt b hb').2.1
        · rw [List.mem_singleton.1 hb']
          intro hf
          have h1 : q.fresh < q.fresh := h.names.freed _ hf
          omega

theorem MemInv.alloc_apart (h : MemInv q pend ps n)
    (ha : q.allocBytes w size = some (q', a)) :
    ∀ v, ∀ p ∈ (pend v).flatMap Msg.pieces ++ ps v, 0 < p.len → (p.blk, p.off) ≠ a := by
  intro v p hp hlen
  rw [(allocBytes_eq ha).2]
  by_cases hv : v = w
  · subst hv
    exact (h.writers v).alloc_apart (h.names.nodup v) (fun b hb => (h.names.lt v b hb).1) p hp hlen
  · -- the block is another writer's, or it is older than a fresh one
    intro he
    obtain ⟨b, hb, hbn⟩ := List.mem_map.1 ((h.writers v).blk_mem p hp)
    have hblk : p.blk = ((q.writerVect w).allocBytes q.fresh size).2.1.1 := congrArg Prod.fst he
    have hlt := (h.names.lt v b hb).1
    unfold ItWriter.allocBytes at hblk
    split at hblk
    · have : p.blk = q.fresh := hblk
      omega
    · next t hlast =>
      simp only at hblk
      split at hblk
      · have : p.blk = q.fresh := hblk
        omega
      · have ht : t ∈ (q.writerVect w).blocks := List.mem_of_getLast? hlast
        exact hv (h.names.apart v w b t hb ht (hbn.trans hblk))

end Alloc

section Release
variable {q : ItQueue} {pend : ℕ → List Msg} {ps : ℕ → List Piece} {n : ℕ → ℕ} {w : ℕ}

/-- The pieces of messages that are not released are in no block that was freed. -/
theorem MemInv.alive (h : MemInv q pend ps n) (w : ℕ) :
    ∀ p ∈ (pend w).flatMap Msg.pieces ++ ps w, p.blk ∉ q.freed := by
  intro p hp
  obtain ⟨b, hb, he⟩ := List.mem_map.1 ((h.writers w).blk_mem p hp)
  rw [← he]
  exact (h.names.lt w b hb).2.1

/-- Only what the writers' blocks are and which names are used matters. -/
theorem MemInv.congr {q' : ItQueue} {n' : ℕ → ℕ} (h : MemInv q pend ps n)
    (hb : ∀ v, (q'.writerVect v).blocks = (q.writerVect v).blocks)
    (hh : ∀ v, (q'.writerVect v).hoff = (q.writerVect v).hoff)
    (ht : ∀ v, (q'.writerVect v).toff = (q.writerVect v).toff) (hfresh : q'.fresh = q.fresh)
    (hfreed : q'.freed = q.freed) (hn : ∀ v, n' v = n v) : MemInv q' pend ps n' := by
  constructor
  · intro v
    rw [hn v]
    cases h.writers v with
    | empty h1 h2 h3 h4 => exact .empty ((hb v).trans h1) h2 h3 h4
    | laid last le hc sent open_ =>
      refine .laid (by rw [hb]; exact last) (by rw [ht]; exact le) (by rw [hb, hh]; exact hc)
        (by rw [hb, hh]; exact sent) (by rw [ht]; exact open_)
  · refine h.names.change (w := 0) (fun v _ => hb v) (by omega) ?_ ?_ ?_ ?_
    · intro b hb'
      rw [hb] at hb'
      exact .inl hb'
    · rw [hb]
      exact h.names.nodup 0
    · intro f hf
      rw [hfreed] at hf
      exact .inl hf
    · intro b hb'
      rw [hb] at hb'
      rw [hfreed]
      exact (h.names.lt 0 b hb').2.1

theorem release_eq {header : Addr} {blocks : List ItBlock} {hoff : ℕ} {pops : List ℕ}
    (hw : q.writerOf header = some w)
    (hr : releaseLoop (q.writerVect w).blocks (q.writerVect w).hoff (q.hdrs header).length =
      some (blocks, hoff, pops)) :
    q.release header = some { q.setWriter w { q.writerVect w with
        blocks := blocks, hoff := hoff
        toff := if blocks = [] then 0 else (q.writerVect w).toff } with
      freed := q.freed ++ pops } := by
  unfold ItQueue.release
  rw [hw]
  simp only [Option.bind_eq_bind, Option.bind_some, hr]

theorem MemInv.release (h : MemInv q pend ps n) {m : Msg} {ms : List Msg} {header : Addr}
    (hp : pend w = m :: ms) (hps : ∀ p ∈ (ps w).head?, 0 < p.len)
    (hw : q.writerOf header = some w) (hlen : (q.hdrs header).length = m.len) :
    ∃ q', q.release header = some q' ∧ MemInv q' (Function.update pend w ms) ps n ∧
      SameBut q q' w ∧ q'.hdrs = q.hdrs ∧ (q'.writerVect w).toSend = (q.writerVect w).toSend ∧
      (q'.writerVect w).mlen = (q.writerVect w).mlen := by
  have hwr := h.writers w
  rw [hp] at hwr
  obtain ⟨blocks, hoff, pops, hr, hinv⟩ :=
    hwr.release (fun b hb => (h.names.lt w b hb).2.2) hps
  have hnames := releaseLoop_pops hr
  have hnodup := h.names.nodup w
  rw [hnames, List.nodup_append] at hnodup
  -- the blocks that are left are some of those before
  have hsub : ∀ b ∈ blocks, b ∈ (q.writerVect w).blocks := by
    intro b hb
    exact (releaseLoop_suffix hr).subset hb
  refine ⟨_, release_eq hw (by rw [hlen]; exact hr), ⟨?_, ?_⟩, ?_, rfl, ?_, ?_⟩
  · intro v
    by_cases hv : v = w
    · subst hv
      rw [Function.update_self]
      simp only [ItQueue.setWriter, Function.update_self]
      exact hinv
    · rw [Function.update_of_ne hv]
      simp only [ItQueue.setWriter]
      rw [Function.update_of_ne hv]
      exact h.writers v
  · refine h.names.change (w := w) ?_ (Nat.le_refl _) ?_ ?_ ?_ ?_
    · intro v hv
      simp only [ItQueue.setWriter]
      rw [Function.update_of_ne hv]
    · intro b hb
      simp only [ItQueue.setWriter, Function.update_self] at hb
      exact .inl (hsub b hb)
    · simp only [ItQueue.setWriter, Function.update_self]
      exact hnodup.2.1
    · intro f hf
      rcases List.mem_append.1 hf with hf | hf
      · exact .inl hf
      · right
        rw [hnames]
        exact List.mem_append_left _ hf
    · intro b hb hf
      simp only [ItQueue.setWriter, Function.update_self] at hb
      rcases List.mem_append.1 hf with hf | hf
      · exact (h.names.lt w b (hsub b hb)).2.1 hf
      · exact hnodup.2.2 _ hf _ (List.mem_map_of_mem hb) rfl
  · have := sameBut_setWriter (q := q) (w := w) { q.writerVect w with
      blocks := blocks, hoff := hoff, toff := if blocks = [] then 0 else (q.writerVect w).toff } rfl
    exact ⟨this.head, this.tail, this.size, this.others, this.id⟩
  · simp only [ItQueue.setWriter, Function.update_self]
  · simp only [ItQueue.setWriter, Function.update_self]

end Release

section Open
variable {q q' : ItQueue} {pend : ℕ → List Msg} {ps : ℕ → List Piece} {n : ℕ → ℕ} {w ID SZ : ℕ}
  {msg : Addr}

/-- A message is opened: its header and its struct are allocated, behind everything there is. -/
theorem MemInv.itqOpen (h : MemInv q pend ps n) (hps : ps w = []) (hn : n w = 0)
    (ho : q.itqOpen w ID SZ = some (q', msg)) :
    ∃ header, (q'.writerVect w).toSend = some header ∧
      MemInv q' pend
        (Function.update ps w [⟨header.1, header.2, sizeofItHeader⟩, ⟨msg.1, msg.2, SZ⟩])
        (Function.update n w (q'.writerVect w).mlen) ∧
      SameBut q q' w ∧
      q'.hdrs = Function.update q.hdrs header { q.hdrs header with
        msgId := ID % 2 ^ 16, writerId := (q.writerVect w).id % 2 ^ 16, length := 0 } ∧
      ∀ v, ∀ p ∈ (pend v).flatMap Msg.pieces ++ ps v, 0 < p.len → (p.blk, p.off) ≠ header := by
  unfold ItQueue.itqOpen at ho
  simp only [Option.bind_eq_bind, Option.bind_eq_some_iff, Option.some.injEq, Prod.mk.injEq] at ho
  obtain ⟨⟨q1, header⟩, h1, ⟨q2, _⟩, h2, rfl, rfl⟩ := ho
  -- the length starts at 0
  have hm0 : MemInv (q.setWriter w { q.writerVect w with mlen := 0 }) pend ps n := by
    have hv : ∀ v, (q.setWriter w { q.writerVect w with mlen := 0 }).writerVect v =
        if v = w then { q.writerVect w with mlen := 0 } else q.writerVect v := by
      intro v
      simp only [ItQueue.setWriter, Function.update_apply]
    refine h.congr (fun v => ?_) (fun v => ?_) (fun v => ?_) rfl rfl fun _ => rfl
    all_goals
      rw [hv]
      split
      · next he => rw [he]
      · rfl
  have hn0 : n w = ((q.setWriter w { q.writerVect w with mlen := 0 }).writerVect w).mlen := by
    simp only [ItQueue.setWriter, Function.update_self]
    exact hn
  have hm1 := hm0.alloc hn0 h1
  have hs0 : SameBut q (q.setWriter w { q.writerVect w with mlen := 0 }) w := sameBut_setWriter _ rfl
  have hs1 := allocBytes_sameBut h1
  have hd1 := allocBytes_hdrs h1
  generalize hhd : ({ q1.hdrs header with
      msgId := ID % 2 ^ 16, writerId := (q1.writerVect w).id % 2 ^ 16, length := 0 } : ItHeader) =
    hd at h2
  have hm2 : MemInv (q1.setHeader header hd) pend _ _ :=
    hm1.congr (fun _ => rfl) (fun _ => rfl) (fun _ => rfl) rfl rfl fun _ => rfl
  have hm3 := hm2.alloc (Function.update_self _ _ _) h2
  have hs2 := allocBytes_sameBut h2
  have hd2 := allocBytes_hdrs h2
  have hv : ∀ v, (q2.setWriter w { q2.writerVect w with toSend := some header }).writerVect v =
      if v = w then { q2.writerVect w with toSend := some header } else q2.writerVect v := by
    intro v
    simp only [ItQueue.setWriter, Function.update_apply]
  refine ⟨header, ?_, ?_, ?_, ?_, hm0.alloc_apart h1⟩
  · rw [hv, if_pos rfl]
  · rw [Function.update_self, Function.update_idem, Function.update_idem, hps] at hm3
    refine hm3.congr (fun v => ?_) (fun v => ?_) (fun v => ?_) rfl rfl fun v => ?_
    · rw [hv]
      split
      · next he => rw [he]
      · rfl
    · rw [hv]
      split
      · next he => rw [he]
      · rfl
    · rw [hv]
      split
      · next he => rw [he]
      · rfl
    · rw [hv, if_pos rfl]
  · have hset : SameBut q1 (q1.setHeader header hd) w :=
      ⟨rfl, rfl, rfl, fun _ _ => rfl, rfl⟩
    exact (((hs0.trans hs1).trans hset).trans hs2).trans (sameBut_setWriter _ rfl)
  · show q2.hdrs = _
    rw [hd2]
    show Function.update q1.hdrs header hd = _
    have hid : (q1.writerVect w).id = (q.writerVect w).id := hs1.id.trans hs0.id
    rw [← hhd, hid, hd1]
    rfl

end Open

end Netp.Genf.Itq
