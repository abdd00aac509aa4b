import Netp.Genf.Packet

/-! # Allocation in a packet's rope

`allocBytes` gives bytes behind everything allocated before and never the first four of a block
(`AllocSpec`); the offset it gives is the one under which `pktFind` finds them, now and after any
later allocation.
-/

namespace Netp.Genf
open Netp.Lib
set_option autoImplicit false

section Find
variable {r r' : Rope}

/-- The length of block `b`. -/
def Rope.len (r : Rope) (b : ℕ) : ℕ := (r.blocks[b]?.map RopeBlock.len).getD 0

/-- Bytes that were allocated behind the headers: in the first block these are the two of them. -/
def InRope (r : Rope) (g : Region ℕ) : Prop :=
  g.start + g.size ≤ r.len g.blk ∧ 4 ≤ g.start ∧ (g.blk = 0 → 16 ≤ g.start)

theorem InRope.msgId {g : Region ℕ} (h : InRope r g) : Region.Disjoint ⟨0, 12, 4⟩ g := by
  by_cases hb : g.blk = 0
  · exact .inr (.inl (h.2.2 hb))
  · exact .inl fun h => hb h.symm

/-- The blocks are the same, or the last one is longer, or there is one more. -/
inductive Extends (r r' : Rope) : Prop
  | same (h : r'.blocks = r.blocks)
  | longer (bs : List RopeBlock) (t t' : RopeBlock) (h : r.blocks = bs ++ [t])
      (h' : r'.blocks = bs ++ [t']) (hlen : t.len ≤ t'.len)
  | more (t : RopeBlock) (h' : r'.blocks = r.blocks ++ [t])

theorem findFrom_append {b l : ℕ} {bs cs : List RopeBlock} {p : Ptr}
    (h : findFrom b bs l = some p) : findFrom b (bs ++ cs) l = some p := by
  induction bs generalizing b l with
  | nil => simp [findFrom] at h
  | cons t bs ih =>
    simp only [findFrom, List.cons_append] at h ⊢
    split at h
    · next hl => rw [if_pos hl]; exact h
    · next hl =>
      rw [if_neg hl]
      exact ih h

theorem findFrom_longer {b l : ℕ} {bs : List RopeBlock} {t t' : RopeBlock} {p : Ptr}
    (hlen : t.len ≤ t'.len) (h : findFrom b (bs ++ [t]) l = some p) :
    findFrom b (bs ++ [t']) l = some p := by
  induction bs generalizing b l with
  | nil =>
    simp only [List.nil_append, findFrom] at h ⊢
    split at h
    · rw [if_pos (by omega)]
      exact h
    · cases h
  | cons u bs ih =>
    simp only [findFrom, List.cons_append] at h ⊢
    split at h
    · next hl => rw [if_pos hl]; exact h
    · next hl =>
      rw [if_neg hl]
      exact ih h

theorem Extends.pktFind (h : Extends r r') {l : ℕ} {p : Ptr} (hp : pktFind r l = some p) :
    pktFind r' l = some p := by
  unfold Genf.pktFind at hp ⊢
  split at hp
  · cases hp
  · next hl =>
    rw [if_neg hl]
    cases h with
    | same h => rw [h]; exact hp
    | longer bs t t' h h' hlen =>
      rw [h] at hp
      rw [h']
      exact findFrom_longer hlen hp
    | more t h' =>
      rw [h']
      exact findFrom_append hp

/-- What `pktFind` finds in `r` it finds in `r'`. -/
def Finds (r r' : Rope) : Prop := ∀ ⦃l : ℕ⦄ ⦃p : Ptr⦄, pktFind r l = some p → pktFind r' l = some p

theorem Extends.finds (h : Extends r r') : Finds r r' := fun _ _ => h.pktFind

theorem Extends.len_le (h : Extends r r') (b : ℕ) : r.len b ≤ r'.len b := by
  unfold Rope.len
  cases h with
  | same h => rw [h]
  | longer bs t t' h h' hlen =>
    rw [h, h']
    rcases Nat.lt_trichotomy b bs.length with hb | hb | hb
    · rw [List.getElem?_append_left hb, List.getElem?_append_left hb]
    · subst hb
      simpa using hlen
    · rw [List.getElem?_eq_none (by simp; omega)]
      simp
  | more t h' =>
    rw [h']
    by_cases hb : b < r.blocks.length
    · rw [List.getElem?_append_left hb]
    · rw [List.getElem?_eq_none (by omega)]
      simp

theorem Extends.inRope (h : Extends r r') {g : Region ℕ} (hg : InRope r g) : InRope r' g :=
  ⟨hg.1.trans (h.len_le g.blk), hg.2⟩

/-- From the total length of the blocks before it, `findFrom` finds the start of a block. -/
theorem findFrom_sum (b i : ℕ) (bs cs : List RopeBlock) :
    findFrom b (bs ++ cs) ((bs.map RopeBlock.len).sum + i) = findFrom (b + bs.length) cs i := by
  induction bs generalizing b with
  | nil => simp
  | cons t bs ih =>
    simp only [List.map_cons, List.sum_cons, List.cons_append, findFrom, List.length_cons]
    rw [if_neg (by omega), Nat.add_assoc, Nat.add_sub_cancel_left, ih]
    congr 1
    omega

end Find

/-! ## `allocBytes` -/

/-- Every block has its header. -/
def Headed (r : Rope) : Prop := ∀ t ∈ r.blocks, 4 ≤ t.len

structure AllocSpec (r : Rope) (nb : ℕ) (r' : Rope) (p : Ptr) (offset : ℕ) : Prop where
  mem : r'.mem = r.mem
  ext : Extends r r'
  /-- The bytes are behind all others of their block. -/
  fresh : r.len p.1 ≤ p.2
  room : p.2 + nb ≤ r'.len p.1
  off_header : 4 ≤ p.2
  found : 0 < nb → pktFind r' offset = some p
  headed : Headed r'
  pos : 0 < offset
  small : offset < 2 ^ 31

theorem len_last (mem : Mem ℕ) (bs : List RopeBlock) (t : RopeBlock) :
    (⟨bs ++ [t], mem⟩ : Rope).len bs.length = t.len := by
  simp [Rope.len]

theorem len_beyond (r : Rope) : r.len r.blocks.length = 0 := by
  simp [Rope.len]

theorem alloc_tail (bs : List RopeBlock) (nb : ℕ) {t : RopeBlock} {mem : Mem ℕ}
    (hlen : Headed ⟨bs ++ [t], mem⟩)
    (hsmall : (⟨bs ++ [{ t with len := t.len + nb }], mem⟩ : Rope).length < 2 ^ 31) :
    AllocSpec ⟨bs ++ [t], mem⟩ nb ⟨bs ++ [{ t with len := t.len + nb }], mem⟩ (bs.length, t.len)
      (⟨bs ++ [t], mem⟩ : Rope).length := by
  have htotal : (⟨bs ++ [t], mem⟩ : Rope).length = (bs.map RopeBlock.len).sum + t.len := by
    simp [Rope.length]
  have htotal' : (⟨bs ++ [{ t with len := t.len + nb }], mem⟩ : Rope).length =
      (bs.map RopeBlock.len).sum + (t.len + nb) := by
    simp [Rope.length]
  have ht : 4 ≤ t.len := hlen t (by simp)
  refine ⟨rfl, .longer bs t _ rfl rfl (by simp), ?_, ?_, ht, ?_, ?_, by omega, by omega⟩
  · exact le_of_eq (len_last mem bs t)
  · exact le_of_eq (len_last mem bs { t with len := t.len + nb }).symm
  · intro hnb
    rw [htotal]
    unfold pktFind
    rw [if_neg (by omega), findFrom_sum]
    simp only [findFrom]
    rw [if_pos (by omega), Nat.zero_add]
  · intro u hu
    rcases List.mem_append.1 hu with hu | hu
    · exact hlen u (List.mem_append_left _ hu)
    · rw [List.mem_singleton.1 hu]
      exact ht.trans (Nat.le_add_right _ _)

theorem alloc_block {r : Rope} {C nb : ℕ} (hlen : Headed r)
    (hsmall : (⟨r.blocks ++ [⟨max (4 + nb) C, 4 + nb⟩], r.mem⟩ : Rope).length < 2 ^ 31) :
    AllocSpec r nb ⟨r.blocks ++ [⟨max (4 + nb) C, 4 + nb⟩], r.mem⟩ (r.blocks.length, 4)
      (r.length + 4) := by
  have htotal : (⟨r.blocks ++ [⟨max (4 + nb) C, 4 + nb⟩], r.mem⟩ : Rope).length =
      r.length + (4 + nb) := by
    simp [Rope.length]
  refine ⟨rfl, .more _ rfl, ?_, ?_, le_refl 4, ?_, ?_, by omega, by omega⟩
  · rw [len_beyond]
    omega
  · exact le_of_eq (len_last r.mem r.blocks ⟨max (4 + nb) C, 4 + nb⟩).symm
  · intro hnb
    unfold pktFind Rope.length
    rw [if_neg (by omega), findFrom_sum]
    simp only [findFrom]
    rw [if_pos (by omega), Nat.zero_add]
  · intro u hu
    rcases List.mem_append.1 hu with hu | hu
    · exact hlen u hu
    · rw [List.mem_singleton.1 hu]
      exact Nat.le_add_right _ _

theorem allocBytes_spec {C nb : ℕ} {r r' : Rope} {p : Ptr} {offset : ℕ} (hlen : Headed r)
    (h : allocBytes C r nb = some (r', p, offset)) : AllocSpec r nb r' p offset := by
  unfold allocBytes at h
  rw [Option.ite_none_right_eq_some, Option.some.injEq] at h
  obtain ⟨hs, h⟩ := h
  rw [h] at hs
  obtain ⟨blocks, mem⟩ := r
  rcases List.eq_nil_or_concat blocks with rfl | ⟨bs, t, rfl⟩
  · simp only [allocBytesBody, Rope.available, Rope.append, List.getLast?_nil, Option.map_none,
      Prod.mk.injEq] at h
    obtain ⟨rfl, rfl, rfl⟩ := h
    exact alloc_block hlen hs
  · rw [List.concat_eq_append] at *
    simp only [allocBytesBody, Rope.available, Rope.append, List.getLast?_append,
      List.getLast?_singleton, Option.some_or, Option.map_some, List.dropLast_concat] at h
    by_cases hfit : nb ≤ t.cap - t.len
    · simp only [hfit, if_true, Prod.mk.injEq] at h
      obtain ⟨rfl, rfl, rfl⟩ := h
      have := alloc_tail bs nb hlen hs
      simpa using this
    · have hfit' : ¬ packetBlockHeaderSize + nb ≤ t.cap - t.len := by
        unfold packetBlockHeaderSize
        omega
      simp only [hfit, hfit', if_false, Prod.mk.injEq] at h
      obtain ⟨rfl, rfl, rfl⟩ := h
      exact alloc_block hlen hs

theorem AllocSpec.behind {r r' : Rope} {nb offset : ℕ} {p : Ptr}
    (h : AllocSpec r nb r' p offset) {g : Region ℕ} (hg : g.start + g.size ≤ r.len g.blk) :
    g.Disjoint ⟨p.1, p.2, nb⟩ := by
  by_cases hb : g.blk = p.1
  · refine .inr (.inl ?_)
    have h2 := h.fresh
    rw [hb] at hg
    exact hg.trans h2
  · exact .inl hb

theorem AllocSpec.disjoint {r r' : Rope} {nb offset : ℕ} {p : Ptr}
    (h : AllocSpec r nb r' p offset) {g : Region ℕ} (hg : InRope r g) :
    g.Disjoint ⟨p.1, p.2, nb⟩ := h.behind hg.1

theorem AllocSpec.inRope {r r' : Rope} {nb offset : ℕ} {p : Ptr}
    (h : AllocSpec r nb r' p offset) (hfirst : 16 ≤ r.len 0) : InRope r' ⟨p.1, p.2, nb⟩ := by
  refine ⟨h.room, h.off_header, fun hb => ?_⟩
  have := h.fresh
  simp only at hb
  rw [hb] at this
  exact hfirst.trans this

end Netp.Genf
