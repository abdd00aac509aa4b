import Mathlib.Algebra.Order.BigOperators.Group.List
import Netp.Genf.Parse

/-! # Framing

Every block of a sent packet begins with the length of the next one, and the first has its own
length in the header (`Frame`). So the parser always knows how many bytes it wants, wherever the
wire was cut: between two calls it holds the bytes read so far of the headers or of one block of the
current packet (`RecvInv`).
-/

namespace Netp.Genf
open Netp.Lib
set_option autoImplicit false

/-! ## Packets that are built and sent -/

/-- The ropes that `open` and any calls of `allocBytes` make, with anything written in the bytes
that these gave out. -/
inductive Built (C id : ℕ) : Rope → Prop
  | opened {mem : Mem ℕ} {size : ℕ} {r : Rope} {msg : Ptr}
      (h : packetBaseOpen C mem id size = some (r, msg)) : Built C id r
  | alloc {r r' : Rope} {nb offset : ℕ} {p : Ptr} (hr : Built C id r)
      (h : allocBytes C r nb = some (r', p, offset)) : Built C id r'
  | write {r : Rope} {p : Ptr} {bs : List UInt8} (hr : Built C id r)
      (h : InRope r ⟨p.1, p.2, bs.length⟩) : Built C id (r.store p bs)

structure Framed (id : ℕ) (r : Rope) : Prop where
  headed : Headed r
  first : 16 ≤ r.len 0
  small : r.length < 2 ^ 31
  msgId : r.load (0, 12) 4 = le 4 id

section Built
variable {C id : ℕ} {r r' : Rope}

theorem allocBytes_small {nb offset : ℕ} {p : Ptr} (h : allocBytes C r nb = some (r', p, offset)) :
    r'.length < 2 ^ 31 := by
  unfold allocBytes at h
  rw [Option.ite_none_right_eq_some, Option.some.injEq] at h
  rw [h.2] at h
  exact h.1

theorem Framed.alloc (h : Framed id r) {nb offset : ℕ} {p : Ptr}
    (ha : allocBytes C r nb = some (r', p, offset)) : Framed id r' := by
  have hs := allocBytes_spec h.headed ha
  refine ⟨hs.headed, h.first.trans (hs.ext.len_le 0), allocBytes_small ha, ?_⟩
  have := h.msgId
  unfold Rope.load at this ⊢
  rw [hs.mem]
  exact this

theorem Framed.store (h : Framed id r) {p : Ptr} {bs : List UInt8}
    (hd : Region.Disjoint ⟨0, 12, 4⟩ ⟨p.1, p.2, bs.length⟩) : Framed id (r.store p bs) :=
  ⟨h.headed, h.first, h.small, (Mem.load_store_of_disjoint r.mem hd).trans h.msgId⟩

theorem framed_open {mem : Mem ℕ} {size : ℕ} {msg : Ptr}
    (h : packetBaseOpen C mem id size = some (r, msg)) : Framed id r := by
  unfold packetBaseOpen at h
  rw [allocBytes_header] at h
  simp only [Option.bind_eq_bind, Option.bind_some, Option.bind_eq_some_iff, Option.some.injEq,
    Prod.mk.injEq] at h
  obtain ⟨⟨r1, msg1, offset⟩, ha, rfl, rfl⟩ := h
  have h0 : Framed id (Rope.store ⟨[⟨max 16 C, 16⟩], mem⟩ (0, 4 + 8) (le 4 id)) := by
    refine ⟨?_, le_refl 16, by simp [Rope.length, Rope.store], ?_⟩
    · intro t ht
      rw [List.mem_singleton.1 ht]
      simp only
      omega
    · have := Mem.load_store_self mem 0 12 (le 4 id)
      rwa [le_length] at this
  have hs := allocBytes_spec h0.headed ha
  have hin := (hs.inRope h0.first).msgId
  exact ((h0.alloc ha).store (by rwa [List.length_replicate])).store (.inr (.inr (by simp)))

theorem Built.framed (h : Built C id r) : Framed id r := by
  induction h with
  | opened h => exact framed_open h
  | alloc _ h ih => exact ih.alloc h
  | write _ h ih => exact ih.store h.msgId

end Built

/-- The blocks of a packet as they are on the wire. -/
structure Frame (f : List (List UInt8)) : Prop where
  first : ∃ b, f[0]? = some b ∧ 16 ≤ b.length ∧ ofLe ((b.drop 4).take 4) = b.length
  next : ∀ (i : ℕ) (b : List UInt8), f[i]? = some b →
    4 ≤ b.length ∧ b.length < 2 ^ 31 ∧ ofLe (b.take 4) = (f[i + 1]?.map List.length).getD 0

theorem contents_getElem? (r : Rope) (i : ℕ) :
    r.contents[i]? = r.blocks[i]?.map fun blk => r.mem.load i 0 blk.len := by
  unfold Rope.contents
  rw [List.getElem?_mapIdx]

section Contents
variable {r r' : Rope} (h : r'.contents = r.contents)
include h

theorem lens_of_contents : r'.blocks.map RopeBlock.len = r.blocks.map RopeBlock.len := by
  apply List.ext_getElem?
  intro i
  have hi := congrArg (fun l : List (List UInt8) => l[i]?.map List.length) h
  simpa [contents_getElem?, Function.comp_def] using hi

theorem len_of_contents (b : ℕ) : r'.len b = r.len b := by
  have hb := congrArg (fun l : List ℕ => l[b]?) (lens_of_contents h)
  simp only [List.getElem?_map] at hb
  unfold Rope.len
  rw [hb]

theorem load_of_contents {p : Ptr} {n : ℕ} (hn : p.2 + n ≤ r.len p.1) :
    r'.load p n = r.load p n := by
  have hlen := len_of_contents h p.1
  have hb := congrArg (fun l : List (List UInt8) => l[p.1]?) h
  simp only [contents_getElem?] at hb
  unfold Rope.len at hlen hn
  unfold Rope.load
  cases ht : r.blocks[p.1]? with
  | none =>
    simp only [ht, Option.map_none, Option.getD_none] at hn
    have h0 : n = 0 := by omega
    rw [h0]
    rfl
  | some t =>
    rw [ht, Option.map_some] at hb
    obtain ⟨u, hu, hload⟩ := Option.map_eq_some_iff.1 hb
    simp only [ht, hu, Option.map_some, Option.getD_some] at hlen hn
    rw [hlen] at hload
    have hcut : ∀ m : Mem ℕ, m.load p.1 p.2 n = ((m.load p.1 0 t.len).drop p.2).take n := by
      intro m
      rw [Mem.load_drop _ _ _ (by omega), Mem.load_take _ _ _ (by omega), Nat.zero_add]
    rw [hcut, hcut, hload]

end Contents

theorem len_le_length (r : Rope) {i : ℕ} {t : RopeBlock} (h : r.blocks[i]? = some t) :
    t.len ≤ r.length := by
  unfold Rope.length
  apply List.le_sum_of_mem
  exact List.mem_map_of_mem (List.mem_of_getElem? h)

theorem Framed.frame {id : ℕ} {r : Rope} (h : Framed id r) : Frame (packetBaseSend r).contents := by
  have hlen : ∀ {i : ℕ} {t : RopeBlock}, r.blocks[i]? = some t → r.len i = t.len := by
    intro i t ht
    simp [Rope.len, ht]
  have hsmall : ∀ i, r.len i < 2 ^ 31 := by
    intro i
    unfold Rope.len
    cases ht : r.blocks[i]? with
    | none => simp
    | some t => exact lt_of_le_of_lt (len_le_length r ht) h.small
  constructor
  · cases ht : r.blocks[0]? with
    | none =>
      have := h.first
      simp [Rope.len, ht] at this
    | some t =>
      have hfirst := h.first
      rw [hlen ht] at hfirst
      refine ⟨(packetBaseSend r).mem.load 0 0 t.len, ?_, ?_, ?_⟩
      · rw [contents_getElem?, packetBaseSend_blocks, ht]
        rfl
      · rw [Mem.load_length]
        exact hfirst
      · rw [Mem.load_drop _ _ _ (by omega), Mem.load_take _ _ _ (by omega), Mem.load_length]
        have h1 := packetBaseSend_firstLen r
        rw [hlen ht] at h1
        have h2 := hsmall 0
        rw [hlen ht] at h2
        exact (congrArg ofLe h1).trans (ofLe_le_of_lt (by omega))
  · intro i b hb
    rw [contents_getElem?, packetBaseSend_blocks] at hb
    obtain ⟨t, ht, rfl⟩ := Option.map_eq_some_iff.1 hb
    have h4 : 4 ≤ t.len := h.headed t (List.mem_of_getElem? ht)
    have hlt := hsmall i
    rw [hlen ht] at hlt
    rw [Mem.load_length, Mem.load_take _ _ _ h4]
    refine ⟨h4, hlt, ?_⟩
    have hn := packetBaseSend_nextLen r (List.getElem?_eq_some_iff.1 ht).1
    have hnext : (((packetBaseSend r).contents)[i + 1]?.map List.length).getD 0 = r.len (i + 1) := by
      rw [contents_getElem?, packetBaseSend_blocks]
      unfold Rope.len
      cases r.blocks[i + 1]? with
      | none => rfl
      | some u => simp
    rw [hnext]
    have := hsmall (i + 1)
    exact (congrArg ofLe hn).trans (ofLe_le_of_lt (by omega))

end Netp.Genf
