import Netp.Genf.PacketAlloc

/-! # Opening and sending a packet

`packetBaseOpen` puts the record behind the two headers if it fits there, and else at the head of a
second block. `packetBaseSend` writes lengths into the headers and nothing else: `firstLen`,
`totalLen`, and at the head of every block the length of the next one.
-/

namespace Netp.Genf
open Netp.Lib
set_option autoImplicit false

/-! ## `packetBaseOpen` -/

theorem allocBytes_header (C : ℕ) (mem : Mem ℕ) :
    allocBytes C ⟨[], mem⟩ packetHeaderSize = some (⟨[⟨max 16 C, 16⟩], mem⟩, (0, 4), 4) := by
  simp [allocBytes, allocBytesBody, Rope.available, Rope.append, Rope.length,
    packetBlockHeaderSize, packetHeaderSize]

theorem packetBaseOpen_first {C size : ℕ} (hfit : size + 16 ≤ C) (mem : Mem ℕ) (id : ℕ) :
    packetBaseOpen C mem id size =
      if 16 + size < 2 ^ 31 then
        some (⟨[⟨C, 16 + size⟩],
          ((mem.store 0 12 (le 4 id)).store 0 16 (List.replicate size 0)).store 0 8 (le 4 0)⟩,
          (0, 16))
      else none := by
  have hsize : size ≤ C - 16 := by omega
  unfold packetBaseOpen
  rw [allocBytes_header, max_eq_right (by omega)]
  simp only [Option.bind_eq_bind, Option.bind_some, allocBytes, allocBytesBody, Rope.available,
    Rope.append, Rope.store, List.getLast?_singleton, Option.map_some, hsize, if_true,
    List.dropLast_singleton, List.nil_append, Rope.length, List.map_cons, List.map_nil,
    List.sum_cons, List.sum_nil, Nat.add_zero]
  split <;> simp

theorem packetBaseOpen_second {C size : ℕ} (hC : 16 ≤ C) (hfit : C < size + 16) (mem : Mem ℕ)
    (id : ℕ) :
    packetBaseOpen C mem id size =
      if 20 + size < 2 ^ 31 then
        some (⟨[⟨C, 16⟩, ⟨max (4 + size) C, 4 + size⟩],
          ((mem.store 0 12 (le 4 id)).store 1 4 (List.replicate size 0)).store 0 8 (le 4 0)⟩,
          (1, 4))
      else none := by
  have hsize : ¬ size ≤ C - 16 := by omega
  have hsize' : ¬ packetBlockHeaderSize + size ≤ C - 16 := by
    unfold packetBlockHeaderSize
    omega
  have hsum : 16 + (4 + size) = 20 + size := by omega
  unfold packetBaseOpen
  rw [allocBytes_header, max_eq_right hC]
  simp only [Option.bind_eq_bind, Option.bind_some, allocBytes, allocBytesBody, Rope.available,
    Rope.append, Rope.store, List.getLast?_singleton, Option.map_some, hsize, hsize', if_false,
    Rope.length, List.map_cons, List.map_nil, List.cons_append, List.nil_append,
    List.sum_cons, List.sum_nil, Nat.add_zero, hsum]
  split <;> simp

/-! ## `packetBaseSend` -/

theorem setNextLens_load (b : ℕ) (bs : List RopeBlock) (m : Mem ℕ) {k i n : ℕ} (hi : 4 ≤ i) :
    (setNextLens b bs m).load k i n = m.load k i n := by
  induction bs generalizing b m with
  | nil => rfl
  | cons t bs ih =>
    rw [setNextLens, ih]
    apply Mem.load_store_of_disjoint
    exact .inr (.inr (by rw [le_length]; exact hi))

theorem setNextLens_before (b : ℕ) (bs : List RopeBlock) (m : Mem ℕ) {k i n : ℕ} (hk : k < b) :
    (setNextLens b bs m).load k i n = m.load k i n := by
  induction bs generalizing b m with
  | nil => rfl
  | cons t bs ih =>
    rw [setNextLens, ih _ _ (by omega)]
    apply Mem.load_store_of_disjoint
    exact .inl (Nat.ne_of_lt hk)

theorem setNextLens_nextLen (b : ℕ) (bs : List RopeBlock) (m : Mem ℕ) {i : ℕ}
    (hi : i < bs.length) :
    (setNextLens b bs m).load (b + i) 0 4 =
      le 4 ((bs[i + 1]?.map RopeBlock.len).getD 0) := by
  induction bs generalizing b m i with
  | nil => simp at hi
  | cons t bs ih =>
    rw [setNextLens]
    cases i with
    | zero =>
      rw [setNextLens_before _ _ _ (by omega)]
      have := Mem.load_store_self m b 0 (le 4 ((bs.head?.map RopeBlock.len).getD 0))
      rw [le_length] at this
      rw [Nat.add_zero, this, List.head?_eq_getElem?]
      rfl
    | succ i =>
      have hb : b + (i + 1) = b + 1 + i := by omega
      rw [hb, ih (b + 1) _ (by simpa using hi)]
      rfl

section Send
variable (r : Rope)

@[simp] theorem packetBaseSend_blocks : (packetBaseSend r).blocks = r.blocks := rfl

theorem packetBaseSend_load {k i n : ℕ} (hi : 4 ≤ i) (h0 : k = 0 → 12 ≤ i) :
    (packetBaseSend r).mem.load k i n = r.mem.load k i n := by
  unfold packetBaseSend
  simp only [Rope.store]
  rw [setNextLens_load _ _ _ hi]
  have hfirst : ∀ (a v : ℕ) (m : Mem ℕ), a + 4 ≤ 12 → (m.store 0 a (le 4 v)).load k i n =
      m.load k i n := by
    intro a v m ha
    apply Mem.load_store_of_disjoint
    by_cases hk : k = 0
    · refine .inr (.inr ?_)
      have := h0 hk
      simp only [le_length]
      omega
    · exact .inl hk
  rw [hfirst 4 _ _ (by omega), hfirst 8 _ _ (by omega)]

theorem packetBaseSend_nextLen {b : ℕ} (hb : b < r.blocks.length) :
    (packetBaseSend r).load (b, 0) 4 = le 4 (r.len (b + 1)) := by
  have := setNextLens_nextLen 0 r.blocks (r.store (0, 8) (le 4 r.length) |>.store (0, 4)
    (le 4 ((r.blocks.head?.map RopeBlock.len).getD 0))).mem hb
  rw [Nat.zero_add] at this
  exact this

theorem packetBaseSend_firstLen : (packetBaseSend r).load (0, 4) 4 = le 4 (r.len 0) := by
  unfold packetBaseSend
  simp only [Rope.store, Rope.load]
  rw [setNextLens_load _ _ _ (le_refl 4)]
  have := Mem.load_store_self (r.mem.store 0 8 (le 4 r.length)) 0 4
    (le 4 ((r.blocks.head?.map RopeBlock.len).getD 0))
  rw [le_length] at this
  rw [this, Rope.len, List.head?_eq_getElem?]

theorem packetBaseSend_totalLen : (packetBaseSend r).load (0, 8) 4 = le 4 r.length := by
  unfold packetBaseSend
  simp only [Rope.store, Rope.load]
  rw [setNextLens_load _ _ _ (by omega), Mem.load_store_of_disjoint]
  · have := Mem.load_store_self r.mem 0 8 (le 4 r.length)
    rwa [le_length] at this
  · exact .inr (.inr (by simp))

end Send

end Netp.Genf
