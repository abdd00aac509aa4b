import Mathlib.Data.List.Basic
import Mathlib.Data.Nat.Basic
import Mathlib.Tactic.Ring

/-! # Bytes in blocks of memory

A memory gives every block of it (blocks are named by a type `κ`) its bytes; what was never written
is whatever it is. A region is a stretch of one block. A store changes the loads of no region
disjoint from its own.

Numbers lie in memory least significant byte first (`le`, `ofLe`).
-/

namespace Netp.Lib
set_option autoImplicit false

/-- Bytes by block and index. -/
def Mem (κ : Type) : Type := κ → ℕ → UInt8

/-- `size` bytes of block `blk` from `start` on. -/
structure Region (κ : Type) where
  blk : κ
  start : ℕ
  size : ℕ

section Mem
variable {κ : Type}

namespace Region

def Disjoint (a b : Region κ) : Prop :=
  a.blk ≠ b.blk ∨ a.start + a.size ≤ b.start ∨ b.start + b.size ≤ a.start

/-- All of `a` lies in `b`. -/
def Within (a b : Region κ) : Prop :=
  a.blk = b.blk ∧ b.start ≤ a.start ∧ a.start + a.size ≤ b.start + b.size

theorem Disjoint.symm {a b : Region κ} (h : a.Disjoint b) : b.Disjoint a := by
  rcases h with h | h | h
  · exact .inl (Ne.symm h)
  · exact .inr (.inr h)
  · exact .inr (.inl h)

theorem Disjoint.within_left {a b c : Region κ} (h : b.Disjoint c) (hw : a.Within b) :
    a.Disjoint c := by
  obtain ⟨hb, h1, h2⟩ := hw
  rcases h with h | h | h
  · exact .inl (by rw [hb]; exact h)
  · exact .inr (.inl (by omega))
  · exact .inr (.inr (by omega))

theorem Disjoint.within_right {a b c : Region κ} (h : a.Disjoint b) (hw : c.Within b) :
    a.Disjoint c := (h.symm.within_left hw).symm

end Region

/-- The `n` bytes of block `k` from index `i` on. -/
def Mem.load (m : Mem κ) (k : κ) (i n : ℕ) : List UInt8 := (List.range n).map fun j => m k (i + j)

@[simp] theorem Mem.load_length (m : Mem κ) (k : κ) (i n : ℕ) : (m.load k i n).length = n := by
  simp [Mem.load]

theorem Mem.load_getElem? (m : Mem κ) (k : κ) (i n j : ℕ) (hj : j < n) :
    (m.load k i n)[j]? = some (m k (i + j)) := by
  simp [Mem.load, hj]

theorem Mem.load_add (m : Mem κ) (k : κ) (i a b : ℕ) :
    m.load k i (a + b) = m.load k i a ++ m.load k (i + a) b := by
  simp only [Mem.load, List.range_add, List.map_append, List.map_map]
  congr 1
  apply List.map_congr_left
  intro j _
  simp only [Function.comp_apply, Nat.add_assoc]

theorem Mem.load_take (m : Mem κ) (k : κ) (i : ℕ) {n d : ℕ} (h : d ≤ n) :
    (m.load k i n).take d = m.load k i d := by
  obtain ⟨e, rfl⟩ := Nat.exists_eq_add_of_le h
  rw [Mem.load_add, List.take_left' (by simp)]

theorem Mem.load_drop (m : Mem κ) (k : κ) (i : ℕ) {n d : ℕ} (h : d ≤ n) :
    (m.load k i n).drop d = m.load k (i + d) (n - d) := by
  obtain ⟨e, rfl⟩ := Nat.exists_eq_add_of_le h
  rw [Mem.load_add, List.drop_left' (by simp), Nat.add_sub_cancel_left]

variable [DecidableEq κ]

/-- Write the bytes `bs` at index `i` of block `k`. -/
def Mem.store (m : Mem κ) (k : κ) (i : ℕ) (bs : List UInt8) : Mem κ :=
  fun k' j => if k' = k ∧ i ≤ j ∧ j < i + bs.length then bs.getD (j - i) 0 else m k' j

theorem Mem.load_store_self (m : Mem κ) (k : κ) (i : ℕ) (bs : List UInt8) :
    (m.store k i bs).load k i bs.length = bs := by
  apply List.ext_getElem
  · simp
  · intro j h1 h2
    simp only [Mem.load, List.getElem_map, List.getElem_range, Mem.store]
    rw [if_pos ⟨trivial, by omega, by omega⟩]
    simp [h2]

/-- A part of what was stored. -/
theorem Mem.load_store_part (m : Mem κ) (k : κ) (i : ℕ) {bs : List UInt8} {d n : ℕ}
    (h : d + n ≤ bs.length) : (m.store k i bs).load k (i + d) n = (bs.drop d).take n := by
  apply List.ext_getElem
  · simp
    omega
  · intro j h1 h2
    simp only [Mem.load_length] at h1
    have hj : i + d + j - i = d + j := by omega
    simp only [Mem.load, List.getElem_map, List.getElem_range, Mem.store, List.getElem_take,
      List.getElem_drop, hj]
    have hlt : d + j < bs.length := by omega
    rw [if_pos ⟨trivial, by omega, by omega⟩]
    simp [hlt]

/-- The frame rule of a store. -/
theorem Mem.load_store_of_disjoint (m : Mem κ) {k k' : κ} {i j n : ℕ} {bs : List UInt8}
    (h : Region.Disjoint ⟨k, i, n⟩ ⟨k', j, bs.length⟩) :
    (m.store k' j bs).load k i n = m.load k i n := by
  simp only [Mem.load]
  apply List.map_congr_left
  intro x hx
  have hx := List.mem_range.1 hx
  simp only [Mem.store]
  rw [if_neg]
  rintro ⟨rfl, h1, h2⟩
  rcases h with h | h | h
  · exact h rfl
  · simp only at h
    omega
  · simp only at h
    omega

end Mem

/-! ## Numbers as bytes -/

/-- The `n` low bytes of `v`, least significant first. -/
def le : ℕ → ℕ → List UInt8
  | 0, _ => []
  | n + 1, v => UInt8.ofNat v :: le n (v / 256)

/-- The number that the bytes denote. -/
def ofLe : List UInt8 → ℕ
  | [] => 0
  | b :: bs => b.toNat + 256 * ofLe bs

@[simp] theorem le_length (n v : ℕ) : (le n v).length = n := by
  induction n generalizing v with
  | zero => rfl
  | succ n ih => simp [le, ih]

theorem ofLe_le (n v : ℕ) : ofLe (le n v) = v % 256 ^ n := by
  induction n generalizing v with
  | zero => simp [le, ofLe, Nat.mod_one]
  | succ n ih =>
    have hbyte : (UInt8.ofNat v).toNat = v % 256 := by simp
    rw [le, ofLe, ih, hbyte, Nat.pow_succ, Nat.mul_comm (256 ^ n) 256, Nat.mod_mul]

theorem ofLe_le_of_lt {n v : ℕ} (h : v < 256 ^ n) : ofLe (le n v) = v := by
  rw [ofLe_le, Nat.mod_eq_of_lt h]

theorem ofLe_lt (bs : List UInt8) : ofLe bs < 256 ^ bs.length := by
  induction bs with
  | nil => simp [ofLe]
  | cons b bs ih =>
    have := b.toNat_lt
    simp only [ofLe, List.length_cons, pow_succ]
    omega

theorem le_ofLe (bs : List UInt8) : le bs.length (ofLe bs) = bs := by
  induction bs with
  | nil => rfl
  | cons b bs ih =>
    have hb := b.toNat_lt
    have hlow : UInt8.ofNat (b.toNat + 256 * ofLe bs) = b := by
      apply UInt8.toNat_inj.1
      rw [UInt8.toNat_ofNat']
      omega
    have hhigh : (b.toNat + 256 * ofLe bs) / 256 = ofLe bs := by omega
    rw [List.length_cons, ofLe, le, hlow, hhigh, ih]

theorem ofLe_replicate_zero (n : ℕ) : ofLe (List.replicate n 0) = 0 := by
  induction n with
  | zero => rfl
  | succ n ih => simp [List.replicate_succ, ofLe, ih]

end Netp.Lib
