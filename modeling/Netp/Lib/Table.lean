import Mathlib.Data.List.Nodup
import Mathlib.Tactic.Common

/-! # Tables by key

Entries that carry their keys, each key once, in the order in which they were put in. `insert` leaves an
entry alone that is there, and `update` changes what is at a key. Nothing here names a program.

* `find_eq_some_iff`: what is found is what is in the table, at its key.
* `find_insertAll`: what is found after any number of insertions.
* `find_update`: what is found after a change.
-/

namespace Netp.Lib
set_option autoImplicit false

structure Table {α κ : Type} (key : α → κ) where
  entries : List α
  nodup : (entries.map key).Nodup

namespace Table
variable {α κ : Type} {key : α → κ}

def empty : Table key := ⟨[], List.nodup_nil⟩

variable [DecidableEq κ]

def find (m : Table key) (k : κ) : Option α := m.entries.find? fun a => key a = k

def insert (m : Table key) (a : α) : Table key :=
  if h : key a ∈ m.entries.map key then m
  else
    ⟨m.entries ++ [a], by
      rw [List.map_append]
      exact List.nodup_append_comm.1 (List.nodup_cons.2 ⟨h, m.nodup⟩)⟩

def insertAll (m : Table key) (as : List α) : Table key := as.foldl insert m

def update (m : Table key) (k : κ) (f : α → α) (hf : ∀ a, key (f a) = key a) : Table key :=
  ⟨m.entries.map fun a => if key a = k then f a else a, by
    have hkey : (key ∘ fun a => if key a = k then f a else a) = key := by
      funext a
      by_cases ha : key a = k <;> simp [ha, hf]
    rw [List.map_map, hkey]
    exact m.nodup⟩

variable {m : Table key} {a : α} {k k' : κ} {f : α → α} {hf : ∀ a, key (f a) = key a}

theorem find_eq_some_iff : m.find k = some a ↔ a ∈ m.entries ∧ key a = k := by
  constructor
  · intro h
    exact ⟨List.mem_of_find?_eq_some h, by simpa using List.find?_some h⟩
  · rintro ⟨ha, rfl⟩
    obtain ⟨b, hb⟩ : ∃ b, m.find (key a) = some b := by
      apply Option.isSome_iff_exists.1
      rw [find, List.find?_isSome]
      exact ⟨a, ha, by simp⟩
    have hkey : key b = key a := by simpa using List.find?_some hb
    rw [hb, List.inj_on_of_nodup_map m.nodup (List.mem_of_find?_eq_some hb) ha hkey]

theorem find_eq_none_iff : m.find k = none ↔ k ∉ m.entries.map key := by
  simp [find]

theorem find_insert : (m.insert a).find k = (m.find k).or (if key a = k then some a else none) := by
  unfold insert
  by_cases h : key a ∈ m.entries.map key
  · rw [dif_pos h]
    by_cases hk : key a = k
    · obtain ⟨b, hb⟩ := Option.ne_none_iff_exists'.1 fun hn => find_eq_none_iff.1 hn (hk ▸ h)
      rw [hb, Option.some_or]
    · rw [if_neg hk, Option.or_none]
  · rw [dif_neg h]
    simp only [find, List.find?_append, List.find?_singleton, decide_eq_true_eq]

/-- The first of the new entries counts, where there was none. -/
theorem find_insertAll (as : List α) :
    (m.insertAll as).find k = (m.find k).or (as.find? fun a => key a = k) := by
  induction as generalizing m with
  | nil => simp [insertAll]
  | cons a as ih =>
    have hstep := ih (m := m.insert a)
    rw [insertAll] at hstep ⊢
    rw [List.foldl_cons, hstep, find_insert, Option.or_assoc]
    by_cases ha : key a = k <;> simp [ha]

theorem find_empty : (empty : Table key).find k = none := rfl

theorem find_update :
    (m.update k f hf).find k' = if k' = k then (m.find k').map f else m.find k' := by
  have hpred : ((fun a => decide (key a = k')) ∘ fun a => if key a = k then f a else a) =
      fun a => decide (key a = k') := by
    funext a
    by_cases ha : key a = k <;> simp [ha, hf]
  rw [find, update, List.find?_map, hpred, ← find]
  cases hfind : m.find k' with
  | none => simp
  | some a =>
    obtain ⟨-, rfl⟩ := find_eq_some_iff.1 hfind
    by_cases hk : key a = k <;> simp [hk]

theorem mem_update {b : α} (hb : b ∈ (m.update k f hf).entries) :
    b ∈ m.entries ∨ ∃ a ∈ m.entries, key a = k ∧ b = f a := by
  obtain ⟨a, ha, rfl⟩ := List.mem_map.1 hb
  by_cases hk : key a = k
  · exact .inr ⟨a, ha, hk, if_pos hk⟩
  · exact .inl (by rwa [if_neg hk])

end Table

end Netp.Lib
