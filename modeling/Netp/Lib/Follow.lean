import Mathlib.Data.Nat.Notation
import Mathlib.Order.Preorder.Finite

/-! # Following a chain

`follow f n a` is what `n` steps of a partial function lead to from `a`. Where the chain stays inside
a finite set it ends exactly when it comes to nothing twice. Nothing here names a program.
-/

namespace Netp.Lib
set_option autoImplicit false
variable {α : Type} {f : α → Option α} {a b : α} {i j m n : ℕ}

def follow (f : α → Option α) : ℕ → α → Option α
  | 0, a => some a
  | n + 1, a => (follow f n a).bind f

/-- The chain from `a` ends. -/
def Ends (f : α → Option α) (a : α) : Prop := ∃ n, follow f n a = none

/-- The chain from `a` comes to nothing twice. -/
def NoRepeat (f : α → Option α) (a : α) : Prop :=
  ∀ i j b, i < j → follow f i a = some b → follow f j a ≠ some b

theorem follow_add (m n : ℕ) (a : α) : follow f (m + n) a = (follow f m a).bind (follow f n) := by
  induction n with
  | zero => cases follow f m a <;> rfl
  | succ n ih =>
      rw [← Nat.add_assoc]
      simp only [follow, ih, Option.bind_assoc]

theorem follow_of_add (h : follow f m a = some b) : follow f (m + n) a = follow f n b := by
  rw [follow_add, h]
  rfl

theorem follow_one_add (n : ℕ) (a : α) : follow f (n + 1) a = (f a).bind (follow f n) := by
  rw [Nat.add_comm, follow_add]
  rfl

theorem follow_none (h : follow f m a = none) (hn : m ≤ n) : follow f n a = none := by
  obtain ⟨k, rfl⟩ := Nat.exists_eq_add_of_le hn
  rw [follow_add, h]
  rfl

theorem ends_of_follow (h : follow f m a = some b) : Ends f a ↔ Ends f b := by
  constructor
  · rintro ⟨n, hn⟩
    exact ⟨n, follow_of_add h ▸ follow_none hn (Nat.le_add_left n m)⟩
  · rintro ⟨n, hn⟩
    exact ⟨m + n, (follow_of_add h).trans hn⟩

theorem ends_of_none (h : f a = none) : Ends f a := ⟨1, h⟩

theorem ends_of_next (h : f a = some b) : Ends f a ↔ Ends f b := ends_of_follow (m := 1) (by simp [follow, h])

/-- A chain ends with another that takes several of its steps at once. -/
theorem ends_iff_ends {g : α → Option α} {P : α → Prop} (hstep : ∀ a, P a → ∃ m, follow f (m + 1) a = g a)
    (hkeep : ∀ a b, P a → g a = some b → P b) (ha : P a) : Ends f a ↔ Ends g a := by
  constructor
  · rintro ⟨n, hn⟩
    induction n using Nat.strong_induction_on generalizing a with
    | _ n ih =>
        obtain ⟨m, hm⟩ := hstep a ha
        cases hg : g a with
        | none => exact ends_of_none hg
        | some b =>
            rw [hg] at hm
            have hlt : m + 1 < n := by
              by_contra hle
              have := follow_none hn (Nat.not_lt.mp hle)
              simp [hm] at this
            obtain ⟨k, rfl⟩ := Nat.exists_eq_add_of_le hlt.le
            rw [follow_of_add hm] at hn
            exact (ends_of_next hg).mpr (ih k (by omega) (hkeep a b ha hg) hn)
  · rintro ⟨n, hn⟩
    induction n generalizing a with
    | zero => simp [follow] at hn
    | succ n ih =>
        obtain ⟨m, hm⟩ := hstep a ha
        cases hg : g a with
        | none => exact ⟨m + 1, hm.trans hg⟩
        | some b =>
            rw [follow_one_add, hg] at hn
            exact (ends_of_follow (hm.trans hg)).mpr (ih (hkeep a b ha hg) hn)

/-- Once round, a chain goes round for ever. -/
theorem follow_cycle (h : follow f m a = some a) (k : ℕ) : follow f (k * m) a = some a := by
  induction k with
  | zero => simp [follow]
  | succ k ih =>
      rw [Nat.succ_mul]
      exact (follow_of_add ih).trans h

theorem Ends.noRepeat (h : Ends f a) : NoRepeat f a := by
  intro i j b hij hi hj
  obtain ⟨d, rfl⟩ := Nat.exists_eq_add_of_lt hij
  have hb : follow f (d + 1) b = some b := (follow_of_add hi).symm.trans hj
  obtain ⟨n, hn⟩ := (ends_of_follow hi).mp h
  have hlate : follow f (n * (d + 1)) b = none := follow_none hn (Nat.le_mul_of_pos_right n (by omega))
  exact absurd (follow_cycle hb n) (by simp [hlate])

/-- In a finite set a chain that comes to nothing twice ends. -/
theorem NoRepeat.ends {S : Set α} (hS : S.Finite) (hin : ∀ n b, follow f n a = some b → b ∈ S)
    (h : NoRepeat f a) : Ends f a := by
  by_contra hne
  have hsome : ∀ n, ∃ b, follow f n a = some b := fun n =>
    Option.ne_none_iff_exists'.mp fun hn => hne ⟨n, hn⟩
  choose g hg using hsome
  obtain ⟨i, j, hij, he⟩ := hS.exists_lt_map_eq_of_forall_mem (f := g) fun n => hin n _ (hg n)
  exact h i j (g i) hij (hg i) (by rw [hg j, he])

theorem ends_iff_noRepeat {S : Set α} (hS : S.Finite) (hin : ∀ n b, follow f n a = some b → b ∈ S) :
    Ends f a ↔ NoRepeat f a := ⟨Ends.noRepeat, NoRepeat.ends hS hin⟩

end Netp.Lib
