import Mathlib.Logic.Function.Basic
import Mathlib.Data.List.Basic

/-! # Linked chains in a memory

`next a` is the link stored at the cell `a`; links are values of a type `β` into which cells embed
(so that the embedding may leave out a null link). `Seg emb next x l y` says that following the
links from `x` visits exactly the cells of `l`, in order, and stops at `y`.
-/

namespace Netp.Lib
set_option autoImplicit false

section Chain
variable {α β : Type} (emb : α → β) (next : α → β)

/-- Following `next` from `x` visits the cells of `l` and arrives at `y`. -/
def Seg : β → List α → β → Prop
  | x, [], y => x = y
  | x, a :: l, y => x = emb a ∧ Seg (next a) l y

variable {emb next}

@[simp] theorem seg_nil {x y : β} : Seg emb next x [] y ↔ x = y := Iff.rfl

@[simp] theorem seg_cons {x y : β} {a : α} {l : List α} :
    Seg emb next x (a :: l) y ↔ x = emb a ∧ Seg emb next (next a) l y := Iff.rfl

theorem seg_append {x y : β} {l m : List α} :
    Seg emb next x (l ++ m) y ↔ ∃ z, Seg emb next x l z ∧ Seg emb next z m y := by
  induction l generalizing x with
  | nil => simp
  | cons a l ih =>
    simp only [List.cons_append, seg_cons, ih]
    constructor
    · rintro ⟨hx, z, h1, h2⟩
      exact ⟨z, ⟨hx, h1⟩, h2⟩
    · rintro ⟨z, ⟨hx, h1⟩, h2⟩
      exact ⟨hx, z, h1, h2⟩

theorem seg_snoc {x y : β} {l : List α} {a : α} :
    Seg emb next x (l ++ [a]) y ↔ Seg emb next x l (emb a) ∧ next a = y := by
  rw [seg_append]
  constructor
  · rintro ⟨z, h, rfl, hy⟩
    exact ⟨h, hy⟩
  · rintro ⟨h, hy⟩
    exact ⟨_, h, rfl, hy⟩

/-- A chain depends only on the links of its own cells. -/
theorem Seg.congr {next' : α → β} {x y : β} {l : List α} (h : Seg emb next x l y)
    (hl : ∀ a ∈ l, next' a = next a) : Seg emb next' x l y := by
  induction l generalizing x with
  | nil => exact h
  | cons a l ih =>
    obtain ⟨hx, h⟩ := h
    refine ⟨hx, ?_⟩
    rw [hl a (by simp)]
    exact ih h (fun b hb => hl b (by simp [hb]))

/-- Writing a link outside a chain keeps the chain. -/
theorem Seg.update [DecidableEq α] {x y v : β} {l : List α} {a : α} (h : Seg emb next x l y)
    (ha : a ∉ l) : Seg emb (Function.update next a v) x l y :=
  h.congr fun _ hb => Function.update_of_ne (fun e => ha (by rw [← e]; exact hb)) _ _

end Chain

end Netp.Lib
