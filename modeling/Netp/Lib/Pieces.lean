import Mathlib.Tactic

/-! # Receivers that are given a stream in pieces

`recv` takes a whole piece of a stream at once, `step` one element. `ByteWise` says that, seen through
`abs`, a piece has the effect of its elements one after the other; then how a stream is cut into pieces
makes no difference. Nothing here names a program.
-/

namespace Netp.Lib
set_option autoImplicit false

section Pieces
variable {σ α β : Type} {Inv : σ → Prop} {recv : σ → List β → σ} {abs : σ → α} {step : α → β → α}

/-- A state that no element changes is not changed by a list of them. -/
theorem foldl_fixed {a : α} (h : ∀ b, step a b = a) (d : List β) : d.foldl step a = a := by
  induction d with
  | nil => rfl
  | cons b d ih => rw [List.foldl_cons, h, ih]

/-- On states that meet `Inv`, `recv` is `step` for every element, and keeps `Inv`. -/
structure ByteWise (Inv : σ → Prop) (recv : σ → List β → σ) (abs : σ → α) (step : α → β → α) : Prop where
  keep : ∀ s d, Inv s → Inv (recv s d)
  simulate : ∀ s d, Inv s → abs (recv s d) = d.foldl step (abs s)

theorem ByteWise.inv (h : ByteWise Inv recv abs step) (ds : List (List β)) {s : σ} (hs : Inv s) :
    Inv (ds.foldl recv s) := by
  induction ds generalizing s with
  | nil => exact hs
  | cons d ds ih => exact ih (h.keep s d hs)

/-- The pieces of a stream one after the other, and the stream element by element. -/
theorem ByteWise.flatten (h : ByteWise Inv recv abs step) (ds : List (List β)) {s : σ} (hs : Inv s) :
    abs (ds.foldl recv s) = ds.flatten.foldl step (abs s) := by
  induction ds generalizing s with
  | nil => rfl
  | cons d ds ih =>
    rw [List.foldl_cons, ih (h.keep s d hs), h.simulate s d hs, List.flatten_cons, List.foldl_append]

/-- Two ways of cutting one stream. -/
theorem ByteWise.cuts (h : ByteWise Inv recv abs step) {ds es : List (List β)} {s : σ} (hs : Inv s)
    (hcut : ds.flatten = es.flatten) : abs (ds.foldl recv s) = abs (es.foldl recv s) := by
  rw [h.flatten ds hs, h.flatten es hs, hcut]

end Pieces

end Netp.Lib
