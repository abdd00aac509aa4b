import Mathlib.Data.List.Induction

/-! # Histories

`Each P h`: every entry of a history is one that `P` allows after the entries before it. A history
grows at its end, and an entry is held against the past only, so that growing keeps what was shown of
the entries that are there.
-/

namespace Netp.Lib
set_option autoImplicit false

section Each
variable {α : Type} (P : List α → α → Prop)

def Each (h : List α) : Prop := ∀ pre e post, h = pre ++ e :: post → P pre e

variable {P} {h : List α} {e : α}

theorem each_nil : Each P [] := by
  intro pre e post heq
  cases pre <;> cases heq

theorem Each.left {ext : List α} (hall : Each P (h ++ ext)) : Each P h := by
  intro pre e post heq
  apply hall pre e (post ++ ext)
  rw [heq, List.append_assoc, List.cons_append]

theorem each_concat : Each P (h ++ [e]) ↔ Each P h ∧ P h e := by
  constructor
  · intro hall
    exact ⟨hall.left, hall h e [] rfl⟩
  · rintro ⟨hall, hlast⟩ pre e' post heq
    rcases List.eq_nil_or_concat post with rfl | ⟨post, last, rfl⟩
    · obtain ⟨rfl, hone⟩ := List.append_inj' heq rfl
      cases hone
      exact hlast
    · rw [List.concat_eq_append, ← List.cons_append, ← List.append_assoc] at heq
      exact hall pre e' post (List.append_inj' heq rfl).1

/-- Entries that are always allowed. -/
theorem Each.append {ext : List α} (hall : Each P h) (hext : ∀ e ∈ ext, ∀ pre, P pre e) :
    Each P (h ++ ext) := by
  induction ext using List.reverseRecOn with
  | nil => rwa [List.append_nil]
  | append_singleton ext e ih =>
    rw [← List.append_assoc, each_concat]
    refine ⟨ih ?_, hext e ?_ _⟩
    · intro e' he'
      exact hext e' (List.mem_append_left _ he')
    · exact List.mem_append_right _ List.mem_cons_self

end Each

end Netp.Lib
