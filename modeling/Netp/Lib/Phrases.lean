import Mathlib.Data.List.Basic

/-! # Phrases, and machines that read them

A language whose words say something: `P t x` is that `t` is a phrase of `P` that says `x`. `andThen` puts
a language behind another, one that may depend on what the first has said; `behind a` is what is left of a
language behind the symbol `a`, and `span` takes down the symbols of a kind for what follows. A machine
reads a language where each step goes on with what is left of it (`reads_iff`).
-/

namespace Netp.Lib
set_option autoImplicit false

def Phrases (σ α : Type) := List σ → α → Prop

namespace Phrases
variable {σ α β γ : Type} {P : Phrases σ α} {K : α → Phrases σ β} {a : σ}

@[ext] theorem ext {P Q : Phrases σ α} (h : ∀ t x, P t x ↔ Q t x) : P = Q :=
  funext fun t => funext fun x => propext (h t x)

/-- No phrases at all. -/
def nothing : Phrases σ α := fun _ _ => False

/-- The empty phrase, which says `x`. -/
def done (x : α) : Phrases σ α := fun t y => t = [] ∧ y = x

/-- A phrase of `P` and one of what comes behind it, which says what the two do. -/
def andThen (P : Phrases σ α) (K : α → Phrases σ β) : Phrases σ β :=
  fun t y => ∃ u v x, t = u ++ v ∧ P u x ∧ K x v y

def map (f : α → β) (P : Phrases σ α) : Phrases σ β := fun t y => ∃ x, P t x ∧ y = f x

/-- The symbol, and then `P`. -/
def after (a : σ) (P : Phrases σ α) : Phrases σ α := fun t x => ∃ u, t = a :: u ∧ P u x

/-- What is left behind the symbol. -/
def behind (a : σ) (P : Phrases σ α) : Phrases σ α := fun t x => P (a :: t) x

theorem andThen_assoc (P : Phrases σ α) (K : α → Phrases σ β) (M : β → Phrases σ γ) :
    (P.andThen K).andThen M = P.andThen fun x => (K x).andThen M := by
  ext t y
  constructor
  · rintro ⟨_, w, x', rfl, ⟨u, v, x, rfl, hP, hK⟩, hM⟩
    exact ⟨u, v ++ w, x, List.append_assoc .., hP, v, w, x', rfl, hK, hM⟩
  · rintro ⟨u, _, x, rfl, hP, v, w, x', rfl, hK, hM⟩
    exact ⟨u ++ v, w, x', (List.append_assoc ..).symm, ⟨u, v, x, rfl, hP, hK⟩, hM⟩

theorem done_andThen (x : α) (K : α → Phrases σ β) : (done x).andThen K = K x := by
  ext t y
  constructor
  · rintro ⟨_, v, _, rfl, ⟨rfl, rfl⟩, hK⟩
    exact hK
  · exact fun hK => ⟨[], t, x, rfl, ⟨rfl, rfl⟩, hK⟩

theorem nothing_andThen (K : α → Phrases σ β) : (nothing : Phrases σ α).andThen K = nothing := by
  ext t y
  constructor
  · rintro ⟨_, _, _, _, h, _⟩
    exact h
  · exact False.elim

theorem map_andThen (f : α → β) (P : Phrases σ α) (M : β → Phrases σ γ) :
    (P.map f).andThen M = P.andThen fun x => M (f x) := by
  ext t y
  constructor
  · rintro ⟨u, v, _, rfl, ⟨x, hP, rfl⟩, hM⟩
    exact ⟨u, v, x, rfl, hP, hM⟩
  · rintro ⟨u, v, x, rfl, hP, hM⟩
    exact ⟨u, v, _, rfl, ⟨x, hP, rfl⟩, hM⟩

theorem after_andThen (P : Phrases σ α) (K : α → Phrases σ β) :
    (P.after a).andThen K = (P.andThen K).after a := by
  ext t y
  constructor
  · rintro ⟨_, v, x, rfl, ⟨u, rfl, hP⟩, hK⟩
    exact ⟨u ++ v, rfl, u, v, x, rfl, hP, hK⟩
  · rintro ⟨_, rfl, u, v, x, rfl, hP, hK⟩
    exact ⟨a :: u, v, x, rfl, ⟨u, rfl, hP⟩, hK⟩

theorem behind_after (P : Phrases σ α) : (P.after a).behind a = P := by
  ext t x
  constructor
  · rintro ⟨u, h, hP⟩
    rw [(List.cons.inj h).2]
    exact hP
  · exact fun hP => ⟨t, rfl, hP⟩

theorem behind_after_ne {b : σ} (h : b ≠ a) (P : Phrases σ α) : (P.after a).behind b = nothing := by
  ext t x
  constructor
  · rintro ⟨u, hu, -⟩
    exact h (List.cons.inj hu).1
  · exact False.elim

theorem behind_done (x : α) : (done x).behind a = nothing := by
  ext t y
  constructor
  · rintro ⟨h, -⟩
    cases h
  · exact False.elim

theorem behind_map {f : α → β} : (P.map f).behind a = (P.behind a).map f := rfl

/-- Behind a symbol the first phrase goes on, or there was none and the second does. -/
theorem andThen_cons {t : List σ} {y : β} : P.andThen K (a :: t) y ↔
    (∃ x, P [] x ∧ K x (a :: t) y) ∨ (P.behind a).andThen K t y := by
  constructor
  · rintro ⟨u, v, x, h, hP, hK⟩
    rcases List.cons_eq_append_iff.mp h with ⟨rfl, rfl⟩ | ⟨u, rfl, rfl⟩
    · exact .inl ⟨x, hP, hK⟩
    · exact .inr ⟨u, v, x, rfl, hP, hK⟩
  · rintro (⟨x, hP, hK⟩ | ⟨u, v, x, rfl, hP, hK⟩)
    · exact ⟨[], _, x, rfl, hP, hK⟩
    · exact ⟨a :: u, v, x, rfl, hP, hK⟩

theorem behind_andThen (h : ∀ x, P [] x → (K x).behind a = nothing) :
    (P.andThen K).behind a = (P.behind a).andThen K := by
  ext t y
  refine andThen_cons.trans (or_iff_right ?_)
  rintro ⟨x, hP, hK⟩
  rw [show K x (a :: t) y ↔ (K x).behind a t y from Iff.rfl, h x hP] at hK
  exact hK

theorem andThen_nil {y : β} : P.andThen K [] y ↔ ∃ x, P [] x ∧ K x [] y := by
  constructor
  · rintro ⟨u, v, x, h, hP, hK⟩
    obtain ⟨rfl, rfl⟩ := List.append_eq_nil_iff.mp h.symm
    exact ⟨x, hP, hK⟩
  · rintro ⟨x, hP, hK⟩
    exact ⟨[], [], x, rfl, hP, hK⟩

/-! ## Alternatives, and symbols of a kind -/

/-- A phrase of either language. -/
def either (P Q : Phrases σ α) : Phrases σ α := fun t x => P t x ∨ Q t x

/-- A symbol that meets `p`, and what comes behind that one. -/
def one (p : σ → Prop) (K : σ → Phrases σ α) : Phrases σ α := fun t x => ∃ a u, t = a :: u ∧ p a ∧ K a u x

/-- Symbols that meet `p`, to go behind those of `acc`, and what comes behind all of these. -/
def span (p : σ → Prop) (K : List σ → Phrases σ α) (acc : List σ) : Phrases σ α :=
  fun t x => ∃ u v, t = u ++ v ∧ (∀ a ∈ u, p a) ∧ K (acc ++ u) v x

theorem behind_either (P Q : Phrases σ α) : (P.either Q).behind a = (P.behind a).either (Q.behind a) := rfl

theorem either_nothing (P : Phrases σ α) : P.either nothing = P := by
  ext t x
  exact or_iff_left id

theorem nothing_either (P : Phrases σ α) : nothing.either P = P := by
  ext t x
  exact or_iff_right id

theorem behind_one (p : σ → Prop) (K : σ → Phrases σ α) [Decidable (p a)] :
    (one p K).behind a = if p a then K a else nothing := by
  ext t x
  split_ifs with ha
  · constructor
    · rintro ⟨b, u, h, -, hK⟩
      obtain ⟨rfl, rfl⟩ := List.cons.inj h
      exact hK
    · exact fun hK => ⟨a, t, rfl, ha, hK⟩
  · refine iff_of_false ?_ id
    rintro ⟨b, u, h, hb, -⟩
    exact ha ((List.cons.inj h).1 ▸ hb)

theorem not_one_nil {p : σ → Prop} {K : σ → Phrases σ α} {x : α} : ¬one p K [] x := by
  rintro ⟨_, _, h, -⟩
  cases h

theorem not_after_nil {x : α} : ¬(P.after a) [] x := by
  rintro ⟨_, h, -⟩
  cases h

theorem behind_span {p : σ → Prop} {K : List σ → Phrases σ α} {acc : List σ} (ha : p a)
    (hK : (K acc).behind a = nothing) : (span p K acc).behind a = span p K (acc ++ [a]) := by
  ext t x
  constructor
  · rintro ⟨u, v, h, hu, hv⟩
    rcases List.cons_eq_append_iff.mp h with ⟨rfl, rfl⟩ | ⟨u, rfl, rfl⟩
    · rw [List.append_nil] at hv
      rw [show K acc (a :: t) x ↔ (K acc).behind a t x from Iff.rfl, hK] at hv
      exact hv.elim
    · refine ⟨u, v, rfl, fun b hb => hu b (List.mem_cons_of_mem _ hb), ?_⟩
      rwa [List.append_assoc, List.singleton_append]
  · rintro ⟨u, v, rfl, hu, hv⟩
    refine ⟨a :: u, v, rfl, ?_, ?_⟩
    · intro b hb
      rcases List.mem_cons.1 hb with rfl | hb
      · exact ha
      · exact hu b hb
    · rwa [List.append_assoc, List.singleton_append] at hv

theorem behind_span_ne {p : σ → Prop} {K : List σ → Phrases σ α} {acc : List σ} (ha : ¬ p a) :
    (span p K acc).behind a = (K acc).behind a := by
  ext t x
  constructor
  · rintro ⟨u, v, h, hu, hv⟩
    rcases List.cons_eq_append_iff.mp h with ⟨rfl, rfl⟩ | ⟨u, rfl, rfl⟩
    · rwa [List.append_nil] at hv
    · exact absurd (hu a List.mem_cons_self) ha
  · intro hv
    exact ⟨[], a :: t, rfl, fun b hb => absurd hb List.not_mem_nil, by rwa [List.append_nil]⟩

/-- Symbols of a kind up to one of another. -/
theorem behind_span_after {p : σ → Prop} [DecidablePred p] [DecidableEq σ] {c : σ} (hc : ¬p c)
    (Q : List σ → Phrases σ α) (acc : List σ) : (span p (fun t => (Q t).after c) acc).behind a =
      if p a then span p (fun t => (Q t).after c) (acc ++ [a]) else if a = c then Q acc else nothing := by
  split_ifs with ha hac
  · refine behind_span ha (behind_after_ne ?_ (Q acc))
    rintro rfl
    exact hc ha
  · rw [behind_span_ne ha, hac, behind_after]
  · rw [behind_span_ne ha, behind_after_ne hac]

theorem span_nil {p : σ → Prop} {K : List σ → Phrases σ α} {acc : List σ} {x : α} :
    span p K acc [] x ↔ K acc [] x := by
  constructor
  · rintro ⟨u, v, h, -, hK⟩
    obtain ⟨rfl, rfl⟩ := List.append_eq_nil_iff.mp h.symm
    rwa [List.append_nil] at hK
  · intro hK
    exact ⟨[], [], rfl, fun b hb => absurd hb List.not_mem_nil, by rwa [List.append_nil]⟩

theorem map_map (f : α → β) (g : β → γ) : (P.map f).map g = P.map fun x => g (f x) := by
  ext t y
  constructor
  · rintro ⟨_, ⟨x, hP, rfl⟩, rfl⟩
    exact ⟨x, hP, rfl⟩
  · rintro ⟨x, hP, rfl⟩
    exact ⟨f x, ⟨x, hP, rfl⟩, rfl⟩

theorem map_nothing (f : α → β) : (nothing : Phrases σ α).map f = nothing := by
  ext t y
  constructor
  · rintro ⟨_, h, -⟩
    exact h
  · exact False.elim

theorem map_after (f : α → β) (P : Phrases σ α) : (P.after a).map f = (P.map f).after a := by
  ext t y
  constructor
  · rintro ⟨x, ⟨u, rfl, hP⟩, rfl⟩
    exact ⟨u, rfl, x, hP, rfl⟩
  · rintro ⟨u, rfl, x, hP, rfl⟩
    exact ⟨x, ⟨u, rfl, hP⟩, rfl⟩

/-! ## Machines -/

variable {C : Type} (step : C → σ → C) (out : C → α → Prop) (Reads : C → Phrases σ α → Prop)

/-- The symbols of the text one by one, and what the machine says at its end. -/
theorem reads_iff (hstep : ∀ {c L}, Reads c L → ∀ a, Reads (step c a) (L.behind a))
    (hend : ∀ {c L}, Reads c L → ∀ x, L [] x ↔ out c x) {c : C} {L : Phrases σ α} (h : Reads c L)
    (t : List σ) (x : α) : out (t.foldl step c) x ↔ L t x := by
  induction t generalizing c L with
  | nil => exact (hend h x).symm
  | cons a t ih => exact ih (hstep h a)

end Phrases

end Netp.Lib
