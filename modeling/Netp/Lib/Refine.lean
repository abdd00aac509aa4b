import Mathlib.Data.List.Basic

/-! # Machines with outputs, and simulation

A machine takes an input in a state and gives the next state and an output, or is not enabled. Two
machines over the same inputs and outputs are compared by a relation of their states that steps
keep; then they give the same outputs on every sequence of inputs.
-/

namespace Netp.Lib
set_option autoImplicit false

/-! ## Related results -/

section Rel
variable {α β γ δ : Type} {R : α → β → Prop} {S : γ → δ → Prop} {x : Option α} {y : Option β}

theorem rel_bind {f : α → Option γ} {g : β → Option δ} (h : Option.Rel R x y)
    (hf : ∀ a b, R a b → Option.Rel S (f a) (g b)) : Option.Rel S (x.bind f) (y.bind g) := by
  cases h with
  | none => exact .none
  | some hab => exact hf _ _ hab

theorem rel_map {f : α → γ} {g : β → δ} (h : Option.Rel R x y) (hf : ∀ a b, R a b → S (f a) (g b)) :
    Option.Rel S (x.map f) (y.map g) := by
  cases h with
  | none => exact .none
  | some hab => exact .some (hf _ _ hab)

theorem rel_imp {T : α → β → Prop} (h : Option.Rel R x y) (hRT : ∀ a b, R a b → T a b) :
    Option.Rel T x y := by
  cases h with
  | none => exact .none
  | some hab => exact .some (hRT _ _ hab)

theorem rel_map_eq {f : α → γ} {g : β → γ} (h : Option.Rel R x y) (hf : ∀ a b, R a b → f a = g b) :
    x.map f = y.map g := by
  cases h with
  | none => rfl
  | some hab => exact congrArg some (hf _ _ hab)

/-- Related results are results. -/
theorem rel_results (h : Option.Rel R x y) :
    Option.Rel (fun a b => x = some a ∧ y = some b ∧ R a b) x y := by
  cases h with
  | none => exact .none
  | some hab => exact .some ⟨rfl, rfl, hab⟩

theorem rel_foldlM {ι : Type} {Q : ι → Prop} {f : α → ι → Option α} {g : β → ι → Option β}
    (hstep : ∀ a b i, R a b → Q i → Option.Rel R (f a i) (g b i)) :
    ∀ {is : List ι} {a : α} {b : β}, R a b → (∀ i ∈ is, Q i) →
      Option.Rel R (is.foldlM f a) (is.foldlM g b)
  | [], _, _, hab, _ => .some hab
  | i :: is, a, b, hab, hall => by
      rw [List.foldlM_cons, List.foldlM_cons]
      refine rel_bind (hstep a b i hab (hall i List.mem_cons_self)) fun a' b' hab' => ?_
      exact rel_foldlM hstep hab' fun j hj => hall j (List.mem_cons_of_mem i hj)

end Rel

/-! ## Machines -/

structure Machine (σ ι ο : Type) where
  init : σ
  step : σ → ι → Option (σ × ο)

section Machine
variable {σ τ ι ο : Type} (C : Machine σ ι ο) (A : Machine τ ι ο)

/-- The state after a sequence of inputs, with the outputs on the way. -/
def Machine.trace : σ → List ι → Option (σ × List ο)
  | s, [] => some (s, [])
  | s, i :: is =>
      (C.step s i).bind fun r => (Machine.trace r.1 is).map fun e => (e.1, r.2 :: e.2)

/-- Related states take the same inputs, with the same outputs, to related states. -/
structure Simulation (R : σ → τ → Prop) : Prop where
  init : R C.init A.init
  stuck : ∀ s t i, R s t → C.step s i = none → A.step t i = none
  step : ∀ s t i s' o, R s t → C.step s i = some (s', o) → ∃ t', A.step t i = some (t', o) ∧ R s' t'

variable {C A}

theorem Simulation.trace {R : σ → τ → Prop} (h : Simulation C A R) {s : σ} {t : τ} (hst : R s t)
    (is : List ι) :
    (C.trace s is).map Prod.snd = (A.trace t is).map Prod.snd ∧
      ∀ s' os, C.trace s is = some (s', os) → ∃ t', R s' t' := by
  induction is generalizing s t with
  | nil =>
    refine ⟨rfl, ?_⟩
    intro s' os hs
    simp only [Machine.trace, Option.some.injEq, Prod.mk.injEq] at hs
    exact ⟨t, hs.1 ▸ hst⟩
  | cons i is ih =>
    cases hc : C.step s i with
    | none =>
      have ha := h.stuck s t i hst hc
      simp [Machine.trace, hc, ha]
    | some r =>
      obtain ⟨s1, o⟩ := r
      obtain ⟨t1, ha, hr⟩ := h.step s t i s1 o hst hc
      obtain ⟨heq, hend⟩ := ih hr
      constructor
      · have hcons := congrArg (Option.map (fun os => o :: os)) heq
        simpa [Machine.trace, hc, ha, Option.map_map, Function.comp_def] using hcons
      · intro s' os hs
        simp only [Machine.trace, hc, Option.bind_some, Option.map_eq_some_iff, Prod.mk.injEq,
          Prod.exists] at hs
        obtain ⟨s2, os2, h2, rfl, -⟩ := hs
        exact hend s2 os2 h2

/-- A simulation for the inputs that meet `ok`: a step of one machine answers a step of the other. -/
structure SimulationOn (C : Machine σ ι ο) (A : Machine τ ι ο) (ok : ι → Prop) (R : σ → τ → Prop) :
    Prop where
  init : R C.init A.init
  step : ∀ s t i, R s t → ok i → Option.Rel (fun x y => R x.1 y.1 ∧ x.2 = y.2) (C.step s i) (A.step t i)

theorem SimulationOn.trace {ok : ι → Prop} {R : σ → τ → Prop} (h : SimulationOn C A ok R) {s : σ} {t : τ}
    (hst : R s t) (is : List ι) (hok : ∀ i ∈ is, ok i) :
    Option.Rel (fun x y => R x.1 y.1 ∧ x.2 = y.2) (C.trace s is) (A.trace t is) := by
  induction is generalizing s t with
  | nil => exact .some ⟨hst, rfl⟩
  | cons i is ih =>
    refine rel_bind (h.step s t i hst (hok i List.mem_cons_self)) fun x y hxy => ?_
    have hrest := ih hxy.1 fun j hj => hok j (List.mem_cons_of_mem _ hj)
    refine rel_map hrest fun p q hpq => ⟨hpq.1, ?_⟩
    simp only [hxy.2, hpq.2]

/-- Every step of the second machine is one of the first. -/
structure Refinement (C : Machine σ ι ο) (A : Machine τ ι ο) (R : σ → τ → Prop) : Prop where
  init : R C.init A.init
  step : ∀ s t i t' o, R s t → A.step t i = some (t', o) → ∃ s', C.step s i = some (s', o) ∧ R s' t'

theorem Refinement.trace {R : σ → τ → Prop} (h : Refinement C A R) {s : σ} {t t' : τ} (hst : R s t)
    {is : List ι} {os : List ο} (ht : A.trace t is = some (t', os)) :
    ∃ s', C.trace s is = some (s', os) ∧ R s' t' := by
  induction is generalizing s t os with
  | nil =>
    obtain ⟨rfl, rfl⟩ := Prod.mk.inj (Option.some.inj ht)
    exact ⟨s, rfl, hst⟩
  | cons i is ih =>
    obtain ⟨⟨t1, o⟩, hstep, ht⟩ := Option.bind_eq_some_iff.1 ht
    obtain ⟨⟨t2, os'⟩, hrest, ht⟩ := Option.map_eq_some_iff.1 ht
    obtain ⟨rfl, rfl⟩ := Prod.mk.inj ht
    obtain ⟨s1, hs, hst1⟩ := h.step s t i t1 o hst hstep
    obtain ⟨s', hs', hst'⟩ := ih hst1 hrest
    refine ⟨s', ?_, hst'⟩
    rw [Machine.trace, hs, Option.bind_some, hs']
    rfl

end Machine

end Netp.Lib
