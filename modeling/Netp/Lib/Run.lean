import Mathlib.Logic.Function.Basic
import Mathlib.Tactic.Push

/-! # Runs of a step system

A system is an initial state and an executable step function: `step s a` is the state after the
action `a`, or `none` where `a` is not enabled. Nothing here names a program.

* `Reach M s`: some run of `M` ends in `s`.
* `ReachIf M ok s`: some run ends in `s` all of whose steps met `ok` in the state before them.
* `ReachIf.invariant`: what holds initially and is kept by every step that meets `ok` holds of
  every state reached.
* `runIf`: runs as lists of actions, so that a concrete schedule can be evaluated.
* `foldlM_ok_iff`: sequences of steps that can fault.
* `foldlM_invariant`: loops that can give up.
-/

namespace Netp.Lib
set_option autoImplicit false

/-- A system with one initial state and a step function that picks its successor by the action. -/
structure System (σ α : Type) where
  init : σ
  step : σ → α → Option σ

section Runs
variable {σ α : Type} {M : System σ α}

/-- Reached by steps each of which met `ok` in the state before it. -/
inductive ReachIf (M : System σ α) (ok : σ → α → Prop) : σ → Prop
  | init : ReachIf M ok M.init
  | next {s s' : σ} {a : α} (hr : ReachIf M ok s) (hok : ok s a) (hs : M.step s a = some s') :
      ReachIf M ok s'

/-- Reached by any steps. -/
def Reach (M : System σ α) (s : σ) : Prop := ReachIf M (fun _ _ => True) s

theorem ReachIf.reach {ok : σ → α → Prop} {s : σ} (h : ReachIf M ok s) : Reach M s := by
  induction h with
  | init => exact .init
  | next _ _ hs ih => exact .next ih trivial hs

/-- The invariant rule: one step lemma gives the fact for whole runs. -/
theorem ReachIf.invariant {ok : σ → α → Prop} {I : σ → Prop} (h0 : I M.init)
    (hstep : ∀ s a s', I s → ok s a → M.step s a = some s' → I s')
    {s : σ} (h : ReachIf M ok s) : I s := by
  induction h with
  | init => exact h0
  | next _ hok hs ih => exact hstep _ _ _ ih hok hs

/-- A run that meets `ok` meets every `ok'` that follows from `ok` in the states it passes. -/
theorem ReachIf.imp {ok ok' : σ → α → Prop}
    (himp : ∀ s a, ReachIf M ok s → ReachIf M ok' s → ok s a → ok' s a)
    {s : σ} (h : ReachIf M ok s) : ReachIf M ok' s := by
  induction h with
  | init => exact .init
  | next hr hok hs ih => exact .next ih (himp _ _ hr ih hok) hs

/-- The state after a list of actions, each of which has to meet `ok` where it is taken. -/
def runIf (M : System σ α) (ok : σ → α → Bool) : σ → List α → Option σ
  | s, [] => some s
  | s, a :: as => if ok s a then (M.step s a).bind fun s' => runIf M ok s' as else none

/-- The state after a list of actions. -/
def run (M : System σ α) (s : σ) (as : List α) : Option σ := runIf M (fun _ _ => true) s as

theorem runIf_cons {ok : σ → α → Bool} {s s' : σ} {a : α} {as : List α}
    (hok : ok s a = true) (hs : M.step s a = some s') :
    runIf M ok s (a :: as) = runIf M ok s' as := by
  simp [runIf, hok, hs]

theorem ReachIf.runIf {ok : σ → α → Bool} {P : σ → α → Prop}
    (hP : ∀ s a, ok s a = true → P s a) :
    ∀ {as : List α} {s s' : σ}, ReachIf M P s → runIf M ok s as = some s' → ReachIf M P s'
  | [], s, s', hr, h => by
      simp only [Lib.runIf, Option.some.injEq] at h
      exact h ▸ hr
  | a :: as, s, s', hr, h => by
      by_cases hok : ok s a = true
      · simp only [Lib.runIf, hok, if_true, Option.bind_eq_some_iff] at h
        obtain ⟨t, ht, h⟩ := h
        exact ReachIf.runIf hP (.next hr (hP s a hok) ht) h
      · simp [Lib.runIf, hok] at h

theorem Reach.run {as : List α} {s s' : σ} (hr : Reach M s) (h : run M s as = some s') :
    Reach M s' :=
  ReachIf.runIf (fun _ _ _ => trivial) hr h

/-- What every step keeps between the states before and behind it is kept by a list of actions. -/
theorem run_rel {R : σ → σ → Prop} (hrefl : ∀ s, R s s)
    (htrans : ∀ {s t u}, R s t → R t u → R s u)
    (hstep : ∀ {s a t}, M.step s a = some t → R s t) :
    ∀ {as : List α} {s t : σ}, run M s as = some t → R s t
  | [], s, t, h => by
      simp only [Lib.run, Lib.runIf, Option.some.injEq] at h
      exact h ▸ hrefl s
  | a :: as, s, t, h => by
      simp only [Lib.run, Lib.runIf, if_true, Option.bind_eq_some_iff] at h
      obtain ⟨u, hu, h⟩ := h
      exact htrans (hstep hu) (run_rel hrefl htrans hstep h)

/-- A list of actions that meet `ok` in every state. -/
theorem ReachIf.run_of {P : σ → α → Prop} {as : List α} (hP : ∀ a ∈ as, ∀ s, P s a) {s s' : σ}
    (hr : ReachIf M P s) (h : run M s as = some s') : ReachIf M P s' := by
  induction as generalizing s with
  | nil =>
    simp only [Lib.run, Lib.runIf, Option.some.injEq] at h
    exact h ▸ hr
  | cons a as ih =>
    simp only [Lib.run, Lib.runIf, if_true, Option.bind_eq_some_iff] at h
    obtain ⟨t, ht, h⟩ := h
    exact ih (fun b hb => hP b (List.mem_cons_of_mem a hb))
      (.next hr (hP a List.mem_cons_self s) ht) h

/-- A field of the state a schedule ends in, by evaluation of the schedule. -/
theorem run_field {γ : Type} {ok : σ → α → Bool} {as : List α} {s s' : σ}
    (h : runIf M ok s as = some s') (f : σ → γ) {x : γ}
    (hf : (runIf M ok s as).map f = some x) : f s' = x := by
  rw [h] at hf
  exact Option.some.inj hf

/-- What holds at first and is kept by the steps of a list holds of every state passed, the last one
included. -/
theorem scanl_invariant {f : σ → α → σ} {I : σ → Prop} {as : List α} {s : σ} (h0 : I s)
    (hstep : ∀ s, ∀ a ∈ as, I s → I (f s a)) : (∀ t ∈ as.scanl f s, I t) ∧ I (as.foldl f s) := by
  induction as generalizing s with
  | nil => simpa using h0
  | cons a as ih =>
    obtain ⟨hall, hlast⟩ :=
      ih (hstep s a List.mem_cons_self h0) fun s b hb => hstep s b (List.mem_cons_of_mem _ hb)
    refine ⟨?_, hlast⟩
    intro t ht
    rw [List.scanl_cons] at ht
    rcases List.mem_cons.1 ht with rfl | ht
    · exact h0
    · exact hall t ht

end Runs

/-! ## Steps that can fault -/

section Except
variable {ε α β : Type} {x : Except ε α}

theorem except_map_ok {f : α → β} {b : β} : x.map f = .ok b ↔ ∃ a, x = .ok a ∧ f a = b := by
  cases x <;> simp [Except.map]

theorem except_bind_ok {f : α → Except ε β} {b : β} :
    x.bind f = .ok b ↔ ∃ a, x = .ok a ∧ f a = .ok b := by
  cases x <;> simp [Except.bind]

theorem except_map_ends {f : α → β} : (∃ b, x.map f = .ok b) ↔ ∃ a, x = .ok a := by
  cases x <;> simp [Except.map]

end Except

section Faults
variable {ε σ α : Type} {f : σ → α → Except ε σ} {Inv : σ → Prop} {safe : σ → α → Prop}

/-- Where a step from a good state ends in a bad fault exactly when it is not safe, a sequence ends
in one exactly when it leads to a step that is not safe. -/
theorem foldlM_fault_iff {bad : ε → Prop} (hkeep : ∀ s a s', Inv s → f s a = .ok s' → Inv s')
    (hsafe : ∀ s a, Inv s → ((∃ e, bad e ∧ f s a = .error e) ↔ ¬ safe s a)) (as : List α) (s : σ)
    (hs : Inv s) : (∃ e, bad e ∧ as.foldlM f s = .error e) ↔
      ∃ pre a post t, as = pre ++ a :: post ∧ pre.foldlM f s = .ok t ∧ ¬ safe t a := by
  induction as generalizing s with
  | nil =>
    constructor
    · rintro ⟨e, -, h⟩
      cases h
    · rintro ⟨pre, a, post, t, h, -⟩
      simp at h
  | cons b as ih =>
    rw [List.foldlM_cons]
    cases hb : f s b with
    | error e =>
      constructor
      · rintro ⟨e', hbad, h⟩
        cases h
        exact ⟨[], b, as, s, rfl, rfl, (hsafe s b hs).mp ⟨e, hbad, hb⟩⟩
      · rintro ⟨pre, a, post, t, hsplit, hpre, hun⟩
        cases pre with
        | nil =>
          obtain ⟨rfl, -⟩ := List.cons.inj hsplit
          cases hpre
          obtain ⟨e', hbad, he'⟩ := (hsafe s b hs).mpr hun
          rw [hb] at he'
          cases he'
          exact ⟨e, hbad, rfl⟩
        | cons c pre =>
          obtain ⟨rfl, -⟩ := List.cons.inj hsplit
          rw [List.foldlM_cons, hb] at hpre
          cases hpre
    | ok s1 =>
      refine (ih s1 (hkeep s b s1 hs hb)).trans ?_
      constructor
      · rintro ⟨pre, a, post, t, rfl, hpre, hun⟩
        refine ⟨b :: pre, a, post, t, rfl, ?_, hun⟩
        rw [List.foldlM_cons, hb]
        exact hpre
      · rintro ⟨pre, a, post, t, hsplit, hpre, hun⟩
        cases pre with
        | nil =>
          obtain ⟨rfl, -⟩ := List.cons.inj hsplit
          cases hpre
          obtain ⟨e, -, he⟩ := (hsafe s b hs).mpr hun
          rw [hb] at he
          cases he
        | cons c pre =>
          obtain ⟨rfl, hrest⟩ := List.cons.inj hsplit
          rw [List.foldlM_cons, hb] at hpre
          exact ⟨pre, a, post, t, hrest, hpre, hun⟩

/-- Where a step from a good state faults exactly when it is not safe, a whole sequence is free of
faults exactly when each of its steps is safe in the state the steps before it lead to. -/
theorem foldlM_ok_iff (hkeep : ∀ s a s', Inv s → f s a = .ok s' → Inv s')
    (hsafe : ∀ s a, Inv s → ((∃ s', f s a = .ok s') ↔ safe s a)) (as : List α) (s : σ) (hs : Inv s) :
    (∃ s', as.foldlM f s = .ok s') ↔
      ∀ pre a post t, as = pre ++ a :: post → pre.foldlM f s = .ok t → safe t a := by
  have hok : ∀ x : Except ε σ, (∃ s', x = .ok s') ↔ ¬ ∃ e, True ∧ x = .error e := by
    intro x
    cases x <;> simp
  have hun : ∀ s a, Inv s → ((∃ e, True ∧ f s a = .error e) ↔ ¬ safe s a) := by
    intro s a hs
    rw [← hsafe s a hs, hok, not_not]
  rw [hok, foldlM_fault_iff hkeep hun as s hs]
  push Not
  rfl

end Faults

/-- What the rounds of a loop keep, the loop keeps. -/
theorem foldlM_invariant {σ α : Type} {f : σ → α → Option σ} {I : σ → Prop}
    (hstep : ∀ s a s', I s → f s a = some s' → I s') {l : List α} {s s' : σ} (h : I s)
    (hs : l.foldlM f s = some s') : I s' := by
  induction l generalizing s with
  | nil =>
    cases hs
    exact h
  | cons a l ih =>
    rw [List.foldlM_cons] at hs
    obtain ⟨t, ht, hs⟩ := Option.bind_eq_some_iff.1 hs
    exact ih (hstep s a t h ht) hs

end Netp.Lib
