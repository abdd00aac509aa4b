import Netp.Parse.BlockExec

/-! # The calls on the source of an HTTP parser

`Machine.sources` are the calls of `preFinish` and `responseComplete` that a machine makes over a
stream. A parser that is given the stream in pieces makes the same ones in the same order
(`receives_logged`), up to a call through a null pointer.
-/

namespace Netp.Parse
open Netp.Lib
set_option autoImplicit false

def Call.source : Call → List Effect
  | .preFinish => [.preFinish]
  | .responseComplete => [.responseComplete]
  | _ => []

def Effect.isSource : Effect → Bool
  | .preFinish | .responseComplete => true
  | _ => false

/-- What the source has been told. -/
def sourceCalls (log : List Effect) : List Effect := log.filter Effect.isSource

theorem sourceCalls_append (l l' : List Effect) :
    sourceCalls (l ++ l') = sourceCalls l ++ sourceCalls l' := List.filter_append l l'

namespace Machine
variable {σ : Type} (M : Machine σ)

/-- What the source is told over the bytes of a stream. -/
def sources : σ → Text → List Effect
  | _, [] => []
  | s, b :: bs =>
      if M.isError s then []
      else (M.step s b).2.flatMap Call.source ++ sources (M.step s b).1 bs

/-- The machine after the bytes of a stream. -/
def reach : σ → Text → σ
  | s, [] => s
  | s, b :: bs => if M.isError s then s else reach (M.step s b).1 bs

theorem sources_error {s : σ} (h : M.isError s = true) (bs : Text) : M.sources s bs = [] := by
  cases bs with
  | nil => rfl
  | cons b bs => rw [sources, if_pos h]

theorem reach_error {s : σ} (h : M.isError s = true) (bs : Text) : M.reach s bs = s := by
  cases bs with
  | nil => rfl
  | cons b bs => rw [reach, if_pos h]

theorem reach_append (x y : Text) : ∀ s : σ, M.reach s (x ++ y) = M.reach (M.reach s x) y := by
  induction x with
  | nil => exact fun s => rfl
  | cons b x ih =>
    intro s
    by_cases h : M.isError s = true
    · rw [M.reach_error h, M.reach_error h, M.reach_error h]
    · rw [List.cons_append, reach, reach, if_neg h, if_neg h, ih]

theorem sources_append (x y : Text) :
    ∀ s : σ, M.sources s (x ++ y) = M.sources s x ++ M.sources (M.reach s x) y := by
  induction x with
  | nil => exact fun s => rfl
  | cons b x ih =>
    intro s
    by_cases h : M.isError s = true
    · rw [M.sources_error h, M.sources_error h, M.reach_error h, M.sources_error h, List.append_nil]
    · rw [List.cons_append, sources, sources, reach, if_neg h, if_neg h, if_neg h, ih, List.append_assoc]

end Machine

/-! ## The log of a parser -/

section Log
variable {σ : Type} {M : Machine σ} {s t u : Parser σ} {es es' : List Effect}

/-- From `s` to `t` the source was told `es`, or the beginning of it and then a null pointer was used,
after which nothing happens. -/
structure Logged (s t : Parser σ) (es : List Effect) : Prop where
  frozen : s.fault = true → t.fault = true ∧ t.log = s.log
  clean : t.fault = false → sourceCalls t.log = sourceCalls s.log ++ es
  part : sourceCalls t.log <+: sourceCalls s.log ++ es

theorem Logged.refl (s : Parser σ) : Logged s s [] where
  frozen h := ⟨h, rfl⟩
  clean _ := (List.append_nil _).symm
  part := by rw [List.append_nil]

theorem Logged.trans (h : Logged s t es) (h' : Logged t u es') : Logged s u (es ++ es') where
  frozen hs := by
    obtain ⟨ht, hlog⟩ := h.frozen hs
    obtain ⟨hu, hlog'⟩ := h'.frozen ht
    exact ⟨hu, hlog'.trans hlog⟩
  clean hu := by
    cases ht : t.fault with
    | true => rw [(h'.frozen ht).1] at hu; cases hu
    | false => rw [h'.clean hu, h.clean ht, List.append_assoc]
  part := by
    rw [← List.append_assoc]
    cases ht : t.fault with
    | true =>
      rw [(h'.frozen ht).2]
      exact h.part.trans (List.prefix_append _ _)
    | false =>
      rw [← h.clean ht]
      exact h'.part

theorem ship_source {data : Text} {q : ℕ} {b : BlockExec} {e : Effect} (h : b.ship data q = some e) :
    sourceCalls [e] = [] := by
  unfold BlockExec.ship at h
  cases hd : b.output <;> cases hf : b.fromPos <;>
    simp only [hd, hf, Option.some.injEq, reduceCtorEq] at h
  rw [← h]
  rfl

theorem finish_source {b : BlockExec} {r : List Effect × BlockExec} (h : b.finish = some r) :
    sourceCalls r.1 = [] := by
  obtain ⟨d, -, rfl⟩ := Option.map_eq_some_iff.1 h
  rfl

theorem finishAt_source {data : Text} {q : ℕ} {b : BlockExec} {r : List Effect × BlockExec}
    (h : b.finishAt data q = some r) : sourceCalls r.1 = [] := by
  unfold BlockExec.finishAt at h
  split_ifs at h
  · obtain ⟨e, he, h⟩ := Option.bind_eq_some_iff.1 h
    obtain ⟨r', hr', rfl⟩ := Option.map_eq_some_iff.1 h
    calc sourceCalls (e :: r'.1) = sourceCalls [e] ++ sourceCalls r'.1 := sourceCalls_append [e] r'.1
      _ = [] := by rw [ship_source he, finish_source hr', List.append_nil]
  · exact finish_source h

theorem exec_source {data : Text} {p : ℕ} {b : BlockExec} {c : Call} {r : List Effect × BlockExec}
    (h : c.exec data p b = some r) : sourceCalls r.1 = c.source := by
  cases c with
  | vpt c => obtain rfl := Option.some.inj h; rfl
  | destination d => obtain rfl := Option.some.inj h; rfl
  | start => obtain ⟨d, -, rfl⟩ := Option.map_eq_some_iff.1 h; rfl
  | pause => obtain ⟨e, he, rfl⟩ := Option.map_eq_some_iff.1 h; exact ship_source he
  | resume => obtain rfl := Option.some.inj h; rfl
  | finish => exact finishAt_source h
  | finishNext => exact finishAt_source h
  | preFinish => obtain rfl := Option.some.inj h; rfl
  | responseComplete => obtain rfl := Option.some.inj h; rfl
  | fault => cases h

theorem postExec_source {data : Text} {q : ℕ} {b : BlockExec} {r : List Effect × BlockExec}
    (h : b.postExec data q = some r) : sourceCalls r.1 = [] := by
  unfold BlockExec.postExec at h
  split_ifs at h
  · obtain ⟨e, he, rfl⟩ := Option.map_eq_some_iff.1 h
    exact ship_source he
  · obtain rfl := Option.some.inj h
    rfl

theorem perform_logged {r : Option (List Effect × BlockExec)} (hf : s.fault = false)
    (h : ∀ x, r = some x → sourceCalls x.1 = es) : Logged s (s.perform r) es := by
  cases r with
  | none =>
    refine ⟨fun hs => ⟨rfl, rfl⟩, ?_, List.prefix_append _ _⟩
    intro hclean
    cases hclean
  | some x =>
    have hlog : sourceCalls (s.log ++ x.1) = sourceCalls s.log ++ es := by
      rw [← h x rfl]
      exact sourceCalls_append s.log x.1
    refine ⟨?_, fun _ => hlog, hlog ▸ List.prefix_rfl⟩
    intro hs
    rw [hf] at hs
    cases hs

theorem call_logged (data : Text) (p : ℕ) (s : Parser σ) (c : Call) :
    Logged s (s.call data p c) c.source := by
  unfold Parser.call
  cases hf : s.fault with
  | true =>
    refine ⟨fun _ => ⟨hf, rfl⟩, ?_, List.prefix_append _ _⟩
    intro hclean
    rw [if_pos rfl, hf] at hclean
    cases hclean
  | false => exact perform_logged hf fun x hx => exec_source hx

theorem calls_logged (data : Text) (p : ℕ) (cs : List Call) :
    ∀ s : Parser σ, Logged s (cs.foldl (Parser.call data p) s) (cs.flatMap Call.source) := by
  induction cs with
  | nil => exact Logged.refl
  | cons c cs ih => exact fun s => (call_logged data p s c).trans (ih _)

theorem calls_core (data : Text) (p : ℕ) (cs : List Call) :
    ∀ s : Parser σ, (cs.foldl (Parser.call data p) s).core = s.core := by
  induction cs with
  | nil => exact fun _ => rfl
  | cons c cs ih =>
    intro s
    rw [List.foldl_cons, ih, Parser.call]
    split_ifs
    · rfl
    · cases c.exec data p s.bodyBlock <;> rfl

/-- The state of the machine counts as long as no null pointer was used. -/
structure Advances (M : Machine σ) (s t : Parser σ) (bs : Text) : Prop where
  logged : Logged s t (M.sources s.core bs)
  core : t.fault = false → t.core = M.reach s.core bs

theorem Advances.append {x y : Text} (h : Advances M s t x) (h' : Advances M t u y) :
    Advances M s u (x ++ y) := by
  cases ht : t.fault with
  | true =>
    obtain ⟨hfault, hlog⟩ := h'.logged.frozen ht
    refine ⟨⟨fun hs => ⟨hfault, hlog.trans (h.logged.frozen hs).2⟩, ?_, ?_⟩, ?_⟩
    · intro hclean
      rw [hfault] at hclean
      cases hclean
    · rw [hlog, M.sources_append, ← List.append_assoc]
      exact h.logged.part.trans (List.prefix_append _ _)
    · intro hclean
      rw [hfault] at hclean
      cases hclean
  | false =>
    have hcore := h.core ht
    refine ⟨?_, ?_⟩
    · rw [M.sources_append, ← hcore]
      exact h.logged.trans h'.logged
    · intro hclean
      rw [M.reach_append, ← hcore]
      exact h'.core hclean

theorem exec_advances (data rest : Text) :
    ∀ (p : ℕ) (s : Parser σ), M.isError s.core = false → s.fault = false →
      Advances M s (M.exec data rest p s) rest := by
  induction rest with
  | nil => exact fun p s _ _ => ⟨Logged.refl s, fun _ => rfl⟩
  | cons b rest ih =>
    intro p s herr hf
    have hno : ¬ M.isError s.core = true := by rw [herr]; exact Bool.false_ne_true
    generalize hs' : (M.step s.core b).2.foldl (Parser.call data p)
      { s with core := (M.step s.core b).1 } = s'
    have hcore : s'.core = (M.step s.core b).1 := by rw [← hs', calls_core]
    have hlog : Logged s s' ((M.step s.core b).2.flatMap Call.source) := by
      have hcalls := calls_logged data p (M.step s.core b).2 { s with core := (M.step s.core b).1 }
      rw [hs'] at hcalls
      exact ⟨hcalls.frozen, hcalls.clean, hcalls.part⟩
    have hexec : M.exec data (b :: rest) p s =
        if (s'.fault || M.isError s'.core) = true then s' else M.exec data rest (p + 1) s' := by
      rw [← hs']
      rfl
    rw [hexec]
    by_cases hstop : (s'.fault || M.isError s'.core) = true
    · rw [if_pos hstop]
      have hcut : M.sources s.core (b :: rest) =
          (M.step s.core b).2.flatMap Call.source ++ M.sources s'.core rest := by
        rw [Machine.sources, if_neg hno, hcore]
      refine ⟨⟨hlog.frozen, ?_, ?_⟩, ?_⟩
      · intro hclean
        rw [hclean, Bool.false_or] at hstop
        rw [hcut, M.sources_error hstop, List.append_nil]
        exact hlog.clean hclean
      · rw [hcut, ← List.append_assoc]
        exact hlog.part.trans (List.prefix_append _ _)
      · intro hclean
        rw [hclean, Bool.false_or] at hstop
        rw [Machine.reach, if_neg hno, ← hcore, M.reach_error hstop]
    · rw [if_neg hstop]
      have hgo : s'.fault = false ∧ M.isError s'.core = false := by
        simpa using hstop
      have hnext := ih (p + 1) s' hgo.2 hgo.1
      refine ⟨?_, ?_⟩
      · rw [Machine.sources, if_neg hno, ← hcore]
        exact hlog.trans hnext.logged
      · intro hclean
        rw [Machine.reach, if_neg hno, ← hcore]
        exact hnext.core hclean

theorem receive_advances (s : Parser σ) (data : Text) : Advances M s (M.receive s data) data := by
  unfold Machine.receive
  by_cases hstop : (s.fault || M.isError s.core) = true
  · rw [if_pos hstop]
    refine ⟨⟨fun h => ⟨h, rfl⟩, ?_, List.prefix_append _ _⟩, ?_⟩
    · intro hclean
      rw [hclean, Bool.false_or] at hstop
      rw [M.sources_error hstop, List.append_nil]
    · intro hclean
      rw [hclean, Bool.false_or] at hstop
      exact (M.reach_error hstop data).symm
  · rw [if_neg hstop]
    have hgo : s.fault = false ∧ M.isError s.core = false := by simpa using hstop
    have hexec := exec_advances (M := M) data data 0 { s with bodyBlock := s.bodyBlock.preExec } hgo.2 hgo.1
    generalize M.exec data data 0 { s with bodyBlock := s.bodyBlock.preExec } = t at hexec
    have hfirst : Advances M s t data :=
      ⟨⟨hexec.logged.frozen, hexec.logged.clean, hexec.logged.part⟩, hexec.core⟩
    simp only
    split_ifs with hend
    · exact hfirst
    · have hclean : t.fault = false := by
        cases ht : t.fault with
        | false => rfl
        | true => exact absurd (by rw [ht]; rfl) hend
      have hpost : Logged t (t.perform (t.bodyBlock.postExec data data.length)) [] :=
        perform_logged hclean fun x hx => postExec_source hx
      have hcore : (t.perform (t.bodyBlock.postExec data data.length)).core = t.core := by
        cases t.bodyBlock.postExec data data.length <;> rfl
      refine ⟨?_, fun _ => hcore.trans (hfirst.core hclean)⟩
      have hboth := hfirst.logged.trans hpost
      rwa [List.append_nil] at hboth

/-- A parser that is given a stream in pieces tells the source what the machine does over the stream. -/
theorem receives_advances (ds : List Text) :
    ∀ s : Parser σ, Advances M s (ds.foldl M.receive s) ds.flatten := by
  induction ds with
  | nil => exact fun s => ⟨Logged.refl s, fun _ => rfl⟩
  | cons d ds ih => exact fun s => (receive_advances s d).append (ih _)

end Log

end Netp.Parse
