import Mathlib.Data.List.Forall2

/-! # Languages from left to right

Languages put together from the front, so that what is left of one after a letter can be read off it. A word
is read by a step function on states, each with the language still to come.
-/

namespace Netp.Lib
set_option autoImplicit false

section Words
variable {α : Type} {p : α → Prop} {ps : List (α → Prop)} {L L' : List α → Prop} {b : α} {w : List α}

/-- Letters that meet `ps` one by one, and then a word of `L`. -/
def Spelled (ps : List (α → Prop)) (L : List α → Prop) (w : List α) : Prop :=
  ∃ x r, List.Forall₂ (fun p b => p b) ps x ∧ L r ∧ w = x ++ r

/-- Any number of letters that meet `p`, and then a word of `L`. -/
def Many (p : α → Prop) (L : List α → Prop) (w : List α) : Prop :=
  ∃ x r, (∀ b ∈ x, p b) ∧ L r ∧ w = x ++ r

@[simp] theorem spelled_nil : Spelled [] L w ↔ L w := by
  constructor
  · rintro ⟨x, r, hx, hr, rfl⟩
    cases hx
    exact hr
  · exact fun h => ⟨[], w, .nil, h, rfl⟩

@[simp] theorem spelled_cons_nil : ¬ Spelled (p :: ps) L [] := by
  rintro ⟨x, r, hx, -, hnil⟩
  cases hx with
  | cons => cases hnil

@[simp] theorem spelled_cons_cons : Spelled (p :: ps) L (b :: w) ↔ p b ∧ Spelled ps L w := by
  constructor
  · rintro ⟨x, r, hx, hr, hw⟩
    cases hx with
    | cons hp hx =>
      obtain ⟨rfl, rfl⟩ := List.cons.inj hw
      exact ⟨hp, _, r, hx, hr, rfl⟩
  · rintro ⟨hp, x, r, hx, hr, rfl⟩
    exact ⟨b :: x, r, .cons hp hx, hr, rfl⟩

theorem spelled_of_nil (h : Spelled ps L []) : ps = [] ∧ L [] := by
  cases ps with
  | nil => exact ⟨rfl, spelled_nil.1 h⟩
  | cons p ps => exact absurd h spelled_cons_nil

theorem spelled_append {qs : List (α → Prop)} : Spelled (ps ++ qs) L w ↔ Spelled ps (Spelled qs L) w := by
  induction ps generalizing w with
  | nil => rw [List.nil_append, spelled_nil]
  | cons p ps ih =>
    cases w with
    | nil => exact iff_of_false spelled_cons_nil spelled_cons_nil
    | cons b w => rw [List.cons_append, spelled_cons_cons, spelled_cons_cons, ih]

@[simp] theorem many_nil : Many p L [] ↔ L [] := by
  constructor
  · rintro ⟨x, r, -, hr, hnil⟩
    rwa [(List.append_eq_nil_iff.1 hnil.symm).2] at hr
  · exact fun h => ⟨[], [], by simp, h, rfl⟩

theorem many_cons : Many p L (b :: w) ↔ (p b ∧ Many p L w) ∨ L (b :: w) := by
  constructor
  · rintro ⟨x, r, hx, hr, hw⟩
    cases x with
    | nil =>
      rw [List.nil_append] at hw
      rw [hw]
      exact .inr hr
    | cons c x =>
      obtain ⟨rfl, rfl⟩ := List.cons.inj hw
      exact .inl ⟨hx b List.mem_cons_self, x, r, fun c hc => hx c (List.mem_cons_of_mem _ hc), hr, rfl⟩
  · rintro (⟨hp, x, r, hx, hr, rfl⟩ | h)
    · refine ⟨b :: x, r, ?_, hr, rfl⟩
      intro c hc
      rcases List.mem_cons.1 hc with rfl | hc
      · exact hp
      · exact hx c hc
    · exact ⟨[], b :: w, by simp, h, rfl⟩

theorem exists_spelled (hps : ∀ p ∈ ps, ∃ b, p b) (hL : ∃ w, L w) : ∃ w, Spelled ps L w := by
  induction ps with
  | nil =>
    obtain ⟨w, hw⟩ := hL
    exact ⟨w, spelled_nil.2 hw⟩
  | cons p ps ih =>
    obtain ⟨b, hb⟩ := hps p List.mem_cons_self
    obtain ⟨w, hw⟩ := ih fun q hq => hps q (List.mem_cons_of_mem _ hq)
    exact ⟨b :: w, spelled_cons_cons.2 ⟨hb, hw⟩⟩

theorem exists_many (hL : ∃ w, L w) : ∃ w, Many p L w := by
  obtain ⟨w, hw⟩ := hL
  exact ⟨w, [], w, by simp, hw, rfl⟩

/-! ## Verdicts on a prefix -/

/-- What can be said of a text of which only the begin is known, where the words of `L k` announce the kind
`k`: that a word of that kind is its begin, that it is itself the proper begin of some word, or neither. -/
inductive Verdict (κ : Type)
  | kind (k : κ)
  | open
  | none

/-- The verdict is right for a text. -/
def Verdict.Fits {κ : Type} (L : κ → List α → Prop) (t : List α) : Verdict κ → Prop
  | .kind k => ∃ w, w <+: t ∧ L k w
  | .open => ∃ k w, w ≠ [] ∧ L k (t ++ w)
  | .none => ∀ k w, L k w → ¬ w <+: t ∧ ¬ t <+: w

section Fits
variable {κ : Type} {K K' : κ → List α → Prop} {t : List α} {v : Verdict κ}

/-- One letter further the verdict is about the words that are left. -/
theorem Verdict.fits_cons (hnil : ∀ k, ¬ K k []) (hstep : ∀ k w, K k (b :: w) ↔ K' k w) :
    v.Fits K (b :: t) ↔ v.Fits K' t := by
  cases v with
  | kind k =>
    constructor
    · rintro ⟨w, hpre, hw⟩
      cases w with
      | nil => exact absurd hw (hnil k)
      | cons c w =>
        obtain ⟨rfl, hrest⟩ := List.cons_prefix_cons.1 hpre
        exact ⟨w, hrest, (hstep k w).1 hw⟩
    · rintro ⟨w, hpre, hw⟩
      exact ⟨b :: w, List.cons_prefix_cons.2 ⟨rfl, hpre⟩, (hstep k w).2 hw⟩
  | «open» => exact exists₂_congr fun k w => and_congr_right fun _ => hstep k (t ++ w)
  | none =>
    constructor
    · intro h k w hw
      obtain ⟨h1, h2⟩ := h k (b :: w) ((hstep k w).2 hw)
      exact ⟨fun hpre => h1 (List.cons_prefix_cons.2 ⟨rfl, hpre⟩),
        fun hpre => h2 (List.cons_prefix_cons.2 ⟨rfl, hpre⟩)⟩
    · intro h k w hw
      cases w with
      | nil => exact absurd hw (hnil k)
      | cons c w =>
        by_cases hc : c = b
        · subst hc
          obtain ⟨h1, h2⟩ := h k w ((hstep k w).1 hw)
          exact ⟨fun hpre => h1 (List.cons_prefix_cons.1 hpre).2,
            fun hpre => h2 (List.cons_prefix_cons.1 hpre).2⟩
        · exact ⟨fun hpre => hc (List.cons_prefix_cons.1 hpre).1,
            fun hpre => hc (List.cons_prefix_cons.1 hpre).1.symm⟩

/-- Nothing is known yet. -/
theorem Verdict.fits_nil (hnil : ∀ k, ¬ K k []) (hlive : ∃ k w, K k w) : v.Fits K [] ↔ v = .open := by
  obtain ⟨k, w, hw⟩ := hlive
  cases v with
  | kind k =>
    refine iff_of_false ?_ (by simp)
    rintro ⟨w, hpre, hw⟩
    rw [List.prefix_nil.1 hpre] at hw
    exact hnil k hw
  | «open» =>
    refine iff_of_true ⟨k, w, ?_, hw⟩ rfl
    rintro rfl
    exact hnil k hw
  | none => exact iff_of_false (fun h => (h k w hw).2 List.nil_prefix) (by simp)

theorem Verdict.fits_dead (hdead : ∀ k w, ¬ K k w) : v.Fits K t ↔ v = .none := by
  cases v with
  | kind k => exact iff_of_false (fun ⟨w, _, hw⟩ => hdead k w hw) (by simp)
  | «open» => exact iff_of_false (fun ⟨k, w, _, hw⟩ => hdead k _ hw) (by simp)
  | none => exact iff_of_true (fun k w hw => absurd hw (hdead k w)) rfl

/-- A word of kind `k` is complete. -/
theorem Verdict.fits_done {k : κ} (hdone : ∀ k' w, K k' w ↔ k' = k ∧ w = []) : v.Fits K t ↔ v = .kind k := by
  cases v with
  | kind k' =>
    rw [Verdict.kind.injEq]
    exact ⟨fun ⟨w, _, hw⟩ => ((hdone k' w).1 hw).1, fun h => ⟨[], List.nil_prefix, (hdone k' []).2 ⟨h, rfl⟩⟩⟩
  | «open» =>
    refine iff_of_false ?_ (by simp)
    rintro ⟨k', w, hne, hw⟩
    exact hne (List.append_eq_nil_iff.1 ((hdone k' _).1 hw).2).2
  | none => exact iff_of_false (fun h => (h k [] ((hdone k []).2 ⟨rfl, rfl⟩)).1 List.nil_prefix) (by simp)

end Fits

end Words

end Netp.Lib
