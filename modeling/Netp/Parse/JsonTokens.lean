import Netp.Parse.JsonGrammar

/-! # The tokens of a JSON text, byte by byte

What is left of `ignore*`, of a string and of a number behind one more byte. The places of the machine stand
for what has been read: a comment that is open (`Ignore.seen`), an escape that is (`charsLeft`), a part
of a number (`numberLeft`).
-/

namespace Netp.Parse.JsonGrammar
open Netp.Lib Netp.Parse.Json
set_option autoImplicit false

/-! ## White space and comments -/

/-- A comment that has been begun, at this place. -/
def seen : Ignore → Text
  | .base => []
  | .slash => [47]
  | .block => [47, 42]
  | .star => [47, 42, 42]
  | .line => [47, 47]

/-- A block comment without its begin, and what is behind it. -/
def Block (t : Text) : Prop := ∃ body u, t = body ++ 42 :: 47 :: u ∧ ¬[42, 47] <:+: body ∧ Ignored u

def Line (t : Text) : Prop := ∃ body u, t = body ++ 10 :: u ∧ 10 ∉ body ∧ Ignored u

section Ignored
variable {b : UInt8} {t : Text} {i i' : Ignore}

theorem ignored_space (hb : b ∈ [32, 9, 13, 10]) : Ignored (b :: t) ↔ Ignored t := by
  constructor
  · intro h
    cases h with
    | space _ h => exact h
    | block => exact absurd hb (by decide)
    | line => exact absurd hb (by decide)
  · exact .space hb

theorem ignored_block : Ignored (47 :: 42 :: t) ↔ Block t := by
  constructor
  · intro h
    cases h with
    | space hc => exact absurd hc (by decide)
    | block hbody h => exact ⟨_, _, rfl, hbody, h⟩
  · rintro ⟨body, u, rfl, hbody, h⟩
    exact .block hbody h

theorem ignored_line : Ignored (47 :: 47 :: t) ↔ Line t := by
  constructor
  · intro h
    cases h with
    | space hc => exact absurd hc (by decide)
    | line hbody h => exact ⟨_, _, rfl, hbody, h⟩
  · rintro ⟨body, u, rfl, hbody, h⟩
    exact .line hbody h

theorem not_ignored_slash (hstar : b ≠ 42) (hslash : b ≠ 47) : ¬Ignored (47 :: b :: t) := by
  intro h
  cases h with
  | space hc => exact absurd hc (by decide)
  | block => exact hstar rfl
  | line => exact hslash rfl

theorem not_ignored_open (hi : i ≠ .base) : ¬Ignored (seen i) := by
  intro h
  cases i with
  | base => exact hi rfl
  | slash =>
    cases h with
    | space hc => exact absurd hc (by decide)
  | block =>
    obtain ⟨body, u, h, -⟩ := ignored_block.mp h
    simp at h
  | star =>
    obtain ⟨body, u, h, -⟩ := ignored_block.mp h
    rcases List.cons_eq_append_iff.mp h with ⟨-, h⟩ | ⟨_, -, h⟩ <;> simp at h
  | line =>
    obtain ⟨body, u, h, -⟩ := ignored_line.mp h
    simp at h

theorem block_cons (hb : b ≠ 42) : Block (b :: t) ↔ Block t := by
  have hwithin (body : Text) : [42, 47] <:+: b :: body ↔ [42, 47] <:+: body := by
    rw [List.infix_cons_iff]
    refine or_iff_right fun h => hb ?_
    exact (List.cons_prefix_cons.mp h).1.symm
  constructor
  · rintro ⟨body, u, h, hbody, hu⟩
    rcases List.cons_eq_append_iff.mp h with ⟨-, h⟩ | ⟨body, rfl, rfl⟩
    · exact absurd (List.cons.inj h).1.symm hb
    · exact ⟨body, u, rfl, fun h => hbody ((hwithin body).mpr h), hu⟩
  · rintro ⟨body, u, rfl, hbody, hu⟩
    exact ⟨b :: body, u, rfl, fun h => hbody ((hwithin body).mp h), hu⟩

theorem block_end : Block (42 :: 47 :: t) ↔ Ignored t := by
  constructor
  · rintro ⟨body, u, h, hbody, hu⟩
    rcases List.cons_eq_append_iff.mp h with ⟨-, h⟩ | ⟨body, rfl, hrest⟩
    · simp only [List.cons.injEq, true_and] at h
      exact h ▸ hu
    · rcases List.cons_eq_append_iff.mp hrest with ⟨-, h⟩ | ⟨body, rfl, -⟩
      · exact absurd (List.cons.inj h).1 (by decide)
      · exact absurd (List.prefix_append [42, 47] body).isInfix hbody
  · intro h
    exact ⟨[], t, rfl, by simp, h⟩

theorem block_star (hb : b ≠ 47) : Block (42 :: b :: t) ↔ Block (b :: t) := by
  constructor
  · rintro ⟨body, u, h, hbody, hu⟩
    rcases List.cons_eq_append_iff.mp h with ⟨-, h⟩ | ⟨body, rfl, hrest⟩
    · simp only [List.cons.injEq, true_and] at h
      exact absurd h.1.symm hb
    · exact ⟨body, u, hrest, fun hin => hbody (List.infix_cons hin), hu⟩
  · rintro ⟨body, u, h, hbody, hu⟩
    refine ⟨42 :: body, u, congrArg _ h, ?_, hu⟩
    rw [List.infix_cons_iff]
    rintro (hpre | hin)
    · -- the slash would be `b`
      rw [List.cons_prefix_cons] at hpre
      cases body with
      | nil => simp at hpre
      | cons c body =>
        rw [List.cons_append] at h
        exact hb ((List.cons.inj h).1.trans (List.cons_prefix_cons.mp hpre.2).1.symm)
    · exact hbody hin

theorem line_cons (hb : b ≠ 10) : Line (b :: t) ↔ Line t := by
  constructor
  · rintro ⟨body, u, h, hbody, hu⟩
    rcases List.cons_eq_append_iff.mp h with ⟨-, h⟩ | ⟨body, rfl, rfl⟩
    · exact absurd (List.cons.inj h).1.symm hb
    · exact ⟨body, u, rfl, fun h => hbody (List.mem_cons_of_mem b h), hu⟩
  · rintro ⟨body, u, rfl, hbody, hu⟩
    refine ⟨b :: body, u, rfl, ?_, hu⟩
    rw [List.mem_cons, not_or]
    exact ⟨Ne.symm hb, hbody⟩

theorem line_end : Line (10 :: t) ↔ Ignored t := by
  constructor
  · rintro ⟨body, u, h, hbody, hu⟩
    rcases List.cons_eq_append_iff.mp h with ⟨-, h⟩ | ⟨body, rfl, -⟩
    · exact (List.cons.inj h).2 ▸ hu
    · exact absurd (List.mem_cons_self ..) hbody
  · intro h
    exact ⟨[], t, rfl, List.not_mem_nil, h⟩

theorem ignored_step (h : i.step b = some i') : Ignored (seen i ++ b :: t) ↔ Ignored (seen i' ++ t) := by
  cases i with
  | base =>
    simp only [Ignore.step] at h
    split_ifs at h with hspace hslash
    · cases h
      exact ignored_space (by simpa using hspace)
    · cases h
      rw [hslash]
      rfl
  | slash =>
    simp only [Ignore.step] at h
    split_ifs at h with hstar hslash
    · cases h
      rw [hstar]
      rfl
    · cases h
      rw [hslash]
      rfl
  | block =>
    simp only [Ignore.step, Option.some.injEq] at h
    refine (ignored_block (t := b :: t)).trans ?_
    split_ifs at h with hstar
    · subst h
      rw [hstar]
      exact ignored_block.symm
    · subst h
      rw [block_cons hstar]
      exact ignored_block.symm
  | star =>
    simp only [Ignore.step, Option.some.injEq] at h
    refine (ignored_block (t := 42 :: b :: t)).trans ?_
    split_ifs at h with hstar hslash
    · subst h
      rw [hstar, block_star (by decide)]
      exact ignored_block.symm
    · subst h
      rw [hslash]
      exact block_end
    · subst h
      exact ((block_star hslash).trans (block_cons hstar)).trans ignored_block.symm
  | line =>
    simp only [Ignore.step, Option.some.injEq] at h
    refine (ignored_line (t := b :: t)).trans ?_
    split_ifs at h with hend
    · subst h
      rw [hend]
      exact line_end
    · subst h
      rw [line_cons hend]
      exact ignored_line.symm

theorem not_ignored_step (h : i.step b = none) : ¬Ignored (seen i ++ b :: t) := by
  cases i with
  | base =>
    simp only [Ignore.step] at h
    split_ifs at h with hspace hslash
    intro hb
    cases hb with
    | space hc => exact hspace (by simpa using hc)
    | block => exact hslash rfl
    | line => exact hslash rfl
  | slash =>
    simp only [Ignore.step] at h
    split_ifs at h with hstar hslash
    exact not_ignored_slash hstar hslash
  | _ => cases h

end Ignored

/-! ## Strings -/

/-- What stands behind this place of a string, up to the closing quote. -/
def charsLeft : QuoteState → Text → Prop
  | .start, _ => False
  | .body, t => Chars anyEscape t
  | .escape, t => Chars anyEscape (92 :: t)
  | .hex n, t => ∃ hex u, t = hex ++ u ∧ hex.length = n + 1 ∧ (∀ c ∈ hex, isHexDigit c) ∧
      Chars anyEscape u

/-- The place behind a byte of a string, `none` where it has no such byte. -/
def quoteNext : QuoteState → UInt8 → Option QuoteState
  | .start, _ => none
  | .body, b => if b = 34 then none else if b = 92 then some .escape else if b < 32 then none else some .body
  | .escape, b => if b = 117 then some (.hex 3) else if b < 32 then none else some .body
  | .hex 0, b => if isHexDigit b then some .body else none
  | .hex (n + 1), b => if isHexDigit b then some (.hex n) else none

section Chars
variable {b : UInt8} {t : Text} {q q' : QuoteState}

theorem chars_char (hb : 32 ≤ b) (hquote : b ≠ 34) (hslash : b ≠ 92) :
    Chars anyEscape (b :: t) ↔ Chars anyEscape t := by
  constructor
  · intro h
    cases h with
    | char _ _ _ h => exact h
    | escape => exact absurd rfl hslash
    | unicode => exact absurd rfl hslash
  · exact .char hb hquote hslash

theorem chars_escape (hb : anyEscape b) : Chars anyEscape (92 :: b :: t) ↔ Chars anyEscape t := by
  constructor
  · intro h
    cases h with
    | char _ _ hslash => exact absurd rfl hslash
    | escape _ h => exact h
    | unicode => exact absurd rfl hb.2
  · exact .escape hb

theorem chars_unicode : Chars anyEscape (92 :: 117 :: t) ↔ charsLeft (.hex 3) t := by
  constructor
  · intro h
    cases h with
    | char _ _ hslash => exact absurd rfl hslash
    | escape hc => exact absurd rfl hc.2
    | unicode hlen hhex h => exact ⟨_, _, rfl, hlen, hhex, h⟩
  · rintro ⟨hex, u, rfl, hlen, hhex, h⟩
    exact .unicode hlen hhex h

theorem not_chars_control (hb : b < 32) : ¬Chars anyEscape (b :: t) := by
  intro h
  cases h with
  | char hc => exact absurd hb (by simpa using hc)
  | escape => exact absurd hb (by decide)
  | unicode => exact absurd hb (by decide)

theorem not_chars_quote : ¬Chars anyEscape (34 :: t) := by
  intro h
  cases h with
  | char _ hquote => exact hquote rfl

theorem hex_step {n : ℕ} : charsLeft (.hex n) (b :: t) ↔
    isHexDigit b ∧ charsLeft (if n = 0 then .body else .hex (n - 1)) t := by
  constructor
  · rintro ⟨hex, u, h, hlen, hhex, hu⟩
    rcases List.cons_eq_append_iff.mp h with ⟨rfl, -⟩ | ⟨hex, rfl, rfl⟩
    · simp at hlen
    · refine ⟨hhex b (List.mem_cons_self ..), ?_⟩
      simp only [List.length_cons, Nat.add_right_cancel_iff] at hlen
      split_ifs with hn
      · rw [hn, List.length_eq_zero_iff] at hlen
        rw [hlen]
        exact hu
      · exact ⟨hex, u, rfl, by omega, fun c hc => hhex c (List.mem_cons_of_mem b hc), hu⟩
  · rintro ⟨hb, h⟩
    split_ifs at h with hn
    · exact ⟨[b], t, rfl, by simp [hn], by simpa using hb, h⟩
    · obtain ⟨hex, u, rfl, hlen, hhex, hu⟩ := h
      refine ⟨b :: hex, u, rfl, ?_, ?_, hu⟩
      · rw [List.length_cons, hlen]
        omega
      · intro c hc
        rcases List.mem_cons.mp hc with rfl | hc
        · exact hb
        · exact hhex c hc

theorem charsLeft_nil : charsLeft q [] ↔ q = .body := by
  cases q with
  | start => simp [charsLeft]
  | body => simp [charsLeft, Chars.nil]
  | escape =>
    simp only [charsLeft, reduceCtorEq, iff_false]
    intro h
    cases h with
    | char _ _ hslash => exact hslash rfl
  | hex n =>
    simp only [reduceCtorEq, iff_false]
    rintro ⟨hex, u, h, hlen, -⟩
    rw [(List.append_eq_nil_iff.mp h.symm).1] at hlen
    simp at hlen

theorem charsLeft_cons : charsLeft q (b :: t) ↔ ∃ q', quoteNext q b = some q' ∧ charsLeft q' t := by
  cases q with
  | start => simp [charsLeft, quoteNext]
  | body =>
    simp only [quoteNext]
    split_ifs with hquote hslash hcontrol
    · simpa [charsLeft, hquote] using not_chars_quote
    · simp [charsLeft, hslash]
    · simpa [charsLeft] using not_chars_control hcontrol
    · simpa [charsLeft] using chars_char (UInt8.not_lt.mp hcontrol) hquote hslash
  | escape =>
    simp only [quoteNext]
    split_ifs with hu hcontrol
    · simp only [hu, Option.some.injEq, exists_eq_left']
      exact chars_unicode
    · simp only [false_and, exists_false, iff_false]
      intro h
      cases h with
      | char _ _ hslash => exact hslash rfl
      | escape hc => exact absurd hcontrol (UInt8.not_lt.mpr hc.1)
      | unicode => exact hu rfl
    · simpa [charsLeft] using chars_escape ⟨UInt8.not_lt.mp hcontrol, hu⟩
  | hex n =>
    rw [hex_step]
    cases n <;> by_cases hb : isHexDigit b = true <;> simp [quoteNext, hb]

end Chars

/-- The rest of a string from this place, behind `mark`. -/
def quoted (q : QuoteState) (mark : Text) : Phrases UInt8 Text :=
  fun t s => ∃ u, t = u ++ [34] ∧ charsLeft q u ∧ s = mark ++ u

theorem quoted_cons {q : QuoteState} {b : UInt8} {mark t s : Text} : quoted q mark (b :: t) s ↔
    (q = .body ∧ b = 34 ∧ t = [] ∧ s = mark) ∨
      ∃ q', quoteNext q b = some q' ∧ quoted q' (mark ++ [b]) t s := by
  constructor
  · rintro ⟨u, h, hu, rfl⟩
    rcases List.cons_eq_append_iff.mp h with ⟨rfl, h⟩ | ⟨u, rfl, rfl⟩
    · obtain ⟨rfl, rfl⟩ := List.cons.inj h
      exact .inl ⟨charsLeft_nil.mp hu, rfl, rfl, List.append_nil _⟩
    · obtain ⟨q', hq', hu⟩ := charsLeft_cons.mp hu
      exact .inr ⟨q', hq', u, rfl, hu, List.append_cons ..⟩
  · rintro (⟨rfl, rfl, rfl, rfl⟩ | ⟨q', hq', u, rfl, hu, rfl⟩)
    · exact ⟨[], rfl, .nil, (List.append_nil _).symm⟩
    · exact ⟨b :: u, rfl, charsLeft_cons.mpr ⟨q', hq', hu⟩, (List.append_cons ..).symm⟩

theorem not_quoted_nil {q : QuoteState} {mark s : Text} : ¬quoted q mark [] s := by
  rintro ⟨u, h, -⟩
  simp at h

/-! ## Numbers -/

/-- Digits, and then what `X` takes. -/
def digitsThen (X : Text → Prop) (t : Text) : Prop := ∃ ds u, t = ds ++ u ∧ Digits ds ∧ X u

def fractionThen (t : Text) : Prop := ∃ f e, t = f ++ e ∧ Fraction f ∧ Exponent e

def wholeThen (t : Text) : Prop := ∃ w u, t = w ++ u ∧ Whole w ∧ fractionThen u

/-- What stands behind this place of a number. -/
def numberLeft : NumberState → Text → Prop
  | .start, t => ∃ sign u, t = sign ++ u ∧ sign ∈ [[], [45]] ∧ wholeThen u
  | .minus, t => wholeThen t
  | .zero, t => fractionThen t
  | .int, t => digitsThen fractionThen t
  | .dot, t => ∃ d u, t = d :: u ∧ isDigit d ∧ digitsThen Exponent u
  | .frac, t => digitsThen Exponent t
  | .exp, t => ∃ sign u, t = sign ++ u ∧ sign ∈ [[], [43], [45]] ∧ u ≠ [] ∧ Digits u
  | .sign, t => t ≠ [] ∧ Digits t
  | .expInt, t => Digits t

/-- The place behind a byte of a number, `none` where it has no such byte. -/
def numberNext : NumberState → UInt8 → Option NumberState
  | .start, b => if b = 45 then some .minus else if b = 48 then some .zero
      else if isDigit b then some .int else none
  | .minus, b => if b = 48 then some .zero else if isDigit b then some .int else none
  | .zero, b => if b = 46 then some .dot else if isE b then some .exp else none
  | .int, b => if b = 46 then some .dot else if isE b then some .exp
      else if isDigit b then some .int else none
  | .dot, b => if isDigit b then some .frac else none
  | .frac, b => if isE b then some .exp else if isDigit b then some .frac else none
  | .exp, b => if b = 43 ∨ b = 45 then some .sign else if isDigit b then some .expInt else none
  | .sign, b => if isDigit b then some .expInt else none
  | .expInt, b => if isDigit b then some .expInt else none

/-- The places where a number can end. -/
def numberEnds : NumberState → Bool
  | .zero | .int | .frac | .expInt => true
  | _ => false

section Numbers
variable {b : UInt8} {t : Text} {X : Text → Prop} {n : NumberState}

theorem digits_cons : Digits (b :: t) ↔ isDigit b ∧ Digits t := by
  simp only [Digits, List.forall_mem_cons]

theorem digitsThen_nil : digitsThen X [] ↔ X [] := by
  constructor
  · rintro ⟨ds, u, h, -, hu⟩
    obtain ⟨rfl, rfl⟩ := List.append_eq_nil_iff.mp h.symm
    exact hu
  · exact fun h => ⟨[], [], rfl, by simp [Digits], h⟩

theorem digitsThen_cons : digitsThen X (b :: t) ↔ X (b :: t) ∨ isDigit b ∧ digitsThen X t := by
  constructor
  · rintro ⟨ds, u, h, hds, hu⟩
    rcases List.cons_eq_append_iff.mp h with ⟨rfl, rfl⟩ | ⟨ds, rfl, rfl⟩
    · exact .inl hu
    · exact .inr ⟨(digits_cons.mp hds).1, ds, u, rfl, (digits_cons.mp hds).2, hu⟩
  · rintro (h | ⟨hb, ds, u, rfl, hds, hu⟩)
    · exact ⟨[], _, rfl, by simp [Digits], h⟩
    · exact ⟨b :: ds, u, rfl, digits_cons.mpr ⟨hb, hds⟩, hu⟩

theorem exponent_cons : Exponent (b :: t) ↔ isE b ∧ numberLeft .exp t := by
  constructor
  · intro h
    cases h with
    | digits he hsign hne hds => exact ⟨he, _, _, rfl, hsign, hne, hds⟩
  · rintro ⟨he, sign, ds, rfl, hsign, hne, hds⟩
    exact .digits he hsign hne hds

theorem fraction_cons : Fraction (b :: t) ↔ b = 46 ∧ t ≠ [] ∧ Digits t := by
  constructor
  · intro h
    cases h with
    | digits hne hds => exact ⟨rfl, hne, hds⟩
  · rintro ⟨rfl, hne, hds⟩
    exact .digits hne hds

theorem fractionThen_nil : fractionThen [] := ⟨[], [], rfl, .none, .none⟩

theorem fractionThen_cons : fractionThen (b :: t) ↔ Exponent (b :: t) ∨ b = 46 ∧ numberLeft .dot t := by
  constructor
  · rintro ⟨f, e, h, hf, he⟩
    rcases List.cons_eq_append_iff.mp h with ⟨rfl, rfl⟩ | ⟨f, rfl, rfl⟩
    · exact .inl he
    · obtain ⟨hb, hne, hds⟩ := fraction_cons.mp hf
      obtain ⟨d, ds, rfl⟩ := List.exists_cons_of_ne_nil hne
      obtain ⟨hd, hds⟩ := digits_cons.mp hds
      exact .inr ⟨hb, d, _, rfl, hd, ds, e, rfl, hds, he⟩
  · rintro (h | ⟨rfl, d, _, rfl, hd, ds, e, rfl, hds, he⟩)
    · exact ⟨[], _, rfl, .none, h⟩
    · exact ⟨46 :: d :: ds, e, rfl, .digits (List.cons_ne_nil d ds) (digits_cons.mpr ⟨hd, hds⟩), he⟩

theorem sign_cons : numberLeft .exp (b :: t) ↔
    (b = 43 ∨ b = 45) ∧ numberLeft .sign t ∨ isDigit b ∧ Digits t := by
  constructor
  · rintro ⟨sign, u, h, hsign, hne, hds⟩
    rcases List.cons_eq_append_iff.mp h with ⟨rfl, rfl⟩ | ⟨sign, rfl, rfl⟩
    · exact .inr (digits_cons.mp hds)
    · simp only [List.mem_cons, reduceCtorEq, List.cons.injEq, List.not_mem_nil, or_false, false_or] at hsign
      rcases hsign with ⟨hb, rfl⟩ | ⟨hb, rfl⟩
      · exact .inl ⟨.inl hb, hne, hds⟩
      · exact .inl ⟨.inr hb, hne, hds⟩
  · rintro (⟨hb, hne, hds⟩ | h)
    · refine ⟨[b], t, rfl, ?_, hne, hds⟩
      rcases hb with rfl | rfl <;> simp
    · exact ⟨[], b :: t, rfl, by simp, List.cons_ne_nil b t, digits_cons.mpr h⟩

theorem minus_cons : numberLeft .minus (b :: t) ↔
    b = 48 ∧ fractionThen t ∨ isDigit b ∧ b ≠ 48 ∧ digitsThen fractionThen t := by
  constructor
  · rintro ⟨w, u, h, hw, hu⟩
    cases hw with
    | zero =>
      obtain ⟨rfl, rfl⟩ := List.cons.inj h
      exact .inl ⟨rfl, hu⟩
    | digits hd hzero hds =>
      obtain ⟨rfl, rfl⟩ := List.cons.inj h
      exact .inr ⟨hd, hzero, _, u, rfl, hds, hu⟩
  · rintro (⟨rfl, h⟩ | ⟨hb, hzero, ds, u, rfl, hds, hu⟩)
    · exact ⟨[48], t, rfl, .zero, h⟩
    · exact ⟨b :: ds, u, rfl, .digits hb hzero hds, hu⟩

theorem start_cons : numberLeft .start (b :: t) ↔
    b = 45 ∧ numberLeft .minus t ∨ numberLeft .minus (b :: t) := by
  constructor
  · rintro ⟨sign, u, h, hsign, hu⟩
    simp only [List.mem_cons, List.not_mem_nil, or_false] at hsign
    rcases hsign with rfl | rfl
    · exact .inr (h ▸ hu)
    · obtain ⟨rfl, rfl⟩ := List.cons.inj h
      exact .inl ⟨rfl, hu⟩
  · rintro (⟨rfl, h⟩ | h)
    · exact ⟨[45], t, rfl, by simp, h⟩
    · exact ⟨[], _, rfl, by simp, h⟩

theorem not_isDigit_dot : isDigit 46 = false := rfl

theorem isDigit_of_isE (h : isE b = true) : isDigit b = false := by
  simp only [isE, decide_eq_true_eq] at h
  rcases h with rfl | rfl <;> rfl

theorem numberLeft_cons : numberLeft n (b :: t) ↔ ∃ n', numberNext n b = some n' ∧ numberLeft n' t := by
  have hdot : isE 46 = false := rfl
  cases n with
  | start =>
    rw [start_cons, minus_cons]
    simp only [numberNext]
    split_ifs with hminus hzero hdigit
    · simp [hminus, isDigit]
    · simp [hzero, numberLeft]
    · simp [hminus, hzero, hdigit, numberLeft]
    · simp [hminus, hzero, hdigit]
  | minus =>
    rw [minus_cons]
    simp only [numberNext]
    split_ifs with hzero hdigit
    · simp [hzero, numberLeft]
    · simp [hzero, hdigit, numberLeft]
    · simp [hzero, hdigit]
  | zero =>
    simp only [numberLeft, numberNext, fractionThen_cons, exponent_cons]
    split_ifs with hpoint he
    · simp [hpoint, hdot]
    · simp [hpoint, he]
    · simp [hpoint, he]
  | int =>
    simp only [numberLeft, numberNext, digitsThen_cons, fractionThen_cons, exponent_cons]
    split_ifs with hpoint he hdigit
    · simp [hpoint, hdot, not_isDigit_dot]
    · simp [hpoint, he, isDigit_of_isE he]
    · simp [hpoint, he, hdigit]
    · simp [hpoint, he, hdigit]
  | dot =>
    simp only [numberLeft, numberNext]
    split_ifs with hdigit
    · simp [hdigit]
    · simp [hdigit]
  | frac =>
    simp only [numberLeft, numberNext, digitsThen_cons, exponent_cons]
    split_ifs with he hdigit
    · simp [he, isDigit_of_isE he]
    · simp [he, hdigit]
    · simp [he, hdigit]
  | exp =>
    rw [sign_cons]
    simp only [numberNext]
    split_ifs with hsign hdigit
    · have hno : isDigit b = false := by rcases hsign with rfl | rfl <;> rfl
      simp [hsign, hno]
    · simp [hsign, hdigit, numberLeft]
    · simp [hsign, hdigit]
  | sign =>
    simp only [numberLeft, numberNext, digits_cons]
    split_ifs with hdigit <;> simp [hdigit]
  | expInt =>
    simp only [numberLeft, numberNext, digits_cons]
    split_ifs with hdigit <;> simp [hdigit]

theorem numberLeft_nil : numberLeft n [] ↔ numberEnds n = true := by
  have hminus : ¬numberLeft .minus [] := by
    rintro ⟨w, u, h, hw, -⟩
    rw [(List.append_eq_nil_iff.mp h.symm).1] at hw
    cases hw
  cases n with
  | start =>
    simp only [numberEnds, Bool.false_eq_true, iff_false]
    rintro ⟨sign, u, h, -, hu⟩
    rw [(List.append_eq_nil_iff.mp h.symm).2] at hu
    exact hminus hu
  | minus => simpa [numberEnds] using hminus
  | zero => simp [numberLeft, numberEnds, fractionThen_nil]
  | int => simp [numberLeft, numberEnds, digitsThen_nil, fractionThen_nil]
  | dot => simp [numberLeft, numberEnds]
  | frac => simp [numberLeft, numberEnds, digitsThen_nil, Exponent.none]
  | exp => simp [numberLeft, numberEnds]
  | sign => simp [numberLeft, numberEnds]
  | expInt => simp [numberLeft, numberEnds, Digits]

end Numbers

/-! ## The text of a number -/

/-- What is kept of a number: `trim` from its bytes alone. -/
def kept (t : Text) : Text :=
  if 46 ∈ t ∧ t.any isE = false then
    let s := t.reverse.dropWhile (· = 48)
    (if s.head? = some 46 then s.tail else s).reverse
  else t

section Kept
variable {t f e : Text}

theorem isDigit_ne (c : UInt8) (h : isDigit c = true) : c ≠ 46 ∧ isE c = false := by
  refine ⟨?_, ?_⟩
  · rintro rfl
    cases h
  · by_contra he
    rw [Bool.not_eq_false] at he
    rw [isDigit_of_isE he] at h
    cases h

theorem whole_digits (h : Whole t) : Digits t := by
  cases h with
  | zero => simp [Digits, isDigit]
  | digits hd _ hds => exact digits_cons.mpr ⟨hd, hds⟩

theorem kept_fraction {m ds : Text} (hds : Digits ds) (hE : (m ++ 46 :: ds).any isE = false) :
    kept (m ++ 46 :: ds) = m ++ shortened (46 :: ds) := by
  rw [kept, if_pos ⟨by simp, hE⟩]
  have hrev : (m ++ 46 :: ds).reverse = ds.reverse ++ 46 :: m.reverse := by simp
  have hrev' : (46 :: ds).reverse = ds.reverse ++ [46] := by simp
  rw [hrev, shortened, List.rdropWhile, hrev', List.dropWhile_append, List.dropWhile_append]
  cases hdrop : ds.reverse.dropWhile (· = 48) with
  | nil => simp
  | cons c s =>
    have hc : c ∈ ds := by
      have : c ∈ ds.reverse.dropWhile (· = 48) := by rw [hdrop]; exact List.mem_cons_self ..
      exact List.mem_reverse.mp (List.dropWhile_subset _ this)
    have hne : c ≠ 46 := (isDigit_ne c (hds c hc)).1
    simp [hne]

theorem kept_number {m : Text} (hdot : 46 ∉ m) (hE : m.any isE = false) (hf : Fraction f)
    (he : Exponent e) : kept (m ++ (f ++ e)) = m ++ if e = [] then shortened f else f ++ e := by
  cases he with
  | digits he' =>
    rw [if_neg (List.cons_ne_nil _ _), kept, if_neg]
    simp [he']
  | none =>
    rw [if_pos rfl, List.append_nil]
    cases hf with
    | none =>
      rw [List.append_nil, kept, if_neg (fun h => hdot h.1)]
      exact (List.append_nil m).symm
    | digits _ hds =>
      refine kept_fraction hds ?_
      rw [List.any_append, hE, List.any_cons, Bool.false_or]
      simpa [isE] using fun c hc => by simpa [isE] using (isDigit_ne c (hds c hc)).2

theorem isNumber_iff {s : Text} : IsNumber t s ↔ numberLeft .start t ∧ s = kept t := by
  have hkept {sign whole f e : Text} (hs : sign ∈ [[], [45]]) (hw : Whole whole) (hf : Fraction f)
      (he : Exponent e) : kept (sign ++ (whole ++ (f ++ e))) =
        sign ++ (whole ++ if e = [] then shortened f else f ++ e) := by
    have hsign : 46 ∉ sign ∧ sign.any isE = false := by
      simp only [List.mem_cons, List.not_mem_nil, or_false] at hs
      rcases hs with rfl | rfl <;> decide
    have hdigits := whole_digits hw
    rw [← List.append_assoc, kept_number _ _ hf he, List.append_assoc]
    · rw [List.mem_append, not_or]
      exact ⟨hsign.1, fun h => (isDigit_ne _ (hdigits _ h)).1 rfl⟩
    · rw [List.any_append, hsign.2, Bool.false_or, List.any_eq_false]
      intro c hc
      rw [(isDigit_ne c (hdigits c hc)).2]
      exact Bool.false_ne_true
  constructor
  · intro h
    cases h with
    | mk hs hw hf he =>
      exact ⟨⟨_, _, rfl, hs, _, _, rfl, hw, _, _, rfl, hf, he⟩, (hkept hs hw hf he).symm⟩
  · rintro ⟨⟨sign, _, rfl, hs, w, _, rfl, hw, f, e, rfl, hf, he⟩, rfl⟩
    rw [hkept hs hw hf he]
    exact .mk hs hw hf he

theorem trimZeros_eq (h : 46 ∈ t) : JsonParse.trimZeros t = t.dropWhile (· = 48) := by
  induction t with
  | nil => exact absurd h List.not_mem_nil
  | cons c t ih =>
    cases t with
    | nil =>
      rw [List.mem_singleton] at h
      rw [← h]
      rfl
    | cons d t =>
      simp only [JsonParse.trimZeros]
      by_cases hc : c = 48
      · rw [if_pos hc, List.dropWhile_cons_of_pos (by simpa using hc)]
        refine ih ?_
        rcases List.mem_cons.mp h with h | h
        · rw [← h] at hc
          exact absurd hc (by decide)
        · exact h
      · rw [if_neg hc, List.dropWhile_cons_of_neg (by simpa using hc)]

theorem trim_eq {j : JsonParse} (hdot : j.dot = decide (46 ∈ j.mark)) (hexp : j.exp = j.mark.any isE) :
    j.trim = kept j.mark := by
  rw [JsonParse.trim, kept, hdot, hexp]
  by_cases h : 46 ∈ j.mark
  · rw [trimZeros_eq (List.mem_reverse.mpr h)]
    simp [h]
  · simp [h]

end Kept

end Netp.Parse.JsonGrammar
