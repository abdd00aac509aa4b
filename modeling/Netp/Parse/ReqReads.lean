import Netp.Parse.ReqLanguage

/-! # The parser reads the streams of requests

What is left of each language behind a byte is the language of the state behind it, with the calls of the
step in front (`lang_step`); so the parser, seen byte by byte, reads the language of its state.
-/

namespace Netp.Parse.Req
open Netp.Lib Netp.Lib.Phrases Netp.Parse.HttpRequest
set_option autoImplicit false

variable {n : ℤ} {nm acc : Text} {b : UInt8} {s : HttpRequest}

/-! ## Saying -/

section Say
variable {P : Phrases UInt8 (List Obs)}

theorem say_nil (P : Phrases UInt8 (List Obs)) : say [] P = P := by
  ext t y
  constructor
  · rintro ⟨_, hP, rfl⟩
    exact hP
  · exact fun hP => ⟨y, hP, rfl⟩

theorem say_say (o o' : List Obs) (P : Phrases UInt8 (List Obs)) :
    say o (say o' P) = say (o ++ o') P := by
  rw [say, say, map_map, say]
  simp only [List.append_assoc]

theorem say_nothing (o : List Obs) : say o .nothing = .nothing := map_nothing _

theorem behind_say (o : List Obs) : (say o P).behind b = say o (P.behind b) := rfl

theorem behind_newline (P : Phrases UInt8 (List Obs)) : (newline P).behind b =
    if b = 13 then P.after 10 else if b = 10 then P else .nothing := by
  rw [newline, behind_either]
  split_ifs with hcr hlf
  · rw [hcr, behind_after, behind_after_ne (by decide), nothing_either]
  · rw [hlf, behind_after, behind_after_ne (by decide), either_nothing]
  · rw [behind_after_ne hlf, behind_after_ne hcr, either_nothing]

theorem not_newline_nil {y : List Obs} : ¬newline P [] y := by
  rintro (h | h)
  · exact not_after_nil h
  · exact not_after_nil h

end Say

/-! ## Languages behind a byte -/

theorem behind_requests : requests.behind b =
    if isMethodChar b = true then method [b] else .nothing := by
  rw [requests_eq, behind_either, behind_done, nothing_either, behind_one]

theorem isNameChar_end : isNameChar 10 = false ∧ isNameChar 13 = false ∧ isNameChar 32 = false ∧
    isNameChar 9 = false ∧ isNameChar 58 = false := by decide

theorem behind_headers : (headers n).behind b =
    if isNameChar b = true then name n [b]
    else if b = 13 then (behindHead n).after 10
    else if b = 10 then behindHead n
    else .nothing := by
  rw [headers_eq, behind_either, behind_one, behind_newline]
  by_cases hb : isNameChar b = true
  · have hcr : b ≠ 13 := by
      rintro rfl
      exact Bool.false_ne_true (isNameChar_end.2.1.symm.trans hb)
    have hlf : b ≠ 10 := by
      rintro rfl
      exact Bool.false_ne_true (isNameChar_end.1.symm.trans hb)
    rw [if_pos hb, if_pos hb, if_neg hcr, if_neg hlf, nothing_either]
  · rw [if_neg hb, if_neg hb, either_nothing]

/-- A blank goes on with the header before it. -/
theorem behind_headers_blank (hb : b = 32 ∨ b = 9) : (headers n).behind b = .nothing := by
  rw [behind_headers]
  rcases hb with rfl | rfl
  · rw [isNameChar_end.2.2.1]
    rfl
  · rw [isNameChar_end.2.2.2.1]
    rfl

theorem behind_valueEnd : (valueEnd n nm acc).behind b =
    if b = 32 ∨ b = 9 then value n nm (acc ++ [b])
    else say (Header.said ⟨nm, acc⟩) ((headers (Header.length n ⟨nm, acc⟩)).behind b) := by
  rw [valueEnd, behind_either, behind_say, behind_one]
  split_ifs with hb
  · rw [behind_headers_blank hb, say_nothing, either_nothing]
  · rw [nothing_either]

theorem isLineChar_iff : isLineChar b = true ↔ b ≠ 13 ∧ b ≠ 10 := by
  rw [isLineChar, decide_eq_true_eq]

section Value
variable {t : Text} {y : List Obs}

theorem not_folded_nil : ¬Folded [] := fun h => nomatch h

theorem folded_char (hb : isLineChar b = true) : Folded (b :: t) ↔ Folded t := by
  refine ⟨fun h => ?_, .char hb⟩
  cases h with
  | char _ ht => exact ht
  | lf => exact absurd rfl (isLineChar_iff.1 hb).2
  | fold => exact absurd rfl (isLineChar_iff.1 hb).2
  | crlf => exact absurd rfl (isLineChar_iff.1 hb).1
  | crFold => exact absurd rfl (isLineChar_iff.1 hb).1

theorem folded_lf : Folded (10 :: t) ↔ t = [] ∨ ∃ b u, t = b :: u ∧ (b = 32 ∨ b = 9) ∧ Folded u := by
  constructor
  · intro h
    cases h with
    | lf => exact .inl rfl
    | char hb => exact absurd rfl (isLineChar_iff.1 hb).2
    | fold hb ht => exact .inr ⟨_, _, rfl, hb, ht⟩
  · rintro (rfl | ⟨b, u, rfl, hb, hu⟩)
    · exact .lf
    · exact .fold hb hu

theorem folded_cr : Folded (13 :: t) ↔ ∃ u, t = 10 :: u ∧ Folded (10 :: u) := by
  constructor
  · intro h
    cases h with
    | crlf => exact ⟨[], rfl, .lf⟩
    | char hb => exact absurd rfl (isLineChar_iff.1 hb).1
    | crFold hb ht => exact ⟨_, rfl, .fold hb ht⟩
  · rintro ⟨u, rfl, h⟩
    rcases folded_lf.1 h with rfl | ⟨b, u, rfl, hb, hu⟩
    · exact .crlf
    · exact .crFold hb hu

theorem behind_value : (value n nm acc).behind b t y ↔ ∃ v r z, t = v ++ r ∧ Folded (b :: v) ∧
    headers (Header.length n ⟨nm, acc ++ b :: v⟩) r z ∧ y = Header.said ⟨nm, acc ++ b :: v⟩ ++ z := by
  constructor
  · rintro ⟨v, r, z, h, hv, hr, rfl⟩
    rcases List.cons_eq_append_iff.mp h with ⟨rfl, -⟩ | ⟨v, rfl, rfl⟩
    · exact absurd hv not_folded_nil
    · exact ⟨v, r, z, rfl, hv, hr, rfl⟩
  · rintro ⟨v, r, z, rfl, hv, hr, rfl⟩
    exact ⟨b :: v, r, z, rfl, hv, hr, rfl⟩

theorem behind_value_char (hb : isLineChar b = true) :
    (value n nm acc).behind b = value n nm (acc ++ [b]) := by
  ext t y
  refine behind_value.trans ?_
  simp only [folded_char hb, value, List.append_assoc, List.singleton_append]

theorem behind_value_lf : (value n nm acc).behind 10 = valueEnd n nm (acc ++ [10]) := by
  ext t y
  refine behind_value.trans ?_
  constructor
  · rintro ⟨v, r, z, rfl, hv, hr, rfl⟩
    rcases folded_lf.1 hv with rfl | ⟨b, u, rfl, hb, hu⟩
    · exact .inr ⟨z, hr, rfl⟩
    · refine .inl ⟨b, u ++ r, rfl, hb, u, r, z, rfl, hu, ?_, ?_⟩
      · simpa using hr
      · simp
  · rintro (⟨b, _, rfl, hb, u, r, z, rfl, hu, hr, rfl⟩ | ⟨z, hr, rfl⟩)
    · refine ⟨b :: u, r, z, rfl, .fold hb hu, ?_, ?_⟩
      · simpa using hr
      · simp
    · exact ⟨[], t, z, rfl, .lf, hr, rfl⟩

theorem behind_value_cr :
    (value n nm acc).behind 13 = (valueEnd n nm (acc ++ [13] ++ [10])).after 10 := by
  ext t y
  rw [← behind_value_lf]
  refine behind_value.trans ?_
  constructor
  · rintro ⟨v, r, z, rfl, hv, hr, rfl⟩
    obtain ⟨u, rfl, hu⟩ := folded_cr.1 hv
    refine ⟨u ++ r, rfl, behind_value.2 ⟨u, r, z, rfl, hu, ?_, ?_⟩⟩
    · simpa using hr
    · simp
  · rintro ⟨_, rfl, h⟩
    obtain ⟨u, r, z, rfl, hu, hr, rfl⟩ := behind_value.1 h
    refine ⟨10 :: u, r, z, rfl, folded_cr.2 ⟨u, rfl, hu⟩, ?_, ?_⟩
    · simpa using hr
    · simp

end Value

theorem behind_bodyRest (k : ℕ) : (bodyRest (k + 1)).behind b = say [.byte plain b] (bodyRest k) := by
  ext t y
  constructor
  · rintro ⟨d, r, z, h, hlen, hr, rfl⟩
    rcases List.cons_eq_append_iff.mp h with ⟨rfl, -⟩ | ⟨d, rfl, rfl⟩
    · cases hlen
    · exact ⟨_, ⟨d, r, z, rfl, Nat.succ.inj hlen, hr, rfl⟩, rfl⟩
  · rintro ⟨_, ⟨d, r, z, rfl, rfl, hr, rfl⟩, rfl⟩
    exact ⟨b :: d, r, z, rfl, rfl, hr, rfl⟩

theorem bodyRest_zero : bodyRest 0 = say [.finish plain, .vpt (.pop .httpRequest)] requests := by
  ext t y
  constructor
  · rintro ⟨d, r, z, rfl, hlen, hr, rfl⟩
    obtain rfl := List.eq_nil_of_length_eq_zero hlen
    exact ⟨z, hr, rfl⟩
  · rintro ⟨z, hr, rfl⟩
    exact ⟨[], t, z, rfl, rfl, hr, rfl⟩

/-! ## The language of a state -/

/-- The content length is an `int`, and there is something left of a body. -/
def Bounded (s : HttpRequest) : Prop :=
  match s.cs with
  | .name | .colon | .value | .valueCr | .valueEnd | .headEndCr => s.contentLength < 2 ^ 31
  | .consume | .inConsume => 0 < s.contentLength ∧ s.contentLength < 2 ^ 31
  | _ => True

/-- What a call shows, with the byte that a body ends in. -/
def shown (b : UInt8) : Call → List Obs
  | .vpt c => [.vpt c]
  | .start => [.start plain]
  | .finishNext => [.byte plain b, .finish plain]
  | _ => []

/-- What a step shows, with the byte if a body goes on. -/
def output (b : UInt8) (r : HttpRequest × List Call) : List Obs :=
  r.2.flatMap (shown b) ++ if r.1.cs = .inConsume then [.byte plain b] else []

/-- The step goes on with what is left of the language. -/
def GoesOn (P : Phrases UInt8 (List Obs)) (b : UInt8) (r : HttpRequest × List Call) : Prop :=
  P.behind b = say (output b r) (lang r.1)

theorem output_after (cs : List Call) (r : HttpRequest × List Call) :
    output b (after cs r) = cs.flatMap (shown b) ++ output b r := by
  rw [output, after, List.flatMap_append, List.append_assoc]
  rfl

theorem fin_lang : say (output b s.fin) (lang s.fin.1) = behindHead s.contentLength := by
  unfold fin behindHead
  split_ifs
  · rfl
  · rfl

theorem afterLine_goesOn {P : Phrases UInt8 (List Obs)} (r : HttpRequest × List Call)
    (h : P.behind b = say (r.2.flatMap (shown b)) ((headers r.1.contentLength).behind b)) :
    GoesOn P b (s.afterLine r b) := by
  rw [GoesOn, h, behind_headers]
  unfold afterLine
  split_ifs
  · simp [output, lang, goto, clear1, append1]
  · simp [output, lang, goto, andGoto]
  · rw [output_after, ← say_say, after, fin_lang]
  · rw [say_nothing]
    exact (say_nothing _).symm

/-- A step that makes no calls and does not lead into a body. -/
theorem goesOn_silent {P : Phrases UInt8 (List Obs)} {t : HttpRequest} (ht : t.cs ≠ .inConsume)
    (h : P.behind b = lang t) : GoesOn P b (t, []) := by
  rw [GoesOn, output, if_neg ht, List.flatMap_nil, List.nil_append, say_nil]
  exact h

theorem goesOn_error {P : Phrases UInt8 (List Obs)} (h : P.behind b = .nothing) :
    GoesOn P b (s.goto .error, []) := goesOn_silent ReqState.noConfusion h

theorem inValue_goesOn : GoesOn (value s.contentLength s.buf1 s.buf2) b (s.inValue b) := by
  unfold inValue
  split_ifs with hcr hlf
  · rw [hcr]
    exact goesOn_silent ReqState.noConfusion behind_value_cr
  · rw [hlf]
    exact goesOn_silent ReqState.noConfusion behind_value_lf
  · exact goesOn_silent ReqState.noConfusion (behind_value_char (isLineChar_iff.2 ⟨hcr, hlf⟩))

theorem consumeByte_goesOn (hpos : 0 < s.contentLength) (hlt : s.contentLength < 2 ^ 31) :
    GoesOn (bodyRest s.contentLength.toNat) b s.consumeByte := by
  obtain ⟨k, hk⟩ : ∃ k, s.contentLength.toNat = k + 1 := Nat.exists_eq_succ_of_ne_zero (by omega)
  have hnext : toInt (s.contentLength - 1) = k := by
    rw [toInt_of_lt (by omega) (by omega)]
    omega
  rw [GoesOn, hk, behind_bodyRest]
  unfold consumeByte
  simp only [hnext]
  split_ifs with hend
  · obtain rfl : k = 0 := by omega
    rw [bodyRest_zero, say_say]
    rfl
  · rfl

/-- One byte: what is left of the language is what the state behind it takes. -/
theorem lang_step (hs : Bounded s) (b : UInt8) : GoesOn (lang s) b (s.step b) := by
  unfold Bounded at hs
  cases hcs : s.cs <;> simp only [hcs] at hs <;> simp only [lang, step, hcs]
  case error =>
    refine goesOn_silent (by rw [hcs]; exact ReqState.noConfusion) ?_
    rw [lang, hcs]
    rfl
  case main =>
    rw [GoesOn, behind_requests]
    split_ifs
    · exact (say_nil _).symm
    · exact (say_nil _).symm
  case method =>
    rw [GoesOn, method, behind_span_after (by decide)]
    split_ifs
    · exact (say_nil _).symm
    · rfl
    · exact (say_nil _).symm
  case methodEnd =>
    rw [GoesOn, behind_one]
    split_ifs
    · exact (say_nil _).symm
    · exact (say_nil _).symm
  case uri =>
    rw [GoesOn, uri, behind_span_after (by decide)]
    split_ifs with hb hspace
    · exact (say_nil _).symm
    · rfl
    · exact absurd hspace hb
  case uriEnd =>
    rw [GoesOn, behind_one]
    split_ifs
    · exact (say_nil _).symm
    · exact (say_nil _).symm
  case protocol =>
    split_ifs with hb hcr
    · rw [GoesOn, protocol, behind_span (p := fun a => isLineChar a = true) hb]
      · exact (say_nil _).symm
      · rw [behind_newline, if_neg (isLineChar_iff.1 hb).1, if_neg (isLineChar_iff.1 hb).2]
    · rw [GoesOn, protocol, behind_span_ne (p := fun a => isLineChar a = true) hb, behind_newline, if_pos hcr]
      exact (map_after _ _).symm
    · have hlf : b = 10 := by
        by_contra hlf
        exact hb (isLineChar_iff.2 ⟨hcr, hlf⟩)
      rw [GoesOn, protocol, behind_span_ne (p := fun a => isLineChar a = true) hb, behind_newline, if_neg hcr, if_pos hlf]
      rfl
  case lineCr =>
    split_ifs with hlf
    · rw [hlf]
      exact goesOn_silent ReqState.noConfusion (behind_after _)
    · exact goesOn_error (behind_after_ne hlf _)
  case lineEnd => exact afterLine_goesOn s.requestLine (say_nil _).symm
  case name =>
    rw [GoesOn, name, behind_span_after (by decide)]
    split_ifs
    · exact (say_nil _).symm
    · exact (say_nil _).symm
    · exact (say_nil _).symm
  case colon => exact inValue_goesOn (s := s.clear2)
  case value => exact inValue_goesOn
  case valueCr =>
    split_ifs with hlf
    · rw [hlf]
      exact goesOn_silent ReqState.noConfusion (behind_after _)
    · exact goesOn_error (behind_after_ne hlf _)
  case valueEnd =>
    split_ifs with hb
    · refine goesOn_silent ReqState.noConfusion ?_
      rw [behind_valueEnd, if_pos hb]
      rfl
    · refine afterLine_goesOn s.header ?_
      rw [behind_valueEnd, if_neg hb]
      rfl
  case headEndCr =>
    split_ifs with hlf
    · rw [hlf, GoesOn, behind_after, fin_lang]
    · exact goesOn_error (behind_after_ne hlf _)
  case consume =>
    rw [GoesOn, behind_say, consumeByte_goesOn hs.1 hs.2, say_say, output_after]
    rfl
  case inConsume => exact consumeByte_goesOn hs.1 hs.2

/-! ## The end of a text -/

theorem not_headers_nil {y : List Obs} : ¬headers n [] y := by
  rw [headers_eq]
  rintro (h | h)
  · exact not_newline_nil h
  · exact not_one_nil h

theorem not_say_nil {o y : List Obs} {P : Phrases UInt8 (List Obs)} (h : ∀ z, ¬P [] z) :
    ¬say o P [] y := by
  rintro ⟨z, hz, -⟩
  exact h z hz

theorem not_value_nil {y : List Obs} : ¬value n nm acc [] y := by
  rintro ⟨v, r, z, h, hv, -⟩
  obtain ⟨rfl, -⟩ := List.append_eq_nil_iff.1 h.symm
  exact not_folded_nil hv

theorem not_bodyRest_nil {k : ℕ} (hk : 0 < k) {y : List Obs} : ¬bodyRest k [] y := by
  rintro ⟨d, r, z, h, hlen, -⟩
  obtain ⟨rfl, -⟩ := List.append_eq_nil_iff.1 h.symm
  rw [List.length_nil] at hlen
  omega

theorem requests_nil {y : List Obs} : requests [] y ↔ y = [] := by
  rw [requests_eq]
  constructor
  · rintro (⟨-, hy⟩ | h)
    · exact hy
    · exact absurd h not_one_nil
  · exact fun hy => .inl ⟨rfl, hy⟩

/-- Only between two requests may the text end. -/
theorem lang_nil (hs : Bounded s) {y : List Obs} : lang s [] y ↔ s.cs = .main ∧ y = [] := by
  unfold Bounded at hs
  unfold lang
  cases hcs : s.cs <;> simp only [hcs] at hs <;> simp only [true_and, reduceCtorEq, false_and, iff_false]
  case error => exact id
  case main => exact requests_nil
  case method => exact fun h => not_after_nil (span_nil.1 h)
  case methodEnd => exact not_one_nil
  case uri => exact fun h => not_after_nil (span_nil.1 h)
  case uriEnd => exact not_one_nil
  case protocol => exact fun h => not_newline_nil (span_nil.1 h)
  case lineCr => exact not_after_nil
  case lineEnd => exact not_headers_nil
  case name => exact fun h => not_after_nil (span_nil.1 h)
  case colon => exact not_value_nil
  case value => exact not_value_nil
  case valueCr => exact not_after_nil
  case valueEnd =>
    rintro (h | h)
    · exact not_one_nil h
    · exact not_say_nil (fun _ => not_headers_nil) h
  case headEndCr => exact not_after_nil
  case consume => exact not_say_nil fun _ => not_bodyRest_nil (by omega)
  case inConsume => exact not_bodyRest_nil (by omega)

/-! ## The content length -/

theorem toInt_lt (v : ℤ) : toInt v < 2 ^ 31 := by
  have h : toInt v < _ := Int.bmod_lt (by decide)
  exact h

theorem fin_bounded (h : s.contentLength < 2 ^ 31) : Bounded s.fin.1 := by
  unfold fin
  split_ifs with hpos
  · exact ⟨hpos, h⟩
  · trivial

theorem afterLine_bounded {r : HttpRequest × List Call} (h : r.1.contentLength < 2 ^ 31) :
    Bounded (s.afterLine r b).1 := by
  unfold afterLine
  split_ifs
  · exact h
  · exact h
  · exact fin_bounded h
  · trivial

theorem header_length_lt (h : s.contentLength < 2 ^ 31) : s.header.1.contentLength < 2 ^ 31 := by
  unfold header
  simp only
  split_ifs
  · exact toInt_lt _
  · exact h

theorem inValue_bounded (h : s.contentLength < 2 ^ 31) : Bounded (s.inValue b).1 := by
  unfold inValue
  split_ifs
  · exact h
  · exact h
  · exact h

theorem consumeByte_bounded : Bounded s.consumeByte.1 := by
  unfold consumeByte
  simp only
  split_ifs with hend
  · trivial
  · exact ⟨by simpa [goto] using hend, toInt_lt _⟩

theorem step_bounded (hs : Bounded s) (b : UInt8) : Bounded (s.step b).1 := by
  unfold Bounded at hs
  cases hcs : s.cs <;> simp only [hcs] at hs <;> simp only [step, hcs]
  case error =>
    rw [Bounded, hcs]
    trivial
  case lineEnd => exact afterLine_bounded (show (-1 : ℤ) < 2 ^ 31 by decide)
  case colon => exact inValue_bounded (s := s.clear2) hs
  case value => exact inValue_bounded hs
  case valueEnd =>
    split_ifs
    · exact hs
    · exact afterLine_bounded (header_length_lt hs)
  case headEndCr =>
    split_ifs
    · exact fin_bounded hs
    · trivial
  case consume => exact consumeByte_bounded
  case inConsume => exact consumeByte_bounded
  case name =>
    split_ifs
    · exact hs
    · exact hs
    · trivial
  case valueCr =>
    split_ifs
    · exact hs
    · trivial
  all_goals split_ifs <;> trivial

/-! ## The parser byte by byte -/

/-- A body is open in `inConsume` only, and goes to the body parser. -/
structure Fits (v : View HttpRequest) : Prop where
  fault : v.fault = false
  isOpen : v.isOpen = true ↔ v.core.cs = .inConsume
  output : v.isOpen = true → v.output = some plain

def isVpt : Call → Bool
  | .vpt _ => true
  | _ => false

/-- Only the tree is called, and no body begins. -/
def Talks (r : HttpRequest × List Call) : Prop := r.2.all isVpt = true ∧ r.1.cs ≠ .inConsume

theorem fin_talks : Talks s.fin := by
  unfold fin
  split_ifs
  · exact ⟨rfl, ReqState.noConfusion⟩
  · exact ⟨rfl, ReqState.noConfusion⟩

theorem afterLine_talks {r : HttpRequest × List Call} (h : r.2.all isVpt = true) :
    Talks (s.afterLine r b) := by
  unfold afterLine
  split_ifs
  · exact ⟨h, ReqState.noConfusion⟩
  · exact ⟨h, ReqState.noConfusion⟩
  · refine ⟨?_, fin_talks.2⟩
    rw [after, List.all_append, h, fin_talks.1]
    rfl
  · exact ⟨rfl, ReqState.noConfusion⟩

theorem step_talks (h : s.cs ≠ .consume) (h' : s.cs ≠ .inConsume) : Talks (s.step b) := by
  cases hcs : s.cs <;> simp only [step, hcs]
  case error => exact ⟨rfl, h'⟩
  case lineEnd => exact afterLine_talks rfl
  case valueEnd =>
    split_ifs
    · exact ⟨rfl, ReqState.noConfusion⟩
    · exact afterLine_talks rfl
  case headEndCr =>
    split_ifs
    · exact fin_talks
    · exact ⟨rfl, ReqState.noConfusion⟩
  case consume => exact absurd hcs h
  case inConsume => exact absurd hcs h'
  case colon => unfold inValue; split_ifs <;> exact ⟨rfl, ReqState.noConfusion⟩
  case value => unfold inValue; split_ifs <;> exact ⟨rfl, ReqState.noConfusion⟩
  all_goals split_ifs <;> exact ⟨rfl, ReqState.noConfusion⟩

theorem calls_vpt {cs : List Call} (hcs : cs.all isVpt = true) {v : View HttpRequest} (hv : v.fault = false) :
    cs.foldl (View.call b) v = { v with trace := v.trace ++ cs.flatMap (shown b) } := by
  induction cs generalizing v with
  | nil => rw [List.foldl_nil, List.flatMap_nil, List.append_nil]
  | cons c cs ih =>
    rw [List.all_cons, Bool.and_eq_true] at hcs
    cases c with
    | vpt c =>
      have hcall : v.call b (.vpt c) = { v with trace := v.trace ++ [.vpt c] } := by
        rw [View.call, hv]
        rfl
      have hnext := ih hcs.2 (v := { v with trace := v.trace ++ [.vpt c] }) hv
      rw [List.foldl_cons, hcall, hnext, List.flatMap_cons, List.append_assoc]
      rfl
    | _ => exact absurd hcs.1 Bool.false_ne_true

/-- The view `w` is behind the step `r`, of which it shows what there is to show. -/
structure Stepped (tr : List Obs) (b : UInt8) (r : HttpRequest × List Call) (w : View HttpRequest) : Prop where
  fits : Fits w
  core : w.core = r.1
  trace : w.trace = tr ++ output b r

theorem consumeByte_stepped {v : View HttpRequest} (hf : v.fault = false) (ho : v.isOpen = true)
    (hd : v.output = some plain) (hc : v.core = s.consumeByte.1) :
    Stepped v.trace b s.consumeByte ((s.consumeByte.2.foldl (View.call b) v).take b) := by
  obtain ⟨core, isOpen, dest, tr, fault⟩ := v
  simp only at hf ho hd hc
  subst hf ho hd hc
  unfold consumeByte
  simp only
  split_ifs
  · exact ⟨⟨rfl, by simp [View.call, View.take, View.close, goto], by simp [View.call, View.take, View.close]⟩,
      rfl, by simp [View.call, View.take, View.close, output, shown, goto]⟩
  · exact ⟨⟨rfl, by simp [View.take, goto], fun _ => rfl⟩, rfl, by simp [View.take, output, goto]⟩

theorem viewStep_stepped {v : View HttpRequest} (hv : Fits v) (b : UInt8) :
    Stepped v.trace b (v.core.step b) (httpRequest.viewStep v b) := by
  obtain ⟨core, isOpen, dest, tr, fault⟩ := v
  obtain ⟨hf, ho, hd⟩ := hv
  simp only at hf ho hd
  subst hf
  by_cases herr : core.cs = .error
  · have hstep : core.step b = (core, []) := by rw [step, herr]
    have hclosed : ¬core.cs = .inConsume := by
      rw [herr]
      exact ReqState.noConfusion
    rw [Machine.viewStep, if_pos (by simp [httpRequest, herr]), hstep]
    refine ⟨⟨rfl, ho, hd⟩, rfl, ?_⟩
    rw [output, if_neg hclosed, List.flatMap_nil, List.append_nil, List.append_nil]
  have hgo : httpRequest.viewStep ⟨core, isOpen, dest, tr, false⟩ b =
      ((core.step b).2.foldl (View.call b) ⟨(core.step b).1, isOpen, dest, tr, false⟩).take b :=
    if_neg (by simpa [httpRequest] using herr)
  rw [hgo]
  by_cases hin : core.cs = .inConsume
  · have hstep : core.step b = core.consumeByte := by rw [step, hin]
    rw [hstep]
    exact consumeByte_stepped (v := ⟨core.consumeByte.1, isOpen, dest, tr, false⟩) rfl (ho.2 hin)
      (hd (ho.2 hin)) rfl
  have hclosed : isOpen = false := by
    rw [← Bool.not_eq_true, ho]
    exact hin
  subst hclosed
  by_cases hcon : core.cs = .consume
  · have hstep : core.step b = after [.destination plain, .start] core.consumeByte := by rw [step, hcon]; rfl
    obtain ⟨hfits, hcore, htrace⟩ := consumeByte_stepped (s := core) (b := b)
      (v := ⟨core.consumeByte.1, true, some plain, tr ++ [.start plain], false⟩) rfl rfl rfl rfl
    rw [hstep]
    refine ⟨hfits, hcore, ?_⟩
    rw [output_after, ← List.append_assoc]
    exact htrace
  · have htalks := step_talks (b := b) hcon hin
    rw [calls_vpt htalks.1 rfl]
    refine ⟨⟨rfl, ?_, fun h => absurd h Bool.false_ne_true⟩, rfl, ?_⟩
    · exact iff_of_false Bool.false_ne_true htalks.2
    · rw [output, if_neg htalks.2, List.append_nil]
      rfl

/-- The parser reads what its state takes, behind what it has shown. -/
def Reads (v : View HttpRequest) (L : Phrases UInt8 (List Obs)) : Prop :=
  Fits v ∧ Bounded v.core ∧ L = say v.trace (lang v.core)

/-- The parser is between two requests, and has shown `tr`. -/
def Between (v : View HttpRequest) (tr : List Obs) : Prop :=
  v.fault = false ∧ v.core.cs = .main ∧ v.trace = tr

theorem reads_step {v : View HttpRequest} {L : Phrases UInt8 (List Obs)} (h : Reads v L) (b : UInt8) :
    Reads (httpRequest.viewStep v b) (L.behind b) := by
  obtain ⟨hfits, hbounded, rfl⟩ := h
  obtain ⟨hfits', hcore, htrace⟩ := viewStep_stepped hfits b
  refine ⟨hfits', ?_, ?_⟩
  · rw [hcore]
    exact step_bounded hbounded b
  · rw [behind_say, lang_step hbounded b, say_say, htrace, hcore]

theorem reads_end {v : View HttpRequest} {L : Phrases UInt8 (List Obs)} (h : Reads v L) (tr : List Obs) :
    L [] tr ↔ Between v tr := by
  obtain ⟨hfits, hbounded, rfl⟩ := h
  constructor
  · rintro ⟨y, hy, rfl⟩
    obtain ⟨hmain, rfl⟩ := (lang_nil hbounded).1 hy
    exact ⟨hfits.fault, hmain, (List.append_nil _).symm⟩
  · rintro ⟨-, hmain, rfl⟩
    exact ⟨[], (lang_nil hbounded).2 ⟨hmain, rfl⟩, (List.append_nil _).symm⟩

theorem reads_start (core : HttpRequest) : Reads (startRequest (.new core)).view requests :=
  ⟨⟨rfl, iff_of_false Bool.false_ne_true ReqState.noConfusion, fun h => absurd h Bool.false_ne_true⟩,
    trivial, (say_nil _).symm⟩

/-- A parser that has been given a stream in any pieces is between two requests, with these calls made,
exactly if the stream is one of requests whose calls these are. -/
theorem requests_read (core : HttpRequest) (ds : List Text) (tr : List Obs) :
    let p := ds.foldl httpRequest.receive (startRequest (.new core))
    (p.fault = false ∧ p.core.cs = .main ∧ trace p.log = tr) ↔
      ∃ rs : List Request, (∀ r ∈ rs, r.Valid) ∧ ds.flatten = rs.flatMap Request.text ∧
        tr = rs.flatMap Request.said := by
  have hview := (Machine.byteWise httpRequest_lawful).flatten ds (startRequest_ready core)
  have hreads := reads_iff httpRequest.viewStep Between Reads reads_step reads_end (reads_start core)
    ds.flatten tr
  rw [← hview] at hreads
  exact hreads

end Netp.Parse.Req
