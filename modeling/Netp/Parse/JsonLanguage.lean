import Netp.Parse.JsonExpects

/-! # The language of `JSON_parse`

The machine reads exactly its language (`jsonParse_reads`): white space, and a value with nothing behind it.
So where nothing stands behind the value `JSON_parse` accepts the texts of the grammar and no others, and gives
what they denote (`jsonParse_denotes`).
-/

namespace Netp.Parse.JsonGrammar
open Netp.Lib Netp.Parse.Json Phrases
open JsonParse (mapInsert Slot)
set_option autoImplicit false

variable {j : JsonParse} {b : UInt8} {L : Phrases UInt8 Value} {slots : List Slot}
  {K : Value → Phrases UInt8 Value}

/-! ## Bytes and texts -/

theorem trans_goes (hgood : j.error = false) (h : Expects j L) : Goes j.cs L b (j.trans b) := by
  cases hcs : j.cs with
  | start =>
    simp only [Expects, hcs] at h
    obtain ⟨hstack, hvs, rfl⟩ := h
    simp only [JsonParse.trans, hcs]
    refine .held hgood rfl (Nat.lt_succ_self 2) ⟨[], _, ?_, ?_, rfl⟩ rfl
    · rw [JsonParse.fcall, JsonParse.pushVt, hvs]
    · rw [JsonParse.fcall, JsonParse.pushVt, hstack]
      exact .last
  | last =>
    simp only [Expects, hcs] at h
    obtain ⟨x, hroot, rfl⟩ := h
    simp only [JsonParse.trans, hcs]
    split_ifs with hb
    · refine .step hgood rfl ⟨x, hroot, ?_⟩
      rw [hb, behind_after]
    · exact .fail (behind_after_ne hb _)
  | final =>
    simp only [Expects, hcs] at h
    obtain ⟨x, -, rfl⟩ := h
    simp only [JsonParse.trans, hcs]
    exact .fail (behind_done x)
  | value i =>
    simp only [Expects, hcs] at h
    obtain ⟨slots, K, hvs, hbelow, rfl⟩ := h
    simp only [JsonParse.trans, hcs]
    refine ignoring_goes hgood (solid_andThen jsonValue_solid (fun _ => not_jsonValue_nil) _)
      (fun i => ⟨slots, K, hvs, hbelow, rfl⟩) ?_
    rintro rfl
    exact beginValue_goes hgood hvs hbelow
  | literal l rest =>
    simp only [Expects, hcs] at h
    obtain ⟨hrest, slots, K, hvs, hbelow, rfl⟩ := h
    simp only [JsonParse.trans, hcs]
    exact literalStep_goes hgood hvs hbelow hrest
  | valueEnd =>
    simp only [Expects, hcs] at h
    obtain ⟨slot, slots, x, K, hvs, hclose, hbelow, rfl⟩ := h
    exact valueEnd_goes hcs hgood hvs hclose hbelow
  | number n =>
    simp only [JsonParse.trans, hcs]
    by_cases hn : n = .start
    · subst hn
      simp only [Expects, hcs] at h
      obtain ⟨slots, K, hvs, hin, rfl⟩ := h
      exact numberStart_goes hgood hvs hin
    · have h : ∃ slots K, j.vs = .empty :: slots ∧ Inside j.stack slots K ∧
          j.dot = decide (46 ∈ j.mark) ∧ j.exp = j.mark.any isE ∧ L = (number n j.mark).andThen K := by
        cases n with
        | start => exact absurd rfl hn
        | _ => simpa only [Expects, hcs] using h
      obtain ⟨slots, K, hvs, hin, hdot, hexp, rfl⟩ := h
      exact numberStep_goes hn hgood hvs hin hdot hexp
  | string q =>
    simp only [Expects, hcs] at h
    obtain ⟨slots, K, hvs, hin, rfl⟩ := h
    simp only [JsonParse.trans, hcs]
    exact stringStep_goes hgood hvs hin
  | name q =>
    simp only [Expects, hcs] at h
    obtain ⟨slots, K, stack, o, key, hvs, hstack, hin, rfl⟩ := h
    simp only [JsonParse.trans, hcs]
    exact nameStep_goes hgood hvs hstack hin
  | array a i =>
    simp only [JsonParse.trans, hcs]
    cases a with
    | start =>
      simp only [Expects, hcs] at h
      obtain ⟨slots, K, hvs, hin, rfl⟩ := h
      exact arrayStart_goes hgood hvs hin
    | opened =>
      simp only [Expects, hcs] at h
      obtain ⟨slots, K, hvs, hin, rfl⟩ := h
      exact arrayOpened_goes hgood hvs hin
    | element =>
      simp only [Expects, hcs] at h
      obtain ⟨slots, K, a, hvs, hin, rfl⟩ := h
      exact arrayElement_goes hgood hvs hin
    | comma =>
      simp only [Expects, hcs] at h
      obtain ⟨slots, K, a, hvs, hin, rfl⟩ := h
      exact arrayComma_goes hgood hvs hin
  | object o i =>
    simp only [JsonParse.trans, hcs]
    cases o with
    | start =>
      simp only [Expects, hcs] at h
      obtain ⟨slots, K, hvs, hin, rfl⟩ := h
      exact objectStart_goes hgood hvs hin
    | opened =>
      simp only [Expects, hcs] at h
      obtain ⟨slots, K, key, hvs, hin, rfl⟩ := h
      exact objectOpened_goes hgood hvs hin
    | named =>
      simp only [Expects, hcs] at h
      obtain ⟨slots, K, o, key, hvs, hin, rfl⟩ := h
      exact objectNamed_goes hgood hvs hin
    | colon =>
      simp only [Expects, hcs] at h
      obtain ⟨slots, K, o, key, hvs, hin, rfl⟩ := h
      exact objectColon_goes hgood hvs hin
    | field =>
      simp only [Expects, hcs] at h
      obtain ⟨slots, K, o, key, hvs, hin, rfl⟩ := h
      exact objectField_goes hgood hvs hin
    | comma =>
      simp only [Expects, hcs] at h
      obtain ⟨slots, K, o, key, hvs, hin, rfl⟩ := h
      exact objectComma_goes hgood hvs hin

/-- A parser and the language it goes on with, or an error. -/
def Reads (j : JsonParse) (L : Phrases UInt8 Value) : Prop :=
  if j.error then L = nothing else Expects j L

theorem step_reads (n : ℕ) (hn : JsonBoth.rank j.cs ≤ n) (hgood : j.error = false) (h : Expects j L) :
    Reads (j.step n b) (L.behind b) := by
  induction n generalizing j L with
  | zero => exact absurd hn (Nat.not_le.mpr (JsonBoth.rank_pos _))
  | succ n ih =>
    simp only [JsonParse.step]
    rcases trans_goes (b := b) hgood h with ⟨herror, hL⟩ | ⟨hgood', hrank, L', h', hL⟩
    · have hstop (n : ℕ) : Reads ((j.trans b).json.step n b) nothing := by
        rw [Reads, if_pos (JsonBoth.step_error herror n)]
      rw [hL]
      split_ifs
      · exact hstop n
      · rw [Reads, if_pos herror]
    · rw [hL]
      split_ifs with hhold
      · exact ih (by have := hrank hhold; omega) hgood' h'
      · rw [Reads, hgood', if_neg Bool.false_ne_true]
        exact h'

theorem byte_reads (h : Reads j L) (b : UInt8) :
    Reads (if j.error then j else j.step Json.reads b) (L.behind b) := by
  split_ifs with hgood
  · rw [Reads, if_pos hgood] at h ⊢
    rw [h]
    rfl
  · rw [Reads, if_neg hgood] at h
    rw [Bool.not_eq_true] at hgood
    exact step_reads _ ((JsonBoth.rank_le _).trans (by decide)) hgood h

/-! ### The end of the text -/

section Nil
variable {x : Value}

theorem not_spaced_andThen_nil {α : Type} {P : Phrases UInt8 α} {i : Ignore} (hP : ∀ y, ¬P [] y)
    (M : α → Phrases UInt8 Value) : ¬spaced i (P.andThen M) [] x := by
  refine not_spaced_nil ?_
  rw [andThen_nil]
  rintro ⟨y, hy, -⟩
  exact hP y hy

theorem not_after_nil {P : Phrases UInt8 Value} {c : UInt8} : ¬P.after c [] x := by
  rintro ⟨u, h, -⟩
  cases h

theorem not_number_nil {n : NumberState} {mark : Text} {stack : List JsonParse.State}
    (hin : Inside stack slots K) : ¬(number n mark).andThen K [] x := by
  obtain ⟨fs, -, hbelow⟩ := hin
  rw [andThen_nil]
  rintro ⟨y, -, hK⟩
  exact hbelow.not_nil hK

theorem not_quotedFrom_nil {q : QuoteState} {mark : Text} {M : Text → Phrases UInt8 Value} :
    ¬(quotedFrom q mark).andThen M [] x := by
  rw [andThen_nil]
  rintro ⟨y, hy, -⟩
  cases q with
  | start =>
    obtain ⟨u, h, -⟩ := hy
    cases h
  | _ => exact not_quoted_nil hy

theorem Expects.not_nil (h : Expects j L) (hcs : j.cs ≠ .final) : ¬L [] x := by
  have helements {a : List Value} : ∀ y, ¬elements a [] y := fun _ ⟨_, h, _⟩ => not_rest_nil h
  have hfields {o : List (Text × Value)} : ∀ y, ¬fields o [] y := fun _ ⟨_, h, _⟩ => not_rest_nil h
  have hopened : ∀ y, ¬opened [] y := fun _ ⟨_, h, _⟩ => not_items_nil (fun _ => not_jsonValue_nil) h
  have hobject : ∀ y, ¬openedObject [] y :=
    fun _ ⟨_, h, _⟩ => not_items_nil (fun _ => not_jsonField_nil) h
  cases hstate : j.cs with
  | start =>
    simp only [Expects, hstate] at h
    obtain ⟨-, -, rfl⟩ := h
    exact not_spaced_andThen_nil (fun _ => not_jsonValue_nil) _
  | last =>
    simp only [Expects, hstate] at h
    obtain ⟨y, -, rfl⟩ := h
    exact not_after_nil
  | final => exact absurd hstate hcs
  | value i =>
    simp only [Expects, hstate] at h
    obtain ⟨slots, K, -, -, rfl⟩ := h
    exact not_spaced_andThen_nil (fun _ => not_jsonValue_nil) _
  | literal l rest =>
    simp only [Expects, hstate] at h
    obtain ⟨hrest, slots, K, -, -, rfl⟩ := h
    rw [andThen_nil]
    rintro ⟨y, hy, -⟩
    exact hrest hy.1.symm
  | valueEnd =>
    simp only [Expects, hstate] at h
    obtain ⟨slot, slots, y, K, -, -, hbelow, rfl⟩ := h
    exact hbelow.not_nil
  | number n =>
    cases n with
    | start =>
      simp only [Expects, hstate] at h
      obtain ⟨slots, K, -, hin, rfl⟩ := h
      exact not_number_nil hin
    | _ =>
      simp only [Expects, hstate] at h
      obtain ⟨slots, K, -, hin, -, -, rfl⟩ := h
      exact not_number_nil hin
  | string q =>
    simp only [Expects, hstate] at h
    obtain ⟨slots, K, -, -, rfl⟩ := h
    exact not_quotedFrom_nil
  | name q =>
    simp only [Expects, hstate] at h
    obtain ⟨slots, K, stack, o, key, -, -, -, rfl⟩ := h
    exact not_quotedFrom_nil
  | array a i =>
    cases a with
    | start =>
      simp only [Expects, hstate] at h
      obtain ⟨slots, K, -, -, rfl⟩ := h
      exact not_after_nil
    | opened =>
      simp only [Expects, hstate] at h
      obtain ⟨slots, K, -, -, rfl⟩ := h
      exact not_spaced_andThen_nil hopened _
    | element =>
      simp only [Expects, hstate] at h
      obtain ⟨slots, K, a, -, -, rfl⟩ := h
      exact not_spaced_andThen_nil helements _
    | comma =>
      simp only [Expects, hstate] at h
      obtain ⟨slots, K, a, -, -, rfl⟩ := h
      exact not_spaced_andThen_nil (fun _ => not_jsonValue_nil) _
  | object o i =>
    cases o with
    | start =>
      simp only [Expects, hstate] at h
      obtain ⟨slots, K, -, -, rfl⟩ := h
      exact not_after_nil
    | opened =>
      simp only [Expects, hstate] at h
      obtain ⟨slots, K, key, -, -, rfl⟩ := h
      exact not_spaced_andThen_nil hobject _
    | named =>
      simp only [Expects, hstate] at h
      obtain ⟨slots, K, o, key, -, -, rfl⟩ := h
      exact not_spaced_nil not_after_nil
    | colon =>
      simp only [Expects, hstate] at h
      obtain ⟨slots, K, o, key, -, -, rfl⟩ := h
      exact not_spaced_andThen_nil (fun _ => not_jsonValue_nil) _
    | field =>
      simp only [Expects, hstate] at h
      obtain ⟨slots, K, o, key, -, -, rfl⟩ := h
      exact not_spaced_andThen_nil hfields _
    | comma =>
      simp only [Expects, hstate] at h
      obtain ⟨slots, K, o, key, -, -, rfl⟩ := h
      exact not_spaced_andThen_nil (fun _ => not_jsonField_nil) _

end Nil

theorem end_reads (h : Reads j L) (x : Value) :
    L [] x ↔ (if j.cs = .final ∧ j.error = false then j.root else none) = some x := by
  by_cases hgood : j.error = true
  · rw [Reads, if_pos hgood] at h
    rw [h, if_neg (by simp [hgood])]
    exact iff_of_false id (by simp)
  · rw [Reads, if_neg hgood] at h
    rw [Bool.not_eq_true] at hgood
    by_cases hcs : j.cs = .final
    · rw [if_pos ⟨hcs, hgood⟩]
      simp only [Expects, hcs] at h
      obtain ⟨y, hroot, rfl⟩ := h
      rw [hroot, Option.some.injEq]
      exact ⟨fun h => h.2.symm, fun h => ⟨rfl, h.symm⟩⟩
    · rw [if_neg fun h => hcs h.1]
      exact iff_of_false (h.not_nil hcs) (by simp)

theorem jsonParse_reads (text : Text) (x : Value) :
    jsonParse text = some x ↔ ∃ w t, text = w ++ t ∧ Ignored w ∧ JsonValue t x := by
  have hinit : Reads JsonParse.init (spaced .base (JsonValue.andThen fun x => (done x).after 0)) :=
    ⟨rfl, rfl, rfl⟩
  refine (Phrases.reads_iff (fun j b => if j.error then j else j.step Json.reads b)
    (fun j x => (if j.cs = .final ∧ j.error = false then j.root else none) = some x) Reads
    byte_reads end_reads hinit (text ++ [0]) x).trans ?_
  constructor
  · rintro ⟨w, _, _, htext, hw, t, _, y, rfl, ht, _, rfl, rfl, rfl⟩
    rw [← List.append_assoc] at htext
    exact ⟨w, t, List.append_cancel_right htext, hw, ht⟩
  · rintro ⟨w, t, rfl, hw, ht⟩
    exact ⟨w, t ++ [0], (), List.append_assoc .., hw, t, [0], x, rfl, ht, [], rfl, rfl, rfl⟩

/-! ## The language -/

/-- White space or a comment stands behind the value. -/
def SpaceBehind (text : Text) : Prop :=
  ∃ w t w' x, text = w ++ (t ++ w') ∧ Ignored w ∧ JsonValue t x ∧ Ignored w' ∧ w' ≠ []

/-- `JSON_parse` accepts exactly the texts of one value, and gives what they denote. -/
theorem jsonParse_denotes (text : Text) (x : Value) (hend : ¬SpaceBehind text) :
    jsonParse text = some x ↔ Denotes anyEscape text x := by
  rw [jsonParse_reads]
  constructor
  · rintro ⟨w, t, rfl, hw, ht⟩
    exact ⟨w, t, [], by rw [List.append_nil], hw, ht, .nil⟩
  · rintro ⟨w, t, w', rfl, hw, ht, hw'⟩
    have hnone : w' = [] := by
      by_contra hne
      exact hend ⟨w, t, w', x, rfl, hw, ht, hw', hne⟩
    exact ⟨w, t, by rw [hnone, List.append_nil], hw, ht⟩

theorem Ignored.last {w : Text} (h : Ignored w) (hne : w ≠ []) :
    ∃ v c, w = v ++ [c] ∧ c ∈ [32, 9, 13, 10, 47] := by
  induction h with
  | nil => exact absurd rfl hne
  | @space c t hc h ih =>
    by_cases ht : t = []
    · subst ht
      refine ⟨[], c, rfl, ?_⟩
      simp only [List.mem_cons, List.not_mem_nil, or_false] at hc ⊢
      tauto
    · obtain ⟨v, d, rfl, hd⟩ := ih ht
      exact ⟨c :: v, d, rfl, hd⟩
  | @block body t hbody h ih =>
    by_cases ht : t = []
    · subst ht
      exact ⟨47 :: 42 :: (body ++ [42]), 47, by simp, by simp⟩
    · obtain ⟨v, d, rfl, hd⟩ := ih ht
      exact ⟨47 :: 42 :: (body ++ 42 :: 47 :: v), d, by simp, hd⟩
  | @line body t hbody h ih =>
    by_cases ht : t = []
    · subst ht
      exact ⟨47 :: 47 :: body, 10, by simp, by simp⟩
    · obtain ⟨v, d, rfl, hd⟩ := ih ht
      exact ⟨47 :: 47 :: (body ++ 10 :: v), d, by simp, hd⟩

theorem not_spaceBehind (text : Text) (c : UInt8) (hc : c ∉ [32, 9, 13, 10, 47]) :
    ¬SpaceBehind (text ++ [c]) := by
  rintro ⟨w, t, w', x, htext, -, -, hw', hne⟩
  obtain ⟨v, d, rfl, hd⟩ := hw'.last hne
  rw [← List.append_assoc, ← List.append_assoc] at htext
  obtain ⟨-, h⟩ := List.append_inj' htext rfl
  rw [List.singleton_inj] at h
  exact hc (h ▸ hd)

theorem jsonParse_denotes_object : Denotes anyEscape (bytes "\x7b\"a\":[1.50],/**/ \"a\":NaN\x7d")
    (.object [(bytes "a", .nan)]) :=
  (jsonParse_denotes _ _ (not_spaceBehind (bytes "\x7b\"a\":[1.50],/**/ \"a\":NaN") 125 (by decide))).mp rfl

theorem chars_of_string {escape : UInt8 → Prop} {t s : Text} {x : Value} (h : IsValue escape t x)
    (hx : x = .string s) : Chars escape s := by
  cases h with
  | literal l => cases l <;> cases hx
  | string hs =>
    cases hx
    exact hs
  | number => cases hx
  | array => cases hx
  | object => cases hx

/-- JSON has no such escape. -/
theorem escape_not_json : ¬∀ text : Text, (∀ c ∈ text, c ≠ 0) → ∀ x : Value,
    jsonParse text = some x ↔ Denotes jsonEscape text x := by
  intro h
  have hx : Denotes jsonEscape (bytes "\"\\q\"") (.string (bytes "\\q")) :=
    (h (bytes "\"\\q\"") (by decide +kernel) _).mp rfl
  obtain ⟨w, t, w', htext, hw, ht, -⟩ := hx
  have hs : Chars jsonEscape [92, 113] := chars_of_string ht rfl
  cases hs with
  | char _ _ hslash => exact hslash rfl
  | escape hc =>
    have hno : (113 : UInt8) ∉ bytes "\"\\/bfnrt" := by decide
    exact hno hc

end Netp.Parse.JsonGrammar
