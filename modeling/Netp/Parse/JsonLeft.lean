import Netp.Parse.JsonTokens
import Netp.Parse.JsonBoth

/-! # What is left of a JSON value behind a byte

The language of the machine (`JsonValue`) and of the parts of a value, each as what may stand behind a
place of the machine, and what is left of it behind one more byte.
-/

namespace Netp.Parse.JsonGrammar
open Netp.Lib Netp.Parse.Json Phrases
open JsonParse (Literal mapInsert)
set_option autoImplicit false

/-- The values of `JSON_tree`. -/
def JsonValue : Phrases UInt8 Value := IsValue anyEscape

def JsonField : Phrases UInt8 (Text × Value) := Field anyEscape JsonValue

section Spaces
variable {β : Type}

def skip (i : Ignore) : Phrases UInt8 Unit := fun t _ => Ignored (seen i ++ t)

/-- The rest of `ignore*`, and then `P`. -/
def spaced (i : Ignore) (P : Phrases UInt8 β) : Phrases UInt8 β := (skip i).andThen fun _ => P

/-- No phrase begins with a byte of `ignore*`. -/
def Solid (P : Phrases UInt8 β) : Prop := ∀ b, (Ignore.base.step b).isSome → P.behind b = nothing

variable {P : Phrases UInt8 β} {b : UInt8} {i i' : Ignore}

theorem skip_nil (h : skip i [] ()) : i = .base := by
  by_contra hi
  refine not_ignored_open hi ?_
  rwa [skip, List.append_nil] at h

theorem spaced_behind (hP : Solid P) (h : i.step b = some i') : (spaced i P).behind b = spaced i' P := by
  have hskip : (skip i).behind b = skip i' := by
    ext t x
    exact ignored_step h
  rw [spaced, behind_andThen, hskip]
  · rfl
  · intro x hx
    rw [skip_nil hx] at h
    exact hP b (by rw [h]; rfl)

theorem spaced_behind_none (h : i.step b = none) :
    (spaced i P).behind b = if i = .base then P.behind b else nothing := by
  ext t y
  refine andThen_cons.trans ?_
  rw [or_iff_left]
  · split_ifs with hi
    · subst hi
      constructor
      · rintro ⟨-, -, hP⟩
        exact hP
      · exact fun hP => ⟨(), .nil, hP⟩
    · constructor
      · rintro ⟨x, hx, -⟩
        exact hi (skip_nil hx)
      · exact False.elim
  · rintro ⟨u, v, x, -, hskip, -⟩
    exact not_ignored_step h hskip

theorem spaced_andThen {γ : Type} (K : β → Phrases UInt8 γ) :
    (spaced i P).andThen K = spaced i (P.andThen K) := andThen_assoc ..

theorem not_spaced_nil {y : β} (h : ¬P [] y) : ¬spaced i P [] y := by
  rw [spaced, andThen_nil]
  rintro ⟨-, -, hP⟩
  exact h hP

end Spaces

/-! ## Items of a list -/

section Lists
variable {α : Type} {P : Phrases UInt8 α} {close b : UInt8}

def rest (P : Phrases UInt8 α) (close : UInt8) : Phrases UInt8 (List α) := Rest P close

def items (P : Phrases UInt8 α) (close : UInt8) : Phrases UInt8 (List α) := Items P close

/-- An item and the rest of the list. -/
def itemsFrom (P : Phrases UInt8 α) (close : UInt8) : Phrases UInt8 (List α) :=
  P.andThen fun x => spaced .base ((rest P close).map (x :: ·))

theorem rest_iff {t : Text} {xs : List α} :
    rest P close t xs ↔ (done []).after close t xs ∨ (spaced .base (itemsFrom P close)).after 44 t xs := by
  constructor
  · intro h
    cases h with
    | close => exact .inl ⟨[], rfl, rfl, rfl⟩
    | comma hw hx hw' h =>
      exact .inr ⟨_, rfl, _, _, (), rfl, hw, _, _, _, rfl, hx, _, _, (), rfl, hw', _, h, rfl⟩
  · rintro (⟨_, rfl, rfl, rfl⟩ | ⟨_, rfl, w, _, _, rfl, hw, t, _, x, rfl, hx, w', u, _, rfl, hw', xs, h, rfl⟩)
    · exact .close
    · exact .comma hw hx hw' h

theorem items_iff {t : Text} {xs : List α} :
    items P close t xs ↔ (done []).after close t xs ∨ itemsFrom P close t xs := by
  constructor
  · intro h
    cases h with
    | none => exact .inl ⟨[], rfl, rfl, rfl⟩
    | some hx hw h => exact .inr ⟨_, _, _, rfl, hx, _, _, (), rfl, hw, _, h, rfl⟩
  · rintro (⟨_, rfl, rfl, rfl⟩ | ⟨t, _, x, rfl, hx, w, u, _, rfl, hw, xs, h, rfl⟩)
    · exact .none
    · exact .some hx hw h

theorem not_rest_nil {xs : List α} : ¬rest P close [] xs := by
  intro h
  cases h

theorem rest_close (h : close ≠ 44) : (rest P close).behind close = done [] := by
  ext t xs
  refine rest_iff.trans ((or_iff_left ?_).trans ?_)
  · rintro ⟨u, hu, -⟩
    exact h (List.cons.inj hu).1
  · exact iff_of_eq (congrFun (congrFun (behind_after (a := close) (done [])) t) xs)

theorem rest_comma (h : close ≠ 44) : (rest P close).behind 44 = spaced .base (itemsFrom P close) := by
  ext t xs
  refine rest_iff.trans ((or_iff_right ?_).trans ?_)
  · rintro ⟨u, hu, -⟩
    exact h (List.cons.inj hu).1.symm
  · exact iff_of_eq (congrFun (congrFun (behind_after (a := 44) (spaced .base (itemsFrom P close))) t) xs)

theorem rest_other (hclose : b ≠ close) (hcomma : b ≠ 44) : (rest P close).behind b = nothing := by
  ext t xs
  refine rest_iff.trans (iff_of_false ?_ id)
  rintro (⟨u, hu, -⟩ | ⟨u, hu, -⟩)
  · exact hclose (List.cons.inj hu).1
  · exact hcomma (List.cons.inj hu).1

theorem items_close (h : P.behind close = nothing) (hnil : ∀ x, ¬P [] x) :
    (items P close).behind close = done [] := by
  ext t xs
  refine items_iff.trans ((or_iff_left ?_).trans ?_)
  · rw [show itemsFrom P close (close :: t) xs ↔ (itemsFrom P close).behind close t xs from Iff.rfl,
      itemsFrom, behind_andThen fun x hx => absurd hx (hnil x), h, nothing_andThen]
    exact id
  · exact iff_of_eq (congrFun (congrFun (behind_after (a := close) (done [])) t) xs)

theorem items_open (h : b ≠ close) : (items P close).behind b = (itemsFrom P close).behind b := by
  ext t xs
  refine items_iff.trans (or_iff_right ?_)
  rintro ⟨u, hu, -⟩
  exact h (List.cons.inj hu).1

theorem not_items_nil (hnil : ∀ x, ¬P [] x) {xs : List α} : ¬items P close [] xs := by
  intro h
  rcases items_iff.mp h with ⟨_, h, -⟩ | h
  · cases h
  · obtain ⟨x, hx, -⟩ := andThen_nil.mp h
    exact hnil x hx

/-! ## A list, and what depends on it -/

variable {β : Type} (M : List α → Phrases UInt8 β)

/-- The rest of a list with one more item. -/
def onward (P : Phrases UInt8 α) (close : UInt8) (M : List α → Phrases UInt8 β) : Phrases UInt8 β :=
  P.andThen fun x => spaced .base ((rest P close).andThen fun xs => M (x :: xs))

theorem itemsFrom_andThen : (itemsFrom P close).andThen M = onward P close M := by
  rw [itemsFrom, andThen_assoc]
  simp only [spaced_andThen, map_andThen]
  rfl

theorem rest_andThen_behind : ((rest P close).andThen M).behind b = ((rest P close).behind b).andThen M :=
  behind_andThen fun _ h => absurd h not_rest_nil

theorem rest_andThen_close (h : close ≠ 44) : ((rest P close).andThen M).behind close = M [] := by
  rw [rest_andThen_behind, rest_close h, done_andThen]

theorem rest_andThen_comma (h : close ≠ 44) :
    ((rest P close).andThen M).behind 44 = spaced .base (onward P close M) := by
  rw [rest_andThen_behind, rest_comma h, spaced_andThen, itemsFrom_andThen]

theorem rest_andThen_other (hclose : b ≠ close) (hcomma : b ≠ 44) :
    ((rest P close).andThen M).behind b = nothing := by
  rw [rest_andThen_behind, rest_other hclose hcomma, nothing_andThen]

theorem items_andThen_close (h : P.behind close = nothing) (hnil : ∀ x, ¬P [] x) :
    ((items P close).andThen M).behind close = M [] := by
  rw [behind_andThen fun _ h => absurd h (not_items_nil hnil), items_close h hnil, done_andThen]

theorem items_andThen_open (h : b ≠ close) (hnil : ∀ x, ¬P [] x) :
    ((items P close).andThen M).behind b = (onward P close M).behind b := by
  rw [behind_andThen fun _ h => absurd h (not_items_nil hnil), items_open h, ← itemsFrom_andThen,
    behind_andThen fun _ h => ?_]
  obtain ⟨x, hx, -⟩ := andThen_nil.mp h
  exact absurd hx (hnil x)

end Lists

/-! ## Values -/

/-- The rest of a literal. -/
def literalLeft (l : Literal) (rest : Text) : Phrases UInt8 Value := fun t x => t = rest ∧ x = l.value

/-- The rest of a number from this place, behind `mark`. -/
def number (n : NumberState) (mark : Text) : Phrases UInt8 Value :=
  fun t x => numberLeft n t ∧ x = .number (kept (mark ++ t))

def quotedFrom : QuoteState → Text → Phrases UInt8 Text
  | .start, _ => (quoted .body []).after 34
  | q, mark => quoted q mark

def opened : Phrases UInt8 Value := (items JsonValue 93).map .array

/-- The rest of an array behind an element, with the elements so far. -/
def elements (a : List Value) : Phrases UInt8 Value := (rest JsonValue 93).map fun xs => .array (a ++ xs)

/-- The map with more fields. -/
def putAll (o fields : List (Text × Value)) : List (Text × Value) :=
  fields.foldl (fun o f => mapInsert f.1 f.2 o) o

def openedObject : Phrases UInt8 Value := (items JsonField 125).map fun fs => .object (putAll [] fs)

/-- The rest of an object behind a field, with the map so far. -/
def fields (o : List (Text × Value)) : Phrases UInt8 Value :=
  (rest JsonField 125).map fun fs => .object (putAll o fs)

theorem jsonValue_iff {t : Text} {x : Value} : JsonValue t x ↔
    (∃ l, literalLeft l (literalText l) t x) ∨ number .start [] t x ∨
      (quotedFrom .start []).map .string t x ∨ (spaced .base opened).after 91 t x ∨
        (spaced .base openedObject).after 123 t x := by
  constructor
  · intro h
    cases h with
    | literal l => exact .inl ⟨l, rfl, rfl⟩
    | number h =>
      obtain ⟨ht, rfl⟩ := isNumber_iff.mp h
      exact .inr (.inl ⟨ht, rfl⟩)
    | string h => exact .inr (.inr (.inl ⟨_, ⟨_, rfl, _, rfl, h, rfl⟩, rfl⟩))
    | array hw h => exact .inr (.inr (.inr (.inl ⟨_, rfl, _, _, (), rfl, hw, _, h, rfl⟩)))
    | object hw h ho =>
      exact .inr (.inr (.inr (.inr ⟨_, rfl, _, _, (), rfl, hw, _, h, congrArg _ (maps_iff.mp ho)⟩)))
  · rintro (⟨l, rfl, rfl⟩ | ⟨ht, rfl⟩ | ⟨_, ⟨_, rfl, _, rfl, h, rfl⟩, rfl⟩ |
      ⟨_, rfl, _, _, _, rfl, hw, _, h, rfl⟩ | ⟨_, rfl, _, _, _, rfl, hw, _, h, rfl⟩)
    · exact .literal l
    · exact .number (isNumber_iff.mpr ⟨ht, rfl⟩)
    · exact .string h
    · exact .array hw h
    · exact .object hw h (maps_iff.mpr rfl)

def literalHead : Literal → UInt8
  | .null => 110
  | .false => 102
  | .true => 116
  | .nan => 78
  | .infinity => 73

theorem literalText_eq (l : Literal) : literalText l = literalHead l :: JsonBoth.tail l := by
  cases l <;> rfl

theorem number_head {b : UInt8} {t : Text} {x : Value} (h : number .start [] (b :: t) x) :
    b = 45 ∨ isDigit b = true := by
  obtain ⟨n', hn, -⟩ := numberLeft_cons.mp h.1
  simp only [numberNext] at hn
  split_ifs at hn with hminus hzero hdigit
  · exact .inl hminus
  · exact .inr (by rw [hzero]; rfl)
  · exact .inr hdigit

section First
variable {b : UInt8} {t : Text} {x : Value}

theorem literal_head {l : Literal} (h : literalLeft l (literalText l) (b :: t) x) : b = literalHead l := by
  rw [literalText_eq] at h
  exact (List.cons.inj h.1).1

theorem after_head {α : Type} {c : UInt8} {P : Phrases UInt8 α} {y : α} (h : P.after c (b :: t) y) :
    b = c := by
  obtain ⟨u, hu, -⟩ := h
  exact (List.cons.inj hu).1

theorem quoted_head (h : (quotedFrom .start []).map .string (b :: t) x) : b = 34 := by
  obtain ⟨s, hs, -⟩ := h
  exact after_head hs

theorem literal_behind (l : Literal) :
    JsonValue.behind (literalHead l) = literalLeft l (JsonBoth.tail l) := by
  ext t x
  refine jsonValue_iff.trans ⟨?_, ?_⟩
  · rintro (⟨l', h⟩ | h | h | h | h)
    · have hl : l = l' := by
        have := literal_head h
        revert this
        cases l <;> cases l' <;> decide
      subst hl
      rw [literalText_eq] at h
      exact ⟨(List.cons.inj h.1).2, h.2⟩
    · have := number_head h
      cases l <;> exact absurd this (by decide)
    · have := quoted_head h
      cases l <;> exact absurd this (by decide)
    · have := after_head h
      cases l <;> exact absurd this (by decide)
    · have := after_head h
      cases l <;> exact absurd this (by decide)
  · rintro ⟨rfl, rfl⟩
    exact .inl ⟨l, (literalText_eq l).symm, rfl⟩

/-- What is left of a value behind its first byte, as in `beginValue`. -/
theorem jsonValue_behind (b : UInt8) : JsonValue.behind b =
    if b = 110 then literalLeft .null (JsonBoth.tail .null)
    else if b = 102 then literalLeft .false (JsonBoth.tail .false)
    else if b = 116 then literalLeft .true (JsonBoth.tail .true)
    else if b = 78 then literalLeft .nan (JsonBoth.tail .nan)
    else if b = 73 then literalLeft .infinity (JsonBoth.tail .infinity)
    else if b = 45 ∨ isDigit b then (number .start []).behind b
    else if b = 34 then ((quotedFrom .start []).map .string).behind b
    else if b = 91 then ((spaced .base opened).after 91).behind b
    else if b = 123 then ((spaced .base openedObject).after 123).behind b
    else nothing := by
  split_ifs with hnull hfalse htrue hnan hinfinity hnumber hquote harray hobject
  · exact hnull ▸ literal_behind .null
  · exact hfalse ▸ literal_behind .false
  · exact htrue ▸ literal_behind .true
  · exact hnan ▸ literal_behind .nan
  · exact hinfinity ▸ literal_behind .infinity
  all_goals
    ext t x
    refine jsonValue_iff.trans ?_
    rw [or_iff_right (a := ∃ l, literalLeft l (literalText l) (b :: t) x) (by
      rintro ⟨l, h⟩
      have := literal_head h
      cases l <;> contradiction)]
  · refine or_iff_left ?_
    rintro (h | h | h)
    · rw [quoted_head h] at hnumber
      exact absurd hnumber (by decide)
    · rw [after_head h] at hnumber
      exact absurd hnumber (by decide)
    · rw [after_head h] at hnumber
      exact absurd hnumber (by decide)
  all_goals rw [or_iff_right fun h => hnumber (number_head h)]
  · refine or_iff_left ?_
    rintro (h | h)
    · exact absurd (hquote.symm.trans (after_head h)) (by decide)
    · exact absurd (hquote.symm.trans (after_head h)) (by decide)
  all_goals rw [or_iff_right fun h => hquote (quoted_head h)]
  · exact or_iff_left fun h => absurd (harray.symm.trans (after_head h)) (by decide)
  all_goals rw [or_iff_right fun h => harray (after_head h)]
  · rfl
  · exact iff_of_false (fun h => hobject (after_head h)) id

end First

/-! ## No value is empty, and none begins with white space -/

section Solid
variable {β : Type} {b : UInt8}

theorem not_jsonValue_nil {x : Value} : ¬JsonValue [] x := by
  intro h
  rcases jsonValue_iff.mp h with ⟨l, h, -⟩ | ⟨h, -⟩ | ⟨_, ⟨_, h, -⟩, -⟩ | ⟨_, h, -⟩ | ⟨_, h, -⟩
  · rw [literalText_eq] at h
    cases h
  · rw [numberLeft_nil] at h
    cases h
  all_goals cases h

theorem jsonValue_solid : Solid JsonValue := by
  intro b hb
  rw [jsonValue_behind]
  rcases JsonBoth.isSome_iff.mp hb with rfl | rfl | rfl | rfl | rfl <;> rfl

theorem jsonValue_other (h : isBeginValue b = false) : JsonValue.behind b = nothing := by
  simp only [isBeginValue, List.mem_cons, List.not_mem_nil, or_false, decide_eq_false_iff_not,
    not_or] at h
  simp [jsonValue_behind, h]

theorem jsonValue_andThen_behind (K : Value → Phrases UInt8 β) :
    (JsonValue.andThen K).behind b = (JsonValue.behind b).andThen K :=
  behind_andThen fun _ hx => absurd hx not_jsonValue_nil

theorem solid_andThen {α : Type} {P : Phrases UInt8 α} (hP : Solid P) (hnil : ∀ x, ¬P [] x)
    (K : α → Phrases UInt8 β) : Solid (P.andThen K) := by
  intro b hb
  rw [behind_andThen fun x hx => absurd hx (hnil x), hP b hb, nothing_andThen]

/-- A byte that is not of `ignore*`. -/
def IsSolid (c : UInt8) : Prop := (Ignore.base.step c).isSome = false

theorem solid_ne {c : UInt8} (hc : IsSolid c) (hb : (Ignore.base.step b).isSome) : b ≠ c := by
  rintro rfl
  rw [IsSolid, hb] at hc
  cases hc

theorem solid_after {P : Phrases UInt8 β} {c : UInt8} (hc : IsSolid c) : Solid (P.after c) :=
  fun _ hb => behind_after_ne (solid_ne hc hb) P

theorem rest_solid {P : Phrases UInt8 β} {close : UInt8} (hclose : IsSolid close) :
    Solid (rest P close) :=
  fun _ hb => rest_other (solid_ne hclose hb) (solid_ne rfl hb)

theorem items_solid {P : Phrases UInt8 β} {close : UInt8} (hclose : IsSolid close) (hP : Solid P)
    (hnil : ∀ x, ¬P [] x) : Solid (items P close) := by
  intro b hb
  rw [items_open (solid_ne hclose hb)]
  exact solid_andThen hP hnil _ b hb

end Solid

/-! ## Fields -/

theorem jsonField_eq : JsonField = (quotedFrom .start []).andThen fun k =>
    spaced .base ((spaced .base (JsonValue.map (k, ·))).after 58) := by
  ext t f
  constructor
  · intro h
    cases h with
    | mk hname hw hw' h =>
      refine ⟨34 :: (_ ++ [34]), _, _, ?_, ⟨_, rfl, _, rfl, hname, rfl⟩, _, _, (), rfl, hw, _, rfl, _, _, (),
        rfl, hw', _, h, rfl⟩
      simp
  · rintro ⟨_, _, _, rfl, ⟨_, rfl, name, rfl, hname, rfl⟩, w, _, _, rfl, hw, _, rfl, w', u, _, rfl, hw', x, h,
      rfl⟩
    have := Field.mk hname hw hw' h
    simpa [JsonField, seen] using this

theorem not_jsonField_nil {f : Text × Value} : ¬JsonField [] f := by
  rw [jsonField_eq, andThen_nil]
  rintro ⟨_, ⟨_, h, -⟩, -⟩
  cases h

theorem jsonField_behind {b : UInt8} (h : b ≠ 34) : JsonField.behind b = nothing := by
  ext t f
  refine iff_of_false ?_ id
  intro hf
  rw [jsonField_eq] at hf
  obtain ⟨u, v, k, hu, ⟨u', rfl, -⟩, -⟩ := hf
  exact h (List.cons.inj hu).1

theorem jsonField_solid : Solid JsonField := fun _ hb => jsonField_behind (solid_ne rfl hb)

theorem jsonField_andThen {β : Type} (K : Text × Value → Phrases UInt8 β) :
    JsonField.andThen K = (quotedFrom .start []).andThen fun k =>
      spaced .base ((spaced .base (JsonValue.andThen fun x => K (k, x))).after 58) := by
  rw [jsonField_eq, andThen_assoc]
  simp only [spaced_andThen, after_andThen, map_andThen]

end Netp.Parse.JsonGrammar
