import Netp.Parse.JsonLeft

/-! # What the JSON parser expects

`Expects` is what a configuration of `JSON_tree` still takes, and the value it then gives: the rest of the
value that is being read, and what the calls on the stack do with it (`Below`). A transition goes on with
what is left behind the byte, or nothing is left and it is an error (`Goes`).
-/

namespace Netp.Parse.JsonGrammar
open Netp.Lib Netp.Parse.Json Phrases
open JsonParse (mapInsert Slot)
set_option autoImplicit false

/-- What comes behind the value that is being read, by the states to return to and the slots below. -/
inductive Below : List JsonParse.State → List Slot → (Value → Phrases UInt8 Value) → Prop
  | last : Below [.last] [] fun x => (done x).after 0
  | element {fs : List JsonParse.State} {slots : List Slot} {K : Value → Phrases UInt8 Value}
      (a : List Value) (h : Below fs slots K) : Below (.array .element .base :: .valueEnd :: fs)
        (.array a :: slots) fun x => spaced .base ((elements (a ++ [x])).andThen K)
  | field {fs : List JsonParse.State} {slots : List Slot} {K : Value → Phrases UInt8 Value}
      (o : List (Text × Value)) (key : Text) (h : Below fs slots K) :
      Below (.object .field .base :: .valueEnd :: fs) (.object o key :: slots)
        fun x => spaced .base ((fields (mapInsert key x o)).andThen K)

/-- The same inside a value that has a submachine of its own. -/
def Inside (stack : List JsonParse.State) (slots : List Slot) (K : Value → Phrases UInt8 Value) : Prop :=
  ∃ fs, stack = .valueEnd :: fs ∧ Below fs slots K

/-- The value of a field, and what comes behind. -/
def fieldValue (o : List (Text × Value)) (key : Text) (K : Value → Phrases UInt8 Value) :
    Phrases UInt8 Value :=
  JsonValue.andThen fun x => spaced .base ((fields (mapInsert key x o)).andThen K)

/-- The colon of a field, and what comes behind. -/
def colonValue (o : List (Text × Value)) (key : Text) (K : Value → Phrases UInt8 Value) :
    Phrases UInt8 Value :=
  (spaced .base (fieldValue o key K)).after 58

/-- What is still to be read, and what it says. -/
def Expects (j : JsonParse) (L : Phrases UInt8 Value) : Prop :=
  match j.cs with
  | .start => j.stack = [] ∧ j.vs = [] ∧
      L = spaced .base (JsonValue.andThen fun x => (done x).after 0)
  | .last => ∃ x, j.root = some x ∧ L = (done x).after 0
  | .final => ∃ x, j.root = some x ∧ L = done x
  | .value i => ∃ slots K, j.vs = .empty :: slots ∧ Below j.stack slots K ∧
      L = spaced i (JsonValue.andThen K)
  | .literal l rest => rest ≠ [] ∧ ∃ slots K, j.vs = .empty :: slots ∧ Below j.stack slots K ∧
      L = (literalLeft l rest).andThen K
  | .valueEnd => ∃ slot slots x K, j.vs = slot :: slots ∧ slot.close = some x ∧ Below j.stack slots K ∧
      L = K x
  | .number .start => ∃ slots K, j.vs = .empty :: slots ∧ Inside j.stack slots K ∧
      L = (number .start []).andThen K
  | .number n => ∃ slots K, j.vs = .empty :: slots ∧ Inside j.stack slots K ∧
      j.dot = decide (46 ∈ j.mark) ∧ j.exp = j.mark.any isE ∧ L = (number n j.mark).andThen K
  | .string q => ∃ slots K, j.vs = .empty :: slots ∧ Inside j.stack slots K ∧
      L = (quotedFrom q j.mark).andThen fun s => K (.string s)
  | .name q => ∃ slots K stack o key, j.vs = .object o key :: slots ∧
      j.stack = .object .named .base :: stack ∧ Inside stack slots K ∧
        L = (quotedFrom q j.mark).andThen fun k => spaced .base (colonValue o k K)
  | .array .start _ => ∃ slots K, j.vs = .empty :: slots ∧ Inside j.stack slots K ∧
      L = (spaced .base (opened.andThen K)).after 91
  | .array .opened i => ∃ slots K, j.vs = .array [] :: slots ∧ Inside j.stack slots K ∧
      L = spaced i (opened.andThen K)
  | .array .element i => ∃ slots K a, j.vs = .array a :: slots ∧ Inside j.stack slots K ∧
      L = spaced i ((elements a).andThen K)
  | .array .comma i => ∃ slots K a, j.vs = .array a :: slots ∧ Inside j.stack slots K ∧
      L = spaced i (JsonValue.andThen fun x => spaced .base ((elements (a ++ [x])).andThen K))
  | .object .start _ => ∃ slots K, j.vs = .empty :: slots ∧ Inside j.stack slots K ∧
      L = (spaced .base (openedObject.andThen K)).after 123
  | .object .opened i => ∃ slots K key, j.vs = .object [] key :: slots ∧ Inside j.stack slots K ∧
      L = spaced i (openedObject.andThen K)
  | .object .named i => ∃ slots K o key, j.vs = .object o key :: slots ∧ Inside j.stack slots K ∧
      L = spaced i (colonValue o j.name K)
  | .object .colon i => ∃ slots K o key, j.vs = .empty :: .object o key :: slots ∧
      Inside j.stack slots K ∧ L = spaced i (fieldValue o key K)
  | .object .field i => ∃ slots K o key, j.vs = .object o key :: slots ∧ Inside j.stack slots K ∧
      L = spaced i ((fields o).andThen K)
  | .object .comma i => ∃ slots K o key, j.vs = .object o key :: slots ∧ Inside j.stack slots K ∧
      L = spaced i (JsonField.andThen fun f =>
        spaced .base ((fields (mapInsert f.1 f.2 o)).andThen K))

/-- A transition goes on with what is left behind the byte, or nothing is and it is an error. -/
def Goes (cs : JsonParse.State) (L : Phrases UInt8 Value) (b : UInt8) (m : JsonParse.Move) : Prop :=
  (m.json.error = true ∧ L.behind b = nothing) ∨
    (m.json.error = false ∧ (m.hold = true → JsonBoth.rank m.json.cs < JsonBoth.rank cs) ∧
      ∃ L', Expects m.json L' ∧ L.behind b = if m.hold then L'.behind b else L')

variable {j : JsonParse} {b : UInt8} {L : Phrases UInt8 Value} {cs : JsonParse.State}
  {slots : List Slot} {K : Value → Phrases UInt8 Value}

theorem Goes.fail (h : L.behind b = nothing) : Goes cs L b j.fail := .inl ⟨rfl, h⟩

theorem Goes.step {m : JsonParse.Move} (hgood : m.json.error = false) (hhold : m.hold = false)
    (h : Expects m.json (L.behind b)) : Goes cs L b m := by
  refine .inr ⟨hgood, ?_, _, h, ?_⟩
  · rw [hhold]
    exact Bool.noConfusion
  · rw [hhold]
    rfl

theorem Goes.held {m : JsonParse.Move} {L' : Phrases UInt8 Value} (hgood : m.json.error = false)
    (hhold : m.hold = true) (hrank : JsonBoth.rank m.json.cs < JsonBoth.rank cs) (h : Expects m.json L')
    (hL : L.behind b = L'.behind b) : Goes cs L b m := by
  refine .inr ⟨hgood, fun _ => hrank, L', h, ?_⟩
  rw [hhold]
  exact hL

theorem ignoring_goes {i : Ignore} {P : Phrases UInt8 Value} {place : Ignore → JsonParse.State}
    {other : JsonParse.Move} (hgood : j.error = false) (hP : Solid P)
    (hplace : ∀ i, Expects { j with cs := place i } (spaced i P)) (hother : i = .base → Goes cs P b other) :
    Goes cs (spaced i P) b (j.ignoring i b place other) := by
  unfold JsonParse.ignoring
  cases h : i.step b with
  | some i' =>
    refine .step hgood rfl ?_
    rw [spaced_behind hP h]
    exact hplace i'
  | none =>
    have hleft := spaced_behind_none (P := P) h
    by_cases hi : i = .base
    · rw [if_pos hi] at hleft
      simp only [if_pos hi]
      rw [Goes, hleft]
      exact hother hi
    · rw [if_neg hi] at hleft
      simp only [if_neg hi]
      exact .fail hleft

/-! ## The submachines -/

theorem beginValue_goes (hgood : j.error = false) (hvs : j.vs = .empty :: slots)
    (hbelow : Below j.stack slots K) :
    Goes (.value .base) (JsonValue.andThen K) b (j.beginValue b) := by
  have hL := jsonValue_andThen_behind (b := b) K
  rw [jsonValue_behind] at hL
  have hliteral {l : JsonParse.Literal} {rest : Text} (hrest : rest ≠ [])
      (hL : (JsonValue.andThen K).behind b = (literalLeft l rest).andThen K) :
      Goes (.value .base) (JsonValue.andThen K) b (j.goto (.literal l rest)) :=
    .step hgood rfl ⟨hrest, slots, K, hvs, hbelow, hL⟩
  have hinside : Inside (.valueEnd :: j.stack) slots K := ⟨j.stack, rfl, hbelow⟩
  unfold JsonParse.beginValue
  split_ifs at hL ⊢ with hnull hfalse htrue hnan hinfinity hnumber hquote harray hobject
  · exact hliteral (by decide) hL
  · exact hliteral (by decide) hL
  · exact hliteral (by decide) hL
  · exact hliteral (by decide) hL
  · exact hliteral (by decide) hL
  · refine .held hgood rfl (Nat.lt_succ_self 1) ⟨slots, K, hvs, hinside, rfl⟩ ?_
    rw [hL, behind_andThen fun x hx => absurd (numberLeft_nil.mp hx.1) (by decide)]
  · refine .held hgood rfl (Nat.lt_succ_self 1) ⟨slots, K, hvs, hinside, rfl⟩ ?_
    rw [hL, behind_map, map_andThen, behind_andThen]
    · rfl
    · rintro s ⟨u, h, -⟩
      cases h
  · refine .held hgood rfl (Nat.lt_succ_self 1) ⟨slots, K, hvs, hinside, rfl⟩ ?_
    rw [hL, harray, behind_after, behind_after, spaced_andThen]
  · refine .held hgood rfl (Nat.lt_succ_self 1) ⟨slots, K, hvs, hinside, rfl⟩ ?_
    rw [hL, hobject, behind_after, behind_after, spaced_andThen]
  · rw [nothing_andThen] at hL
    exact .fail hL

theorem literalStep_goes {l : JsonParse.Literal} {rest : Text} (hgood : j.error = false)
    (hvs : j.vs = .empty :: slots) (hbelow : Below j.stack slots K) (hrest : rest ≠ []) :
    Goes cs ((literalLeft l rest).andThen K) b (j.literalStep l rest b) := by
  have hL : ((literalLeft l rest).andThen K).behind b = ((literalLeft l rest).behind b).andThen K :=
    behind_andThen fun x hx => absurd hx.1.symm hrest
  have hfail {c : UInt8} {cs : Text} (hb : b ≠ c) : (literalLeft l (c :: cs)).behind b = nothing := by
    ext t x
    exact iff_of_false (fun h => hb (List.cons.inj h.1).1) id
  have hnext {c : UInt8} {cs : Text} (hb : b = c) :
      (literalLeft l (c :: cs)).behind b = literalLeft l cs := by
    ext t x
    simp [behind, literalLeft, hb]
  unfold JsonParse.literalStep
  match rest with
  | [] => exact absurd rfl hrest
  | [c] =>
    simp only
    split_ifs with hb
    · refine .step hgood rfl ⟨.value l.value, slots, l.value, K, ?_, rfl, hbelow, ?_⟩
      · rw [JsonParse.goto, JsonParse.setVt, hvs]
        rfl
      · rw [hL, hnext hb]
        exact done_andThen l.value K
    · rw [hfail hb, nothing_andThen] at hL
      exact .fail hL
  | c :: d :: cs =>
    simp only
    split_ifs with hb
    · refine .step hgood rfl ⟨List.cons_ne_nil d cs, slots, K, hvs, hbelow, ?_⟩
      rw [hL, hnext hb]
    · rw [hfail hb, nothing_andThen] at hL
      exact .fail hL

theorem valueEnd_goes {slot : Slot} {x : Value} (hcs : j.cs = .valueEnd) (hgood : j.error = false)
    (hvs : j.vs = slot :: slots) (hclose : slot.close = some x) (hbelow : Below j.stack slots K) :
    Goes .valueEnd (K x) b (j.trans b) := by
  obtain ⟨cs, stack, error, mark, name, dot, exp, vs, root⟩ := j
  subst hcs hvs
  simp only [JsonParse.trans, JsonParse.popVt]
  cases hbelow with
  | last =>
    simp only [hclose, Option.map_some, JsonParse.fret]
    exact .held hgood rfl (Nat.lt_succ_self 1) ⟨x, rfl, rfl⟩ rfl
  | element a h =>
    simp only [hclose, Option.bind_some, Slot.put, Option.map_some, JsonParse.fret]
    exact .held hgood rfl (Nat.lt_succ_self 1) ⟨_, _, _, rfl, ⟨_, rfl, h⟩, rfl⟩ rfl
  | field o key h =>
    simp only [hclose, Option.bind_some, Slot.put, Option.map_some, JsonParse.fret]
    exact .held hgood rfl (Nat.lt_succ_self 1) ⟨_, _, _, _, rfl, ⟨_, rfl, h⟩, rfl⟩ rfl

theorem elements_other {a : List Value} (hclose : b ≠ 93) (hcomma : b ≠ 44) :
    (elements a).behind b = nothing := by
  rw [elements, behind_map, rest_other hclose hcomma]
  ext t x
  exact iff_of_false (fun ⟨_, h, _⟩ => h) id

theorem fields_other {o : List (Text × Value)} (hclose : b ≠ 125) (hcomma : b ≠ 44) :
    (fields o).behind b = nothing := by
  rw [fields, behind_map, rest_other hclose hcomma]
  ext t x
  exact iff_of_false (fun ⟨_, h, _⟩ => h) id

theorem elements_andThen_behind (a : List Value) (K : Value → Phrases UInt8 Value) :
    ((elements a).andThen K).behind b = ((elements a).behind b).andThen K :=
  behind_andThen fun _ ⟨_, h, _⟩ => absurd h not_rest_nil

theorem fields_andThen_behind (o : List (Text × Value)) (K : Value → Phrases UInt8 Value) :
    ((fields o).andThen K).behind b = ((fields o).behind b).andThen K :=
  behind_andThen fun _ ⟨_, h, _⟩ => absurd h not_rest_nil

/-- A byte that is part of numbers. -/
def isNumberByte (b : UInt8) : Bool := b = 46 ∨ isE b ∨ isDigit b

theorem ne_of_isNumberByte {c : UInt8} (hb : isNumberByte b = true) (hc : isNumberByte c = false) : b ≠ c := by
  rintro rfl
  rw [hb] at hc
  cases hc

theorem Below.not_number {x : Value} {stack : List JsonParse.State} (h : Below stack slots K) (hb : isNumberByte b = true) :
    (K x).behind b = nothing := by
  have hspace : Ignore.base.step b = none := by
    rw [← Option.not_isSome_iff_eq_none]
    intro h
    rcases JsonBoth.isSome_iff.mp h with rfl | rfl | rfl | rfl | rfl <;> cases hb
  have hne {c : UInt8} (hc : isNumberByte c = false) : b ≠ c := ne_of_isNumberByte hb hc
  cases h with
  | last => exact behind_after_ne (hne rfl) _
  | element a h =>
    rw [spaced_behind_none hspace, if_pos rfl, elements_andThen_behind, elements_other (hne rfl) (hne rfl),
      nothing_andThen]
  | field o key h =>
    rw [spaced_behind_none hspace, if_pos rfl, fields_andThen_behind, fields_other (hne rfl) (hne rfl),
      nothing_andThen]

theorem Below.not_nil {x y : Value} {stack : List JsonParse.State} (h : Below stack slots K) :
    ¬K x [] y := by
  cases h with
  | last => exact fun ⟨_, h, _⟩ => by cases h
  | element a h =>
    refine not_spaced_nil ?_
    rw [andThen_nil]
    rintro ⟨_, ⟨_, h, -⟩, -⟩
    exact not_rest_nil h
  | field o key h =>
    refine not_spaced_nil ?_
    rw [andThen_nil]
    rintro ⟨_, ⟨_, h, -⟩, -⟩
    exact not_rest_nil h

/-! ## Numbers -/

theorem number_behind {n n' : NumberState} {mark : Text} (h : numberNext n b = some n') :
    (number n mark).behind b = number n' (mark ++ [b]) := by
  ext t x
  rw [show (number n mark).behind b t x ↔
    numberLeft n (b :: t) ∧ x = .number (kept (mark ++ b :: t)) from Iff.rfl, numberLeft_cons, h]
  simp [number]

theorem number_behind_none {n : NumberState} {mark : Text} (h : numberNext n b = none) :
    (number n mark).behind b = nothing := by
  ext t x
  refine iff_of_false ?_ id
  rintro ⟨hleft, -⟩
  obtain ⟨n', hn, -⟩ := numberLeft_cons.mp hleft
  rw [h] at hn
  cases hn

theorem numberStep_next {n n' : NumberState} (hn : n ≠ .start) (h : numberNext n b = some n') :
    j.numberStep n b = JsonParse.goto { j with
      mark := j.mark ++ [b], dot := j.dot || b = 46, exp := j.exp || isE b } (.number n') := by
  have hdot : isE 46 = false := rfl
  have hE (h : isE b = true) : b ≠ 46 := by
    rintro rfl
    cases h
  cases n with
  | start => exact absurd rfl hn
  | minus =>
    simp only [numberNext] at h
    split_ifs at h with hzero hdigit <;> cases h
    · simp [JsonParse.numberStep, hzero, isE]
    · simp [JsonParse.numberStep, hzero, hdigit, isDigit_ne b hdigit]
  | zero =>
    simp only [numberNext] at h
    split_ifs at h with hpoint he <;> cases h
    · simp [JsonParse.numberStep, hpoint, hdot]
    · simp [JsonParse.numberStep, hE he, he]
  | int =>
    simp only [numberNext] at h
    split_ifs at h with hpoint he hdigit <;> cases h
    · simp [JsonParse.numberStep, hpoint, hdot]
    · simp [JsonParse.numberStep, hE he, he]
    · simp [JsonParse.numberStep, hdigit, isDigit_ne b hdigit]
  | dot =>
    simp only [numberNext] at h
    split_ifs at h with hdigit
    cases h
    simp [JsonParse.numberStep, hdigit, isDigit_ne b hdigit]
  | frac =>
    simp only [numberNext] at h
    split_ifs at h with he hdigit <;> cases h
    · simp [JsonParse.numberStep, hE he, he]
    · simp [JsonParse.numberStep, hdigit, isDigit_ne b hdigit]
  | exp =>
    simp only [numberNext] at h
    split_ifs at h with hsign hdigit <;> cases h
    · rcases hsign with rfl | rfl <;> simp [JsonParse.numberStep, isE]
    · simp [JsonParse.numberStep, hsign, hdigit, isDigit_ne b hdigit]
  | sign =>
    simp only [numberNext] at h
    split_ifs at h with hdigit
    cases h
    simp [JsonParse.numberStep, hdigit, isDigit_ne b hdigit]
  | expInt =>
    simp only [numberNext] at h
    split_ifs at h with hdigit
    cases h
    simp [JsonParse.numberStep, hdigit, isDigit_ne b hdigit]

theorem numberStep_none {n : NumberState} (hn : n ≠ .start) (h : numberNext n b = none) :
    j.numberStep n b = if numberEnds n = true ∧ isNumberByte b = false then j.numberEnd else j.fail := by
  cases n with
  | start => exact absurd rfl hn
  | minus =>
    simp only [numberNext] at h
    split_ifs at h with hzero hdigit
    simp [JsonParse.numberStep, numberEnds, hzero, hdigit]
  | zero =>
    simp only [numberNext] at h
    split_ifs at h with hpoint he
    by_cases hdigit : isDigit b = true <;>
      simp [JsonParse.numberStep, numberEnds, isNumberByte, hpoint, he, hdigit]
  | int =>
    simp only [numberNext] at h
    split_ifs at h with hpoint he hdigit
    simp [JsonParse.numberStep, numberEnds, isNumberByte, hpoint, he, hdigit]
  | dot =>
    simp only [numberNext] at h
    split_ifs at h with hdigit
    simp [JsonParse.numberStep, numberEnds, hdigit]
  | frac =>
    simp only [numberNext] at h
    split_ifs at h with he hdigit
    by_cases hpoint : b = 46 <;>
      simp [JsonParse.numberStep, numberEnds, isNumberByte, hpoint, he, hdigit]
  | exp =>
    simp only [numberNext] at h
    split_ifs at h with hsign hdigit
    simp [JsonParse.numberStep, numberEnds, hsign, hdigit]
  | sign =>
    simp only [numberNext] at h
    split_ifs at h with hdigit
    simp [JsonParse.numberStep, numberEnds, hdigit]
  | expInt =>
    simp only [numberNext] at h
    split_ifs at h with hdigit
    by_cases hbad : b = 46 ∨ isE b = true <;>
      simp [JsonParse.numberStep, numberEnds, isNumberByte, hbad, hdigit]

/-- What goes on with a number that could end is a byte of numbers. -/
theorem numberNext_byte {n n' : NumberState} (hends : numberEnds n = true)
    (h : numberNext n b = some n') : isNumberByte b = true := by
  cases n <;> simp only [numberEnds, Bool.false_eq_true] at hends
  all_goals
    simp only [numberNext] at h
    split_ifs at h <;> simp [isNumberByte, *]

theorem numberNext_ne_start {n n' : NumberState} (h : numberNext n b = some n') : n' ≠ .start := by
  rintro rfl
  cases n <;> simp only [numberNext] at h <;> split_ifs at h <;> cases h

theorem expects_number {n : NumberState} (hn : n ≠ .start) (hcs : j.cs = .number n)
    (hvs : j.vs = .empty :: slots) (hin : Inside j.stack slots K) (hdot : j.dot = decide (46 ∈ j.mark))
    (hexp : j.exp = j.mark.any isE) : Expects j ((number n j.mark).andThen K) := by
  rw [Expects, hcs]
  cases n with
  | start => exact absurd rfl hn
  | _ => exact ⟨slots, K, hvs, hin, hdot, hexp, rfl⟩

theorem numberStart_goes (hgood : j.error = false) (hvs : j.vs = .empty :: slots)
    (hin : Inside j.stack slots K) : Goes cs ((number .start []).andThen K) b (j.numberStep .start b) := by
  have hL : ((number .start []).andThen K).behind b = ((number .start []).behind b).andThen K :=
    behind_andThen fun x hx => absurd (numberLeft_nil.mp hx.1) (by decide)
  have hnext {n : NumberState} (h : numberNext .start b = some n) (hb : b ≠ 46 ∧ isE b = false) :
      Goes cs ((number .start []).andThen K) b
        (JsonParse.goto { j with mark := [b], dot := false, exp := false } (.number n)) := by
    refine .step hgood rfl ?_
    rw [hL, number_behind h]
    refine expects_number (numberNext_ne_start h) rfl hvs hin ?_ ?_
    · simp [JsonParse.goto, Ne.symm hb.1]
    · simp [JsonParse.goto, hb.2]
  simp only [JsonParse.numberStep]
  split_ifs with hminus hzero hdigit
  · exact hnext (by simp [numberNext, hminus]) (by rw [hminus]; decide)
  · exact hnext (by simp [numberNext, hzero]) (by rw [hzero]; decide)
  · exact hnext (by simp [numberNext, hminus, hzero, hdigit]) (isDigit_ne b hdigit)
  · rw [number_behind_none (by simp [numberNext, hminus, hzero, hdigit]), nothing_andThen] at hL
    exact .fail hL

theorem numberStep_goes {n : NumberState} (hn : n ≠ .start) (hgood : j.error = false)
    (hvs : j.vs = .empty :: slots) (hin : Inside j.stack slots K) (hdot : j.dot = decide (46 ∈ j.mark))
    (hexp : j.exp = j.mark.any isE) :
    Goes (.number n) ((number n j.mark).andThen K) b (j.numberStep n b) := by
  obtain ⟨fs, hstack, hbelow⟩ := hin
  cases hnext : numberNext n b with
  | some n' =>
    rw [numberStep_next hn hnext]
    refine .step hgood rfl ?_
    rw [behind_andThen, number_behind hnext]
    · refine expects_number (numberNext_ne_start hnext) rfl hvs ⟨fs, hstack, hbelow⟩ ?_ ?_
      · simp [JsonParse.goto, hdot, eq_comm]
      · simp [JsonParse.goto, hexp]
    · intro x hx
      exact hbelow.not_number (numberNext_byte (numberLeft_nil.mp hx.1) hnext)
  | none =>
    -- the number ends here, and the byte is for what comes behind
    have hL {t : Text} {y : Value} : ((number n j.mark).andThen K).behind b t y ↔
        numberEnds n = true ∧ (K (.number (kept j.mark))).behind b t y := by
      refine andThen_cons.trans ?_
      rw [number_behind_none hnext, nothing_andThen]
      refine (or_iff_left id).trans ⟨?_, ?_⟩
      · rintro ⟨x, ⟨h, rfl⟩, hK⟩
        rw [List.append_nil] at hK
        exact ⟨numberLeft_nil.mp h, hK⟩
      · rintro ⟨h, hK⟩
        exact ⟨_, ⟨numberLeft_nil.mpr h, by rw [List.append_nil]⟩, hK⟩
    rw [numberStep_none hn hnext]
    split_ifs with hend
    · have hmove : j.numberEnd = ⟨{ j with
          cs := .valueEnd, stack := fs, vs := .value (.number (kept j.mark)) :: slots }, true⟩ := by
        simp [JsonParse.numberEnd, JsonParse.fret, JsonParse.setVt, hstack, hvs, trim_eq hdot hexp]
      rw [hmove]
      refine .held hgood rfl ?_ ⟨_, slots, _, K, rfl, rfl, hbelow, rfl⟩ ?_
      · cases n with
        | start => exact absurd rfl hn
        | _ => exact Nat.lt_succ_self 2
      · ext t y
        exact hL.trans (and_iff_right hend.1)
    · refine .fail ?_
      ext t y
      refine iff_of_false (fun h => ?_) id
      obtain ⟨hends, hK⟩ := hL.mp h
      rw [not_and, Bool.not_eq_false] at hend
      rw [hbelow.not_number (hend hends)] at hK
      exact hK

/-! ## Strings and names -/

theorem quotedFrom_eq {q : QuoteState} (hq : q ≠ .start) (mark : Text) :
    quotedFrom q mark = quoted q mark := by
  cases q with
  | start => exact absurd rfl hq
  | _ => rfl

theorem quoteNext_ne_start {q q' : QuoteState} (h : quoteNext q b = some q') : q' ≠ .start := by
  rintro rfl
  rcases q with _ | _ | _ | _ | n
  · cases h
  all_goals
    simp only [quoteNext] at h
    split_ifs at h
    all_goals cases h

theorem quoted_next {q q' : QuoteState} {mark : Text} (h : quoteNext q b = some q') :
    (quoted q mark).behind b = quoted q' (mark ++ [b]) := by
  ext t s
  refine quoted_cons.trans ((or_iff_right ?_).trans ?_)
  · rintro ⟨rfl, rfl, -⟩
    cases h
  · simp [h]

theorem quoted_end {mark : Text} : (quoted .body mark).behind 34 = done mark := by
  ext t s
  refine quoted_cons.trans ((or_iff_left ?_).trans ?_)
  · rintro ⟨q', h, -⟩
    cases h
  · simp [done]

theorem quoted_none {q : QuoteState} {mark : Text} (h : quoteNext q b = none)
    (hend : ¬(q = .body ∧ b = 34)) : (quoted q mark).behind b = nothing := by
  ext t s
  refine iff_of_false ?_ id
  intro hs
  rcases quoted_cons.mp hs with ⟨hq, hb, -⟩ | ⟨q', hq', -⟩
  · exact hend ⟨hq, hb⟩
  · rw [h] at hq'
    cases hq'

theorem nameStep_next {q q' : QuoteState} (h : quoteNext q b = some q') :
    j.nameStep q b = JsonParse.goto { j with mark := j.mark ++ [b] } (.name q') := by
  rcases q with _ | _ | _ | _ | n
  · cases h
  all_goals
    simp only [quoteNext] at h
    split_ifs at h <;> cases h <;> simp [JsonParse.nameStep, *]

theorem nameStep_none {q : QuoteState} (hq : q ≠ .start) (h : quoteNext q b = none)
    (hend : ¬(q = .body ∧ b = 34)) : j.nameStep q b = j.fail := by
  rcases q with _ | _ | _ | _ | n
  · exact absurd rfl hq
  all_goals
    simp only [quoteNext] at h
    split_ifs at h <;> simp_all [JsonParse.nameStep]

theorem stringStep_next {q q' : QuoteState} (h : quoteNext q b = some q') :
    j.stringStep q b = JsonParse.goto { j with mark := j.mark ++ [b] } (.string q') := by
  rcases q with _ | _ | _ | _ | n
  · cases h
  all_goals
    simp only [quoteNext] at h
    split_ifs at h <;> cases h <;> simp [JsonParse.stringStep, *]

theorem stringStep_none {q : QuoteState} (hq : q ≠ .start) (h : quoteNext q b = none)
    (hend : ¬(q = .body ∧ b = 34)) : j.stringStep q b = j.fail := by
  rcases q with _ | _ | _ | _ | n
  · exact absurd rfl hq
  all_goals
    simp only [quoteNext] at h
    split_ifs at h <;> simp_all [JsonParse.stringStep]

theorem quotedFrom_andThen_behind (q : QuoteState) (mark : Text) (M : Text → Phrases UInt8 Value) :
    ((quotedFrom q mark).andThen M).behind b = ((quotedFrom q mark).behind b).andThen M := by
  refine behind_andThen fun s hs => ?_
  cases q with
  | start =>
    obtain ⟨u, h, -⟩ := hs
    cases h
  | _ => exact absurd hs not_quoted_nil

/-- A byte in quotes, for a machine that goes through `place` and does with the text what `M` says. -/
theorem quoted_goes {q : QuoteState} {m : JsonParse.Move} {M : Text → Phrases UInt8 Value}
    (place : QuoteState → JsonParse.State) (hgood : j.error = false)
    (hexpects : ∀ mark q', Expects { j with cs := place q', mark := mark } ((quotedFrom q' mark).andThen M))
    (hstart : q = .start →
      m = if b = 34 then JsonParse.goto { j with mark := [] } (place .body) else j.fail)
    (hnext : ∀ q', quoteNext q b = some q' →
      m = JsonParse.goto { j with mark := j.mark ++ [b] } (place q'))
    (hnone : q ≠ .start → quoteNext q b = none → ¬(q = .body ∧ b = 34) → m = j.fail)
    (hend : q = .body → b = 34 → m.json.error = false ∧ m.hold = false ∧ Expects m.json (M j.mark)) :
    Goes cs ((quotedFrom q j.mark).andThen M) b m := by
  have hL := quotedFrom_andThen_behind (b := b) q j.mark M
  by_cases hq : q = .start
  · subst hq
    rw [hstart rfl]
    by_cases hb : b = 34
    · rw [if_pos hb]
      refine .step hgood rfl ?_
      rw [hL, hb, quotedFrom, behind_after]
      exact hexpects [] .body
    · rw [if_neg hb]
      rw [quotedFrom, behind_after_ne hb, nothing_andThen] at hL
      exact .fail hL
  · rw [quotedFrom_eq hq] at hL ⊢
    cases hq' : quoteNext q b with
    | some q' =>
      rw [hnext q' hq']
      refine .step hgood rfl ?_
      rw [hL, quoted_next hq', ← quotedFrom_eq (quoteNext_ne_start hq')]
      exact hexpects _ q'
    | none =>
      by_cases hlast : q = .body ∧ b = 34
      · obtain ⟨rfl, rfl⟩ := hlast
        obtain ⟨hgood', hhold, hbehind⟩ := hend rfl rfl
        refine .step hgood' hhold ?_
        rw [hL, quoted_end, done_andThen]
        exact hbehind
      · rw [hnone hq hq' hlast]
        rw [quoted_none hq' hlast, nothing_andThen] at hL
        exact .fail hL

theorem stringStep_goes {q : QuoteState} (hgood : j.error = false) (hvs : j.vs = .empty :: slots)
    (hin : Inside j.stack slots K) :
    Goes cs ((quotedFrom q j.mark).andThen fun s => K (.string s)) b (j.stringStep q b) := by
  refine quoted_goes .string hgood (fun mark q' => ⟨slots, K, hvs, hin, rfl⟩) ?_
    (fun q' => stringStep_next) stringStep_none ?_
  · rintro rfl
    rfl
  · rintro rfl rfl
    obtain ⟨fs, hstack, hbelow⟩ := hin
    have hmove : j.stringStep .body 34 = ⟨{ j with
        cs := .valueEnd, stack := fs, vs := .value (.string j.mark) :: slots }, false⟩ := by
      simp [JsonParse.stringStep, JsonParse.fret, JsonParse.setVt, hstack, hvs]
    rw [hmove]
    exact ⟨hgood, rfl, _, slots, _, K, rfl, rfl, hbelow, rfl⟩

theorem nameStep_goes {q : QuoteState} {stack : List JsonParse.State} {o : List (Text × Value)} {key : Text}
    (hgood : j.error = false) (hvs : j.vs = .object o key :: slots)
    (hstack : j.stack = .object .named .base :: stack) (hin : Inside stack slots K) :
    Goes cs ((quotedFrom q j.mark).andThen fun k => spaced .base (colonValue o k K)) b (j.nameStep q b) := by
  refine quoted_goes .name hgood (fun mark q' => ⟨slots, K, stack, o, key, hvs, hstack, hin, rfl⟩) ?_
    (fun q' => nameStep_next) nameStep_none ?_
  · rintro rfl
    rfl
  · rintro rfl rfl
    have hmove : j.nameStep .body 34 = ⟨{ j with
        cs := .object .named .base, stack := stack, name := j.mark }, false⟩ := by
      simp [JsonParse.nameStep, JsonParse.fret, hstack]
    rw [hmove]
    exact ⟨hgood, rfl, slots, K, o, key, hvs, hin, rfl⟩

/-! ## Arrays -/

theorem base_step_none (hb : isBeginValue b = true) : Ignore.base.step b = none := by
  rw [← Option.not_isSome_iff_eq_none]
  intro h
  rcases JsonBoth.isSome_iff.mp h with rfl | rfl | rfl | rfl | rfl <;> cases hb

theorem ne_of_isBeginValue {c : UInt8} (hb : isBeginValue b = true) (hc : isBeginValue c = false) :
    b ≠ c := by
  rintro rfl
  rw [hb] at hc
  cases hc

theorem callValue_goes {P : Phrases UInt8 Value} {target : JsonParse.State} {slot : List Slot}
    (hgood : j.error = false) (hrank : 2 < JsonBoth.rank cs) (hb : isBeginValue b = true)
    (hbelow : Below (target :: j.stack) slot K) {j' : JsonParse}
    (hj' : j' = { j with vs := .empty :: slot }) (hP : P.behind b = (JsonValue.andThen K).behind b) :
    Goes cs P b (j'.fcall target (.value .base)) := by
  subst hj'
  refine .held hgood rfl hrank ⟨slot, K, rfl, hbelow, rfl⟩ ?_
  rw [hP, spaced_behind_none (base_step_none hb), if_pos rfl]

theorem elements_append (a : List Value) (K : Value → Phrases UInt8 Value) :
    (elements a).andThen K = (rest JsonValue 93).andThen fun xs => K (.array (a ++ xs)) :=
  map_andThen ..

theorem onward_elements (a : List Value) (K : Value → Phrases UInt8 Value) :
    onward JsonValue 93 (fun xs => K (.array (a ++ xs))) =
      JsonValue.andThen fun x => spaced .base ((elements (a ++ [x])).andThen K) := by
  simp only [onward, elements_append, List.append_assoc, List.singleton_append]

theorem fret_goes {P : Phrases UInt8 Value} {slot : Slot} {x : Value} (hgood : j.error = false)
    (hvs : j.vs = slot :: slots) (hclose : slot.close = some x) (hin : Inside j.stack slots K)
    (hP : P.behind b = K x) : Goes cs P b (j.fret false) := by
  obtain ⟨fs, hstack, hbelow⟩ := hin
  have hmove : j.fret false = ⟨{ j with cs := .valueEnd, stack := fs }, false⟩ := by
    rw [JsonParse.fret, hstack]
  rw [hmove]
  exact .step hgood rfl ⟨slot, slots, x, K, hvs, hclose, hbelow, hP⟩

theorem arrayStart_goes {i : Ignore} (hgood : j.error = false) (hvs : j.vs = .empty :: slots)
    (hin : Inside j.stack slots K) :
    Goes cs ((spaced .base (opened.andThen K)).after 91) b (j.arrayStep .start i b) := by
  simp only [JsonParse.arrayStep]
  split_ifs with hb
  · refine .step hgood rfl ⟨slots, K, ?_, hin, ?_⟩
    · rw [JsonParse.goto, JsonParse.setVt, hvs]
      rfl
    · rw [hb, behind_after]
  · exact .fail (behind_after_ne hb _)

theorem arrayOpened_goes {i : Ignore} (hgood : j.error = false) (hvs : j.vs = .array [] :: slots)
    (hin : Inside j.stack slots K) :
    Goes (.array .opened i) (spaced i (opened.andThen K)) b (j.arrayStep .opened i b) := by
  have hopened : opened.andThen K = (items JsonValue 93).andThen fun xs => K (.array xs) := map_andThen ..
  have hnil {xs : List Value} : ¬items JsonValue 93 [] xs := not_items_nil fun _ => not_jsonValue_nil
  have hsolid : Solid (items JsonValue 93) := items_solid rfl jsonValue_solid fun _ => not_jsonValue_nil
  have hrank : 2 < JsonBoth.rank (.array .opened i) := Nat.lt_succ_self 2
  simp only [JsonParse.arrayStep]
  refine ignoring_goes hgood ?_ (fun i => ⟨slots, K, hvs, hin, rfl⟩) fun _ => ?_
  · rw [hopened]
    exact solid_andThen hsolid (fun _ => hnil) _
  · rw [hopened]
    split_ifs with hvalue hend
    · obtain ⟨fs, hstack, hbelow⟩ := hin
      have hnext := hbelow.element []
      rw [← hstack] at hnext
      refine callValue_goes hgood hrank hvalue hnext ?_ ?_
      · rw [← hvs]
        rfl
      · rw [items_andThen_open _ (ne_of_isBeginValue hvalue rfl) fun _ => not_jsonValue_nil]
        exact congrArg (behind b) (onward_elements [] K)
    · rw [hend]
      exact fret_goes hgood hvs rfl hin (items_andThen_close _ (jsonValue_other rfl) fun _ => not_jsonValue_nil)
    · refine .fail ?_
      rw [items_andThen_open _ hend fun _ => not_jsonValue_nil, onward, jsonValue_andThen_behind,
        jsonValue_other (by simpa using hvalue), nothing_andThen]

theorem arrayElement_goes {i : Ignore} {a : List Value} (hgood : j.error = false)
    (hvs : j.vs = .array a :: slots) (hin : Inside j.stack slots K) :
    Goes cs (spaced i ((elements a).andThen K)) b (j.arrayStep .element i b) := by
  have hsolid : Solid (rest JsonValue 93) := rest_solid rfl
  simp only [JsonParse.arrayStep]
  refine ignoring_goes hgood ?_ (fun i => ⟨slots, K, a, hvs, hin, rfl⟩) fun _ => ?_
  · rw [elements_append]
    exact solid_andThen hsolid (fun _ => not_rest_nil) _
  · rw [elements_append]
    split_ifs with hcomma hend
    · refine .step hgood rfl ⟨slots, K, a, hvs, hin, ?_⟩
      rw [hcomma, rest_andThen_comma _ (by decide), onward_elements]
    · rw [hend]
      refine fret_goes hgood hvs rfl hin ?_
      rw [rest_andThen_close _ (by decide), List.append_nil]
    · exact .fail (rest_andThen_other _ hend hcomma)

theorem arrayComma_goes {i : Ignore} {a : List Value} (hgood : j.error = false)
    (hvs : j.vs = .array a :: slots) (hin : Inside j.stack slots K) :
    Goes (.array .comma i)
      (spaced i (JsonValue.andThen fun x => spaced .base ((elements (a ++ [x])).andThen K))) b
      (j.arrayStep .comma i b) := by
  have hrank : 2 < JsonBoth.rank (.array .comma i) := Nat.lt_succ_self 2
  simp only [JsonParse.arrayStep]
  refine ignoring_goes hgood ?_ (fun i => ⟨slots, K, a, hvs, hin, rfl⟩) fun _ => ?_
  · exact solid_andThen jsonValue_solid (fun _ => not_jsonValue_nil) _
  · split_ifs with hvalue
    · obtain ⟨fs, hstack, hbelow⟩ := hin
      have hnext := hbelow.element a
      rw [← hstack] at hnext
      refine callValue_goes hgood hrank hvalue hnext ?_ rfl
      rw [← hvs]
      rfl
    · refine .fail ?_
      rw [jsonValue_andThen_behind, jsonValue_other (by simpa using hvalue), nothing_andThen]

/-! ## Objects -/

theorem fields_append (o : List (Text × Value)) (K : Value → Phrases UInt8 Value) :
    (fields o).andThen K = (rest JsonField 125).andThen fun fs => K (.object (putAll o fs)) :=
  map_andThen ..

theorem onward_fields (o : List (Text × Value)) (K : Value → Phrases UInt8 Value) :
    onward JsonField 125 (fun fs => K (.object (putAll o fs))) =
      JsonField.andThen fun f => spaced .base ((fields (mapInsert f.1 f.2 o)).andThen K) := by
  simp only [onward, fields_append]
  rfl

theorem jsonField_andThen_eq (o : List (Text × Value)) (K : Value → Phrases UInt8 Value) :
    (JsonField.andThen fun f => spaced .base ((fields (mapInsert f.1 f.2 o)).andThen K)) =
      (quotedFrom .start []).andThen fun k => spaced .base (colonValue o k K) :=
  jsonField_andThen _

theorem parseName_goes {P : Phrases UInt8 Value} {o : List (Text × Value)} {key : Text}
    (hgood : j.error = false) (hrank : 1 < JsonBoth.rank cs) (hvs : j.vs = .object o key :: slots)
    (hin : Inside j.stack slots K) (hP : P.behind 34 = (JsonField.andThen fun f =>
      spaced .base ((fields (mapInsert f.1 f.2 o)).andThen K)).behind 34) :
    Goes cs P 34 j.parseName := by
  refine .held hgood rfl hrank ⟨slots, K, j.stack, o, key, hvs, rfl, hin, rfl⟩ ?_
  rw [hP, jsonField_andThen_eq]
  rfl

theorem objectStart_goes {i : Ignore} (hgood : j.error = false) (hvs : j.vs = .empty :: slots)
    (hin : Inside j.stack slots K) :
    Goes cs ((spaced .base (openedObject.andThen K)).after 123) b (j.objectStep .start i b) := by
  simp only [JsonParse.objectStep]
  split_ifs with hb
  · refine .step hgood rfl ⟨slots, K, [], ?_, hin, ?_⟩
    · rw [JsonParse.goto, JsonParse.setVt, hvs]
      rfl
    · rw [hb, behind_after]
  · exact .fail (behind_after_ne hb _)

theorem objectOpened_goes {i : Ignore} {key : Text} (hgood : j.error = false)
    (hvs : j.vs = .object [] key :: slots) (hin : Inside j.stack slots K) :
    Goes (.object .opened i) (spaced i (openedObject.andThen K)) b (j.objectStep .opened i b) := by
  have hopened : openedObject.andThen K =
    (items JsonField 125).andThen fun fs => K (.object (putAll [] fs)) := map_andThen ..
  have hnil {fs : List (Text × Value)} : ¬items JsonField 125 [] fs :=
    not_items_nil fun _ => not_jsonField_nil
  have hsolid : Solid (items JsonField 125) := items_solid rfl jsonField_solid fun _ => not_jsonField_nil
  have hrank : 1 < JsonBoth.rank (.object .opened i) := (Nat.lt_succ_self 1).trans (Nat.lt_succ_self 2)
  simp only [JsonParse.objectStep]
  refine ignoring_goes hgood ?_ (fun i => ⟨slots, K, key, hvs, hin, rfl⟩) fun _ => ?_
  · rw [hopened]
    exact solid_andThen hsolid (fun _ => hnil) _
  · rw [hopened]
    split_ifs with hname hend
    · rw [hname]
      refine parseName_goes hgood hrank hvs hin ?_
      rw [items_andThen_open _ (by decide) fun _ => not_jsonField_nil, onward_fields]
    · rw [hend]
      exact fret_goes hgood hvs rfl hin
        (items_andThen_close _ (jsonField_behind (by decide)) fun _ => not_jsonField_nil)
    · refine .fail ?_
      rw [items_andThen_open _ hend fun _ => not_jsonField_nil, onward,
        behind_andThen fun _ h => absurd h not_jsonField_nil, jsonField_behind hname, nothing_andThen]

theorem objectNamed_goes {i : Ignore} {o : List (Text × Value)} {key : Text} (hgood : j.error = false)
    (hvs : j.vs = .object o key :: slots) (hin : Inside j.stack slots K) :
    Goes cs (spaced i (colonValue o j.name K)) b (j.objectStep .named i b) := by
  simp only [JsonParse.objectStep]
  refine ignoring_goes hgood (solid_after rfl) (fun i => ⟨slots, K, o, key, hvs, hin, rfl⟩) fun _ => ?_
  split_ifs with hb
  · have hfield : j.newField = { j with vs := .empty :: .object o j.name :: slots } := by
      rw [JsonParse.newField, hvs]
    rw [hfield]
    refine .step hgood rfl ⟨slots, K, o, j.name, rfl, hin, ?_⟩
    rw [hb, colonValue, behind_after]
  · exact .fail (behind_after_ne hb _)

theorem objectColon_goes {i : Ignore} {o : List (Text × Value)} {key : Text} (hgood : j.error = false)
    (hvs : j.vs = .empty :: .object o key :: slots) (hin : Inside j.stack slots K) :
    Goes (.object .colon i) (spaced i (fieldValue o key K)) b (j.objectStep .colon i b) := by
  have hrank : 2 < JsonBoth.rank (.object .colon i) := Nat.lt_succ_self 2
  have hsolid : Solid (fieldValue o key K) := solid_andThen jsonValue_solid (fun _ => not_jsonValue_nil) _
  simp only [JsonParse.objectStep]
  refine ignoring_goes hgood hsolid (fun i => ⟨slots, K, o, key, hvs, hin, rfl⟩) fun _ => ?_
  split_ifs with hvalue
  · obtain ⟨fs, hstack, hbelow⟩ := hin
    have hnext := hbelow.field o key
    rw [← hstack] at hnext
    refine callValue_goes hgood hrank hvalue hnext ?_ rfl
    rw [← hvs]
  · refine .fail ?_
    rw [fieldValue, jsonValue_andThen_behind, jsonValue_other (by simpa using hvalue), nothing_andThen]

theorem objectField_goes {i : Ignore} {o : List (Text × Value)} {key : Text} (hgood : j.error = false)
    (hvs : j.vs = .object o key :: slots) (hin : Inside j.stack slots K) :
    Goes cs (spaced i ((fields o).andThen K)) b (j.objectStep .field i b) := by
  have hsolid : Solid (rest JsonField 125) := rest_solid rfl
  simp only [JsonParse.objectStep]
  refine ignoring_goes hgood ?_ (fun i => ⟨slots, K, o, key, hvs, hin, rfl⟩) fun _ => ?_
  · rw [fields_append]
    exact solid_andThen hsolid (fun _ => not_rest_nil) _
  · rw [fields_append]
    split_ifs with hcomma hend
    · refine .step hgood rfl ⟨slots, K, o, key, hvs, hin, ?_⟩
      rw [hcomma, rest_andThen_comma _ (by decide), onward_fields]
    · rw [hend]
      exact fret_goes hgood hvs rfl hin (rest_andThen_close _ (by decide))
    · exact .fail (rest_andThen_other _ hend hcomma)

theorem objectComma_goes {i : Ignore} {o : List (Text × Value)} {key : Text} (hgood : j.error = false)
    (hvs : j.vs = .object o key :: slots) (hin : Inside j.stack slots K) :
    Goes (.object .comma i)
      (spaced i (JsonField.andThen fun f => spaced .base ((fields (mapInsert f.1 f.2 o)).andThen K))) b
      (j.objectStep .comma i b) := by
  have hrank : 1 < JsonBoth.rank (.object .comma i) := (Nat.lt_succ_self 1).trans (Nat.lt_succ_self 2)
  simp only [JsonParse.objectStep]
  refine ignoring_goes hgood ?_ (fun i => ⟨slots, K, o, key, hvs, hin, rfl⟩) fun _ => ?_
  · exact solid_andThen jsonField_solid (fun _ => not_jsonField_nil) _
  · split_ifs with hname
    · rw [hname]
      exact parseName_goes hgood hrank hvs hin rfl
    · refine .fail ?_
      rw [behind_andThen fun _ h => absurd h not_jsonField_nil, jsonField_behind hname, nothing_andThen]

end Netp.Parse.JsonGrammar
