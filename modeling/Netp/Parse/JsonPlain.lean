import Netp.Parse.JsonAgree

/-! # Texts without literals and fields

`plainText` goes over the bytes of a JSON text, and looks for those of a literal that is not `null` and
for the colon of a field, outside the strings and the comments. In a text that `JSON_parse` accepts they
are there exactly where its `Value` has such a part (`clean`).
-/

namespace Netp.Parse.JsonBoth
open Netp.Lib Netp.Parse.Doc
open Netp.Parse.Json (Ignore NumberState QuoteState ArrayState ObjectState)
set_option autoImplicit false

/-- Where a byte is: outside the strings, in a comment or not, or in a string. -/
inductive Mode
  | ignore (i : Ignore) | quote | escape
  deriving DecidableEq

def Mode.step : Mode → UInt8 → Mode
  | .ignore i, b => if i = .base ∧ b = 34 then .quote else .ignore ((i.step b).getD .base)
  | .quote, b => if b = 34 then .ignore .base else if b = 92 then .escape else .quote
  | .escape, _ => .quote

/-- The byte is one of a literal that is not `null`, or is behind the name of a field. -/
def Mode.tells (m : Mode) (b : UInt8) : Bool := m = .ignore .base && b ∈ bytes "tfNI:"

/-- In none of the places does the byte tell. -/
def plainFrom : Mode → Text → Bool
  | _, [] => true
  | m, b :: text => !m.tells b && plainFrom (m.step b) text

def plainText (text : Text) : Bool := plainFrom (.ignore .base) text

/-- Where the byte is that is read next. -/
def mode : JsonParse.State → Mode
  | .array .start _ | .object .start _ => .ignore .base
  | .value i | .array _ i | .object _ i => .ignore i
  | .string .body | .string (.hex _) | .name .body | .name (.hex _) => .quote
  | .string .escape | .name .escape => .escape
  | _ => .ignore .base

mutual

/-- As `Doc.plain`, of the value. -/
def plainValue : Value → Bool
  | .object o => o.isEmpty
  | .array a => plainValues a
  | .string _ | .number _ | .null => true
  | _ => false
termination_by structural v => v

def plainValues : List Value → Bool
  | [] => true
  | v :: a => plainValue v && plainValues a
termination_by structural a => a

end

def plainSlot : JsonParse.Slot → Bool
  | .empty => true
  | .array a => plainValues a
  | .object o _ => o.isEmpty
  | .value v => plainValue v

def plainState : JsonParse.State → Bool
  | .literal l _ => l = .null
  | .object .colon _ | .object .field _ => false
  | _ => true

/-- `*root` counts when it is complete. -/
def plainRoot : JsonParse.State → Option Value → Bool
  | .last, root => root.all plainValue
  | _, _ => true

/-- Nothing but plain parts so far. -/
def clean (s : JsonParse) : Bool :=
  plainState s.cs && s.stack.all plainState && s.vs.all plainSlot && plainRoot s.cs s.root

/-- How many transitions a byte can take from here. -/
def rank : JsonParse.State → ℕ
  | .start | .array .opened _ | .array .comma _ => 3
  | .object .opened _ | .object .colon _ | .object .comma _ => 3
  | .number .start => 1
  | .number _ => 3
  | .value _ | .valueEnd => 2
  | _ => 1

/-- What a transition does to the two; a byte is not held for ever. -/
def Scans (s : JsonParse) (b : UInt8) (m : JsonParse.Move) : Prop :=
  m.json.error = false →
    mode m.json.cs = (if m.hold then mode s.cs else (mode s.cs).step b) ∧
      clean m.json = (clean s && (m.hold || !(mode s.cs).tells b)) ∧
        (m.hold = true → rank m.json.cs < rank s.cs)

theorem plainValues_append (a : List Value) (v : Value) :
    plainValues (a ++ [v]) = (plainValues a && plainValue v) := by
  induction a with
  | nil => simp [plainValues]
  | cons x a ih => simp [plainValues, ih, Bool.and_assoc]

theorem mapInsert_ne (key : Text) (v : Value) (o : List (Text × Value)) :
    (JsonParse.mapInsert key v o).isEmpty = false := by
  cases o with
  | nil => rfl
  | cons f o =>
      simp only [JsonParse.mapInsert]
      split_ifs <;> rfl

theorem mapOf_isEmpty (fields : List (FieldName × Doc)) :
    (mapOf (fieldValues fields)).isEmpty = fields.isEmpty := by
  induction fields using List.reverseRecOn with
  | nil => rfl
  | append_singleton fields f ih =>
      rw [mapOf_append, mapInsert_ne]
      simp

mutual

theorem plainValue_value : ∀ d : Doc, plainValue d.value = d.plain
  | .object fields => by simp [value, plainValue, plain, mapOf_isEmpty]
  | .array elements => by
      simp only [value, plainValue, plain]
      exact plainValues_values elements
  | .string raw text => by simp [value, plainValue, plain]
  | .number text => by simp [value, plainValue, plain]
  | .literal l => by cases l <;> simp [value, plainValue, plain, JsonParse.Literal.value]
termination_by structural d => d

theorem plainValues_values : ∀ ds : List Doc, plainValues (values ds) = allPlain ds
  | [] => by simp [values, plainValues, allPlain]
  | d :: ds => by simp only [values, plainValues, allPlain, plainValue_value d, plainValues_values ds]
termination_by structural ds => ds

end

variable {v₀ v : VPT} {s : JsonParse} {j : Json} {b : UInt8}

/-! ## Transitions -/

theorem clean_eq (hstate : plainState s.cs = true) (hroot : plainRoot s.cs s.root = true) :
    clean s = (s.stack.all plainState && s.vs.all plainSlot) := by
  simp only [clean, hstate, hroot, Bool.true_and, Bool.and_true]

theorem Scans.fail {m : JsonParse.Move} (h : m.json.error = true) : Scans s b m :=
  fun he => by rw [h] at he; cases he

/-- A byte outside the strings and the comments that opens none, and is not one of those looked for. -/
def Silent (b : UInt8) : Prop :=
  (Mode.ignore .base).step b = .ignore .base ∧ (Mode.ignore .base).tells b = false

theorem silent_of_not_mem (h : b ∉ [34, 47, 116, 102, 78, 73, 58]) : Silent b := by
  simp only [List.mem_cons, List.not_mem_nil, or_false, not_or] at h
  obtain ⟨h34, h47, htells⟩ := h
  refine ⟨?_, ?_⟩
  · simp only [Mode.step, h34, and_false, if_false, Ignore.step, h47]
    split <;> rfl
  · have hbytes : bytes "tfNI:" = [116, 102, 78, 73, 58] := rfl
    simpa [Mode.tells, hbytes] using htells

theorem silent_number (h : Json.isDigit b = true ∨ Json.isE b = true ∨ b = 46 ∨ b = 48 ∨ b = 43 ∨ b = 45) :
    Silent b := by
  refine silent_of_not_mem fun hb => ?_
  simp only [List.mem_cons, List.not_mem_nil, or_false] at hb
  rcases hb with rfl | rfl | rfl | rfl | rfl | rfl | rfl <;> exact absurd h (by decide)

/-- A byte that leads to another place outside the strings and the comments. -/
theorem Scans.goto {cs : JsonParse.State} {s' : JsonParse} (hb : Silent b)
    (hmode : mode s.cs = .ignore .base) (hmode' : mode cs = .ignore .base)
    (hclean : s'.error = false → clean { s' with cs := cs } = clean s) : Scans s b (s'.goto cs) := by
  intro he
  refine ⟨?_, ?_, fun hh => absurd hh Bool.false_ne_true⟩
  · simpa [JsonParse.goto, hmode, hmode'] using hb.1.symm
  · simpa [JsonParse.goto, hmode, hb.2] using hclean he

theorem ignoring_scans {i : Ignore} {place : Ignore → JsonParse.State} {other : JsonParse.Move}
    (hmode : mode s.cs = .ignore i) (hplace : ∀ i, mode (place i) = .ignore i)
    (hclean : ∀ i, plainState (place i) = plainState s.cs)
    (hroot : ∀ i, plainRoot (place i) = plainRoot s.cs)
    (hother : i = .base → b ≠ 47 → Scans s b other) : Scans s b (s.ignoring i b place other) := by
  unfold JsonParse.ignoring
  cases hi : i.step b with
  | some i' =>
      refine fun _ => ⟨?_, ?_, fun hh => absurd hh Bool.false_ne_true⟩
      · have h34 : ¬(i = .base ∧ b = 34) := by
          rintro ⟨rfl, rfl⟩
          cases hi
        simp [JsonParse.goto, hplace, hmode, Mode.step, h34, hi]
      · have htells : (Mode.ignore i).tells b = false := by
          by_contra h
          simp only [Mode.tells, Bool.not_eq_false, Bool.and_eq_true, decide_eq_true_eq] at h
          obtain ⟨h, hb⟩ := h
          cases h
          have : b ∈ [116, 102, 78, 73, 58] := hb
          simp only [List.mem_cons, List.not_mem_nil, or_false] at this
          rcases this with rfl | rfl | rfl | rfl | rfl <;> cases hi
        simp [JsonParse.goto, clean, hclean, hroot, hmode, htells]
  | none =>
      simp only
      split
      · next h =>
          refine hother h ?_
          rintro rfl
          rw [h] at hi
          cases hi
      · exact .fail rfl

theorem Scans.told {cs : JsonParse.State} {s' : JsonParse} (hb : (Mode.ignore .base).step b = .ignore .base)
    (htells : (Mode.ignore .base).tells b = true) (hmode : mode s.cs = .ignore .base)
    (hmode' : mode cs = .ignore .base) (hcs : plainState cs = false) : Scans s b (s'.goto cs) := by
  refine fun _ => ⟨?_, ?_, fun hh => absurd hh Bool.false_ne_true⟩
  · simpa [JsonParse.goto, hmode, hmode'] using hb.symm
  · simp [JsonParse.goto, clean, hcs, hmode, htells]

/-- A byte that is held: it is read again outside the strings and the comments. -/
theorem Scans.fcall {target callee : JsonParse.State} {s' : JsonParse} (hmode : mode s.cs = .ignore .base)
    (hcallee : mode callee = .ignore .base)
    (hrank : rank callee < rank s.cs)
    (hclean : clean { s' with cs := callee, stack := target :: s'.stack } = clean s) :
    Scans s b (s'.fcall target callee) := by
  refine fun _ => ⟨?_, ?_, fun _ => hrank⟩
  · simp [JsonParse.fcall, hmode, hcallee]
  · simpa [JsonParse.fcall] using hclean

theorem beginValue_scans (hcs : s.cs = .value .base) : Scans s b (s.beginValue b) := by
  have hmode : mode s.cs = .ignore .base := by rw [hcs]; rfl
  have hcall {callee : JsonParse.State} (hm : mode callee = .ignore .base)
      (hp : plainState callee = true) (hr : plainRoot callee s.root = true) (hrank : rank callee < 2) :
      Scans s b (s.fcall .valueEnd callee) :=
    .fcall hmode hm (by rw [hcs]; exact hrank) (by
      have hvalue : plainState (.value .base) = true := rfl
      have hend : plainState .valueEnd = true := rfl
      have hroot : plainRoot (.value .base) s.root = true := rfl
      simp [clean, hcs, hp, hr, hvalue, hend, hroot])
  unfold JsonParse.beginValue
  split_ifs with h110 h102 h116 h78 h73
  · exact .goto (silent_of_not_mem (h110 ▸ by decide)) hmode rfl fun _ => by simp [clean, hcs, plainState, plainRoot]
  · exact .told (h102 ▸ by decide) (h102 ▸ by decide) hmode rfl rfl
  · exact .told (h116 ▸ by decide) (h116 ▸ by decide) hmode rfl rfl
  · exact .told (h78 ▸ by decide) (h78 ▸ by decide) hmode rfl rfl
  · exact .told (h73 ▸ by decide) (h73 ▸ by decide) hmode rfl rfl
  · exact hcall rfl rfl rfl (by decide)
  · exact hcall rfl rfl rfl (by decide)
  · exact hcall rfl rfl rfl (by decide)
  · exact hcall rfl rfl rfl (by decide)
  · exact .fail rfl

theorem literal_scans {l : JsonParse.Literal} {rest : Text} (h : Sim v₀ s j v)
    (hcs : s.cs = .literal l rest) : Scans s b (s.literalStep l rest b) := by
  have ht := h.tree
  simp only [Tree, hcs] at ht
  obtain ⟨hrest, slots, hslots, -⟩ := ht
  have hmode : mode s.cs = .ignore .base := by rw [hcs]; rfl
  -- no byte of a literal opens a string or a comment, and those of null are not looked for
  have hletter : ∀ c ∈ tail l, (Mode.ignore .base).step c = .ignore .base ∧
      (l = .null → (Mode.ignore .base).tells c = false) := by
    cases l <;> decide +kernel
  have hgoto {cs : JsonParse.State} {s' : JsonParse} (hb : b ∈ rest) (hm : mode cs = .ignore .base)
      (hclean : clean { s' with cs := cs } = clean s) : Scans s b (s'.goto cs) := by
    obtain ⟨hstep, hnull⟩ := hletter b (hrest.subset hb)
    refine fun _ => ⟨?_, ?_, fun hh => absurd hh Bool.false_ne_true⟩
    · simpa [JsonParse.goto, hmode, hm] using hstep.symm
    · by_cases hl : l = .null
      · simpa [JsonParse.goto, hmode, hnull hl] using hclean
      · have hfalse : clean s = false := by simp [clean, hcs, plainState, hl]
        simp only [JsonParse.goto, hclean, hfalse, Bool.false_and]
  rcases rest with _ | ⟨c, _ | ⟨d, rest⟩⟩
  · exact .fail rfl
  · simp only [JsonParse.literalStep]
    split
    · next hc =>
        refine hgoto (by simp [hc]) rfl ?_
        cases l <;> simp [clean, hcs, plainState, plainRoot, JsonParse.setVt, hslots, plainSlot, plainValue,
          JsonParse.Literal.value]
    · exact .fail rfl
  · simp only [JsonParse.literalStep]
    split
    · next hc => exact hgoto (by simp [hc]) rfl (by simp [clean, hcs, plainState, plainRoot])
    · exact .fail rfl

theorem valueEnd_scans (h : Sim v₀ s j v) (hcs : s.cs = .valueEnd) : Scans s b (s.trans b) := by
  have ht := h.tree
  simp only [Tree, hcs] at ht
  obtain ⟨slots, slot, d, vt', hvs, hclose, -, hhole⟩ := ht
  have hslot : plainSlot slot = plainValue d.value := by
    cases slot <;> simp only [JsonParse.Slot.close, Option.some.injEq, reduceCtorEq] at hclose
    all_goals
      rw [← hclose]
      rfl
  have hmode : mode s.cs = .ignore .base := by rw [hcs]; rfl
  simp only [JsonParse.trans, hcs]
  generalize hfs : s.stack = fs at hhole
  generalize v.vs = vs at hhole
  cases hhole with
  | last =>
      simp only [JsonParse.popVt, hvs, hclose, Option.map_some, JsonParse.fret, hfs]
      refine fun _ => ⟨hmode.symm, ?_, fun _ => by rw [hcs]; exact Nat.one_lt_two⟩
      simp [clean, hcs, hfs, hvs, hslot, plainState, plainRoot]
  | element ds _ _ =>
      simp only [JsonParse.popVt, hvs, hclose, Option.bind_some, JsonParse.Slot.put, Option.map_some,
        JsonParse.fret, hfs]
      refine fun _ => ⟨hmode.symm, ?_, fun _ => by rw [hcs]; exact Nat.one_lt_two⟩
      have harray : plainSlot (.array (values ds ++ [d.value])) =
          (plainSlot slot && plainSlot (.array (values ds))) := by
        rw [hslot, Bool.and_comm]
        exact plainValues_append _ _
      simp [clean, hcs, hfs, hvs, harray, plainState, plainRoot, Bool.and_assoc]
  | field k fields _ _ _ =>
      simp only [JsonParse.popVt, hvs, hclose, Option.bind_some, JsonParse.Slot.put, Option.map_some,
        JsonParse.fret, hfs]
      refine fun _ => ⟨hmode.symm, ?_, fun _ => by rw [hcs]; exact Nat.one_lt_two⟩
      simp [clean, hfs, plainState]

theorem fretPart_scans {s' : JsonParse} {hold : Bool} {fs : List JsonParse.State}
    (hstack : s.stack = .valueEnd :: fs) (hstack' : s'.stack = s.stack)
    (hclean : s'.vs.all plainSlot = (plainState s.cs && s.vs.all plainSlot))
    (hroot : plainRoot s.cs s.root = true)
    (hmode : if hold then mode s.cs = .ignore .base ∧ 2 < rank s.cs
      else (mode s.cs).step b = .ignore .base ∧ (mode s.cs).tells b = false) :
    Scans s b (s'.fret hold) := by
  unfold JsonParse.fret
  rw [hstack', hstack]
  have hend : plainState .valueEnd = true := rfl
  refine fun _ => ⟨?_, ?_, fun hh => ?_⟩
  · cases hold with
    | true => exact hmode.1.symm
    | false => exact hmode.1.symm
  · have hsame : clean { s' with cs := .valueEnd, stack := fs } = clean s := by
      have hroot' : plainRoot .valueEnd s'.root = true := rfl
      simp only [clean, hstack, hclean, hroot, hroot', List.all_cons, hend, Bool.true_and, Bool.and_true]
      rw [← Bool.and_assoc, Bool.and_comm (fs.all plainState)]
    cases hold with
    | true => simpa using hsame
    | false => simpa [hmode.2] using hsame
  · cases hh
    exact hmode.2

theorem number_scans {n : NumberState} (h : Sim v₀ s j v) (hcs : s.cs = .number n) :
    Scans s b (s.numberStep n b) := by
  have ht := h.tree
  simp only [Tree, hcs] at ht
  obtain ⟨slots, hslots, -, fs, below, vs, hstack, -⟩ := ht
  have hmode : mode s.cs = .ignore .base := by rw [hcs]; rfl
  have hgoto {n' : NumberState} {mark : Text} {dot exp : Bool}
      (hb : Json.isDigit b = true ∨ Json.isE b = true ∨ b = 46 ∨ b = 48 ∨ b = 43 ∨ b = 45) :
      Scans s b (JsonParse.goto { s with mark := mark, dot := dot, exp := exp } (.number n')) :=
    .goto (silent_number hb) hmode rfl fun _ => by simp [clean, hcs, plainState, plainRoot]
  have hend (hn : n ≠ .start) : Scans s b s.numberEnd := by
    refine fretPart_scans hstack rfl ?_ (by rw [hcs]; rfl) ⟨hmode, ?_⟩
    · simp [JsonParse.setVt, hslots, hcs, plainState, plainSlot, plainValue]
    · rw [hcs]
      cases n <;> first | exact absurd rfl hn | decide
  cases n <;> simp only [JsonParse.numberStep] <;> split_ifs
  all_goals first
    | exact hend (by simp)
    | exact .fail rfl
    | exact hgoto (.inl ‹_›)
    | exact hgoto (.inr (.inl ‹_›))
    | exact hgoto (.inr (.inr (.inl ‹_›)))
    | exact hgoto (.inr (.inr (.inr (.inl ‹_›))))
    | exact hgoto (.inr (.inr (.inr (.inr ‹_›))))
    | exact hgoto (.inr (.inr (.inr (.inr (.inr ‹_›)))))

/-- A byte in the quotes of a string or of a name, where the machine has the place of the scan. -/
theorem Scans.quoted {cs : JsonParse.State} {s' : JsonParse} (hmode : mode cs = (mode s.cs).step b)
    (htells : (mode s.cs).tells b = false) (hclean : clean { s' with cs := cs } = clean s) :
    Scans s b (s'.goto cs) := by
  refine fun _ => ⟨?_, ?_, fun hh => absurd hh Bool.false_ne_true⟩
  · simpa [JsonParse.goto] using hmode
  · simpa [JsonParse.goto, htells] using hclean

theorem quote_hex (h : Json.isHexDigit b = true) : Mode.quote.step b = .quote := by
  have h34 : b ≠ 34 := by
    rintro rfl
    exact absurd h (by decide)
  have h92 : b ≠ 92 := by
    rintro rfl
    exact absurd h (by decide)
  simp [Mode.step, h34, h92]

theorem string_scans {q : QuoteState} (h : Sim v₀ s j v) (hcs : s.cs = .string q) :
    Scans s b (s.stringStep q b) := by
  have ht := h.tree
  simp only [Tree, hcs] at ht
  obtain ⟨slots, hslots, -, fs, below, vs, hstack, -⟩ := ht
  have hgoto {q' : QuoteState} {mark : Text} (hq : mode (.string q') = (mode (.string q)).step b)
      (htells : (mode (.string q)).tells b = false) :
      Scans s b (JsonParse.goto { s with mark := mark } (.string q')) :=
    .quoted (hcs ▸ hq) (hcs ▸ htells) (by simp [clean, hcs, plainState, plainRoot])
  rcases q with _ | _ | _ | _ | n <;> simp only [JsonParse.stringStep]
  · split_ifs with h34
    · exact hgoto (by rw [h34]; rfl) (by rw [h34]; rfl)
    · exact .fail rfl
  · split_ifs with h34 h92
    · refine fretPart_scans hstack rfl ?_ (by rw [hcs]; rfl) ?_
      · simp [JsonParse.setVt, hslots, hcs, plainState, plainSlot, plainValue]
      · rw [hcs, h34]
        exact ⟨rfl, rfl⟩
    · exact hgoto (by rw [h92]; rfl) rfl
    · exact .fail rfl
    · exact hgoto (by simp [mode, Mode.step, h34, h92]) rfl
  · split_ifs
    · exact hgoto rfl rfl
    · exact .fail rfl
    · exact hgoto rfl rfl
  · split_ifs with h
    · exact hgoto (quote_hex h).symm rfl
    · exact .fail rfl
  · split_ifs with h
    · exact hgoto (quote_hex h).symm rfl
    · exact .fail rfl

theorem name_scans {q : QuoteState} (h : Sim v₀ s j v) (hcs : s.cs = .name q) :
    Scans s b (s.nameStep q b) := by
  have ht := h.tree
  simp only [Tree, hcs] at ht
  obtain ⟨slots, fields, key, stack, hstack, -⟩ := ht
  have hgoto {q' : QuoteState} {mark : Text} (hq : mode (.name q') = (mode (.name q)).step b)
      (htells : (mode (.name q)).tells b = false) :
      Scans s b (JsonParse.goto { s with mark := mark } (.name q')) :=
    .quoted (hcs ▸ hq) (hcs ▸ htells) (by simp [clean, hcs, plainState, plainRoot])
  rcases q with _ | _ | _ | _ | n <;> simp only [JsonParse.nameStep]
  · split_ifs with h34
    · exact hgoto (by rw [h34]; rfl) (by rw [h34]; rfl)
    · exact .fail rfl
  · split_ifs with h34 h92
    · unfold JsonParse.fret
      simp only [hstack]
      refine fun _ => ⟨?_, ?_, fun hh => absurd hh Bool.false_ne_true⟩
      · rw [hcs, h34]
        rfl
      · rw [hcs, h34]
        simp [clean, hcs, hstack, plainState, plainRoot, mode, Mode.tells]
    · exact hgoto (by rw [h92]; rfl) rfl
    · exact .fail rfl
    · exact hgoto (by simp [mode, Mode.step, h34, h92]) rfl
  · split_ifs
    · exact hgoto rfl rfl
    · exact .fail rfl
    · exact hgoto rfl rfl
  · split_ifs with h
    · exact hgoto (quote_hex h).symm rfl
    · exact .fail rfl
  · split_ifs with h
    · exact hgoto (quote_hex h).symm rfl
    · exact .fail rfl

theorem array_scans {a : ArrayState} {i : Ignore} (h : Sim v₀ s j v) (hcs : s.cs = .array a i) :
    Scans s b (s.arrayStep a i b) := by
  have ht := h.tree
  simp only [Tree, hcs] at ht
  have hclean : clean s = (s.stack.all plainState && s.vs.all plainSlot) :=
    clean_eq (by rw [hcs]; cases a <;> rfl) (by rw [hcs]; cases a <;> rfl)
  have hgoto {a' : ArrayState} {s' : JsonParse} (hi : mode s.cs = .ignore .base) (hb : Silent b)
      (hstack : s'.stack = s.stack) (hvs : s'.vs.all plainSlot = s.vs.all plainSlot) :
      Scans s b (s'.goto (.array a' .base)) :=
    .goto hb hi (by cases a' <;> rfl) fun _ => by rw [hclean, clean_eq rfl rfl, hstack, hvs]
  have hcall (hi : mode s.cs = .ignore .base) (hrank : 2 < rank s.cs) : Scans s b s.callElement := by
    refine .fcall hi rfl hrank ?_
    rw [hclean, clean_eq rfl rfl]
    simp [JsonParse.pushVt, plainState, plainSlot]
  have hend (hi : mode s.cs = .ignore .base) (hb : Silent b) {fs : List JsonParse.State}
      (hstack : s.stack = .valueEnd :: fs) : Scans s b (s.fret false) :=
    fretPart_scans hstack rfl (by rw [hcs]; cases a <;> rfl) (by rw [hcs]; cases a <;> rfl)
      (by rw [hi]; exact hb)
  have hignore (hstart : a ≠ .start) {other : JsonParse.Move}
      (hother : mode s.cs = .ignore .base → Scans s b other) :
      Scans s b (s.ignoring i b (.array a) other) :=
    have hmode (i : Ignore) : mode (.array a i) = .ignore i := by
      cases a <;> first | exact absurd rfl hstart | rfl
    ignoring_scans (by rw [hcs, hmode]) hmode (fun _ => by rw [hcs]; cases a <;> rfl)
      (fun _ => by rw [hcs]; cases a <;> rfl) fun hi _ => hother (by rw [hcs, hmode, hi])
  cases a with
  | start =>
      obtain ⟨slots, hslots, -⟩ := ht
      simp only [JsonParse.arrayStep]
      split_ifs with h91
      · exact hgoto (by rw [hcs]; rfl) (silent_of_not_mem (h91 ▸ by decide)) rfl
          (by simp [JsonParse.setVt, hslots, plainSlot, plainValues])
      · exact .fail rfl
  | opened =>
      obtain ⟨slots, ds, -, -, fs, below, vs, hstack, -⟩ := ht
      refine hignore (by simp) fun hi => ?_
      split_ifs with hbegin h93
      · exact hcall hi (by simp [hcs, rank])
      · exact hend hi (silent_of_not_mem (h93 ▸ by decide)) hstack
      · exact .fail rfl
  | element =>
      obtain ⟨slots, ds, -, -, fs, below, vs, hstack, -⟩ := ht
      refine hignore (by simp) fun hi => ?_
      split_ifs with h44 h93
      · exact hgoto hi (silent_of_not_mem (h44 ▸ by decide)) rfl rfl
      · exact hend hi (silent_of_not_mem (h93 ▸ by decide)) hstack
      · exact .fail rfl
  | comma =>
      refine hignore (by simp) fun hi => ?_
      split_ifs
      · exact hcall hi (by simp [hcs, rank])
      · exact .fail rfl

theorem object_scans {o : ObjectState} {i : Ignore} (h : Sim v₀ s j v) (hcs : s.cs = .object o i) :
    Scans s b (s.objectStep o i b) := by
  have ht := h.tree
  simp only [Tree, hcs] at ht
  have hroot : plainRoot s.cs s.root = true := by rw [hcs]; cases o <;> rfl
  -- in an object without an open field
  have hgoto {o' : ObjectState} {s' : JsonParse} (hi : mode s.cs = .ignore .base) (hb : Silent b)
      (hstate : plainState s.cs = plainState (.object o' .base)) (hstack : s'.stack = s.stack)
      (hvs : s'.vs.all plainSlot = s.vs.all plainSlot) : Scans s b (s'.goto (.object o' .base)) :=
    .goto hb hi (by cases o' <;> rfl) fun _ => by
      simp only [clean, hstate, hstack, hvs, hroot]
      cases o' <;> rfl
  have hname (hi : mode s.cs = .ignore .base) (hstate : plainState s.cs = true) (hrank : 1 < rank s.cs) :
      Scans s b s.parseName := by
    refine .fcall hi rfl hrank ?_
    rw [clean_eq hstate hroot, clean_eq rfl rfl]
    simp [plainState]
  have hend (hi : mode s.cs = .ignore .base) (hb : Silent b) {fs : List JsonParse.State}
      (hstack : s.stack = .valueEnd :: fs)
      (hvs : s.vs.all plainSlot = (plainState s.cs && s.vs.all plainSlot)) : Scans s b (s.fret false) :=
    fretPart_scans hstack rfl hvs hroot (by rw [hi]; exact hb)
  have hignore (hstart : o ≠ .start) {other : JsonParse.Move}
      (hother : mode s.cs = .ignore .base → Scans s b other) :
      Scans s b (s.ignoring i b (.object o) other) :=
    have hmode (i : Ignore) : mode (.object o i) = .ignore i := by
      cases o <;> first | exact absurd rfl hstart | rfl
    ignoring_scans (by rw [hcs, hmode]) hmode (fun _ => by rw [hcs]; cases o <;> rfl)
      (fun _ => by rw [hcs]; cases o <;> rfl) fun hi _ => hother (by rw [hcs, hmode, hi])
  cases o with
  | start =>
      obtain ⟨slots, hslots, -⟩ := ht
      simp only [JsonParse.objectStep]
      split_ifs with h123
      · exact hgoto (by rw [hcs]; rfl) (silent_of_not_mem (h123 ▸ by decide)) (by rw [hcs]; rfl) rfl
          (by simp [JsonParse.setVt, hslots, plainSlot])
      · exact .fail rfl
  | opened =>
      obtain ⟨slots, fields, key, -, -, fs, below, vs, hstack, -⟩ := ht
      refine hignore (by simp) fun hi => ?_
      split_ifs with h34 h125
      · exact hname hi (by rw [hcs]; rfl) (by simp [hcs, rank])
      · exact hend hi (silent_of_not_mem (h125 ▸ by decide)) hstack (by rw [hcs]; rfl)
      · exact .fail rfl
  | named =>
      refine hignore (by simp) fun hi => ?_
      split_ifs with h58
      · exact .told (h58 ▸ by decide) (h58 ▸ by decide) hi rfl rfl
      · exact .fail rfl
  | colon =>
      refine hignore (by simp) fun hi => ?_
      split_ifs
      · refine .fcall hi rfl (by simp [hcs, rank]) ?_
        simp [clean, hcs, plainState]
      · exact .fail rfl
  | field =>
      obtain ⟨slots, fields, k, d, key, hslots, -, object, rest, -, -, fs, below, vs, hstack, -⟩ := ht
      -- there is a field in the map
      have hvs : s.vs.all plainSlot = false := by
        simp [hslots, plainSlot, mapOf_isEmpty]
      refine hignore (by simp) fun hi => ?_
      split_ifs with h44 h125
      · refine .goto (silent_of_not_mem (h44 ▸ by decide)) hi rfl fun _ => ?_
        simp only [clean, hvs, Bool.and_false, Bool.false_and]
      · exact hend hi (silent_of_not_mem (h125 ▸ by decide)) hstack (by rw [hvs, Bool.and_false])
      · exact .fail rfl
  | comma =>
      refine hignore (by simp) fun hi => ?_
      split_ifs
      · exact hname hi (by rw [hcs]; rfl) (by simp [hcs, rank])
      · exact .fail rfl

theorem trans_scans (h : Sim v₀ s j v) (hlast : s.cs ≠ .last) : Scans s b (s.trans b) := by
  have ht := h.tree
  cases hcs : s.cs with
  | start => simp only [Tree, hcs] at ht
  | final => simp only [Tree, hcs] at ht
  | last => exact absurd hcs hlast
  | value i =>
      simp only [JsonParse.trans, hcs]
      exact ignoring_scans (by rw [hcs]; rfl) (fun _ => rfl) (fun _ => by rw [hcs]; rfl)
        (fun _ => by rw [hcs]; rfl) fun hi _ => beginValue_scans (by rw [hcs, hi])
  | literal l rest =>
      simp only [JsonParse.trans, hcs]
      exact literal_scans h hcs
  | valueEnd => exact valueEnd_scans h hcs
  | number n =>
      simp only [JsonParse.trans, hcs]
      exact number_scans h hcs
  | string q =>
      simp only [JsonParse.trans, hcs]
      exact string_scans h hcs
  | name q =>
      simp only [JsonParse.trans, hcs]
      exact name_scans h hcs
  | array a i =>
      simp only [JsonParse.trans, hcs]
      exact array_scans h hcs
  | object o i =>
      simp only [JsonParse.trans, hcs]
      exact object_scans h hcs

/-! ## Bytes -/

variable {w : VPT} {ok : Bool}

theorem rank_pos (cs : JsonParse.State) : 0 < rank cs := by
  unfold rank
  split <;> decide

/-- The transitions of a byte of the text: it is read in one place, and only counts there. -/
theorem step_follows (h : Sim v₀ s j v) (hb : b ≠ 0) (n : ℕ) (hn : rank s.cs ≤ n)
    (hgood : (s.step n b).error = false) (hw : v.performAll (j.step n b).2 = some (w, ok)) :
    ok = true ∧ Sim v₀ (s.step n b) (j.step n b).1 w ∧
      mode (s.step n b).cs = (mode s.cs).step b ∧
        clean (s.step n b) = (clean s && !(mode s.cs).tells b) := by
  induction n generalizing s j v with
  | zero => exact absurd hn (Nat.not_le.mpr (rank_pos _))
  | succ n ih =>
      have hlast : s.cs ≠ .last := by
        intro hlast
        simp [JsonParse.step, JsonParse.trans, hlast, hb, JsonParse.fail] at hgood
      simp only [JsonParse.step] at hgood ⊢
      simp only [Json.step] at hw ⊢
      have hmove : (s.trans b).json.error = false := by
        by_contra he
        rw [Bool.not_eq_false] at he
        split at hgood
        · rw [step_error he] at hgood
          cases hgood
        · rw [he] at hgood
          cases hgood
      obtain ⟨hhold, hcalls⟩ := trans_follows h hlast hmove
      obtain ⟨hmode, hclean, hrank⟩ := trans_scans h hlast hmove
      rw [hhold] at hw ⊢
      split at hgood
      · next hh =>
          simp only [hh, if_true] at hw ⊢
          rw [performAll_append] at hw
          obtain ⟨⟨u, ok'⟩, hu, hw⟩ := Option.bind_eq_some_iff.mp hw
          obtain ⟨rfl, hsim⟩ := hcalls u ok' hu
          have hless := hrank hh
          rw [hh, if_pos rfl] at hmode
          rw [hh, Bool.true_or, Bool.and_true] at hclean
          rw [← hmode, ← hclean]
          exact ih hsim (by omega) hgood hw
      · next hh =>
          rw [Bool.not_eq_true] at hh
          simp only [hh, if_false, Bool.false_eq_true] at hw ⊢
          obtain ⟨hok, hsim⟩ := hcalls w ok hw
          rw [hh, Bool.false_or] at hclean
          rw [hh, if_neg Bool.false_ne_true] at hmode
          exact ⟨hok, hsim, hmode, hclean⟩

end Netp.Parse.JsonBoth
