import Mathlib.Data.List.Basic
import Mathlib.Data.Nat.Notation
import Mathlib.Tactic.SplitIfs
import Mathlib.Tactic.Set

/-! # Reading lines of a line protocol

A line is a name, then tags, each behind a comma, then fields, behind a space and with commas between
them. A backslash escapes the next byte, and a field may be a string between quotes. `tokens` reads a text
as its lines say; `scan` is what one piece comes to, up to the first byte that ends it (`tokens_scan`).
-/

namespace Netp.Lib
set_option autoImplicit false

/-- The value of a field: a bare word, or a string between quotes. -/
inductive Datum
  | bare (text : List UInt8)
  | string (text : List UInt8)
  deriving DecidableEq

structure Line where
  name : List UInt8
  tags : List (List UInt8 × List UInt8)
  fields : List (List UInt8 × Datum)
  deriving DecidableEq

inductive Token
  | line (name : List UInt8)
  | tag (name value : List UInt8)
  | field (name : List UInt8) (value : Datum)
  deriving DecidableEq

def Line.tokens (line : Line) : List Token :=
  .line line.name :: (line.tags.map fun t => .tag t.1 t.2) ++ line.fields.map fun f => .field f.1 f.2

/-- Where the reader is. -/
inductive Part
  | line
  | tagName
  | tagValue (name : List UInt8)
  | fieldName
  | fieldValue (name : List UInt8)
  | string (name : List UInt8)
  | stringEnd

/-- Comma, space and newline. -/
def isSeparator (c : UInt8) : Bool := c == 44 || c == 32 || c == 10

namespace Part

/-- The bytes that end the piece, unless they are escaped. -/
def stops : Part → UInt8 → Bool
  | .line | .tagValue _ | .stringEnd => isSeparator
  | .tagName | .fieldName => fun c => isSeparator c || c == 61
  | .fieldValue _ => fun c => isSeparator c || c == 34
  | .string _ => (· == 34)

/-- What has been read, and where the reader goes on, when the piece `text` is ended by `c`. -/
def turn (text : List UInt8) (c : UInt8) : Part → Option (List Token × Part)
  | .line =>
      let name := if text = [] then [] else [Token.line text]
      if c = 44 then some (name, .tagName) else if c = 32 then some (name, .fieldName)
      else some (name, .line)
  | .tagName => if c = 61 then some ([], .tagValue text) else none
  | .tagValue name =>
      if c = 44 then some ([.tag name text], .tagName)
      else if c = 32 then some ([.tag name text], .fieldName)
      else some ([.tag name text], .line)
  | .fieldName => if c = 61 then some ([], .fieldValue text) else none
  | .fieldValue name =>
      if c = 34 then if text = [] then some ([], .string name) else none
      else if c = 44 then some ([.field name (.bare text)], .fieldName)
      else if c = 10 then some ([.field name (.bare text)], .line)
      else none
  | .string name => some ([.field name (.string text)], .stringEnd)
  | .stringEnd =>
      if text ≠ [] then none
      else if c = 44 then some ([], .fieldName)
      else if c = 10 then some ([], .line)
      else none

/-- What has been read when the text ends in the piece. -/
def close (text : List UInt8) : Part → Option (List Token)
  | .line => some (if text = [] then [] else [.line text])
  | .tagValue name => some [.tag name text]
  | .fieldValue name => some [.field name (.bare text)]
  | .stringEnd => if text = [] then some [] else none
  | .tagName | .fieldName | .string _ => none

end Part

/-- `text` is what has been read of the piece. -/
def tokens : Part → List UInt8 → List UInt8 → Option (List Token)
  | part, text, [] => part.close text
  | part, text, c :: x =>
      if c = 92 then
        match x with
        | [] => none
        | d :: x => tokens part (text ++ [d]) x
      else if part.stops c then
        (part.turn text c).bind fun r => (tokens r.2 [] x).map (r.1 ++ ·)
      else tokens part (text ++ [c]) x

/-- The text reads as these lines. -/
def ReadsAs (text : List UInt8) (lines : List Line) : Prop :=
  tokens .line [] text = some (lines.flatMap Line.tokens)

/-! ## The lines are determined -/

theorem map_append_inj {α β : Type} {f : α → β} (hf : Function.Injective f) {ts ts' : List α} {x x' : List β}
    (hx : ∀ a y, x ≠ f a :: y) (hx' : ∀ a y, x' ≠ f a :: y) (h : ts.map f ++ x = ts'.map f ++ x') :
    ts = ts' ∧ x = x' := by
  induction ts generalizing ts' with
  | nil =>
    cases ts' with
    | nil => exact ⟨rfl, h⟩
    | cons t' ts' => exact absurd h (hx _ _)
  | cons t ts ih =>
    cases ts' with
    | nil => exact absurd h.symm (hx' _ _)
    | cons t' ts' =>
      rw [List.map_cons, List.map_cons, List.cons_append, List.cons_append, List.cons.injEq] at h
      obtain ⟨rfl, rfl⟩ := ih h.2
      exact ⟨congrArg (· :: ts) (hf h.1), rfl⟩

/-- No tokens, or those of a line and more. -/
theorem flatMap_tokens (ls : List Line) :
    ls.flatMap Line.tokens = [] ∨ ∃ n y, ls.flatMap Line.tokens = .line n :: y := by
  cases ls with
  | nil => exact .inl rfl
  | cons l ls => exact .inr ⟨l.name, _, rfl⟩

theorem Line.tokens_injective {ls ls' : List Line} (h : ls.flatMap Line.tokens = ls'.flatMap Line.tokens) :
    ls = ls' := by
  have htag : Function.Injective fun t : List UInt8 × List UInt8 => Token.tag t.1 t.2 := by
    intro t t' heq
    obtain ⟨hn, hv⟩ := Token.tag.inj heq
    exact Prod.ext hn hv
  have hfield : Function.Injective fun f : List UInt8 × Datum => Token.field f.1 f.2 := by
    intro f f' heq
    obtain ⟨hn, hv⟩ := Token.field.inj heq
    exact Prod.ext hn hv
  -- no tag stands in front of fields and lines, and no field in front of lines
  have hlines : ∀ (ls : List Line) (f : List UInt8 × Datum) (y : List Token),
      ls.flatMap Line.tokens ≠ .field f.1 f.2 :: y := by
    intro ls f y heq
    rcases flatMap_tokens ls with hnil | ⟨n, z, hcons⟩
    · rw [hnil] at heq
      cases heq
    · rw [hcons] at heq
      cases heq
  have hfields : ∀ (fs : List (List UInt8 × Datum)) (ls : List Line) (t : List UInt8 × List UInt8)
      (y : List Token), (fs.map fun f => Token.field f.1 f.2) ++ ls.flatMap Line.tokens ≠ .tag t.1 t.2 :: y := by
    intro fs ls t y heq
    cases fs with
    | nil =>
      rcases flatMap_tokens ls with hnil | ⟨n, z, hcons⟩
      · rw [List.map_nil, List.nil_append, hnil] at heq
        cases heq
      · rw [List.map_nil, List.nil_append, hcons] at heq
        cases heq
    | cons f fs => cases heq
  induction ls generalizing ls' with
  | nil =>
    cases ls' with
    | nil => rfl
    | cons l' ls' => cases h
  | cons l ls ih =>
    cases ls' with
    | nil => cases h
    | cons l' ls' =>
      simp only [List.flatMap_cons, Line.tokens, List.cons_append, List.cons.injEq, Token.line.injEq,
        List.append_assoc] at h
      obtain ⟨hname, hrest⟩ := h
      obtain ⟨htags, hrest⟩ := map_append_inj htag (hfields _ _) (hfields _ _) hrest
      obtain ⟨hfs, hrest⟩ := map_append_inj hfield (hlines _) (hlines _) hrest
      obtain rfl := ih hrest
      cases l
      cases l'
      simp only at hname htags hfs
      rw [hname, htags, hfs]

/-! ## One piece -/

/-- A piece up to the first byte that ends it, and the rest. -/
def scan (stops : UInt8 → Bool) : List UInt8 → Option (List UInt8 × List UInt8)
  | [] => some ([], [])
  | c :: x =>
      if c = 92 then
        match x with
        | [] => none
        | d :: x => (scan stops x).map fun r => (d :: r.1, r.2)
      else if stops c then some ([], c :: x)
      else (scan stops x).map fun r => (c :: r.1, r.2)

/-- How the reader goes on with what stands behind the piece `text`. -/
def Part.ends (part : Part) (text : List UInt8) : List UInt8 → Option (List Token)
  | [] => part.close text
  | c :: x => (part.turn text c).bind fun r => (tokens r.2 [] x).map (r.1 ++ ·)

section Scan
variable {stops : UInt8 → Bool} {c d : UInt8} {w x : List UInt8} {part : Part} {text : List UInt8}

theorem scan_escaped (d : UInt8) (x : List UInt8) :
    scan stops (92 :: d :: x) = (scan stops x).map fun r => (d :: r.1, r.2) := by
  rw [scan.eq_def]
  rfl

theorem scan_stop (hc : c ≠ 92) (h : stops c = true) (x : List UInt8) :
    scan stops (c :: x) = some ([], c :: x) := by
  rw [scan.eq_def]
  simp only [if_neg hc, if_pos h]

theorem scan_next (hc : c ≠ 92) (h : stops c = false) (x : List UInt8) :
    scan stops (c :: x) = (scan stops x).map fun r => (c :: r.1, r.2) := by
  rw [scan.eq_def]
  simp only [if_neg hc, if_neg (by rw [h]; exact Bool.false_ne_true : ¬ stops c = true)]

theorem tokens_escaped (part : Part) (text : List UInt8) (d : UInt8) (x : List UInt8) :
    tokens part text (92 :: d :: x) = tokens part (text ++ [d]) x := by
  rw [tokens.eq_def]
  rfl

theorem tokens_stop (hc : c ≠ 92) (h : part.stops c = true) (x : List UInt8) :
    tokens part text (c :: x) = part.ends text (c :: x) := by
  rw [tokens.eq_def]
  simp only [if_neg hc, if_pos h]
  rfl

theorem tokens_next (hc : c ≠ 92) (h : part.stops c = false) (x : List UInt8) :
    tokens part text (c :: x) = tokens part (text ++ [c]) x := by
  rw [tokens.eq_def]
  simp only [if_neg hc, if_neg (by rw [h]; exact Bool.false_ne_true : ¬ part.stops c = true)]

theorem tokens_scan (part : Part) : ∀ (x text : List UInt8),
    tokens part text x = (scan part.stops x).bind fun r => part.ends (text ++ r.1) r.2
  | [], text => by simp [tokens, scan, Part.ends]
  | [c], text => by
    by_cases hc : c = 92
    · subst hc
      rfl
    · cases hstop : part.stops c with
      | true => simp [tokens_stop hc hstop, scan_stop hc hstop]
      | false =>
        rw [tokens_next hc hstop, scan_next hc hstop, tokens_scan part [], Option.bind_map]
        simp only [Function.comp_def, List.append_assoc, List.singleton_append]
  | c :: d :: x, text => by
    by_cases hc : c = 92
    · subst hc
      rw [tokens_escaped, scan_escaped, tokens_scan part x, Option.bind_map]
      simp only [Function.comp_def, List.append_assoc, List.singleton_append]
    · cases hstop : part.stops c with
      | true => simp [tokens_stop hc hstop, scan_stop hc hstop]
      | false =>
        rw [tokens_next hc hstop, scan_next hc hstop, tokens_scan part (d :: x), Option.bind_map]
        simp only [Function.comp_def, List.append_assoc, List.singleton_append]

/-- Behind a piece stands nothing, or a byte that ends it. -/
def Ended (stops : UInt8 → Bool) (x : List UInt8) : Prop := ∀ c ∈ x.head?, c ≠ 92 ∧ stops c = true

theorem ended_nil : Ended stops [] := by
  intro c hc
  cases hc

theorem ended_cons (hc : c ≠ 92) (h : stops c = true) (x : List UInt8) : Ended stops (c :: x) := by
  intro d hd
  obtain rfl := Option.some.inj hd
  exact ⟨hc, h⟩

theorem Ended.scan (h : Ended stops x) : scan stops x = some ([], x) := by
  cases x with
  | nil => rfl
  | cons c x =>
    obtain ⟨hc, hstop⟩ := h c rfl
    exact scan_stop hc hstop x

/-- A piece in which nothing is escaped. -/
theorem scan_word (hw : ∀ c ∈ w, c ≠ 92 ∧ stops c = false) (hx : Ended stops x) :
    Netp.Lib.scan stops (w ++ x) = some (w, x) := by
  induction w with
  | nil => exact hx.scan
  | cons c w ih =>
    obtain ⟨⟨hc, hstop⟩, hrest⟩ := List.forall_mem_cons.1 hw
    rw [List.cons_append, scan_next hc hstop, ih hrest]
    rfl

theorem tokens_word (hw : ∀ c ∈ w, c ≠ 92 ∧ part.stops c = false) (hx : Ended part.stops x) :
    tokens part [] (w ++ x) = part.ends w x := by
  rw [tokens_scan, scan_word hw hx]
  rfl

end Scan

/-! ## A written line -/

/-- What stands behind the name of the line, or behind a tag. -/
def behindTag : List UInt8 → Option (List Token)
  | [] => some []
  | c :: x =>
      if c = 44 then tokens .tagName [] x
      else if c = 32 then tokens .fieldName [] x
      else tokens .line [] x

/-- What stands behind a field. -/
def behindField : List UInt8 → Option (List Token)
  | [] => some []
  | c :: x => if c = 44 then tokens .fieldName [] x else tokens .line [] x

/-- Names and printed values, the first behind `sep`. -/
def entries : UInt8 → List (List UInt8 × List UInt8) → List UInt8
  | _, [] => []
  | sep, e :: es => sep :: (e.1 ++ 61 :: e.2) ++ entries 44 es

/-- A name in which no byte has a meaning. -/
def IsName (name : List UInt8) : Prop := ∀ c ∈ name, c ≠ 92 ∧ isSeparator c = false ∧ c ≠ 61

/-- Comma or newline. -/
def endsField (c : UInt8) : Bool := c == 44 || c == 10

/-- The printed tag is read as `value` if it is `ok`, and not otherwise. -/
def TagReads (printed value : List UInt8) (ok : Prop) : Prop :=
  ∀ (n x : List UInt8) (X : List Token), Ended isSeparator x →
    (tokens (.tagValue n) [] (printed ++ x) = some (.tag n value :: X) ↔ ok ∧ behindTag x = some X)

def FieldReads (printed : List UInt8) (value : Datum) (ok : Prop) : Prop :=
  ∀ (n x : List UInt8) (X : List Token), Ended endsField x →
    (tokens (.fieldValue n) [] (printed ++ x) = some (.field n value :: X) ↔ ok ∧ behindField x = some X)

section Written
variable {x : List UInt8} {X : List Token}

theorem map_cons_iff {o : Option (List Token)} {t : Token} :
    o.map ([t] ++ ·) = some (t :: X) ↔ o = some X := by
  cases o with
  | none => simp
  | some Y => simp

theorem tagValue_ends (n v x : List UInt8) :
    (Part.tagValue n).ends v x = (behindTag x).map ([.tag n v] ++ ·) := by
  cases x with
  | nil => rfl
  | cons c x =>
    simp only [Part.ends, Part.turn, behindTag]
    split_ifs <;> rfl

theorem line_ends {name : List UInt8} (hne : name ≠ []) (x : List UInt8) :
    Part.line.ends name x = (behindTag x).map ([.line name] ++ ·) := by
  cases x with
  | nil => simp [Part.ends, Part.close, behindTag, hne]
  | cons c x =>
    simp only [Part.ends, Part.turn, behindTag, if_neg hne]
    split_ifs <;> rfl

theorem endsField_iff {c : UInt8} : endsField c = true ↔ c = 44 ∨ c = 10 := by simp [endsField]

theorem fieldValue_ends (n v : List UInt8) (hx : Ended endsField x) :
    (Part.fieldValue n).ends v x = (behindField x).map ([.field n (.bare v)] ++ ·) := by
  cases x with
  | nil => rfl
  | cons c x =>
    obtain ⟨-, hc⟩ := hx c rfl
    rcases endsField_iff.1 hc with rfl | rfl <;> rfl

theorem stringEnd_ends (hx : Ended endsField x) : Part.stringEnd.ends [] x = behindField x := by
  cases x with
  | nil => rfl
  | cons c x =>
    obtain ⟨-, hc⟩ := hx c rfl
    have hid : ∀ o : Option (List Token), o.map ([] ++ ·) = o := fun o => by simp
    rcases endsField_iff.1 hc with rfl | rfl
    · exact hid (tokens .fieldName [] x)
    · exact hid (tokens .line [] x)

theorem stringEnd_read (hx : Ended endsField x) : tokens .stringEnd [] x = behindField x := by
  have hended : Ended Part.stringEnd.stops x := by
    intro c hc
    obtain ⟨hne, hend⟩ := hx c hc
    rcases endsField_iff.1 hend with rfl | rfl <;> exact ⟨hne, rfl⟩
  have hword : tokens .stringEnd [] ([] ++ x) = Part.stringEnd.ends [] x :=
    tokens_word (fun c hc => absurd hc List.not_mem_nil) hended
  exact hword.trans (stringEnd_ends hx)

/-- A word of neither quotes nor separators. -/
theorem bare_tagReads {t : List UInt8} (ht : ∀ c ∈ t, c ≠ 92 ∧ isSeparator c = false) : TagReads t t True := by
  intro n x X hx
  have hword : tokens (.tagValue n) [] (t ++ x) = (Part.tagValue n).ends t x := tokens_word ht hx
  rw [hword, tagValue_ends, map_cons_iff, true_and]

theorem bare_fieldReads {t : List UInt8} (ht : ∀ c ∈ t, c ≠ 92 ∧ (isSeparator c || c == 34) = false) :
    FieldReads t (.bare t) True := by
  intro n x X hx
  have hended : Ended (Part.fieldValue n).stops x := by
    intro c hc
    obtain ⟨hne, hend⟩ := hx c hc
    rcases endsField_iff.1 hend with rfl | rfl <;> exact ⟨hne, rfl⟩
  rw [tokens_word ht hended, fieldValue_ends n t hx, map_cons_iff, true_and]

theorem name_read {part : Part} (hstops : part.stops = fun c => isSeparator c || c == 61) {n : List UInt8}
    (hn : IsName n) (x : List UInt8) : tokens part [] (n ++ 61 :: x) = part.ends n (61 :: x) := by
  refine tokens_word (fun c hc => ?_) (ended_cons (by decide) (by rw [hstops]; rfl) x)
  obtain ⟨hne, hsep, heq⟩ := hn c hc
  refine ⟨hne, ?_⟩
  rw [hstops]
  simp [hsep, heq]

theorem tagName_read {n : List UInt8} (hn : IsName n) (x : List UInt8) :
    tokens .tagName [] (n ++ 61 :: x) = tokens (.tagValue n) [] x := by
  have hid : ∀ o : Option (List Token), o.map ([] ++ ·) = o := fun o => by simp
  rw [name_read rfl hn]
  exact hid _

theorem fieldName_read {n : List UInt8} (hn : IsName n) (x : List UInt8) :
    tokens .fieldName [] (n ++ 61 :: x) = tokens (.fieldValue n) [] x := by
  have hid : ∀ o : Option (List Token), o.map ([] ++ ·) = o := fun o => by simp
  rw [name_read rfl hn]
  exact hid _

variable {ι : Type} {name printed : ι → List UInt8} {ok : ι → Prop}

theorem ended_entries {stops : UInt8 → Bool} (h : stops 44 = true) (hx : Ended stops x)
    (es : List (List UInt8 × List UInt8)) : Ended stops (entries 44 es ++ x) := by
  cases es with
  | nil => exact hx
  | cons e es => exact ended_cons (by decide) h _

/-- Tags are read back exactly if each is. -/
theorem tags_read {value : ι → List UInt8} (items : List ι) (hname : ∀ i ∈ items, IsName (name i))
    (hread : ∀ i ∈ items, TagReads (printed i) (value i) (ok i)) (hx : Ended isSeparator x) :
    behindTag (entries 44 (items.map fun i => (name i, printed i)) ++ x) =
        some ((items.map fun i => .tag (name i) (value i)) ++ X) ↔
      (∀ i ∈ items, ok i) ∧ behindTag x = some X := by
  induction items with
  | nil => simp [entries]
  | cons i items ih =>
    obtain ⟨hn, hnames⟩ := List.forall_mem_cons.1 hname
    obtain ⟨hr, hreads⟩ := List.forall_mem_cons.1 hread
    have hfirst : behindTag (entries 44 ((i :: items).map fun i => (name i, printed i)) ++ x) =
        tokens (.tagValue (name i)) []
          (printed i ++ (entries 44 (items.map fun i => (name i, printed i)) ++ x)) := by
      rw [← tagName_read hn]
      simp [entries, behindTag]
    rw [hfirst, List.map_cons, List.cons_append, hr _ _ _ (ended_entries rfl hx _), ih hnames hreads,
      List.forall_mem_cons, and_assoc]

/-- Fields are read back exactly if each is. -/
theorem fields_read {value : ι → Datum} (items : List ι) (hname : ∀ i ∈ items, IsName (name i))
    (hread : ∀ i ∈ items, FieldReads (printed i) (value i) (ok i)) (hx : Ended endsField x) :
    behindField (entries 44 (items.map fun i => (name i, printed i)) ++ x) =
        some ((items.map fun i => .field (name i) (value i)) ++ X) ↔
      (∀ i ∈ items, ok i) ∧ behindField x = some X := by
  induction items with
  | nil => simp [entries]
  | cons i items ih =>
    obtain ⟨hn, hnames⟩ := List.forall_mem_cons.1 hname
    obtain ⟨hr, hreads⟩ := List.forall_mem_cons.1 hread
    have hfirst : behindField (entries 44 ((i :: items).map fun i => (name i, printed i)) ++ x) =
        tokens (.fieldValue (name i)) []
          (printed i ++ (entries 44 (items.map fun i => (name i, printed i)) ++ x)) := by
      rw [← fieldName_read hn]
      simp [entries, behindField]
    rw [hfirst, List.map_cons, List.cons_append, hr _ _ _ (ended_entries rfl hx _), ih hnames hreads,
      List.forall_mem_cons, and_assoc]

/-- Behind the last field of a line the next one begins. -/
def nextLine (x : List UInt8) : Option (List Token) := tokens .line [] x.tail

theorem behind_end (hx : Ended (· == 10) x) : behindTag x = nextLine x ∧ behindField x = nextLine x := by
  cases x with
  | nil => exact ⟨rfl, rfl⟩
  | cons c x =>
    obtain ⟨-, hc⟩ := hx c rfl
    obtain rfl : c = 10 := by simpa using hc
    exact ⟨rfl, rfl⟩

/-- A line is read back exactly if each of its tags and fields is. -/
theorem line_read {line : List UInt8} (hline : IsName line) (hne : line ≠ []) {printed' : ι → List UInt8}
    {ok' : ι → Prop} {value : ι → List UInt8} {value' : ι → Datum} (tags fields : List ι)
    (htags : ∀ i ∈ tags, IsName (name i) ∧ TagReads (printed i) (value i) (ok i))
    (hfields : ∀ i ∈ fields, IsName (name i) ∧ FieldReads (printed' i) (value' i) (ok' i))
    (hx : Ended (· == 10) x) :
    tokens .line [] (line ++ (entries 44 (tags.map fun i => (name i, printed i)) ++
        (entries 32 (fields.map fun i => (name i, printed' i)) ++ x))) =
        some (Line.tokens ⟨line, tags.map fun i => (name i, value i), fields.map fun i => (name i, value' i)⟩ ++
          X) ↔
      (∀ i ∈ tags, ok i) ∧ (∀ i ∈ fields, ok' i) ∧ nextLine x = some X := by
  have hends : ∀ {stops : UInt8 → Bool}, stops 10 = true → Ended stops x := by
    intro stops hstop c hc
    obtain ⟨hne', hten⟩ := hx c hc
    obtain rfl : c = 10 := by simpa using hten
    exact ⟨hne', hstop⟩
  -- the fields, behind the first separator
  have hrest : Ended isSeparator (entries 32 (fields.map fun i => (name i, printed' i)) ++ x) ∧
      (behindTag (entries 32 (fields.map fun i => (name i, printed' i)) ++ x) =
        some ((fields.map fun i => .field (name i) (value' i)) ++ X) ↔
      (∀ i ∈ fields, ok' i) ∧ nextLine x = some X) := by
    cases fields with
    | nil => exact ⟨hends rfl, by simp [entries, (behind_end hx).1]⟩
    | cons i fields =>
      refine ⟨ended_cons (by decide) rfl _, ?_⟩
      have hspace : behindTag (entries 32 ((i :: fields).map fun i => (name i, printed' i)) ++ x) =
          behindField (entries 44 ((i :: fields).map fun i => (name i, printed' i)) ++ x) := rfl
      rw [hspace, fields_read (i :: fields) (fun j hj => (hfields j hj).1) (fun j hj => (hfields j hj).2)
        (hends rfl), (behind_end hx).2]
  have hword : ∀ c ∈ line, c ≠ 92 ∧ isSeparator c = false := fun c hc => ⟨(hline c hc).1, (hline c hc).2.1⟩
  have hended : Ended isSeparator (entries 44 (tags.map fun i => (name i, printed i)) ++
      (entries 32 (fields.map fun i => (name i, printed' i)) ++ x)) := ended_entries rfl hrest.1 _
  have hfirst : tokens .line [] (line ++ (entries 44 (tags.map fun i => (name i, printed i)) ++
      (entries 32 (fields.map fun i => (name i, printed' i)) ++ x))) = Part.line.ends line _ :=
    tokens_word hword hended
  rw [hfirst, line_ends hne, Line.tokens, List.map_map, List.map_map, List.cons_append, List.cons_append,
    map_cons_iff, List.append_assoc]
  exact (tags_read tags (fun j hj => (htags j hj).1) (fun j hj => (htags j hj).2) hrest.1).trans
    (and_congr Iff.rfl hrest.2)

end Written

end Netp.Lib
