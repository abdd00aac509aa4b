import Netp.Broker.Stash
import Netp.Lib.LineProtocol

/-! # Reading the database lines

`lineProtocolStrEscape` puts a backslash in front of a quote and of nothing else. Between quotes a string
comes back unless there is a backslash in it (`string_fieldReads`); as a tag it must not have a separator
either (`string_tagReads`).
-/

namespace Netp.Broker.Influx
open Netp.Lib Netp.Genf
set_option autoImplicit false

section Escape
variable {stops : UInt8 → Bool} {c : UInt8} {s u w x y z : List UInt8}

/-- Strings that come back from a piece that `stops` ends: a backslash stands before a quote only. -/
def comesBack (stops : UInt8 → Bool) : List UInt8 → Bool
  | [] => true
  | c :: s =>
      if c = 92 then !stops 34 && s.head? == some 34 && comesBack stops s
      else (c == 34 || !stops c) && comesBack stops s

theorem escape_nil : lineProtocolStrEscape [] = [] := rfl

theorem escape_quote (s : List UInt8) : lineProtocolStrEscape (34 :: s) = 92 :: 34 :: lineProtocolStrEscape s := rfl

theorem escape_other (h : c ≠ 34) (s : List UInt8) :
    lineProtocolStrEscape (c :: s) = c :: lineProtocolStrEscape s := by
  simp [lineProtocolStrEscape, h]

theorem scan_backslash (h : scan stops z = some (92 :: w, y)) :
    ∃ z', z = 92 :: 92 :: z' ∧ scan stops z' = some (w, y) := by
  cases z with
  | nil => cases h
  | cons c z =>
    by_cases hc : c = 92
    · subst hc
      cases z with
      | nil => cases h
      | cons d z =>
        rw [scan_escaped] at h
        obtain ⟨r, hr, heq⟩ := Option.map_eq_some_iff.1 h
        rw [Prod.mk.injEq, List.cons.injEq] at heq
        obtain ⟨⟨rfl, rfl⟩, rfl⟩ := heq
        exact ⟨z, rfl, hr⟩
    · cases hstop : stops c with
      | true =>
        rw [scan_stop hc hstop] at h
        cases h
      | false =>
        rw [scan_next hc hstop] at h
        obtain ⟨r, hr, heq⟩ := Option.map_eq_some_iff.1 h
        rw [Prod.mk.injEq, List.cons.injEq] at heq
        exact absurd heq.1.1 hc

/-- Two bytes of an escaped string of which the first is a backslash. -/
theorem escape_backslash (hx : Ended stops x) (h : lineProtocolStrEscape u ++ x = 92 :: z) :
    (∃ v, u = 34 :: v ∧ z = 34 :: (lineProtocolStrEscape v ++ x)) ∨
      ∃ v, u = 92 :: v ∧ z = lineProtocolStrEscape v ++ x := by
  cases u with
  | nil =>
    rw [escape_nil, List.nil_append] at h
    obtain ⟨hne, -⟩ := hx 92 (by rw [h]; rfl)
    exact absurd rfl hne
  | cons c v =>
    by_cases hc : c = 34
    · subst hc
      rw [escape_quote, List.cons_append, List.cons_append, List.cons.injEq] at h
      exact .inl ⟨v, rfl, h.2.symm⟩
    · rw [escape_other hc, List.cons_append, List.cons.injEq] at h
      obtain ⟨rfl, rfl⟩ := h
      exact .inr ⟨v, rfl, rfl⟩

/-- Once a backslash has been lost the string stays behind by one, up to the end of the backslashes. -/
theorem scan_run (hx : Ended stops x) (n : ℕ) : ∀ (m : ℕ) (u y : List UInt8), u.length ≤ n →
    scan stops (lineProtocolStrEscape u ++ x) ≠ some (92 :: (List.replicate m 92 ++ u), y) := by
  induction n with
  | zero =>
    intro m u y hu h
    obtain rfl : u = [] := List.length_eq_zero_iff.1 (by omega)
    rw [escape_nil, List.nil_append, hx.scan] at h
    cases h
  | succ n ih =>
    intro m u y hu h
    obtain ⟨z, hz, hscan⟩ := scan_backslash h
    rcases escape_backslash hx hz with ⟨v, rfl, hv⟩ | ⟨v, rfl, hv⟩
    · cases hv
    · rcases escape_backslash hx hv.symm with ⟨v', rfl, rfl⟩ | ⟨v', rfl, rfl⟩
      · -- a quote behind the backslash
        rw [show List.replicate m 92 ++ 92 :: 34 :: v' = List.replicate (m + 1) 92 ++ 34 :: v' by
          rw [List.replicate_succ', List.append_assoc]; rfl, List.replicate_succ, List.cons_append] at hscan
        obtain ⟨z', hz', -⟩ := scan_backslash hscan
        cases hz'
      · rw [show List.replicate m 92 ++ 92 :: 92 :: v' = 92 :: (List.replicate (m + 1) 92 ++ v') by
          rw [← List.cons_append, ← List.replicate_succ, List.replicate_succ', List.replicate_succ',
            List.append_assoc, List.append_assoc]; rfl] at hscan
        simp only [List.length_cons] at hu
        exact ih (m + 1) v' y (by omega) hscan

theorem scan_escape_iff (hx : Ended stops x) (s y : List UInt8) :
    scan stops (lineProtocolStrEscape s ++ x) = some (s, y) ↔ comesBack stops s = true ∧ y = x := by
  have hcons : ∀ (c : UInt8) (o : Option (List UInt8 × List UInt8)) (s : List UInt8),
      (o.map fun r => (c :: r.1, r.2)) = some (c :: s, y) ↔ o = some (s, y) := by
    intro c o s
    cases o with
    | none => simp
    | some r => simp [Prod.ext_iff]
  induction s with
  | nil =>
    rw [escape_nil, List.nil_append, hx.scan]
    simp [comesBack, eq_comm]
  | cons c s ih =>
    by_cases hq : c = 34
    · subst hq
      rw [escape_quote, List.cons_append, List.cons_append, scan_escaped, hcons]
      refine ih.trans ?_
      simp [comesBack]
    · rw [escape_other hq, List.cons_append]
      by_cases hc : c = 92
      · subst hc
        constructor
        · intro h
          obtain ⟨z, hz, hscan⟩ := scan_backslash h
          rw [List.cons.injEq] at hz
          rcases escape_backslash hx hz.2 with ⟨v, rfl, rfl⟩ | ⟨v, rfl, rfl⟩
          · cases hstop : stops 34 with
            | true =>
              rw [scan_stop (by decide) hstop] at hscan
              cases hscan
            | false =>
              rw [scan_next (by decide) hstop, hcons] at hscan
              rw [escape_quote, List.cons_append, List.cons_append, scan_escaped, hcons] at ih
              obtain ⟨hback, rfl⟩ := ih.1 hscan
              exact ⟨by simp [comesBack, hstop] at hback ⊢; exact hback, rfl⟩
          · exact absurd hscan (scan_run hx _ 0 v y le_rfl)
        · rintro ⟨hback, rfl⟩
          simp only [comesBack, if_true, Bool.and_eq_true, Bool.not_eq_true', beq_iff_eq] at hback
          obtain ⟨⟨hstop, hhead⟩, hback⟩ := hback
          obtain ⟨v, rfl⟩ := List.head?_eq_some_iff.1 hhead
          have hrest := ih.2 ⟨hback, rfl⟩
          rw [escape_quote, List.cons_append, List.cons_append, scan_escaped, hcons] at hrest
          rw [escape_quote, List.cons_append, List.cons_append, scan_escaped, hcons,
            scan_next (by decide) hstop, hrest]
          rfl
      · cases hstop : stops c with
        | true =>
          rw [scan_stop hc hstop]
          simp [comesBack, hc, hq, hstop]
        | false =>
          rw [scan_next hc hstop, hcons]
          refine ih.trans ?_
          simp [comesBack, hc, hstop]

/-- A tag comes back if there is no separator in it, and no backslash but in front of a quote. -/
theorem string_tagReads (s : List UInt8) : TagReads (quoted true s) s (comesBack isSeparator s = true) := by
  intro n x X hx
  have hscan : ∀ y, scan isSeparator (quoted true s ++ x) = some (s, y) ↔ comesBack isSeparator s = true ∧ y = x :=
    scan_escape_iff hx s
  rw [tokens_scan]
  change (scan isSeparator (quoted true s ++ x)).bind _ = _ ↔ _
  constructor
  · intro h
    obtain ⟨⟨w, y⟩, hw, hends⟩ := Option.bind_eq_some_iff.1 h
    simp only [List.nil_append] at hends
    rw [tagValue_ends] at hends
    obtain ⟨Y, hY, hcons⟩ := Option.map_eq_some_iff.1 hends
    rw [List.singleton_append, List.cons.injEq, Token.tag.injEq] at hcons
    obtain ⟨⟨-, rfl⟩, rfl⟩ := hcons
    obtain ⟨hback, rfl⟩ := (hscan y).1 hw
    exact ⟨hback, hY⟩
  · rintro ⟨hback, hX⟩
    rw [(hscan x).2 ⟨hback, rfl⟩, Option.bind_some]
    simp only [List.nil_append]
    rw [tagValue_ends, hX]
    rfl

theorem comesBack_quote : ∀ s : List UInt8, comesBack (· == 34) s = true ↔ 92 ∉ s
  | [] => by simp [comesBack]
  | c :: s => by
    have hrest := comesBack_quote s
    by_cases hc : c = 92
    · simp [comesBack, hc]
    · simp [comesBack, hc, hrest, Ne.symm hc]

theorem string_fieldReads (s : List UInt8) : FieldReads (quoted false s) (.string s) (92 ∉ s) := by
  intro n x X hx
  have hended : Ended (· == 34) (34 :: x) := ended_cons (by decide) rfl x
  have hscan : ∀ y, scan (· == 34) (lineProtocolStrEscape s ++ 34 :: x) = some (s, y) ↔
      comesBack (· == 34) s = true ∧ y = 34 :: x := scan_escape_iff hended s
  have hid : ∀ o : Option (List Token), o.map ([] ++ ·) = o := fun o => by simp
  have hopen : tokens (.fieldValue n) [] (quoted false s ++ x) =
      tokens (.string n) [] (lineProtocolStrEscape s ++ 34 :: x) := by
    have hquoted : quoted false s ++ x = 34 :: (lineProtocolStrEscape s ++ 34 :: x) := by simp [quoted]
    rw [hquoted, tokens_stop (by decide) rfl]
    exact hid _
  rw [hopen, tokens_scan, ← comesBack_quote s]
  change (scan (· == 34) (lineProtocolStrEscape s ++ 34 :: x)).bind _ = _ ↔ _
  constructor
  · intro h
    obtain ⟨⟨w, y⟩, hw, hends⟩ := Option.bind_eq_some_iff.1 h
    cases y with
    | nil => cases hends
    | cons c y =>
      obtain ⟨Y, hY, hcons⟩ := Option.map_eq_some_iff.1 hends
      simp only [List.nil_append, List.singleton_append, List.cons.injEq, Token.field.injEq,
        Datum.string.injEq] at hcons
      obtain ⟨⟨-, rfl⟩, rfl⟩ := hcons
      obtain ⟨hback, hrest⟩ := (hscan _).1 hw
      obtain ⟨rfl, rfl⟩ := List.cons.inj hrest
      have hnext : tokens .stringEnd [] y = some Y := hY
      rw [stringEnd_read hx] at hnext
      exact ⟨hback, hnext⟩
  · rintro ⟨hback, hX⟩
    rw [(hscan (34 :: x)).2 ⟨hback, rfl⟩, Option.bind_some]
    have hclose : (Part.string n).ends ([] ++ s) (34 :: x) =
        (tokens .stringEnd [] x).map ([.field n (.string s)] ++ ·) := rfl
    rw [hclose, stringEnd_read hx, hX]
    rfl

end Escape

/-! ## What a record holds, and its line -/

/-- A field of a record and what was last set in it. -/
structure Held where
  field : RecordFieldDef
  value : Option Value

/-- The record's bytes where nothing was set. -/
def zeroValue : FieldType → Value
  | .bool => .bool false
  | .int => .int 0
  | .uint => .uint 0
  | .long => .long 0
  | .ulong => .ulong 0
  | .string => .string []
  | .char _ => .char []
  | .list _ => .uint 0

/-- A value as it stands in a line. Of a `char(N)` there are at most N bytes, up to a zero. -/
def datumOf : FieldType → Value → Datum
  | _, .bool b => .bare (if b then bytes "t" else bytes "f")
  | _, .int v => .bare (decimal v.toInt)
  | _, .uint v => .bare (decimal v.toNat)
  | _, .long v => .bare (decimal v.toInt)
  | _, .ulong v => .bare (decimal v.toNat)
  | _, .string s => .string s
  | .char n, .char bs => .string (cstr (bs.take n))
  | _, .char bs => .string (cstr bs)

def textOf : Datum → List UInt8
  | .bare text => text
  | .string text => text

namespace Held

def datum (h : Held) : Datum := datumOf h.field.type (h.value.getD (zeroValue h.field.type))

/-- A string is there. -/
def IsSet (h : Held) : Prop := h.field.type = .string → h.value ≠ none

/-- The text of a tag has no separator, and a backslash only in front of a quote; that of another field has
no backslash. -/
def Clear (h : Held) : Prop :=
  match h.datum with
  | .bare _ => True
  | .string s => if h.field.tag then comesBack isSeparator s = true else 92 ∉ s

instance : DecidablePred IsSet := fun h => inferInstanceAs (Decidable (h.field.type = .string → h.value ≠ none))

instance : DecidablePred Clear := fun h =>
  match hd : h.datum with
  | .bare _ => isTrue (by simp [Clear, hd])
  | .string s => decidable_of_iff (if h.field.tag then comesBack isSeparator s = true else 92 ∉ s)
      (by simp [Clear, hd])

end Held

/-- The fields that are tags, or that are not. Lists are not included. -/
def written (tags : Bool) (record : List Held) : List Held :=
  record.filter fun h => h.field.tag = tags ∧ listStruct h.field.type = none

/-- The line for a record. -/
def lineOf (name : List UInt8) (record : List Held) : Line where
  name := name
  tags := (written true record).map fun h => (h.field.id.text, textOf h.datum)
  fields := (written false record).map fun h => (h.field.id.text, h.datum)

/-- How a value is put. -/
def shown (tags : Bool) : Datum → List UInt8
  | .bare text => text
  | .string s => quoted tags s

/-- What is put for the line. -/
def lineText (name : List UInt8) (record : List Held) : List UInt8 :=
  name ++ (entries 44 ((written true record).map fun h => (h.field.id.text, shown true h.datum)) ++
    entries 32 ((written false record).map fun h => (h.field.id.text, shown false h.datum)))

section Lines
variable {h : Held} {record : List Held} {name x : List UInt8} {X : List Token}

/-- A byte of a number or of a truth value. -/
def Plain (c : UInt8) : Prop := c ≠ 92 ∧ (isSeparator c || c == 34) = false

theorem plain_of_toNat {c : UInt8} (h : c.toNat = 45 ∨ 48 ≤ c.toNat ∧ c.toNat ≤ 57) : Plain c := by
  have hne : ∀ d : UInt8, d.toNat ≠ c.toNat → c ≠ d := by
    rintro d hd rfl
    exact hd rfl
  have h92 := hne 92 (by simp; omega)
  have h44 := hne 44 (by simp; omega)
  have h32 := hne 32 (by simp; omega)
  have h10 := hne 10 (by simp; omega)
  have h34 := hne 34 (by simp; omega)
  exact ⟨h92, by simp [isSeparator, h44, h32, h10, h34]⟩

theorem decimal_plain (v : ℤ) : ∀ c ∈ decimal v, Plain c := by
  have hdigit : ∀ (n : ℕ) (c : Char), c ∈ n.repr.toList → 48 ≤ c.toNat ∧ c.toNat ≤ 57 := by
    intro n c hc
    rw [Nat.toList_repr] at hc
    have hd := Nat.isDigit_of_mem_toDigits (by decide) (by decide) hc
    simp only [Char.isDigit, Bool.and_eq_true, decide_eq_true_eq] at hd
    exact hd
  have hchar : ∀ c ∈ (toString v).toList, c.toNat = 45 ∨ 48 ≤ c.toNat ∧ c.toNat ≤ 57 := by
    intro c hc
    rw [Int.toString_eq_repr, Int.repr_eq_if] at hc
    split_ifs at hc
    · exact .inr (hdigit _ c hc)
    · rw [String.toList_append] at hc
      rcases List.mem_append.1 hc with hc | hc
      · left
        obtain rfl : c = '-' := by simpa using hc
        rfl
      · exact .inr (hdigit _ c hc)
  intro b hb
  obtain ⟨c, hc, rfl⟩ := List.mem_map.1 hb
  have hbound := hchar c hc
  refine plain_of_toNat ?_
  have hbyte : c.toNat.toUInt8.toNat = c.toNat := by
    rw [Nat.toUInt8_eq, UInt8.toNat_ofNat', Nat.mod_eq_of_lt (by omega)]
  rw [hbyte]
  exact hbound

theorem datum_plain {text : List UInt8} (hd : h.datum = .bare text) : ∀ c ∈ text, Plain c := by
  have hbool : ∀ b : Bool, ∀ c ∈ (if b then bytes "t" else bytes "f"), Plain c := by
    intro b c hc
    have hall : (∀ c ∈ bytes "t", Plain c) ∧ ∀ c ∈ bytes "f", Plain c := by
      unfold Plain
      decide +kernel
    cases b with
    | true => exact hall.1 c hc
    | false => exact hall.2 c hc
  unfold Held.datum datumOf at hd
  split at hd <;> cases hd
  · exact hbool _
  all_goals exact decimal_plain _

theorem held_tagReads (ht : h.field.tag = true) : TagReads (shown true h.datum) (textOf h.datum) h.Clear := by
  unfold Held.Clear
  cases hd : h.datum with
  | bare text =>
    refine bare_tagReads fun c hc => ?_
    obtain ⟨hne, hstop⟩ := datum_plain hd c hc
    exact ⟨hne, (Bool.or_eq_false_iff.1 hstop).1⟩
  | string s =>
    simp only [if_pos ht]
    exact string_tagReads s

theorem held_fieldReads (ht : h.field.tag = false) : FieldReads (shown false h.datum) h.datum h.Clear := by
  unfold Held.Clear
  cases hd : h.datum with
  | bare text => exact bare_fieldReads (datum_plain hd)
  | string s =>
    simp only [if_neg (by rw [ht]; exact Bool.false_ne_true : ¬ h.field.tag = true)]
    exact string_fieldReads s

theorem mem_written {tags : Bool} :
    h ∈ written tags record ↔ h ∈ record ∧ h.field.tag = tags ∧ listStruct h.field.type = none := by
  rw [written, List.mem_filter]
  simp

/-- Every string that is included comes back. -/
def AllClear (record : List Held) : Prop := ∀ h ∈ record, listStruct h.field.type = none → h.Clear

instance : DecidablePred AllClear := fun record =>
  inferInstanceAs (Decidable (∀ h ∈ record, listStruct h.field.type = none → h.Clear))

theorem lineText_reads (hname : IsName name) (hne : name ≠ []) (hids : ∀ h ∈ record, IsName h.field.id.text)
    (hx : Ended (· == 10) x) :
    tokens .line [] (lineText name record ++ x) = some ((lineOf name record).tokens ++ X) ↔
      AllClear record ∧ nextLine x = some X := by
  have hread := line_read (X := X) hname hne (written true record) (written false record)
    (fun h hh => ⟨hids h (mem_written.1 hh).1, held_tagReads (mem_written.1 hh).2.1⟩)
    (fun h hh => ⟨hids h (mem_written.1 hh).1, held_fieldReads (mem_written.1 hh).2.1⟩) hx
  have hclear : ((∀ h ∈ written true record, h.Clear) ∧ ∀ h ∈ written false record, h.Clear) ↔
      AllClear record := by
    constructor
    · rintro ⟨htags, hfields⟩ h hh hlist
      cases ht : h.field.tag with
      | true => exact htags h (mem_written.2 ⟨hh, ht, hlist⟩)
      | false => exact hfields h (mem_written.2 ⟨hh, ht, hlist⟩)
    · intro hall
      exact ⟨fun h hh => hall h (mem_written.1 hh).1 (mem_written.1 hh).2.2,
        fun h hh => hall h (mem_written.1 hh).1 (mem_written.1 hh).2.2⟩
  rw [← hclear, and_assoc, ← hread, lineText, lineOf, List.append_assoc, List.append_assoc]

/-- The lines of some records read as their lines and no others. -/
theorem lines_read (hname : IsName name) (hne : name ≠ []) (records : List (List Held))
    (hids : ∀ record ∈ records, ∀ h ∈ record, IsName h.field.id.text) (others : List Line) :
    ReadsAs (records.flatMap fun record => lineText name record ++ [10]) (records.map (lineOf name) ++ others) ↔
      (∀ record ∈ records, AllClear record) ∧ others = [] := by
  unfold ReadsAs
  induction records with
  | nil =>
    have hempty : tokens .line [] [] = some [] := by simp [tokens, Part.close]
    have hnil : others.flatMap Line.tokens = [] ↔ others = [] :=
      ⟨fun h => Line.tokens_injective h, fun h => by rw [h]; rfl⟩
    rw [List.flatMap_nil, List.map_nil, List.nil_append, hempty, Option.some.injEq, eq_comm, hnil]
    simp
  | cons record records ih =>
    obtain ⟨hid, hrest⟩ := List.forall_mem_cons.1 hids
    have hended : Ended (· == 10) (10 :: records.flatMap fun record => lineText name record ++ [10]) :=
      ended_cons (by decide) rfl _
    have hfirst := lineText_reads (X := (records.map (lineOf name) ++ others).flatMap Line.tokens) hname hne hid
      hended
    rw [List.flatMap_cons, List.append_assoc, List.singleton_append, List.map_cons, List.cons_append,
      List.flatMap_cons, List.forall_mem_cons, and_assoc]
    exact hfirst.trans (and_congr Iff.rfl (ih hrest))

end Lines

end Netp.Broker.Influx
