import Mathlib.Data.List.DropRight
import Netp.Lib.Phrases
import Netp.Parse.JsonDoc

/-! # JSON texts

The language of `JSON_tree` as a grammar: an `IsValue` is a text and the `Value` it denotes. The
characters that may stand behind a backslash are a parameter: JSON has eight of them and `\u`, the machine
takes any but the control characters.
-/

namespace Netp.Parse.JsonGrammar
open Netp.Lib Netp.Parse.Json
open JsonParse (Literal mapInsert)
set_option autoImplicit false

/-! ## Tokens -/

/-- `ignore*`: white space and comments. -/
inductive Ignored : Text → Prop
  | nil : Ignored []
  | space {c : UInt8} {t : Text} (hc : c ∈ [32, 9, 13, 10]) (h : Ignored t) : Ignored (c :: t)
  | block {body t : Text} (hbody : ¬[42, 47] <:+: body) (h : Ignored t) :
      Ignored (47 :: 42 :: (body ++ 42 :: 47 :: t))
  | line {body t : Text} (hbody : 10 ∉ body) (h : Ignored t) : Ignored (47 :: 47 :: (body ++ 10 :: t))

/-- What may stand behind a backslash in JSON, but for `u`. -/
def jsonEscape (c : UInt8) : Prop := c ∈ bytes "\"\\/bfnrt"

/-- What may stand there in `JSON_tree`. -/
def anyEscape (c : UInt8) : Prop := 32 ≤ c ∧ c ≠ 117

/-- What stands between the quotes of a string. -/
inductive Chars (escape : UInt8 → Prop) : Text → Prop
  | nil : Chars escape []
  | char {c : UInt8} {t : Text} (hc : 32 ≤ c) (hquote : c ≠ 34) (hslash : c ≠ 92) (h : Chars escape t) :
      Chars escape (c :: t)
  | escape {c : UInt8} {t : Text} (hc : escape c) (h : Chars escape t) : Chars escape (92 :: c :: t)
  | unicode {hex t : Text} (hlen : hex.length = 4) (hhex : ∀ c ∈ hex, isHexDigit c) (h : Chars escape t) :
      Chars escape (92 :: 117 :: (hex ++ t))

def Digits (t : Text) : Prop := ∀ c ∈ t, isDigit c

inductive Whole : Text → Prop
  | zero : Whole [48]
  | digits {d : UInt8} {ds : Text} (hd : isDigit d) (hzero : d ≠ 48) (hds : Digits ds) : Whole (d :: ds)

inductive Fraction : Text → Prop
  | none : Fraction []
  | digits {ds : Text} (hne : ds ≠ []) (hds : Digits ds) : Fraction (46 :: ds)

inductive Exponent : Text → Prop
  | none : Exponent []
  | digits {e : UInt8} {sign ds : Text} (he : isE e) (hsign : sign ∈ [[], [43], [45]]) (hne : ds ≠ [])
      (hds : Digits ds) : Exponent (e :: (sign ++ ds))

/-- A fraction without the zeros at its end, and without the dot if there is nothing else. -/
def shortened (fraction : Text) : Text :=
  let kept := fraction.rdropWhile (· = 48)
  if kept = [46] then [] else kept

/-- A number, and its text in the `Value`. -/
inductive IsNumber : Text → Text → Prop
  | mk {sign whole fraction exponent : Text} (hs : sign ∈ [[], [45]]) (hw : Whole whole)
      (hf : Fraction fraction) (he : Exponent exponent) :
      IsNumber (sign ++ (whole ++ (fraction ++ exponent)))
        (sign ++ (whole ++ if exponent = [] then shortened fraction else fraction ++ exponent))

def literalText : Literal → Text
  | .null => bytes "null"
  | .false => bytes "false"
  | .true => bytes "true"
  | .nan => bytes "NaN"
  | .infinity => bytes "Infinity"

/-! ## Values -/

section Lists
variable {α : Type} (P : Phrases UInt8 α) (close : UInt8)

/-- What is behind an item, up to the closing bracket. -/
inductive Rest : Text → List α → Prop
  | close : Rest [close] []
  | comma {w t w' u : Text} {x : α} {xs : List α} (hw : Ignored w) (hx : P t x) (hw' : Ignored w')
      (h : Rest u xs) : Rest (44 :: (w ++ (t ++ (w' ++ u)))) (x :: xs)

/-- What is behind an opening bracket, up to the closing one. -/
inductive Items : Text → List α → Prop
  | none : Items [close] []
  | some {t w u : Text} {x : α} {xs : List α} (hx : P t x) (hw : Ignored w) (h : Rest P close u xs) :
      Items (t ++ (w ++ u)) (x :: xs)

end Lists

/-- A field of an object. -/
inductive Field (escape : UInt8 → Prop) (P : Phrases UInt8 Value) : Text → Text × Value → Prop
  | mk {name w w' t : Text} {x : Value} (hname : Chars escape name) (hw : Ignored w) (hw' : Ignored w')
      (h : P t x) : Field escape P (34 :: (name ++ 34 :: (w ++ 58 :: (w' ++ t)))) (name, x)

/-- The map of the fields: each name once, in order, with its last value. -/
structure Maps (o : List (Text × Value)) (fields : List (Text × Value)) : Prop where
  sorted : o.Pairwise fun f g => f.1 < g.1
  last : ∀ key, o.lookup key = fields.reverse.lookup key

inductive IsValue (escape : UInt8 → Prop) : Text → Value → Prop
  | literal (l : Literal) : IsValue escape (literalText l) l.value
  | number {t s : Text} (h : IsNumber t s) : IsValue escape t (.number s)
  | string {s : Text} (h : Chars escape s) : IsValue escape (34 :: (s ++ [34])) (.string s)
  | array {w t : Text} {a : List Value} (hw : Ignored w) (h : Items (IsValue escape) 93 t a) :
      IsValue escape (91 :: (w ++ t)) (.array a)
  | object {w t : Text} {fields o : List (Text × Value)} (hw : Ignored w)
      (h : Items (Field escape (IsValue escape)) 125 t fields) (ho : Maps o fields) :
      IsValue escape (123 :: (w ++ t)) (.object o)

/-- One value, between white space and comments. -/
def Denotes (escape : UInt8 → Prop) (text : Text) (x : Value) : Prop :=
  ∃ w t w', text = w ++ (t ++ w') ∧ Ignored w ∧ IsValue escape t x ∧ Ignored w'

/-! ## The map of the fields -/

section Maps
variable {o o' fields : List (Text × Value)} {k key : Text} {v : Value}

theorem lookup_entry (k : Text) (v : Value) (o : List (Text × Value)) (key : Text) :
    ((k, v) :: o).lookup key = if key = k then some v else o.lookup key := by
  rw [List.lookup_cons]
  by_cases h : key = k
  · rw [if_pos h, beq_iff_eq.mpr h]
  · rw [if_neg h, beq_eq_false_iff_ne.mpr h]

theorem lookup_mapInsert : (mapInsert k v o).lookup key = if key = k then some v else o.lookup key := by
  induction o with
  | nil => exact lookup_entry k v [] key
  | cons f o ih =>
    obtain ⟨k', v'⟩ := f
    simp only [mapInsert]
    by_cases hk : k' = k
    · subst hk
      rw [if_pos rfl, lookup_entry, lookup_entry]
      by_cases hkey : key = k' <;> simp [hkey]
    · rw [if_neg hk]
      split_ifs with hlt hkey hkey
      · rw [lookup_entry, if_pos hkey]
      · rw [lookup_entry, if_neg hkey]
      · rw [lookup_entry, ih, if_neg (hkey ▸ Ne.symm hk), if_pos hkey]
      · rw [lookup_entry, lookup_entry, ih, if_neg hkey]

theorem mapInsert_sorted (h : o.Pairwise fun f g => f.1 < g.1) :
    (mapInsert k v o).Pairwise fun f g => f.1 < g.1 := by
  induction o with
  | nil => exact List.pairwise_singleton _ _
  | cons f o ih =>
    obtain ⟨k', v'⟩ := f
    obtain ⟨hhead, htail⟩ := List.pairwise_cons.mp h
    simp only [mapInsert]
    split_ifs with hk hlt
    · exact List.pairwise_cons.mpr ⟨fun g hg => hk ▸ hhead g hg, htail⟩
    · refine List.pairwise_cons.mpr ⟨fun g hg => ?_, h⟩
      rcases List.mem_cons.mp hg with rfl | hg
      · exact hlt
      · exact List.lt_trans hlt (hhead g hg)
    · refine List.pairwise_cons.mpr ⟨fun g hg => ?_, ih htail⟩
      have hkey : g.1 = k ∨ g.1 ∈ o.map Prod.fst := Doc.mapInsert_keys (List.mem_map_of_mem hg)
      rcases hkey with hkey | hkey
      · rw [hkey]
        exact Std.lt_of_le_of_ne hlt hk
      · obtain ⟨g', hg', heq⟩ := List.mem_map.mp hkey
        rw [← heq]
        exact hhead g' hg'

theorem lookup_none (h : ∀ f ∈ o, key < f.1) : o.lookup key = none := by
  rw [List.lookup_eq_none_iff]
  intro f hf
  have := h f hf
  simp only [bne_iff_ne, ne_eq]
  rintro rfl
  exact List.lt_irrefl _ this

theorem sorted_ext (h : o.Pairwise fun f g => f.1 < g.1) (h' : o'.Pairwise fun f g => f.1 < g.1)
    (hlookup : ∀ key, o.lookup key = o'.lookup key) : o = o' := by
  induction o generalizing o' with
  | nil =>
    cases o' with
    | nil => rfl
    | cons f o' => simpa [lookup_entry f.1 f.2] using hlookup f.1
  | cons f o ih =>
    cases o' with
    | nil => simpa [lookup_entry f.1 f.2] using hlookup f.1
    | cons g o' =>
      obtain ⟨k, v⟩ := f
      obtain ⟨k', v'⟩ := g
      obtain ⟨hf, ho⟩ := List.pairwise_cons.mp h
      obtain ⟨hg, ho'⟩ := List.pairwise_cons.mp h'
      have hk : k = k' := by
        by_contra hne
        by_cases hlt : k < k'
        · have := hlookup k
          rw [lookup_none (o := (k', v') :: o')] at this
          · simp at this
          · intro f hf'
            rcases List.mem_cons.mp hf' with rfl | hf'
            · exact hlt
            · exact List.lt_trans hlt (hg f hf')
        · have hlt' : k' < k := Std.lt_of_le_of_ne hlt (Ne.symm hne)
          have := hlookup k'
          rw [lookup_none (o := (k, v) :: o)] at this
          · simp at this
          · intro f hf'
            rcases List.mem_cons.mp hf' with rfl | hf'
            · exact hlt'
            · exact List.lt_trans hlt' (hf f hf')
      subst hk
      have hv : v = v' := by simpa using hlookup k
      subst hv
      rw [ih ho ho' ?_]
      intro key
      by_cases hkey : key = k
      · subst hkey
        rw [lookup_none hf, lookup_none hg]
      · have hnext := hlookup key
        rwa [lookup_entry, lookup_entry, if_neg hkey, if_neg hkey] at hnext

theorem mapOf_maps (fields : List (Text × Value)) : Maps (Doc.mapOf fields) fields := by
  induction fields using List.reverseRecOn with
  | nil => exact ⟨List.Pairwise.nil, fun _ => rfl⟩
  | append_singleton fields f ih =>
    have hmap : Doc.mapOf (fields ++ [f]) = mapInsert f.1 f.2 (Doc.mapOf fields) := List.foldl_append
    rw [hmap]
    refine ⟨mapInsert_sorted ih.sorted, fun key => ?_⟩
    rw [lookup_mapInsert, ih.last, List.reverse_append, List.reverse_singleton, List.singleton_append,
      lookup_entry]

theorem maps_iff : Maps o fields ↔ o = Doc.mapOf fields := by
  constructor
  · intro h
    refine sorted_ext h.sorted (mapOf_maps fields).sorted fun key => ?_
    rw [h.last, (mapOf_maps fields).last]
  · rintro rfl
    exact mapOf_maps fields

end Maps

end Netp.Parse.JsonGrammar
