import Netp.Parse.HttpReq
import Netp.Parse.Html
import Netp.Parse.JsonTree

/-! # The parser of HTTP bodies (`parse/httprsp.rl`, `parse/ident.rl`)

`HttpBodyParser` gives the begin of a body to `FileIdent` until that has decided on a type, and then
chooses a parser. The parser gets the data of the call that brought the decision, and what follows.
-/

namespace Netp.Parse
open Netp.Lib
set_option autoImplicit false

/-! ## The type of a file -/

/-- `FileIdent::FileType`. -/
inductive FileType
  | working | html | png | jpg | gif | bz | z | gz | zip | pe | unknown
  deriving DecidableEq

namespace FileIdent

inductive State
  | error
  | start | space
  -- '<' and '<html', with the number of bytes of the name
  | lt | ltSpace | html (n : ℕ) | htmlSpace
  -- '<!', '<!doctype' and its 'html'
  | bang | doctype (n : ℕ) | doctypeSpace | doctypeHtml (n : ℕ)
  -- a signature of which these bytes are left; 0x1f is the begin of two
  | magic (rest : Text) (type : FileType) | deflate
  -- 'M', 'MZ' with the number of bytes behind it, the bytes up to the PE header
  | m | mz (n : ℕ) | skip | peHeader (rest : Text)
  | final
  deriving DecidableEq

end FileIdent

structure FileIdent where
  cs : FileIdent.State
  fileType : FileType
  c : ℤ
  nbytes : ℤ

namespace FileIdent

/-- `start` -/
def init : FileIdent := ⟨.start, .working, 0, 0⟩

def goto (f : FileIdent) (cs : State) : FileIdent := { f with cs := cs }

/-- The end of a signature, which leaves the machine with `fbreak`. -/
def found (f : FileIdent) (type : FileType) : FileIdent := { f with cs := .final, fileType := type }

def isBlank (b : UInt8) : Bool := b = 32 ∨ b = 9

/-- The first byte of a signature other than those of HTML. There is no JPG here: its bytes stand in
the source behind the end of the doctype, without a bar between. -/
def signature (f : FileIdent) (b : UInt8) : FileIdent :=
  if b = 0x89 then f.goto (.magic [0x50, 0x4e, 0x47] .png)
  else if b = 0x47 then f.goto (.magic [0x49, 0x46, 0x38] .gif)
  else if b = 0x42 then f.goto (.magic [0x5a] .bz)
  else if b = 0x1f then f.goto .deflate
  else if b = 0x50 then f.goto (.magic [0x4b, 0x03, 0x04] .zip)
  else if b = 77 then f.goto .m
  else f.goto .error

def step (f : FileIdent) (b : UInt8) : FileIdent :=
  match f.cs with
  | .error => f
  | .start =>
      if isBlank b ∨ b = 13 ∨ b = 10 then f.goto .space
      else if b = 60 then f.goto .lt
      else f.signature b
  | .space =>
      if isBlank b ∨ b = 13 ∨ b = 10 then f.goto .space
      else if b = 60 then f.goto .lt
      else f.goto .error
  | .lt =>
      if isBlank b then f.goto .ltSpace
      else if tolower b = 104 then f.goto (.html 1)
      else if b = 33 then f.goto .bang
      else f.goto .error
  | .ltSpace =>
      if isBlank b then f.goto .ltSpace
      else if tolower b = 104 then f.goto (.html 1)
      else f.goto .error
  | .html n =>
      if n = 4 then
        if isBlank b then f.goto .htmlSpace else if b = 62 then f.found .html else f.goto .error
      else if (bytes "html")[n]? = some (tolower b) then f.goto (.html (n + 1))
      else f.goto .error
  | .htmlSpace =>
      if isBlank b then f.goto .htmlSpace else if b = 62 then f.found .html else f.goto .error
  | .bang =>
      if isBlank b then f.goto .bang
      else if tolower b = 100 then f.goto (.doctype 1)
      else f.goto .error
  | .doctype n =>
      if n = 7 then if isBlank b then f.goto .doctypeSpace else f.goto .error
      else if (bytes "doctype")[n]? = some (tolower b) then f.goto (.doctype (n + 1))
      else f.goto .error
  | .doctypeSpace =>
      if isBlank b then f.goto .doctypeSpace
      else if tolower b = 104 then f.goto (.doctypeHtml 1)
      else f.goto .error
  | .doctypeHtml n =>
      if n = 4 then if b = 62 then f.found .html else f.goto .error
      else if (bytes "html")[n]? = some (tolower b) then f.goto (.doctypeHtml (n + 1))
      else f.goto .error
  | .magic [] _ => f.goto .error
  | .magic [c] type => if b = c then f.found type else f.goto .error
  | .magic (c :: rest) type => if b = c then f.goto (.magic rest type) else f.goto .error
  | .deflate =>
      if b = 0x9d then f.found .z else if b = 0x8b then f.found .gz else f.goto .error
  | .m => if b = 90 then f.goto (.mz 0) else f.goto .error
  | .mz n =>
      if n < 58 then f.goto (.mz (n + 1))
      else
        let nbytes : ℤ := (b.toNat : ℤ) - 61
        if nbytes < 1 ∨ 255 < nbytes then { f with nbytes := nbytes, cs := .error }
        else { f with nbytes := nbytes, c := 0, cs := .skip }
  | .skip =>
      if f.c < f.nbytes then { f with c := f.c + 1 }
      else if b = 80 then f.goto (.peHeader [69, 0, 0])
      else f.goto .error
  | .peHeader [] => f.goto .error
  | .peHeader [c] => if b = c then f.found .pe else f.goto .error
  | .peHeader (c :: rest) => if b = c then f.goto (.peHeader rest) else f.goto .error
  | .final => f

def exec : FileIdent → Text → FileIdent
  | f, [] => f
  | f, b :: data =>
      let f := f.step b
      if f.cs = .error ∨ f.fileType ≠ .working then f else exec f data

def receive (f : FileIdent) (data : Text) : FileIdent :=
  if f.cs = .error ∨ f.fileType ≠ .working then f
  else
    let f := f.exec data
    if f.cs = .error then { f with fileType := .unknown } else f

end FileIdent

/-! ## The body parser -/

/-- `HttpBodyParser::parser`. -/
inductive BodyLang
  | html (h : Html)
  | json (j : Json)

structure BodyParser where
  identifier : FileIdent
  parser : Option BodyLang

namespace BodyParser

def start : BodyParser := ⟨.init, none⟩

/-- `decidedType`; `packet` says whether there is a packet. -/
def decidedType (contentType : ContentType) (packet : Bool) (fileType : FileType) (v : VPT) :
    Option (Option BodyLang × VPT) :=
  if fileType = .html then (Html.start v).map fun r => (some (.html r.1), r.2)
  else if contentType = .applicationJson then
    (v.push .langJson).map fun w => (some (.json .init), w)
  else
    let type := if packet ∧ fileType = .pe then NodeType.fileTypePe else .fileTypeUnknown
    (v.performAll [.push type, .pop type]).map fun r => (none, r.1)

/-- The data goes to the parser, if there is one. -/
def parse (parser : Option BodyLang) (v : VPT) (data : Text) : Option (Option BodyLang × VPT) :=
  match parser with
  | none => some (none, v)
  | some (.html h) => (h.receive v data).map fun r => (some (.html r.1), r.2)
  | some (.json j) => (j.receive v data).map fun r => (some (.json r.1), r.2)

def receive (contentType : ContentType) (packet : Bool) (b : BodyParser) (v : VPT) (data : Text) :
    Option (BodyParser × VPT) :=
  let identifier := if b.identifier.fileType = .working then b.identifier.receive data else b.identifier
  let decided :=
    if b.identifier.fileType = .working ∧ identifier.fileType ≠ .working then
      decidedType contentType packet identifier.fileType v
    else some (b.parser, v)
  decided.bind fun p => (parse p.1 p.2 data).map fun q => (⟨identifier, q.1⟩, q.2)

def finish (b : BodyParser) (v : VPT) : Option (BodyParser × VPT) :=
  match b.parser with
  | none => some (b, v)
  | some (.html _) => (Html.finish v).map fun w => ({ b with parser := none }, w)
  | some (.json _) => (v.pop .langJson).map fun r => ({ b with parser := none }, r.1)

end BodyParser

/-- Of a body that has been received in these pieces: the state of the file identification, and the
text that the JSON parser has been given, if it has been chosen. -/
def chosen (contentType : ContentType) (pieces : List Text) : FileIdent × Option Text :=
  pieces.foldl (fun c data =>
    if c.1.fileType = .working then
      let identifier := c.1.receive data
      (identifier,
        if identifier.fileType ≠ .working ∧ identifier.fileType ≠ .html ∧
          contentType = .applicationJson then some data else none)
    else (c.1, c.2.map (· ++ data))) (.init, none)

/-- The text that the JSON parser is given. -/
def jsonText (contentType : ContentType) (pieces : List Text) : Option Text :=
  (chosen contentType pieces).2

theorem chosen_concat (contentType : ContentType) (pieces : List Text) (data : Text) :
    chosen contentType (pieces ++ [data]) =
      let c := chosen contentType pieces
      if c.1.fileType = .working then
        (c.1.receive data,
          if (c.1.receive data).fileType ≠ .working ∧ (c.1.receive data).fileType ≠ .html ∧
            contentType = .applicationJson then some data else none)
      else (c.1, c.2.map (· ++ data)) := by
  rw [chosen, List.foldl_concat]
  rfl

/-- What a body parser keeps on top of the nodes `ts`, with the text the JSON parser has been given. -/
def BodyParser.Keeps (v₀ v : VPT) (ts : List NodeType) (parser : Option BodyLang) (text : Option Text) :
    Prop :=
  match parser with
  | none => text = none ∧ Open v₀ v ts
  | some (.html _) => text = none ∧ Inside v₀ v (.langHtml :: ts)
  | some (.json j) => text.map Json.init.run = some j ∧ Json.Nested (j.cs :: j.stack) ∧
      Open v₀ v (j.nodes ++ .langJson :: ts)

/-- The same with the file identification; `c` is what has been received. -/
structure BodyParser.Holds (v₀ v : VPT) (ts : List NodeType) (b : BodyParser)
    (c : FileIdent × Option Text) : Prop where
  identifier : b.identifier = c.1
  waiting : c.1.fileType = .working → b.parser = none
  keeps : Keeps v₀ v ts b.parser c.2

/-- The nodes that the end of a body leaves open. -/
def leftOpen (text : Option Text) : List NodeType :=
  match text with
  | none => []
  | some text =>
      let j := Json.init.run text
      if j.outside then [] else j.nodes ++ [.langJson]

namespace BodyParser
variable {v₀ v : VPT} {ts : List NodeType} {b : BodyParser} {contentType : ContentType}
  {packet : Bool} {parser : Option BodyLang} {text : Option Text} {data : Text}

theorem start_holds (h : Open v₀ v ts) : Holds v₀ v ts start (chosen contentType []) :=
  ⟨rfl, fun _ => rfl, rfl, h⟩

theorem decidedType_keeps {fileType : FileType} {r : Option BodyLang × VPT} (h : Open v₀ v ts)
    (hr : decidedType contentType packet fileType v = some r) :
    Keeps v₀ r.2 ts r.1
      (if fileType ≠ .html ∧ contentType = .applicationJson then some [] else none) := by
  by_cases hhtml : fileType = .html
  · rw [decidedType, if_pos hhtml] at hr
    obtain ⟨s, hs, rfl⟩ := Option.map_eq_some_iff.mp hr
    exact ⟨if_neg fun hboth => hboth.1 hhtml, Html.start_inside h hs⟩
  · by_cases hjson : contentType = .applicationJson
    · rw [decidedType, if_neg hhtml, if_pos hjson] at hr
      obtain ⟨w, hw, rfl⟩ := Option.map_eq_some_iff.mp hr
      rw [if_pos ⟨hhtml, hjson⟩]
      exact ⟨rfl, .main rfl, h.push hw⟩
    · rw [decidedType, if_neg hhtml, if_neg hjson] at hr
      obtain ⟨⟨w, ok⟩, hw, rfl⟩ := Option.map_eq_some_iff.mp hr
      refine ⟨if_neg fun hboth => hjson hboth.2, (h.performAll ?_ hw).2⟩
      rw [applyAll, TreeCall.apply, Option.bind_some, applyAll, TreeCall.apply, if_pos rfl]
      rfl

theorem parse_keeps {r : Option BodyLang × VPT} (h : Keeps v₀ v ts parser text)
    (hr : parse parser v data = some r) : Keeps v₀ r.2 ts r.1 (text.map (· ++ data)) := by
  match parser, h with
  | none, ⟨htext, hopen⟩ =>
    cases hr
    exact ⟨by rw [htext]; rfl, hopen⟩
  | some (.html p), ⟨htext, hin⟩ =>
    obtain ⟨s, hs, rfl⟩ := Option.map_eq_some_iff.mp hr
    exact ⟨by rw [htext]; rfl, Html.receive_inside hin hs⟩
  | some (.json j), ⟨hrun, hnested, hopen⟩ =>
    obtain ⟨s, hs, rfl⟩ := Option.map_eq_some_iff.mp hr
    obtain ⟨heq, hnested', hopen'⟩ := Json.receive_open hnested hopen hs
    refine ⟨?_, hnested', hopen'⟩
    obtain ⟨given, rfl, rfl⟩ := Option.map_eq_some_iff.mp hrun
    rw [heq, ← Json.run_append]
    rfl

theorem receive_eq_some {r : BodyParser × VPT} (hr : receive contentType packet b v data = some r) :
    ∃ p, (if b.identifier.fileType = .working ∧ r.1.identifier.fileType ≠ .working then
        decidedType contentType packet r.1.identifier.fileType v else some (b.parser, v)) = some p ∧
      parse p.1 p.2 data = some (r.1.parser, r.2) ∧
      r.1.identifier =
        if b.identifier.fileType = .working then b.identifier.receive data else b.identifier := by
  obtain ⟨p, hp, hr⟩ := Option.bind_eq_some_iff.mp hr
  obtain ⟨q, hq, rfl⟩ := Option.map_eq_some_iff.mp hr
  exact ⟨p, hp, hq, rfl⟩

theorem receive_holds {pieces : List Text} {r : BodyParser × VPT}
    (h : Holds v₀ v ts b (chosen contentType pieces))
    (hr : receive contentType packet b v data = some r) :
    Holds v₀ r.2 ts r.1 (chosen contentType (pieces ++ [data])) := by
  obtain ⟨hid, hwaiting, hkeeps⟩ := h
  obtain ⟨p, hp, hparse, hr⟩ := receive_eq_some hr
  rw [chosen_concat]
  generalize chosen contentType pieces = c at hid hwaiting hkeeps
  rw [hid] at hp hr
  by_cases hworking : c.1.fileType = .working
  · rw [if_pos hworking] at hr
    have hnone := hwaiting hworking
    rw [hnone] at hp hkeeps
    simp only [hworking, if_true, true_and, ← hr] at hp ⊢
    by_cases hstill : r.1.identifier.fileType = .working
    · -- still undecided
      rw [if_neg (not_not.mpr hstill)] at hp
      cases hp
      obtain ⟨hsame, hv⟩ := Prod.mk.inj (Option.some.inj hparse)
      refine ⟨rfl, fun _ => hsame.symm, ?_⟩
      rw [← hsame, ← hv]
      exact ⟨if_neg fun hboth => hboth.1 hstill, hkeeps.2⟩
    · rw [if_pos hstill] at hp
      have hchosen := parse_keeps (decidedType_keeps hkeeps.2 hp) hparse
      refine ⟨rfl, fun hcontra => absurd hcontra hstill, ?_⟩
      simp only [hstill, ne_eq, not_false_eq_true, true_and]
      split_ifs at hchosen ⊢ with hjson
      · exact hchosen
      · exact hchosen
  · rw [if_neg hworking] at hr
    rw [if_neg fun hboth => hworking hboth.1] at hp
    cases hp
    simp only [if_neg hworking]
    exact ⟨hr, fun hcontra => absurd hcontra hworking, parse_keeps hkeeps hparse⟩

theorem json_nodes {j : Json} {t : NodeType} (ht : t ∈ j.nodes) : t ≠ .langJson ∧ t ≠ .httpResponse := by
  obtain ⟨s, -, hs⟩ := List.mem_flatMap.mp ht
  have hmem : t ∈ [NodeType.jsonNumber, .jsonString, .jsonArray, .jsonField, .jsonObject] := by
    unfold Json.State.nodes at hs
    split at hs <;> simp at hs <;> grind
  refine ⟨?_, ?_⟩ <;> rintro rfl <;> exact absurd hmem (by decide)

/-- The end of a body: what the JSON parser has left open stays open. -/
theorem finish_open {c : FileIdent × Option Text} (h : Holds v₀ v ts b c) :
    ∃ r, finish b v = some r ∧ Open v₀ r.2 (leftOpen c.2 ++ ts) := by
  obtain ⟨-, -, hkeeps⟩ := h
  unfold finish
  match hp : b.parser, hkeeps with
  | none, hkeeps =>
    obtain ⟨htext, hopen⟩ := hkeeps
    rw [htext]
    exact ⟨_, rfl, hopen⟩
  | some (.html p), hkeeps =>
    obtain ⟨htext, hin⟩ := hkeeps
    obtain ⟨w, hw, hopen⟩ := Html.finish_open hin
    rw [htext, hw]
    exact ⟨_, rfl, hopen⟩
  | some (.json j), hkeeps =>
    obtain ⟨hrun, hnested, hopen⟩ := hkeeps
    obtain ⟨text, htext, rfl⟩ := Option.map_eq_some_iff.mp hrun
    rw [htext, leftOpen]
    simp only
    split_ifs with hout
    · rw [(Json.nodes_eq_nil_iff hnested).mpr hout] at hopen
      obtain ⟨w, hw, hopen'⟩ := hopen.pop
      rw [hw]
      exact ⟨_, rfl, hopen'⟩
    · have hne : (Json.init.run text).nodes ≠ [] := fun hnil =>
        hout ((Json.nodes_eq_nil_iff hnested).mp hnil)
      obtain ⟨t, us, hnodes⟩ := List.exists_cons_of_ne_nil hne
      have ht := (json_nodes (hnodes ▸ List.mem_cons_self)).1
      rw [hnodes, List.cons_append] at hopen
      obtain ⟨w, hw, hopen'⟩ := hopen.pop_ne ht
      rw [hw, hnodes, List.append_assoc]
      exact ⟨_, rfl, hopen'⟩

end BodyParser

end Netp.Parse
