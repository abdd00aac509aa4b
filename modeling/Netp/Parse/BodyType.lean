import Netp.Parse.Body
import Netp.Parse.JsonBoth

/-! # The body that the chosen parser gets

`HttpBodyParser::receive` gives a piece to the parser it has, or has just chosen. The pieces before the
one that brings the decision are gone. Here is a body in any pieces, on any tree.
-/

namespace Netp.Parse
open Netp.Lib
set_option autoImplicit false

/-! ## Pieces -/

namespace FileIdent
variable {f : FileIdent}

/-- The identification is over. -/
abbrev Done (f : FileIdent) : Prop := f.cs = .error ∨ f.fileType ≠ .working

theorem receive_done (h : f.Done) (data : Text) : f.receive data = f := if_pos h

theorem receive_nil (f : FileIdent) : f.receive [] = f := by
  by_cases h : f.Done
  · exact receive_done h []
  · have herr : f.cs ≠ .error := fun he => h (.inl he)
    rw [FileIdent.receive, if_neg h]
    exact if_neg herr

theorem exec_append (f : FileIdent) (data more : Text) (h : ¬ f.Done) :
    f.exec (data ++ more) = if (f.exec data).Done then f.exec data else (f.exec data).exec more := by
  induction data generalizing f with
  | nil =>
    show f.exec more = if f.Done then f else f.exec more
    rw [if_neg h]
  | cons b data ih =>
    rw [List.cons_append, FileIdent.exec, FileIdent.exec]
    by_cases hstep : (f.step b).Done
    · simp only [if_pos hstep]
    · simp only [if_neg hstep]
      exact ih (f.step b) hstep

theorem receive_append (f : FileIdent) (data more : Text) :
    f.receive (data ++ more) = (f.receive data).receive more := by
  by_cases h : f.Done
  · rw [receive_done h, receive_done h, receive_done h]
  · have hnot : ∀ d, f.receive d =
        if (f.exec d).cs = .error then { f.exec d with fileType := .unknown } else f.exec d :=
      fun d => if_neg h
    rw [hnot, hnot, exec_append f data more h]
    by_cases hdone : (f.exec data).Done
    · rw [if_pos hdone, receive_done]
      split
      · next herr => exact .inl herr
      · exact hdone
    · rw [if_neg hdone, if_neg fun herr => hdone (.inl herr), FileIdent.receive, if_neg hdone]

end FileIdent

theorem Html.receive_error {h : Html} (herr : h.cs = .error) (v : VPT) (data : Text) :
    h.receive v data = some (h, v) := by
  cases data with
  | nil => rfl
  | cons b data => rw [Html.receive, if_pos herr]

theorem Html.receive_append (h : Html) (v : VPT) (data more : Text) :
    h.receive v (data ++ more) = (h.receive v data).bind fun r => r.1.receive r.2 more := by
  induction data generalizing h v with
  | nil => rfl
  | cons b data ih =>
    simp only [List.cons_append, Html.receive]
    split
    · next herr => rw [Option.bind_some, Html.receive_error herr]
    · rw [Option.bind_assoc]
      exact congrArg _ (funext fun w => ih _ _)

namespace BodyParser
variable {contentType : ContentType} {packet : Bool} {v : VPT}

theorem parse_append (parser : Option BodyLang) (v : VPT) (data more : Text) :
    parse parser v (data ++ more) = (parse parser v data).bind fun r => parse r.1 r.2 more := by
  match parser with
  | none => rfl
  | some (.html h) =>
    simp only [parse, Html.receive_append, Option.map_bind, Option.bind_map]
    rfl
  | some (.json j) =>
    simp only [parse, JsonBoth.receive_append, Option.map_bind, Option.bind_map]
    rfl

/-- The calls of `receive` for a body, on a tree. -/
def receiveAll (contentType : ContentType) (packet : Bool) (v : VPT) (pieces : List Text) :
    Option (BodyParser × VPT) :=
  pieces.foldlM (fun r data => receive contentType packet r.1 r.2 data) (start, v)

/-! ## What comes of the pieces -/

/-- One piece: the file identification, and the bytes since the piece that decided, that one
included. -/
def identify (d : FileIdent × Text) (data : Text) : FileIdent × Text :=
  if d.1.fileType = .working then
    (d.1.receive data, if (d.1.receive data).fileType = .working then [] else data)
  else (d.1, d.2 ++ data)

def identifyAll (pieces : List Text) : FileIdent × Text := pieces.foldl identify (.init, [])

/-- `decidedType` chooses a parser. -/
def choosesParser (contentType : ContentType) (fileType : FileType) : Bool :=
  fileType = .html || fileType ≠ .working && contentType = .applicationJson

/-- The decision with this identification, and then these bytes. -/
def build (contentType : ContentType) (packet : Bool) (v : VPT) (d : FileIdent × Text) :
    Option (BodyParser × VPT) :=
  if d.1.fileType = .working then some (⟨d.1, none⟩, v)
  else (decidedType contentType packet d.1.fileType v).bind fun p =>
    (parse p.1 p.2 d.2).map fun q => (⟨d.1, q.1⟩, q.2)

theorem build_identify (d : FileIdent × Text) (data : Text) :
    (build contentType packet v d).bind (fun r => receive contentType packet r.1 r.2 data) =
      build contentType packet v (identify d data) := by
  unfold build identify
  by_cases hwork : d.1.fileType = .working
  · rw [if_pos hwork, if_pos hwork, Option.bind_some]
    unfold receive
    simp only [hwork, if_true, true_and]
    by_cases hstill : (d.1.receive data).fileType = .working
    · simp [hstill, parse]
    · simp [hstill]
  · rw [if_neg hwork, if_neg hwork, if_neg hwork, Option.bind_assoc]
    refine congrArg _ (funext fun p => ?_)
    rw [parse_append, Option.bind_map, Option.map_bind]
    refine congrArg _ (funext fun q => ?_)
    simp [receive, hwork]

theorem receiveAll_eq (contentType : ContentType) (packet : Bool) (v : VPT) (pieces : List Text) :
    receiveAll contentType packet v pieces = build contentType packet v (identifyAll pieces) := by
  induction pieces using List.reverseRecOn with
  | nil => rfl
  | append_singleton pieces data ih =>
    have hall : receiveAll contentType packet v (pieces ++ [data]) =
        (receiveAll contentType packet v pieces).bind fun r =>
          receive contentType packet r.1 r.2 data := by
      simp [receiveAll, List.foldlM_append]
    rw [hall, ih, build_identify]
    simp [identifyAll]

theorem identifyAll_fst (pieces : List Text) :
    (identifyAll pieces).1 = FileIdent.init.receive pieces.flatten := by
  induction pieces using List.reverseRecOn with
  | nil => rfl
  | append_singleton pieces data ih =>
    have hlast : identifyAll (pieces ++ [data]) = identify (identifyAll pieces) data := by
      simp [identifyAll]
    rw [hlast, List.flatten_append, List.flatten_singleton, FileIdent.receive_append, ← ih, identify]
    split
    · rfl
    · next hdone => exact (FileIdent.receive_done (.inr hdone) data).symm

theorem foldl_decided {d : FileIdent × Text} (h : d.1.fileType ≠ .working) (pieces : List Text) :
    pieces.foldl identify d = (d.1, d.2 ++ pieces.flatten) := by
  induction pieces generalizing d with
  | nil => rw [List.foldl_nil, List.flatten_nil, List.append_nil]
  | cons data pieces ih =>
    have hstep : identify d data = (d.1, d.2 ++ data) := if_neg h
    rw [List.foldl_cons, hstep, ih (d := (d.1, d.2 ++ data)) h, List.flatten_cons,
      List.append_assoc]

theorem foldl_length (d : FileIdent × Text) (pieces : List Text) :
    (pieces.foldl identify d).2.length ≤ d.2.length + pieces.flatten.length := by
  induction pieces generalizing d with
  | nil => simp
  | cons data pieces ih =>
    have hstep : (identify d data).2.length ≤ d.2.length + data.length := by
      unfold identify
      split
      · split
        · simp
        · simp
      · rw [List.length_append]
    have hrest := ih (identify d data)
    rw [List.foldl_cons, List.flatten_cons, List.length_append]
    omega

/-- The first piece with bytes is enough for the identification. -/
def decidesFirst (pieces : List Text) : Bool :=
  match pieces.find? fun data => data ≠ [] with
  | none => false
  | some data => (FileIdent.init.receive data).fileType ≠ .working

/-- All bytes are given exactly if the first of them bring the decision. -/
theorem given_all_iff {pieces : List Text}
    (h : (FileIdent.init.receive pieces.flatten).fileType ≠ .working) :
    (identifyAll pieces).2 = pieces.flatten ↔ decidesFirst pieces = true := by
  induction pieces with
  | nil => exact absurd rfl h
  | cons data pieces ih =>
    by_cases hnil : data = []
    · subst hnil
      have hstep : identifyAll ([] :: pieces) = identifyAll pieces := by
        rw [identifyAll, List.foldl_cons]
        rfl
      rw [List.flatten_cons, List.nil_append] at h ⊢
      rw [hstep, ih h]
      rfl
    · have hfirst : decidesFirst (data :: pieces) =
          decide ((FileIdent.init.receive data).fileType ≠ .working) := by
        simp [decidesFirst, hnil]
      have hall : identifyAll (data :: pieces) =
          pieces.foldl identify (identify (.init, []) data) := rfl
      have hstep : identify (.init, []) data = (FileIdent.init.receive data,
          if (FileIdent.init.receive data).fileType = .working then [] else data) := if_pos rfl
      rw [hfirst, hall, hstep, decide_eq_true_iff, List.flatten_cons]
      by_cases hwork : (FileIdent.init.receive data).fileType = .working
      · -- the bytes of this piece are missing
        refine iff_of_false (fun hsame => ?_) (not_not.2 hwork)
        have hlen := foldl_length (FileIdent.init.receive data, []) pieces
        rw [if_pos hwork] at hsame
        rw [hsame, List.length_append, List.length_nil] at hlen
        have hpos := List.length_pos_iff.2 hnil
        omega
      · refine iff_of_true ?_ hwork
        rw [if_neg hwork, foldl_decided hwork]

/-! ## The whole body -/

/-- What is built is what the body in one piece gives, and a parser that is chosen is given the body
from its first byte on. -/
def WholeBody (contentType : ContentType) (packet : Bool) (v : VPT) (pieces : List Text) : Prop :=
  receiveAll contentType packet v pieces = receiveAll contentType packet v [pieces.flatten] ∧
  (choosesParser contentType (identifyAll pieces).1.fileType = true →
    (identifyAll pieces).2 = pieces.flatten)

theorem build_noParser {f : FileIdent} (h : choosesParser contentType f.fileType = false)
    (data more : Text) :
    build contentType packet v (f, data) = build contentType packet v (f, more) := by
  unfold build
  split
  · rfl
  · next hdone =>
    have hhtml : f.fileType ≠ .html := by
      intro he
      simp [choosesParser, he] at h
    have hjson : contentType ≠ .applicationJson := by
      intro he
      simp [choosesParser, he, hhtml] at h
      exact hdone h
    simp only [decidedType, if_neg hhtml, if_neg hjson, Option.bind_map]
    rfl

theorem wholeBody_iff (contentType : ContentType) (packet : Bool) (v : VPT) (pieces : List Text) :
    WholeBody contentType packet v pieces ↔
      choosesParser contentType (FileIdent.init.receive pieces.flatten).fileType = false ∨
        decidesFirst pieces = true := by
  have hone : identifyAll [pieces.flatten] = (FileIdent.init.receive pieces.flatten,
      if (FileIdent.init.receive pieces.flatten).fileType = .working then []
      else pieces.flatten) := by
    show identify (.init, []) pieces.flatten = _
    exact if_pos rfl
  have hall : identifyAll pieces =
      (FileIdent.init.receive pieces.flatten, (identifyAll pieces).2) := by
    rw [← identifyAll_fst]
  unfold WholeBody
  rw [receiveAll_eq, receiveAll_eq, identifyAll_fst, hone, hall]
  cases hchosen : choosesParser contentType (FileIdent.init.receive pieces.flatten).fileType with
  | false => simp [build_noParser hchosen _ (identifyAll pieces).2]
  | true =>
    have hdone : (FileIdent.init.receive pieces.flatten).fileType ≠ .working := by
      intro he
      simp [choosesParser, he] at hchosen
    rw [if_neg hdone]
    simp only [Bool.true_eq_false, false_or, true_implies, given_all_iff hdone]
    refine ⟨fun h => h.2, fun h => ⟨?_, h⟩⟩
    rw [(given_all_iff hdone).2 h]

/-- The tag that decides, in two pieces. -/
theorem first_piece_lost : ¬ ∀ (contentType : ContentType) (packet : Bool) (v : VPT)
    (pieces : List Text), WholeBody contentType packet v pieces := by
  intro h
  have hgiven := (h .unspecified false (initVpt []) [bytes "<ht", bytes "ml>"]).2 (by decide)
  exact absurd hgiven (by decide)

end BodyParser
end Netp.Parse
