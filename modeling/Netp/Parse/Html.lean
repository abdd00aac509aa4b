import Netp.Parse.TreeStack
import Netp.Lib.CString

/-! # The HTML parser (`parse/html.rl`)

The machine `HTML`, with the choices that the longest-match operator `**` makes: inside an element a
byte goes on with it wherever it can. The actions of a transition run in the order of their places in
the source, leaving actions among them; where a repetition begins again, the actions it leaves with come
before those it enters with.

`start` puts a barrier on top of `LangHtml`, and `finish` takes it away, with all that the tags have
left open.
-/

namespace Netp.Parse
open Netp.Lib
set_option autoImplicit false

namespace Html

inductive State
  | error
  -- between the elements, and in text
  | main | space | word | wordSpace
  -- behind '<', and in tag_open; with the number of bytes if they are the first ones of "script"
  | lt | tagName (script : ℕ)
  | attrSpace | key | keySpace | equals | quoted | quotedEnd | unquoted | tagSlash
  -- tag_close
  | ltSlash | closeName (script : ℕ)
  -- script, with the number of bytes of its name and of its end tag
  | ltSpace | scriptName (n : ℕ) | scriptAttr | scriptBody (n : ℕ)
  -- comments and declarations
  | bang | bangDash | comment (dashes : ℕ) | declaration
  deriving DecidableEq

end Html

/-- `HtmlParser`. -/
structure Html where
  cs : Html.State
  tag : Text
  key : Text
  val : Text
  noEndTag : Bool
  closeAttr : Bool

namespace Html

def init : Html := ⟨.main, [], [], [], false, false⟩

/-! ## The actions -/

abbrev Action := Html → Html × List TreeCall

def tagBuf (b : UInt8) : Action := fun h => ({ h with tag := h.tag ++ [b] }, [])

def endless : List Text :=
  [bytes "base", bytes "link", bytes "meta", bytes "img", bytes "hr", bytes "input", bytes "br"]

def tagFin : Action := fun h =>
  let tag := h.tag ++ [0]
  ({ h with tag := tag, noEndTag := endless.any (strcaseeq tag) }, [])

def keyBuf (b : UInt8) : Action := fun h => ({ h with key := h.key ++ [b] }, [])

def resetCloseAttr : Action := fun h => ({ h with closeAttr := false }, [])

def maybeCloseAttr : Action := fun h => (h, if h.closeAttr then [.popOr .htmlAttr] else [])

def keyFin : Action := fun h =>
  ({ h with key := [], closeAttr := true }, [.push .htmlAttr, .setText (cstr (h.key ++ [0]))])

def valBuf (b : UInt8) : Action := fun h => ({ h with val := h.val ++ [b] }, [])

def valFin : Action := fun h =>
  ({ h with val := [] }, [.push .htmlVal, .setText (cstr (h.val ++ [0])), .pop .htmlVal])

def tagOpen : Action := fun h => ({ h with tag := [] }, [.push .htmlTag, .setText (cstr h.tag)])

def tagClose : Action := fun h => ({ h with tag := [] }, [.popOr .htmlTag])

def tagSingular : Action := fun h => (h, if h.noEndTag then [] else [.popOr .htmlTag])

def tagNoEnd : Action := fun h => (h, if h.noEndTag then [.popOr .htmlTag] else [])

def scriptTag : Action := fun h =>
  ({ h with tag := [] }, [.push .htmlTag, .setText (bytes "script"), .popOr .htmlTag])

def contentBuf (b : UInt8) : Action := fun h => (h, [.appendChar .htmlText b])

def wsBuf : Action := fun h => (h, [.appendChar .htmlText 32])

/-- A transition to `cs` with its actions. -/
def goto (h : Html) (actions : List Action) (cs : State) : Html × List TreeCall :=
  let r := actions.foldl (fun r action => ((action r.1).1, r.2 ++ (action r.1).2)) (h, [])
  ({ r.1 with cs := cs }, r.2)

/-! ## The transitions -/

def isWs (b : UInt8) : Bool := b = 32 ∨ b = 9 ∨ b = 10 ∨ b = 13

/-- `^( '/' | '>' | '!' | ws )` -/
def isTagChar (b : UInt8) : Bool := b ≠ 47 ∧ b ≠ 62 ∧ b ≠ 33 ∧ !isWs b

def script : Text := bytes "script"

/-- One more byte of a name that began with `n` bytes of "script" and nothing else; zero otherwise. -/
def inScript (n : ℕ) (b : UInt8) : ℕ := if 0 < n ∧ script[n]? = some b then n + 1 else 0

/-- The end of a tag that can have attributes; `leaving` are the actions of what it ends. -/
def endTag (h : Html) (leaving : List Action) (b : UInt8) : Html × List TreeCall :=
  if b = 47 then h.goto (leaving ++ [maybeCloseAttr, tagSingular]) .tagSlash
  else if b = 62 then h.goto (leaving ++ [maybeCloseAttr, tagNoEnd]) .main
  else h.goto [] .error

/-- The name of a script, and what can follow it. -/
def endScript (h : Html) (b : UInt8) : Html × List TreeCall :=
  if isWs b then h.goto [scriptTag] .scriptAttr
  else if b = 62 then h.goto [scriptTag] (.scriptBody 0)
  else h.goto [] .error

/-- `any* :>> ( '</' ws* 'script' ws* '>' )`, after `n` bytes of the end tag without its white space;
`none` at its end. -/
def inScriptBody (n : ℕ) (b : UInt8) : Option ℕ :=
  if n = 8 ∧ b = 62 then none
  else if b = 60 then some 1
  else if n = 1 ∧ b = 47 then some 2
  else if (n = 2 ∨ n = 8) ∧ isWs b then some n
  else if 2 ≤ n ∧ script[n - 2]? = some b then some (n + 1)
  else some 0

def step (h : Html) (b : UInt8) : Html × List TreeCall :=
  match h.cs with
  | .error => (h, [])
  | .main | .space =>
      if b = 60 then h.goto [resetCloseAttr] .lt
      else if isWs b then h.goto [] .space
      else h.goto [contentBuf b] .word
  | .word =>
      if b = 60 then h.goto [resetCloseAttr] .lt
      else if isWs b then h.goto [] .wordSpace
      else h.goto [contentBuf b] .word
  | .wordSpace =>
      if b = 60 then h.goto [resetCloseAttr] .lt
      else if isWs b then h.goto [] .wordSpace
      else h.goto [wsBuf, contentBuf b] .word
  | .lt =>
      if isTagChar b then h.goto [tagBuf b] (.tagName (if b = 115 then 1 else 0))
      else if isWs b then h.goto [] .ltSpace
      else if b = 47 then h.goto [] .ltSlash
      else if b = 33 then h.goto [] .bang
      else h.goto [] .error
  | .tagName n =>
      if isTagChar b then h.goto [tagBuf b] (.tagName (inScript n b))
      else if n = 6 then h.endScript b
      else if isWs b then h.goto [tagFin, tagOpen] .attrSpace
      else h.endTag [tagFin, tagOpen] b
  | .attrSpace =>
      if isWs b then h.goto [] .attrSpace
      else if b = 47 ∨ b = 62 then h.endTag [] b
      else if b = 61 then h.goto [] .error
      else h.goto [maybeCloseAttr, keyBuf b] .key
  | .key =>
      if isWs b then h.goto [keyFin] .keySpace
      else if b = 47 ∨ b = 62 then h.endTag [keyFin] b
      else if b = 61 then h.goto [keyFin] .equals
      else h.goto [keyBuf b] .key
  | .keySpace =>
      if isWs b then h.goto [] .keySpace
      else if b = 47 ∨ b = 62 then h.endTag [] b
      else if b = 61 then h.goto [] .equals
      else h.goto [maybeCloseAttr, keyBuf b] .key
  | .equals =>
      if isWs b then h.goto [] .equals
      else if b = 62 then h.goto [] .error
      else if b = 34 then h.goto [valBuf b] .quoted
      else h.goto [valBuf b] .unquoted
  | .quoted => if b = 34 then h.goto [valBuf b] .quotedEnd else h.goto [valBuf b] .quoted
  | .quotedEnd =>
      if isWs b then h.goto [valFin] .attrSpace
      else if b = 47 ∨ b = 62 then h.endTag [valFin] b
      else if b = 61 then h.goto [] .error
      -- `**` shifts the actions of the next key behind val_fin
      else h.goto [valFin, maybeCloseAttr, keyBuf b] .key
  | .unquoted =>
      if isWs b then h.goto [valFin] .attrSpace
      else if b = 62 then h.endTag [valFin] b
      else h.goto [valBuf b] .unquoted
  | .tagSlash => if b = 62 then h.goto [tagNoEnd] .main else h.goto [] .error
  | .ltSlash =>
      if isTagChar b then h.goto [tagBuf b] (.closeName (if b = 115 then 1 else 0))
      else h.goto [] .error
  | .closeName n =>
      if isTagChar b then h.goto [tagBuf b] (.closeName (inScript n b))
      else if b = 62 ∧ n ≠ 6 then h.goto [tagFin, tagClose] .main
      else h.goto [] .error
  | .ltSpace =>
      if isWs b then h.goto [] .ltSpace
      else if b = 115 then h.goto [] (.scriptName 1)
      else h.goto [] .error
  | .scriptName n =>
      if n = 6 then h.endScript b
      else if script[n]? = some b then h.goto [] (.scriptName (n + 1))
      else h.goto [] .error
  | .scriptAttr => if b = 62 then h.goto [] (.scriptBody 0) else h.goto [] .scriptAttr
  | .scriptBody n =>
      match inScriptBody n b with
      | none => h.goto [] .main
      | some n => h.goto [] (.scriptBody n)
  | .bang => if b = 45 then h.goto [] .bangDash else h.goto [] .declaration
  | .bangDash => if b = 45 then h.goto [] (.comment 0) else h.goto [] .error
  | .comment dashes =>
      if dashes = 2 ∧ b = 62 then h.goto [] .main
      else if b = 45 then h.goto [] (.comment (min 2 (dashes + 1)))
      else h.goto [] (.comment 0)
  | .declaration => if b = 62 then h.goto [] .main else h.goto [] .declaration

/-! ## The parser -/

def start (v : VPT) : Option (Html × VPT) :=
  (v.push .langHtml).map fun w => (init, w.pushBarrier)

def receive : Html → VPT → Text → Option (Html × VPT)
  | h, v, [] => some (h, v)
  | h, v, b :: data =>
      if h.cs = .error then some (h, v)
      else
        let r := h.step b
        (v.performAll r.2).bind fun w =>
          receive (if w.2 then r.1 else { h with cs := .error }) w.1 data

def finish (v : VPT) : Option VPT :=
  v.popBarrier.bind fun w => (w.pop .langHtml).map Prod.fst

variable {v₀ v w : VPT} {h : Html} {t : NodeType} {ts : List NodeType}

theorem start_inside {r : Html × VPT} (hopen : Open v₀ v ts) (hr : start v = some r) :
    Inside v₀ r.2 (.langHtml :: ts) := by
  obtain ⟨w, hw, rfl⟩ := Option.map_eq_some_iff.mp hr
  exact (hopen.push hw).pushBarrier

theorem receive_inside {data : Text} {r : Html × VPT} (hin : Inside v₀ v (t :: ts))
    (hr : h.receive v data = some r) : Inside v₀ r.2 (t :: ts) := by
  induction data generalizing h v with
  | nil =>
    cases hr
    exact hin
  | cons b data ih =>
    rw [receive] at hr
    split_ifs at hr
    · cases hr
      exact hin
    · obtain ⟨⟨w, ok⟩, hw, hr⟩ := Option.bind_eq_some_iff.mp hr
      exact ih (hin.performAll hw) hr

theorem finish_open (hin : Inside v₀ v (.langHtml :: ts)) : ∃ w, finish v = some w ∧ Open v₀ w ts := by
  obtain ⟨w, hw, hopen⟩ := hin.popBarrier
  obtain ⟨x, hx, hopen'⟩ := hopen.pop
  refine ⟨x, ?_, hopen'⟩
  rw [finish, hw, Option.bind_some, hx]
  rfl

end Html

end Netp.Parse
