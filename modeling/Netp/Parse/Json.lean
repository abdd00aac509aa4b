import Netp.Parse.TreeStack
import Netp.Lib.CString
import Mathlib.Data.List.Dedup

/-! # The JSON parser (`parse/json.rl`)

The machine `JSON` is a set of submachines that call each other with `fcall` and `fret`. A byte that
begins or ends a value is held with `fhold` and read again by the submachine it is called for or
returned to. The calls on the tree are made in the order of the transitions, so they can be collected
over the transitions of a byte.

A byte after a value in `main` belongs to `ignore*` and to the next value both, and Ragel follows both:
the state there is a set of places in `ignore*`.
-/

namespace Netp.Parse
open Netp.Lib
set_option autoImplicit false

namespace Json

/-- The places in `ignore*`. -/
inductive Ignore
  | base | slash | block | star | line
  deriving DecidableEq

/-- A byte of `ignore*`, `none` where it does not go on with the byte. -/
def Ignore.step : Ignore → UInt8 → Option Ignore
  | .base, b =>
      if b = 32 ∨ b = 9 ∨ b = 13 ∨ b = 10 then some .base
      else if b = 47 then some .slash
      else none
  | .slash, b => if b = 42 then some .block else if b = 47 then some .line else none
  | .block, b => some (if b = 42 then .star else .block)
  | .star, b => some (if b = 42 then .star else if b = 47 then .base else .block)
  | .line, b => some (if b = 10 then .base else .line)

inductive NumberState
  | start | minus | zero | int | dot | frac | exp | sign | expInt
  deriving DecidableEq

/-- The states of `name` and of `string`. -/
inductive QuoteState
  | start | body | escape
  /-- Behind `\u`, with the number of digits left. -/
  | hex (left : ℕ)
  deriving DecidableEq

inductive ArrayState
  | start | opened | element | comma
  deriving DecidableEq

inductive ObjectState
  | start | opened | named | colon | field | comma
  deriving DecidableEq

/-- The states of the submachines, without the error state. -/
inductive State
  -- main
  | start | guard (rest : Text) | first | between (places : List Ignore)
  -- value
  | value (i : Ignore) | literal (rest : Text) | valueEnd
  | number (n : NumberState)
  | string (q : QuoteState)
  | name (q : QuoteState)
  | array (a : ArrayState) (i : Ignore)
  | object (o : ObjectState) (i : Ignore)
  deriving DecidableEq

end Json

/-- `JsonParser`. Once `cs` is `JSON_error`, `error` is set, and `cs` is where that happened. -/
structure Json where
  cs : Json.State
  /-- The states to return to, the nearest first. -/
  stack : List Json.State
  error : Bool
  buf : Text
  dot : Bool
  exp : Bool

namespace Json

/-- `start`, without the call on the tree. -/
def init : Json := ⟨.start, [], false, [], false, false⟩

/-- A transition: the fields after it, the calls it makes, and whether it has held the byte. -/
structure Move where
  json : Json
  calls : List TreeCall
  hold : Bool

def goto (j : Json) (cs : State) : Move := ⟨{ j with cs := cs }, [], false⟩

/-- There is no transition. -/
def fail (j : Json) : Move := ⟨{ j with error := true }, [], false⟩

/-- `fhold; fcall callee;` on a transition to `target`. -/
def fcall (j : Json) (calls : List TreeCall) (target callee : State) : Move :=
  ⟨{ j with cs := callee, stack := target :: j.stack }, calls, true⟩

/-- `fret;`, after `fhold;` or not. -/
def fret (j : Json) (calls : List TreeCall) (hold : Bool) : Move :=
  match j.stack with
  | [] => j.fail
  | cs :: stack => ⟨{ j with cs := cs, stack := stack }, calls, hold⟩

def append (j : Json) (b : UInt8) : Json := { j with buf := j.buf ++ [b] }

/-- In `ignore*`, or at its end. -/
def ignoring (j : Json) (i : Ignore) (b : UInt8) (place : Ignore → State) (other : Move) : Move :=
  match i.step b with
  | some i => j.goto (place i)
  | none => if i = .base then other else j.fail

def isDigit (b : UInt8) : Bool := 48 ≤ b ∧ b ≤ 57

def isHexDigit (b : UInt8) : Bool := isDigit b ∨ (65 ≤ b ∧ b ≤ 70) ∨ (97 ≤ b ∧ b ≤ 102)

/-- `begin_value`: `[nft\"\-\[\{NI] | digit` -/
def isBeginValue (b : UInt8) : Bool :=
  b ∈ [110, 102, 116, 34, 45, 91, 123, 78, 73] ∨ isDigit b

/-- `[^)}'.\]]` in `main`. -/
def isValueChar (b : UInt8) : Bool := b ∉ [41, 125, 39, 46, 93]

/-! ## The submachines -/

/-- `name`, with `$buf` on all its transitions. -/
def nameStep (j : Json) (q : QuoteState) (b : UInt8) : Move :=
  let j' := j.append b
  match q with
  | .start => if b = 34 then j'.goto (.name .body) else j.fail
  | .body =>
      if b = 34 then fret { j' with buf := [] } [.setText (cstr (j'.buf ++ [0]))] false
      else if b = 92 then j'.goto (.name .escape)
      else if b < 32 then j.fail
      else j'.goto (.name .body)
  | .escape =>
      if b = 117 then j'.goto (.name (.hex 3))
      else if b < 32 then j.fail
      else j'.goto (.name .body)
  | .hex 0 => if isHexDigit b then j'.goto (.name .body) else j.fail
  | .hex (n + 1) => if isHexDigit b then j'.goto (.name (.hex n)) else j.fail

/-- What a character behind a backslash stands for in `string`; nothing for the others. -/
def unescape (b : UInt8) : Text :=
  if b = 34 ∨ b = 92 ∨ b = 47 then [b]
  else if b = 98 then [8]
  else if b = 102 then [12]
  else if b = 110 then [10]
  else if b = 114 then [13]
  else if b = 116 then [9]
  else []

def stringStep (j : Json) (q : QuoteState) (b : UInt8) : Move :=
  match q with
  | .start => if b = 34 then j.goto (.string .body) else j.fail
  | .body =>
      if b = 34 then
        fret { j with buf := [] } [.setText (cstr (j.buf ++ [0])), .popOr .jsonString] false
      else if b = 92 then j.goto (.string .escape)
      else if b < 32 then j.fail
      else (j.append b).goto (.string .body)
  | .escape =>
      if b = 117 then j.goto (.string (.hex 3))
      else if b < 32 then j.fail
      else goto { j with buf := j.buf ++ unescape b } (.string .body)
  | .hex 0 => if isHexDigit b then j.goto (.string .body) else j.fail
  | .hex (n + 1) => if isHexDigit b then j.goto (.string (.hex n)) else j.fail

/-- "Trim trailing zeros to assist with comparison to text base." -/
def trim (j : Json) : Text :=
  if j.dot && !j.exp then
    let buf := (j.buf.reverse.dropWhile (· = 48)).reverse
    if buf.getLast? = some 46 then buf.dropLast else buf
  else j.buf

/-- The end of a number, on the byte after it. -/
def numberEnd (j : Json) : Move :=
  fret { j with buf := [] } [.setText (cstr (j.trim ++ [0])), .popOr .jsonNumber] true

def isE (b : UInt8) : Bool := b = 69 ∨ b = 101

def numberStep (j : Json) (n : NumberState) (b : UInt8) : Move :=
  let j' := j.append b
  match n with
  | .start =>
      let j' := { j' with dot := false, exp := false }
      if b = 45 then j'.goto (.number .minus)
      else if b = 48 then j'.goto (.number .zero)
      else if isDigit b then j'.goto (.number .int)
      else j.fail
  | .minus =>
      if b = 48 then j'.goto (.number .zero)
      else if isDigit b then j'.goto (.number .int)
      else j.fail
  | .zero =>
      if b = 46 then goto { j' with dot := true } (.number .dot)
      else if isE b then goto { j' with exp := true } (.number .exp)
      else if isDigit b then j.fail
      else j.numberEnd
  | .int =>
      if b = 46 then goto { j' with dot := true } (.number .dot)
      else if isE b then goto { j' with exp := true } (.number .exp)
      else if isDigit b then j'.goto (.number .int)
      else j.numberEnd
  | .dot => if isDigit b then j'.goto (.number .frac) else j.fail
  | .frac =>
      if b = 46 then j.fail
      else if isE b then goto { j' with exp := true } (.number .exp)
      else if isDigit b then j'.goto (.number .frac)
      else j.numberEnd
  | .exp =>
      if b = 43 ∨ b = 45 then j'.goto (.number .sign)
      else if isDigit b then j'.goto (.number .expInt)
      else j.fail
  | .sign => if isDigit b then j'.goto (.number .expInt) else j.fail
  | .expInt =>
      if b = 46 ∨ isE b then j.fail
      else if isDigit b then j'.goto (.number .expInt)
      else j.numberEnd

/-- `action call_value`, on a transition to `target`. -/
def callValue (j : Json) (target : State) : Move := j.fcall [] target (.value .base)

def arrayStep (j : Json) (a : ArrayState) (i : Ignore) (b : UInt8) : Move :=
  match a with
  | .start => if b = 91 then j.goto (.array .opened .base) else j.fail
  | .opened => j.ignoring i b (.array .opened)
      (if isBeginValue b then j.callValue (.array .element .base)
      else if b = 93 then j.fret [.popOr .jsonArray] false
      else j.fail)
  | .element => j.ignoring i b (.array .element)
      (if b = 44 then j.goto (.array .comma .base)
      else if b = 93 then j.fret [.popOr .jsonArray] false
      else j.fail)
  | .comma => j.ignoring i b (.array .comma)
      (if isBeginValue b then j.callValue (.array .element .base) else j.fail)

/-- `action call_name` -/
def callName (j : Json) : Move := j.fcall [.push .jsonField] (.object .named .base) (.name .start)

def objectStep (j : Json) (o : ObjectState) (i : Ignore) (b : UInt8) : Move :=
  match o with
  | .start => if b = 123 then j.goto (.object .opened .base) else j.fail
  | .opened => j.ignoring i b (.object .opened)
      (if b = 34 then j.callName
      else if b = 125 then j.fret [.popOr .jsonObject] false
      else j.fail)
  | .named => j.ignoring i b (.object .named)
      (if b = 58 then j.goto (.object .colon .base) else j.fail)
  | .colon => j.ignoring i b (.object .colon)
      (if isBeginValue b then j.callValue (.object .field .base) else j.fail)
  | .field => j.ignoring i b (.object .field)
      (if b = 44 then ⟨{ j with cs := .object .comma .base }, [.popOr .jsonField], false⟩
      else if b = 125 then j.fret [.popOr .jsonField, .popOr .jsonObject] false
      else j.fail)
  | .comma => j.ignoring i b (.object .comma) (if b = 34 then j.callName else j.fail)

/-- The begin of a value. The five literals share the action `parse_null`. -/
def beginValue (j : Json) (b : UInt8) : Move :=
  if b = 110 then j.goto (.literal (bytes "ull"))
  else if b = 102 then j.goto (.literal (bytes "alse"))
  else if b = 116 then j.goto (.literal (bytes "rue"))
  else if b = 78 then j.goto (.literal (bytes "aN"))
  else if b = 73 then j.goto (.literal (bytes "nfinity"))
  else if b = 45 ∨ isDigit b then j.fcall [.push .jsonNumber] .valueEnd (.number .start)
  else if b = 34 then j.fcall [.push .jsonString] .valueEnd (.string .start)
  else if b = 91 then j.fcall [.push .jsonArray] .valueEnd (.array .start .base)
  else if b = 123 then j.fcall [.push .jsonObject] .valueEnd (.object .start .base)
  else j.fail

def literalStep (j : Json) (rest : Text) (b : UInt8) : Move :=
  match rest with
  | [] => j.fail
  | [c] =>
      if b = c then ⟨{ j with cs := .valueEnd }, [.push .jsonNull, .pop .jsonNull], false⟩ else j.fail
  | c :: rest => if b = c then j.goto (.literal rest) else j.fail

/-- The places in `ignore*` after a byte in `main`; a value leads to its begin. -/
def after (places : List Ignore) (b : UInt8) : List Ignore :=
  ((if Ignore.base ∈ places ∧ isValueChar b then [Ignore.base] else []) ++ places.filterMap (·.step b)).dedup

def trans (j : Json) (b : UInt8) : Move :=
  match j.cs with
  | .start =>
      if b = 41 then j.goto (.guard [93, 125, 39, 10])
      else if isValueChar b then j.callValue (.between [.base])
      else j.fail
  | .guard [] => j.fail
  | .guard [c] => if b = c then j.goto .first else j.fail
  | .guard (c :: rest) => if b = c then j.goto (.guard rest) else j.fail
  | .first => if isValueChar b then j.callValue (.between [.base]) else j.fail
  | .between places =>
      if Ignore.base ∈ places ∧ isValueChar b then j.callValue (.between (after places b))
      else if after places b = [] then j.fail
      else j.goto (.between (after places b))
  | .value i => j.ignoring i b .value (j.beginValue b)
  | .literal rest => j.literalStep rest b
  | .valueEnd => j.fret [] true
  | .number n => j.numberStep n b
  | .string q => j.stringStep q b
  | .name q => j.nameStep q b
  | .array a i => j.arrayStep a i b
  | .object o i => j.objectStep o i b

/-- The transitions of a byte, at most so many, and their calls. -/
def step : ℕ → Json → UInt8 → Json × List TreeCall
  | 0, j, _ => (j, [])
  | n + 1, j, b =>
      let m := j.trans b
      if m.hold then
        let r := step n m.json b
        (r.1, m.calls ++ r.2)
      else (m.json, m.calls)

/-- No byte is read by more transitions: the end of a number, the end of its value, `main`, the next
value and its begin. -/
def reads : ℕ := 5

/-- `receive`. -/
def receive : Json → VPT → Text → Option (Json × VPT)
  | j, v, [] => some (j, v)
  | j, v, b :: data =>
      if j.error then some (j, v)
      else
        let r := step reads j b
        (v.performAll r.2).bind fun w =>
          receive (if w.2 then r.1 else { j with error := true }) w.1 data

/-- The machine over a text, without the tree. -/
def run (j : Json) (text : Text) : Json :=
  text.foldl (fun j b => if j.error then j else (step reads j b).1) j

/-- The machine is in `main` or in a value directly under it, not in a number, a string, an array or
an object. -/
def outside (j : Json) : Bool :=
  (j.cs :: j.stack).all fun
    | .number _ | .string _ | .name _ | .array _ _ | .object _ _ => false
    | _ => true

end Json

end Netp.Parse
