import Netp.Parse.Json

/-! # `JSON_parse` (`parse/jsontree.rl`, `parse/json.h`)

The machine `JSON_tree` over a text and the zero byte behind it. Its submachines have the places of
those of the machine `JSON`, and call each other in the same way. A pointer `m` into the text is kept as
the bytes from there on, and `e` with it as the name between them.

`vs` is the stack of the values being read. A value is put into the array or the map above it when
it is complete; in the source that has a pointer to it before.
-/

namespace Netp.Parse
open Netp.Lib
set_option autoImplicit false

/-- `Value`. An `ObjectMap` is in the order of its keys. -/
inductive Value
  | object (o : List (Text × Value))
  | array (a : List Value)
  | string (s : Text)
  | number (s : Text)
  | null | false | true | nan | infinity

namespace JsonParse
open Json

/-- `AvlMap::insert`, and the value assigned to the element. -/
def mapInsert (key : Text) (value : Value) : List (Text × Value) → List (Text × Value)
  | [] => [(key, value)]
  | (k, v) :: o =>
      if k = key then (key, value) :: o
      else if key < k then (key, value) :: (k, v) :: o
      else (k, v) :: mapInsert key value o

inductive Literal
  | null | false | true | nan | infinity
  deriving DecidableEq

def Literal.value : Literal → Value
  | null => .null
  | false => .false
  | true => .true
  | nan => .nan
  | infinity => .infinity

/-- The states of the submachines, without the error state. -/
inductive State
  -- main
  | start | last | final
  -- value
  | value (i : Ignore) | literal (l : Literal) (rest : Text) | valueEnd
  | number (n : NumberState)
  | string (q : QuoteState)
  | name (q : QuoteState)
  | array (a : ArrayState) (i : Ignore)
  | object (o : ObjectState) (i : Ignore)
  deriving DecidableEq

/-- What a `Value *` of `vs` points to. -/
inductive Slot
  | empty
  | array (a : List Value)
  /-- With the key of the value that is being read, if there is one. -/
  | object (o : List (Text × Value)) (key : Text)
  | value (v : Value)

/-- The value, once it is complete. -/
def Slot.close : Slot → Option Value
  | empty => none
  | array a => some (.array a)
  | object o _ => some (.object o)
  | value v => some v

/-- With the value of the slot above it. -/
def Slot.put (v : Value) : Slot → Option Slot
  | array a => some (.array (a ++ [v]))
  | object o key => some (.object (mapInsert key v o) key)
  | _ => none

end JsonParse

structure JsonParse where
  cs : JsonParse.State
  stack : List JsonParse.State
  error : Bool
  /-- From `m` to `p`. -/
  mark : Text
  /-- From `m` to `e`. -/
  name : Text
  dot : Bool
  exp : Bool
  /-- The last one is `*vt`. -/
  vs : List JsonParse.Slot
  /-- `*root`, once it is complete. -/
  root : Option Value

namespace JsonParse
open Json

def init : JsonParse := ⟨.start, [], false, [], [], false, false, [], none⟩

/-- A transition, and whether it has held the byte. -/
structure Move where
  json : JsonParse
  hold : Bool

def goto (j : JsonParse) (cs : State) : Move := ⟨{ j with cs := cs }, false⟩

def fail (j : JsonParse) : Move := ⟨{ j with error := true }, false⟩

/-- `fhold; fcall callee;` on a transition to `target`. -/
def fcall (j : JsonParse) (target callee : State) : Move :=
  ⟨{ j with cs := callee, stack := target :: j.stack }, true⟩

def fret (j : JsonParse) (hold : Bool) : Move :=
  match j.stack with
  | [] => j.fail
  | cs :: stack => ⟨{ j with cs := cs, stack := stack }, hold⟩

def ignoring (j : JsonParse) (i : Ignore) (b : UInt8) (place : Ignore → State) (other : Move) : Move :=
  match i.step b with
  | some i => j.goto (place i)
  | none => if i = .base then other else j.fail

/-- With `*vt` set. -/
def setVt (j : JsonParse) (s : Slot) : JsonParse := { j with vs := s :: j.vs.tail }

/-- `vs.append( vt = n )`, for a new value. -/
def pushVt (j : JsonParse) : JsonParse := { j with vs := .empty :: j.vs }

/-- `vs.remove` and the new `vt`. -/
def popVt (j : JsonParse) : Option JsonParse :=
  match j.vs with
  | [] => none
  | [s] => s.close.map fun v => { j with vs := [], root := some v }
  | s :: below :: vs =>
      s.close.bind fun v => (below.put v).map fun below => { j with vs := below :: vs }

/-! ## The submachines -/

def nameStep (j : JsonParse) (q : QuoteState) (b : UInt8) : Move :=
  let j' := { j with mark := j.mark ++ [b] }
  match q with
  | .start => if b = 34 then goto { j with mark := [] } (.name .body) else j.fail
  | .body =>
      if b = 34 then fret { j with name := j.mark } false
      else if b = 92 then j'.goto (.name .escape)
      else if b < 32 then j.fail
      else j'.goto (.name .body)
  | .escape =>
      if b = 117 then j'.goto (.name (.hex 3))
      else if b < 32 then j.fail
      else j'.goto (.name .body)
  | .hex 0 => if isHexDigit b then j'.goto (.name .body) else j.fail
  | .hex (n + 1) => if isHexDigit b then j'.goto (.name (.hex n)) else j.fail

def stringStep (j : JsonParse) (q : QuoteState) (b : UInt8) : Move :=
  let j' := { j with mark := j.mark ++ [b] }
  match q with
  | .start => if b = 34 then goto { j with mark := [] } (.string .body) else j.fail
  | .body =>
      if b = 34 then fret (j.setVt (.value (.string j.mark))) false
      else if b = 92 then j'.goto (.string .escape)
      else if b < 32 then j.fail
      else j'.goto (.string .body)
  | .escape =>
      if b = 117 then j'.goto (.string (.hex 3))
      else if b < 32 then j.fail
      else j'.goto (.string .body)
  | .hex 0 => if isHexDigit b then j'.goto (.string .body) else j.fail
  | .hex (n + 1) => if isHexDigit b then j'.goto (.string (.hex n)) else j.fail

/-- `while ( last > m && *last == '0' ) last -= 1;`, backwards from `last`. -/
def trimZeros : Text → Text
  | c :: d :: m => if c = 48 then trimZeros (d :: m) else c :: d :: m
  | s => s

/-- The text of a number, from `m` to `last`. -/
def trim (j : JsonParse) : Text :=
  if j.dot && !j.exp then
    let s := trimZeros j.mark.reverse
    (if s.head? = some 46 then s.tail else s).reverse
  else j.mark

def numberEnd (j : JsonParse) : Move := fret (j.setVt (.value (.number j.trim))) true

def numberStep (j : JsonParse) (n : NumberState) (b : UInt8) : Move :=
  let j' := { j with mark := j.mark ++ [b] }
  match n with
  | .start =>
      let j' := { j with mark := [b], dot := false, exp := false }
      if b = 45 then j'.goto (.number .minus)
      else if b = 48 then j'.goto (.number .zero)
      else if isDigit b then j'.goto (.number .int)
      else j.fail
  | .minus =>
      if b = 48 then j'.goto (.number .zero)
      else if isDigit b then j'.goto (.number .int)
      else j.fail
  | .zero =>
      if b = 46 then goto { j' with dot := true } (.number .dot)
      else if isE b then goto { j' with exp := true } (.number .exp)
      else if isDigit b then j.fail
      else j.numberEnd
  | .int =>
      if b = 46 then goto { j' with dot := true } (.number .dot)
      else if isE b then goto { j' with exp := true } (.number .exp)
      else if isDigit b then j'.goto (.number .int)
      else j.numberEnd
  | .dot => if isDigit b then j'.goto (.number .frac) else j.fail
  | .frac =>
      if b = 46 then j.fail
      else if isE b then goto { j' with exp := true } (.number .exp)
      else if isDigit b then j'.goto (.number .frac)
      else j.numberEnd
  | .exp =>
      if b = 43 ∨ b = 45 then j'.goto (.number .sign)
      else if isDigit b then j'.goto (.number .expInt)
      else j.fail
  | .sign => if isDigit b then j'.goto (.number .expInt) else j.fail
  | .expInt =>
      if b = 46 ∨ isE b then j.fail
      else if isDigit b then j'.goto (.number .expInt)
      else j.numberEnd

/-- A new element, and its value. -/
def callElement (j : JsonParse) : Move := j.pushVt.fcall (.array .element .base) (.value .base)

def arrayStep (j : JsonParse) (a : ArrayState) (i : Ignore) (b : UInt8) : Move :=
  match a with
  | .start => if b = 91 then goto (j.setVt (.array [])) (.array .opened .base) else j.fail
  | .opened => j.ignoring i b (.array .opened)
      (if isBeginValue b then j.callElement
      else if b = 93 then j.fret false
      else j.fail)
  | .element => j.ignoring i b (.array .element)
      (if b = 44 then j.goto (.array .comma .base)
      else if b = 93 then j.fret false
      else j.fail)
  | .comma => j.ignoring i b (.array .comma) (if isBeginValue b then j.callElement else j.fail)

/-- `action parse_name` -/
def parseName (j : JsonParse) : Move := j.fcall (.object .named .base) (.name .start)

/-- `name_separator`: the element of the map for the name, and `vt` at its value. -/
def newField (j : JsonParse) : JsonParse :=
  match j.vs with
  | .object o _ :: vs => { j with vs := .empty :: .object o j.name :: vs }
  | _ => { j with error := true }

def objectStep (j : JsonParse) (o : ObjectState) (i : Ignore) (b : UInt8) : Move :=
  match o with
  | .start => if b = 123 then goto (j.setVt (.object [] [])) (.object .opened .base) else j.fail
  | .opened => j.ignoring i b (.object .opened)
      (if b = 34 then j.parseName
      else if b = 125 then j.fret false
      else j.fail)
  | .named => j.ignoring i b (.object .named)
      (if b = 58 then j.newField.goto (.object .colon .base) else j.fail)
  | .colon => j.ignoring i b (.object .colon)
      (if isBeginValue b then j.fcall (.object .field .base) (.value .base) else j.fail)
  | .field => j.ignoring i b (.object .field)
      (if b = 44 then j.goto (.object .comma .base)
      else if b = 125 then j.fret false
      else j.fail)
  | .comma => j.ignoring i b (.object .comma) (if b = 34 then j.parseName else j.fail)

def beginValue (j : JsonParse) (b : UInt8) : Move :=
  if b = 110 then j.goto (.literal .null (bytes "ull"))
  else if b = 102 then j.goto (.literal .false (bytes "alse"))
  else if b = 116 then j.goto (.literal .true (bytes "rue"))
  else if b = 78 then j.goto (.literal .nan (bytes "aN"))
  else if b = 73 then j.goto (.literal .infinity (bytes "nfinity"))
  else if b = 45 ∨ isDigit b then j.fcall .valueEnd (.number .start)
  else if b = 34 then j.fcall .valueEnd (.string .start)
  else if b = 91 then j.fcall .valueEnd (.array .start .base)
  else if b = 123 then j.fcall .valueEnd (.object .start .base)
  else j.fail

def literalStep (j : JsonParse) (l : Literal) (rest : Text) (b : UInt8) : Move :=
  match rest with
  | [] => j.fail
  | [c] => if b = c then goto (j.setVt (.value l.value)) .valueEnd else j.fail
  | c :: rest => if b = c then j.goto (.literal l rest) else j.fail

def trans (j : JsonParse) (b : UInt8) : Move :=
  match j.cs with
  | .start => j.pushVt.fcall .last (.value .base)
  | .last => if b = 0 then j.goto .final else j.fail
  | .final => j.fail
  | .value i => j.ignoring i b .value (j.beginValue b)
  | .literal l rest => j.literalStep l rest b
  | .valueEnd => match j.popVt with
      | none => j.fail
      | some j => j.fret true
  | .number n => j.numberStep n b
  | .string q => j.stringStep q b
  | .name q => j.nameStep q b
  | .array a i => j.arrayStep a i b
  | .object o i => j.objectStep o i b

/-- The transitions of a byte, at most so many. -/
def step : ℕ → JsonParse → UInt8 → JsonParse
  | 0, j, _ => j
  | n + 1, j, b =>
      let m := j.trans b
      if m.hold then step n m.json b else m.json

def run (j : JsonParse) (data : Text) : JsonParse :=
  data.foldl (fun j b => if j.error then j else step reads j b) j

end JsonParse

/-- `JSON_parse`: the `Value`, or null. -/
def jsonParse (text : Text) : Option Value :=
  let j := JsonParse.init.run (text ++ [0])
  if j.cs = .final ∧ j.error = false then j.root else none

end Netp.Parse
