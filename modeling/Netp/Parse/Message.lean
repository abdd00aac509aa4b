import Netp.Parse.BlockExec
import Netp.Lib.CString

/-! # HTTP/1.1 responses

What a well-formed response is, and the bytes it is sent as, independent of the parser. Bodies are
delimited by `Content-Length`, by the chunked coding without trailers, or by the end of the connection.
-/

namespace Netp.Parse
open Netp.Lib
set_option autoImplicit false

structure Header where
  name : Text
  value : Text

structure Chunk where
  /-- The size as it is written. -/
  size : Text
  ext : Option Text
  data : Text

inductive Body
  | length (data : Text)
  | chunked (chunks : List Chunk) (last : Text) (ext : Option Text)
  | close (data : Text)

structure Response where
  status : Text
  reason : Text
  headers : List Header
  body : Body

/-! ## The bytes of a response -/

def crlf : Text := [13, 10]

def Header.render (h : Header) : Text := h.name ++ 58 :: h.value ++ crlf

def renderExt : Option Text → Text
  | none => []
  | some x => 59 :: x

/-- The line in front of a chunk. -/
def sizeLine (size : Text) (ext : Option Text) : Text := size ++ renderExt ext ++ crlf

def Chunk.render (c : Chunk) : Text := sizeLine c.size c.ext ++ c.data ++ crlf

namespace Body

def render : Body → Text
  | .length data => data
  | .chunked chunks last ext => chunks.flatMap Chunk.render ++ sizeLine last ext ++ crlf
  | .close data => data

/-- The body that is sent. -/
def content : Body → Text
  | .length data => data
  | .chunked chunks _ _ => chunks.flatMap Chunk.data
  | .close data => data

end Body

def Response.statusLine (r : Response) : Text :=
  bytes "HTTP/1.1" ++ 32 :: r.status ++ 32 :: r.reason ++ crlf

def Response.render (r : Response) : Text :=
  r.statusLine ++ r.headers.flatMap Header.render ++ crlf ++ r.body.render

/-! ## Well-formed responses -/

def isTokenChar (b : UInt8) : Bool :=
  (65 ≤ b ∧ b ≤ 90) ∨ (97 ≤ b ∧ b ≤ 122) ∨ (48 ≤ b ∧ b ≤ 57) ∨ b ∈ bytes "!#$%&'*+-.^_|~" ∨ b = 96

/-- Visible characters, blanks and the bytes from 128 on. -/
def isFieldChar (b : UInt8) : Bool := b = 9 ∨ (32 ≤ b ∧ b ≠ 127)

def isBlank (b : UInt8) : Bool := b = 32 ∨ b = 9

structure Header.WellFormed (h : Header) : Prop where
  name_ne : h.name ≠ []
  name : ∀ b ∈ h.name, isTokenChar b = true
  value : ∀ b ∈ h.value, isFieldChar b = true

/-- The name of a header, in any case. -/
def Header.Named (h : Header) (name : Text) : Prop := h.name.map tolower = name.map tolower

instance Header.decidableNamed (h : Header) (name : Text) : Decidable (h.Named name) :=
  inferInstanceAs (Decidable (h.name.map tolower = name.map tolower))

/-- The value of `Content-Length`. -/
def IsLength (value : Text) (n : ℕ) : Prop :=
  ∃ pre ds post, value = pre ++ ds ++ post ∧ (∀ b ∈ pre ++ post, isBlank b = true) ∧ ds ≠ [] ∧
    (∀ b ∈ ds, (digitVal 10 b).isSome) ∧ numVal 10 ds = n

/-- The list in `value` has the element `word`, in any case; with `last`, as its last one. -/
def HasElement (value word : Text) (last : Bool) : Prop :=
  ∃ pre w post, value = pre ++ w ++ post ∧ w.map tolower = word.map tolower ∧
    (∀ b, pre.getLast? = some b → isBlank b = true ∨ b = 44) ∧
    (∀ b, post.head? = some b → isBlank b = true ∨ b = 44) ∧
    (last = true → ∀ b ∈ post, isBlank b = true)

def ExtWellFormed (ext : Option Text) : Prop := ∀ x ∈ ext, x ≠ [] ∧ ∀ b ∈ x, isFieldChar b = true

structure Chunk.WellFormed (c : Chunk) : Prop where
  size_ne : c.size ≠ []
  size : ∀ b ∈ c.size, (digitVal 16 b).isSome
  length : numVal 16 c.size = c.data.length
  data_ne : c.data ≠ []
  data_lt : c.data.length < 2 ^ 31
  ext : ExtWellFormed c.ext

/-- The headers announce the way the body is delimited. -/
def Response.Delimited (r : Response) : Prop :=
  match r.body with
  | .length data =>
      data ≠ [] ∧ data.length < 2 ^ 31 ∧ (∃ h ∈ r.headers, h.Named (bytes "Content-Length")) ∧
        (∀ h ∈ r.headers, h.Named (bytes "Content-Length") → IsLength h.value data.length) ∧
        ∀ h ∈ r.headers, ¬ h.Named (bytes "Transfer-Encoding")
  | .chunked chunks last ext =>
      (∀ c ∈ chunks, c.WellFormed) ∧ last ≠ [] ∧ (∀ b ∈ last, b = 48) ∧ ExtWellFormed ext ∧
        (∃ h ∈ r.headers, h.Named (bytes "Transfer-Encoding") ∧
          HasElement h.value (bytes "chunked") true) ∧
        ∀ h ∈ r.headers, ¬ h.Named (bytes "Content-Length")
  | .close _ =>
      (∃ h ∈ r.headers, h.Named (bytes "Connection") ∧ HasElement h.value (bytes "close") false) ∧
        ∀ h ∈ r.headers, ¬ h.Named (bytes "Content-Length") ∧ ¬ h.Named (bytes "Transfer-Encoding")

structure Response.WellFormed (r : Response) : Prop where
  status : r.status.length = 3 ∧ ∀ b ∈ r.status, (digitVal 10 b).isSome
  reason : ∀ b ∈ r.reason, isFieldChar b = true
  headers : ∀ h ∈ r.headers, h.WellFormed
  delimited : r.Delimited

/-! ## What the destinations should get -/

/-- One `start`, the bytes of the body and one `finish` for each body, in the order of the bodies. -/
inductive Delivered : List Text → List Obs → Prop
  | nil : Delivered [] []
  | cons {bodies : List Text} {obs : List Obs} (body : Text) (d : Dest) (h : Delivered bodies obs) :
      Delivered (body :: bodies) (.start d :: body.map (.byte d) ++ .finish d :: obs)

end Netp.Parse
