import Netp.Lib.Phrases
import Netp.Parse.HttpReq

/-! # The streams of requests

`Request`: a request as it is written, with the folds of its header lines and the ends of its lines. The
parser is at `main` behind exactly the streams of such requests, and then has made for each of them the
calls that `Request.said` lists, in whatever pieces the stream came (`requests_read`).

For every state there is the language of what may still come, with the calls that go with it (`lang`). The
body of a request has the length that the last header named Content-Length gives, as `atoi` reads it.
-/

namespace Netp.Parse.Req
open Netp.Lib Netp.Parse.HttpRequest
set_option autoImplicit false

/-! ## Requests -/

/-- A header, its value with the folds and the end of the line. -/
structure Header where
  name : Text
  value : Text

/-- `( [^\r\n] | '\r'? '\n' [ \t] )* '\r'? '\n'` -/
inductive Folded : Text → Prop
  | lf : Folded [10]
  | crlf : Folded [13, 10]
  | char {b : UInt8} {t : Text} (hb : isLineChar b = true) (ht : Folded t) : Folded (b :: t)
  | fold {b : UInt8} {t : Text} (hb : b = 32 ∨ b = 9) (ht : Folded t) : Folded (10 :: b :: t)
  | crFold {b : UInt8} {t : Text} (hb : b = 32 ∨ b = 9) (ht : Folded t) : Folded (13 :: 10 :: b :: t)

/-- What the calls on the tree show. -/
def said (cs : List Call) : List Obs :=
  cs.filterMap fun
    | .vpt c => some (.vpt c)
    | _ => none

namespace Header

def Valid (h : Header) : Prop :=
  h.name ≠ [] ∧ (∀ b ∈ h.name, isNameChar b = true) ∧ Folded h.value

def text (h : Header) : Text := h.name ++ 58 :: h.value

def said (h : Header) : List Obs := Req.said (headerCalls (h.name ++ [0]) (chomp (h.value ++ [0])))

/-- The content length behind a header. -/
def length (n : ℤ) (h : Header) : ℤ :=
  if strcaseeq (h.name ++ [0]) (bytes "Content-Length") then
    atoi ((chomp (h.value ++ [0])).dropWhile fun b => b = 9 ∨ b = 32)
  else n

end Header

structure Request where
  method : Text
  uri : Text
  protocol : Text
  lineEnd : Text
  headers : List Header
  headEnd : Text
  body : Text

/-- `'\r'? '\n'` -/
def Newline (e : Text) : Prop := e = [10] ∨ e = [13, 10]

def plain : Dest := ⟨.plain, false⟩

/-- A node with a text. -/
def part (type : NodeType) (text : Text) : List Obs :=
  [.vpt (.push type), .vpt (.setText (cstr (text ++ [0]))), .vpt (.pop type)]

def begins : List Obs :=
  [.vpt .generatePair, .vpt (.push .httpRequest), .vpt .setConsumer, .vpt (.push .httpHead)]

def bodySaid (body : Text) : List Obs :=
  if body = [] then [] else .start plain :: (body.map (.byte plain) ++ [.finish plain])

namespace Request

structure Valid (r : Request) : Prop where
  method : r.method ≠ [] ∧ ∀ b ∈ r.method, isMethodChar b = true
  uri : r.uri ≠ [] ∧ ∀ b ∈ r.uri, b ≠ 32
  protocol : r.protocol ≠ [] ∧ ∀ b ∈ r.protocol, isLineChar b = true
  lineEnd : Newline r.lineEnd
  headers : ∀ h ∈ r.headers, h.Valid
  headEnd : Newline r.headEnd
  body : r.body.length = (r.headers.foldl Header.length (-1)).toNat

def text (r : Request) : Text :=
  r.method ++ 32 :: (r.uri ++ 32 :: (r.protocol ++ (r.lineEnd ++ (r.headers.flatMap Header.text ++
    (r.headEnd ++ r.body)))))

def said (r : Request) : List Obs :=
  begins ++ part .httpMethod r.method ++ part .httpUri r.uri ++ part .httpProtocol r.protocol ++
    r.headers.flatMap Header.said ++ [.vpt (.pop .httpHead)] ++ bodySaid r.body ++
    [.vpt (.pop .httpRequest)]

end Request

/-! ## What may come in a state -/

/-- Calls, and then what a language says. -/
def say (o : List Obs) (P : Phrases UInt8 (List Obs)) : Phrases UInt8 (List Obs) := P.map (o ++ ·)

def requests : Phrases UInt8 (List Obs) := fun t y =>
  ∃ rs : List Request, (∀ r ∈ rs, r.Valid) ∧ t = rs.flatMap Request.text ∧ y = rs.flatMap Request.said

/-- The last `n` bytes of a body. -/
def bodyRest (n : ℕ) : Phrases UInt8 (List Obs) := fun t y => ∃ b r z, t = b ++ r ∧ b.length = n ∧
  requests r z ∧ y = b.map (.byte plain) ++ .finish plain :: .vpt (.pop .httpRequest) :: z

def behindHead (n : ℤ) : Phrases UInt8 (List Obs) :=
  if 0 < n then say [.vpt (.pop .httpHead)] (say [.start plain] (bodyRest n.toNat))
  else say [.vpt (.pop .httpHead), .vpt (.pop .httpRequest)] requests

def newline (P : Phrases UInt8 (List Obs)) : Phrases UInt8 (List Obs) :=
  (P.after 10).either ((P.after 10).after 13)

def headers (n : ℤ) : Phrases UInt8 (List Obs) := fun t y => ∃ (hs : List Header) (r : Text) (z : List Obs),
  (∀ h ∈ hs, h.Valid) ∧ t = hs.flatMap Header.text ++ r ∧ newline (behindHead (hs.foldl Header.length n)) r z ∧
    y = hs.flatMap Header.said ++ z

def value (n : ℤ) (name acc : Text) : Phrases UInt8 (List Obs) := fun t y => ∃ v r z, t = v ++ r ∧
  Folded v ∧ headers (Header.length n ⟨name, acc ++ v⟩) r z ∧ y = Header.said ⟨name, acc ++ v⟩ ++ z

/-- Behind the end of a line, which is that of the header unless a blank follows. -/
def valueEnd (n : ℤ) (name acc : Text) : Phrases UInt8 (List Obs) :=
  (Phrases.one (fun a => a = 32 ∨ a = 9) fun a => value n name (acc ++ [a])).either
    (say (Header.said ⟨name, acc⟩) (headers (Header.length n ⟨name, acc⟩)))

def name (n : ℤ) : Text → Phrases UInt8 (List Obs) :=
  Phrases.span (fun a => isNameChar a = true) fun nm => (value n nm []).after 58

def protocol : Text → Phrases UInt8 (List Obs) :=
  Phrases.span (fun a => isLineChar a = true) fun p =>
    newline (say (part .httpProtocol p) (headers (-1)))

def uri : Text → Phrases UInt8 (List Obs) :=
  Phrases.span (fun a => a ≠ 32) fun u => (say (part .httpUri u)
    (Phrases.one (fun a => isLineChar a = true) fun a => protocol [a])).after 32

def method : Text → Phrases UInt8 (List Obs) :=
  Phrases.span (fun a => isMethodChar a = true) fun m => (say (begins ++ part .httpMethod m)
    (Phrases.one (fun a => a ≠ 32) fun a => uri [a])).after 32

/-- What may come in a state, and what is then said. -/
def lang (s : HttpRequest) : Phrases UInt8 (List Obs) :=
  match s.cs with
  | .error => .nothing
  | .main => requests
  | .method => method s.buf1
  | .methodEnd => .one (fun a => a ≠ 32) fun a => uri [a]
  | .uri => uri s.buf1
  | .uriEnd => .one (fun a => isLineChar a = true) fun a => protocol [a]
  | .protocol => protocol s.buf1
  | .lineCr => (headers (-1)).after 10
  | .lineEnd => headers (-1)
  | .name => name s.contentLength s.buf1
  | .colon => value s.contentLength s.buf1 []
  | .value => value s.contentLength s.buf1 s.buf2
  | .valueCr => (valueEnd s.contentLength s.buf1 (s.buf2 ++ [10])).after 10
  | .valueEnd => valueEnd s.contentLength s.buf1 s.buf2
  | .headEndCr => (behindHead s.contentLength).after 10
  | .consume => say [.start plain] (bodyRest s.contentLength.toNat)
  | .inConsume => bodyRest s.contentLength.toNat

/-! ## Unrolling -/

theorem newline_iff {P : Phrases UInt8 (List Obs)} {t : Text} {y : List Obs} :
    newline P t y ↔ ∃ e r, Newline e ∧ t = e ++ r ∧ P r y := by
  constructor
  · rintro (⟨r, rfl, hP⟩ | ⟨_, rfl, r, rfl, hP⟩)
    · exact ⟨[10], r, .inl rfl, rfl, hP⟩
    · exact ⟨[13, 10], r, .inr rfl, rfl, hP⟩
  · rintro ⟨e, r, rfl | rfl, rfl, hP⟩
    · exact .inl ⟨r, rfl, hP⟩
    · exact .inr ⟨_, rfl, r, rfl, hP⟩

theorem behindHead_iff {n : ℤ} {t : Text} {y : List Obs} : behindHead n t y ↔ ∃ b r z, t = b ++ r ∧
    b.length = n.toNat ∧ requests r z ∧
      y = .vpt (.pop .httpHead) :: (bodySaid b ++ .vpt (.pop .httpRequest) :: z) := by
  unfold behindHead
  split
  · rename_i hn
    constructor
    · rintro ⟨_, ⟨_, ⟨b, r, z, rfl, hlen, hr, rfl⟩, rfl⟩, rfl⟩
      have hne : b ≠ [] := by
        rintro rfl
        rw [List.length_nil] at hlen
        omega
      exact ⟨b, r, z, rfl, hlen, hr, by simp [bodySaid, hne]⟩
    · rintro ⟨b, r, z, rfl, hlen, hr, rfl⟩
      have hne : b ≠ [] := by
        rintro rfl
        rw [List.length_nil] at hlen
        omega
      exact ⟨_, ⟨_, ⟨b, r, z, rfl, hlen, hr, rfl⟩, rfl⟩, by simp [bodySaid, hne]⟩
  · rename_i hn
    have hzero : n.toNat = 0 := by omega
    constructor
    · rintro ⟨z, hr, rfl⟩
      exact ⟨[], t, z, rfl, hzero.symm, hr, rfl⟩
    · rintro ⟨b, r, z, rfl, hlen, hr, rfl⟩
      obtain rfl : b = [] := List.eq_nil_of_length_eq_zero (hlen.trans hzero)
      exact ⟨z, hr, rfl⟩

/-- There is another header, or the end of the head. -/
theorem headers_eq (n : ℤ) : headers n = (newline (behindHead n)).either
    (.one (fun a => isNameChar a = true) fun a => name n [a]) := by
  ext t y
  constructor
  · rintro ⟨hs, r, z, hv, rfl, hend, rfl⟩
    cases hs with
    | nil => exact .inl hend
    | cons h hs =>
      obtain ⟨⟨hne, hname, hvalue⟩, hrest⟩ := List.forall_mem_cons.1 hv
      obtain ⟨a, u, ha⟩ := List.exists_cons_of_ne_nil hne
      rw [ha] at hname
      obtain ⟨hhead, htail⟩ := List.forall_mem_cons.1 hname
      refine .inr ⟨a, u ++ 58 :: (h.value ++ (hs.flatMap Header.text ++ r)), ?_, hhead, u, _, rfl, htail, _,
        rfl, h.value, _, hs.flatMap Header.said ++ z, rfl, hvalue, ?_, ?_⟩
      · simp [Header.text, ha]
      · refine ⟨hs, r, z, hrest, rfl, ?_, rfl⟩
        rw [List.nil_append, List.singleton_append, ← ha]
        exact hend
      · rw [List.nil_append, List.singleton_append, ← ha]
        simp
  · rintro (hend | ⟨a, _, rfl, ha, u, _, rfl, hu, _, rfl, v, _, _, rfl, hv, ⟨hs, r, z, hrest, rfl, hend, rfl⟩,
      rfl⟩)
    · exact ⟨[], t, y, by simp, rfl, hend, rfl⟩
    · refine ⟨⟨a :: u, v⟩ :: hs, r, z, List.forall_mem_cons.2 ⟨⟨List.cons_ne_nil _ _, ?_, hv⟩, hrest⟩, ?_,
        hend, ?_⟩
      · exact List.forall_mem_cons.2 ⟨ha, hu⟩
      · simp [Header.text]
      · simp

/-- A request and what follows it. -/
theorem request_iff {t : Text} {y : List Obs} :
    Phrases.one (fun a => isMethodChar a = true) (fun a => method [a]) t y ↔
      ∃ r t' y', Request.Valid r ∧ t = r.text ++ t' ∧ requests t' y' ∧ y = r.said ++ y' := by
  constructor
  · rintro ⟨a, _, rfl, ha, m, _, rfl, hm, _, rfl, _, ⟨b, _, rfl, hb, u, _, rfl, hu, _, rfl, _,
      ⟨c, _, rfl, hc, p, _, rfl, hp, hline⟩, rfl⟩, rfl⟩
    obtain ⟨e, _, he, rfl, _, ⟨hs, _, _, hv, rfl, hend, rfl⟩, rfl⟩ := newline_iff.1 hline
    obtain ⟨e', _, he', rfl, hbody⟩ := newline_iff.1 hend
    obtain ⟨body, r, z, rfl, hlen, hr, rfl⟩ := behindHead_iff.1 hbody
    refine ⟨⟨a :: m, b :: u, c :: p, e, hs, e', body⟩, r, z, ⟨⟨List.cons_ne_nil _ _, ?_⟩,
      ⟨List.cons_ne_nil _ _, ?_⟩, ⟨List.cons_ne_nil _ _, ?_⟩, he, hv, he', hlen⟩, ?_, hr, ?_⟩
    · exact List.forall_mem_cons.2 ⟨ha, hm⟩
    · exact List.forall_mem_cons.2 ⟨hb, hu⟩
    · exact List.forall_mem_cons.2 ⟨hc, hp⟩
    · simp [Request.text]
    · simp [Request.said]
  · rintro ⟨⟨m, u, p, e, hs, e', body⟩, r, z, ⟨⟨hm, hm'⟩, ⟨hu, hu'⟩, ⟨hp, hp'⟩, he, hv, he', hlen⟩, rfl, hr, rfl⟩
    obtain ⟨a, m, rfl⟩ := List.exists_cons_of_ne_nil hm
    obtain ⟨b, u, rfl⟩ := List.exists_cons_of_ne_nil hu
    obtain ⟨c, p, rfl⟩ := List.exists_cons_of_ne_nil hp
    obtain ⟨ha, hm'⟩ := List.forall_mem_cons.1 hm'
    obtain ⟨hb, hu'⟩ := List.forall_mem_cons.1 hu'
    obtain ⟨hc, hp'⟩ := List.forall_mem_cons.1 hp'
    have hbody := behindHead_iff.2 ⟨body, r, z, rfl, hlen, hr, rfl⟩
    have hhead : headers (-1) (hs.flatMap Header.text ++ (e' ++ (body ++ r))) (hs.flatMap Header.said ++
        .vpt (.pop .httpHead) :: (bodySaid body ++ .vpt (.pop .httpRequest) :: z)) :=
      ⟨hs, _, _, hv, rfl, newline_iff.2 ⟨e', _, he', rfl, hbody⟩, rfl⟩
    have hline : newline (say (part .httpProtocol (c :: p)) (headers (-1))) _ _ :=
      newline_iff.2 ⟨e, _, he, rfl, _, hhead, rfl⟩
    refine ⟨a, _, ?_, ha, m, _, rfl, hm', _, rfl, _, ⟨b, _, rfl, hb, u, _, rfl, hu', _, rfl, _,
      ⟨c, _, rfl, hc, p, _, rfl, hp', hline⟩, rfl⟩, ?_⟩
    · simp [Request.text]
    · simp [Request.said]

theorem requests_eq : requests =
    (Phrases.done []).either (.one (fun a => isMethodChar a = true) fun a => method [a]) := by
  ext t y
  refine Iff.trans ?_ (or_congr Iff.rfl request_iff.symm)
  constructor
  · rintro ⟨rs, hv, rfl, rfl⟩
    cases rs with
    | nil => exact .inl ⟨rfl, rfl⟩
    | cons r rs =>
      obtain ⟨hr, hrs⟩ := List.forall_mem_cons.1 hv
      exact .inr ⟨r, _, _, hr, rfl, ⟨rs, hrs, rfl, rfl⟩, rfl⟩
  · rintro (⟨rfl, rfl⟩ | ⟨r, _, _, hr, rfl, ⟨rs, hrs, rfl, rfl⟩, rfl⟩)
    · exact ⟨[], by simp, rfl, rfl⟩
    · exact ⟨r :: rs, List.forall_mem_cons.2 ⟨hr, hrs⟩, rfl, rfl⟩

end Netp.Parse.Req
