import Netp.Parse.FramingBody
import Netp.Parse.SourceCalls

/-! # Which responses complete their request (`parse/httprsp.rl`, `parse/connection.cc`)

The source of an `HttpResponseParser` hears of the end of a response from `bodyBlockFinish`. A response
gets there by the last byte of a body with its length or by the last chunk; `fin` never does, so a
response without a body completes nothing, and the request at the head of `requestList` is that of an
earlier response from then on (`response_not_completed`). A body that ends with the connection is
completed by its first byte. `completes_iff` puts it together.
-/

namespace Netp.Parse
open Netp.Lib
set_option autoImplicit false

/-! ## Responses with and without a body -/

/-- The status of a response that never has a body. -/
def Response.NoBodyStatus (r : Response) : Prop :=
  r.status.head? = some 49 ∨ r.status = bytes "204" ∨ r.status = bytes "304"

/-- There is no body: its status or its headers say so. -/
def Response.Bodiless (r : Response) : Prop :=
  r.body = .length [] ∧ (r.NoBodyStatus ∨
    (∀ h ∈ r.headers, h.Named (bytes "Content-Length") → IsLength h.value 0) ∧
      ∀ h ∈ r.headers, ¬ h.Named (bytes "Transfer-Encoding"))

/-- A well-formed response, with or without a body. -/
structure Response.Sent (r : Response) : Prop where
  status : r.status.length = 3 ∧ ∀ b ∈ r.status, (digitVal 10 b).isSome
  reason : ∀ b ∈ r.reason, isFieldChar b = true
  headers : ∀ h ∈ r.headers, h.WellFormed
  framed : r.Delimited ∨ r.Bodiless

/-- How many bytes there are up to the end of the body; an empty line follows the last chunk. -/
def Response.bodyEnd (r : Response) : ℕ :=
  match r.body with
  | .chunked _ _ _ => r.render.length - crlf.length
  | _ => r.render.length

/-- How many of the responses have come to the end of their body in the first `n` bytes. -/
def completed : List Response → ℕ → ℕ
  | [], _ => 0
  | r :: rs, n => if n < r.bodyEnd then 0 else 1 + completed rs (n - r.render.length)

/-- The calls of `k` responses. -/
def told (k : ℕ) : List Effect := (List.replicate k [Effect.preFinish, .responseComplete]).flatten

/-- `requestList` of a `FetchConnection`, whose `preFinish` detaches the first request. -/
def requestList {α : Type} (requests : List α) (log : List Effect) : List α :=
  requests.drop (log.count .preFinish)

/-- However much of the stream has come and in whatever pieces: the responses at the end of their body
have called the source, once and in turn, and the first request is that of the response after them. -/
def CompletesEach (core : HttpResponse) (rs : List Response) : Prop :=
  ∀ ds : List Text, ds.flatten <+: rs.flatMap Response.render →
    let log := (ds.foldl httpResponse.receive (startResponse (.new core))).log
    let k := completed rs ds.flatten.length
    sourceCalls log = told k ∧
      ∀ (α : Type) (requests : List α), (requestList requests log).head? = requests[k]?

/-- The header announces the end of the connection, in the case the parser looks for. -/
def Header.SaysClose (hd : Header) : Prop :=
  hd.Named (bytes "Connection") ∧ bytes "close" <:+: hd.value

instance Header.decidableSaysClose (hd : Header) : Decidable hd.SaysClose :=
  inferInstanceAs (Decidable (_ ∧ _))

/-- The parser gets through the response, and reads its headers as they are meant. -/
structure Response.Readable (r : Response) (wantCookies : Bool) : Prop where
  reason_ne : r.reason ≠ []
  names : ∀ hd ∈ r.headers, ∀ b ∈ hd.name, isNameChar b = true
  cookies : wantCookies = true → ∀ hd ∈ r.headers, hd.CookieReadable
  body : match r.body with
    | .length _ => True
    | .chunked chunks _ _ => chunks.length < 2 ^ 31 ∧ ∃ hd ∈ r.headers, hd.SaysChunked
    | .close _ => ∃ hd ∈ r.headers, hd.SaysClose

/-- There is a byte of a body, and exactly one if it ends with the connection. -/
def Response.Completing (r : Response) : Prop :=
  match r.body with
  | .length data => data ≠ []
  | .chunked chunks _ _ => chunks ≠ []
  | .close data => data.length = 1

/-! ## Bytes over which the source is told nothing -/

/-- From `s` the bytes lead to `t`, and the source is told nothing. -/
def Silent (s : HttpResponse) (x : Text) (t : HttpResponse) : Prop :=
  httpResponse.sources s x = [] ∧ httpResponse.reach s x = t

section Silent
variable {s t u : HttpResponse} {x y : Text}

theorem Silent.append (h : Silent s x t) (h' : Silent t y u) : Silent s (x ++ y) u := by
  obtain ⟨hx, rfl⟩ := h
  obtain ⟨hy, rfl⟩ := h'
  refine ⟨?_, httpResponse.reach_append x y s⟩
  rw [Machine.sources_append, hx, hy, List.append_nil]

theorem Silent.take (h : Silent s x t) (k : ℕ) : httpResponse.sources s (x.take k) = [] := by
  have hwhole := h.1
  rw [← List.take_append_drop k x, Machine.sources_append] at hwhole
  exact (List.append_eq_nil_iff.1 hwhole).1

theorem sources_cons (hcs : s.cs ≠ .error) (b : UInt8) (x : Text) :
    httpResponse.sources s (b :: x) =
      (s.step b).2.flatMap Call.source ++ httpResponse.sources (s.step b).1 x := by
  rw [Machine.sources, if_neg (by simpa [httpResponse] using hcs)]
  rfl

theorem reach_cons (hcs : s.cs ≠ .error) (b : UInt8) (x : Text) :
    httpResponse.reach s (b :: x) = httpResponse.reach (s.step b).1 x := by
  rw [Machine.reach, if_neg (by simpa [httpResponse] using hcs)]
  rfl

theorem Silent.cons {b : UInt8} (hcs : s.cs ≠ .error) (hcalls : (s.step b).2.flatMap Call.source = [])
    (h : Silent (s.step b).1 x t) : Silent s (b :: x) t := by
  refine ⟨?_, (reach_cons hcs b x).trans h.2⟩
  rw [sources_cons hcs, hcalls, h.1, List.append_nil]

theorem Quiet.silent (h : Quiet s x t) : Silent s x t := by
  induction x generalizing s with
  | nil => exact ⟨rfl, h⟩
  | cons b x ih =>
    obtain ⟨hcs, hvpt, hrest⟩ := h
    refine Silent.cons hcs ?_ (ih hrest)
    rw [List.flatMap_eq_nil_iff]
    intro c hc
    obtain ⟨v, rfl⟩ := hvpt c hc
    rfl

end Silent

/-! ## The settings stay -/

theorem reach_settings (x : Text) :
    ∀ s : HttpResponse, (httpResponse.reach s x).settings = s.settings := by
  induction x with
  | nil => exact fun _ => rfl
  | cons b x ih =>
    intro s
    rw [Machine.reach]
    split_ifs
    · rfl
    · exact (ih _).trans (step_settings s b)

theorem reach_source (x : Text) (s : HttpResponse) : (httpResponse.reach s x).source = s.source :=
  congrArg Prod.fst (reach_settings x s)

/-! ## The end of a body -/

/-- Between `x` and `y`, at the byte `b`, the source is told of the end of a response. -/
def Ends (s : HttpResponse) (x : Text) (b : UInt8) (y : Text) (t : HttpResponse) : Prop :=
  ∃ u, Silent s x u ∧ u.cs ≠ .error ∧ (u.step b).2.flatMap Call.source = told 1 ∧
    Silent (u.step b).1 y t

section Bodies
variable {s t : HttpResponse} {x y z : Text} {b : UInt8}

theorem Ends.after (h : Ends t x b y s) {r : HttpResponse} (hz : Silent r z t) : Ends r (z ++ x) b y s := by
  obtain ⟨u, hx, hrest⟩ := h
  exact ⟨u, hz.append hx, hrest⟩

theorem Ends.reach (h : Ends s x b y t) : httpResponse.reach s (x ++ b :: y) = t := by
  obtain ⟨u, hx, hcs, -, hy⟩ := h
  rw [Machine.reach_append, hx.2, reach_cons hcs, hy.2]

theorem Ends.sources (h : Ends s x b y t) (k : ℕ) :
    httpResponse.sources s ((x ++ b :: y).take k) = told (if k ≤ x.length then 0 else 1) := by
  obtain ⟨u, hx, hcs, hcalls, hy⟩ := h
  rw [List.take_append, Machine.sources_append, hx.take]
  by_cases hk : k ≤ x.length
  · rw [if_pos hk, Nat.sub_eq_zero_of_le hk]
    rfl
  · obtain ⟨j, hj⟩ : ∃ j, k - x.length = j + 1 := ⟨k - x.length - 1, by omega⟩
    rw [if_neg hk, List.take_of_length_le (by omega), hx.2, hj, List.take_succ_cons, sources_cons hcs,
      hcalls, hy.take, List.append_nil, List.nil_append]

theorem finish_source_calls (hsrc : s.source = true) :
    (s.bodyBlockFinish ++ [Call.vpt (.pop .httpResponse)]).flatMap Call.source = told 1 := by
  rw [HttpResponse.bodyBlockFinish, if_pos hsrc]
  rfl

/-- In a body with its length. -/
def InLength (s : HttpResponse) : Prop := s.cs = .consumeLength ∨ s.cs = .inLength

theorem InLength.step (h : InLength s) (b : UInt8) :
    s.cs ≠ .error ∧ ∃ cs : List Call, cs.flatMap Call.source = [] ∧
      s.step b = Netp.Parse.after cs (s.consume .inLength) := by
  rcases h with hs | hs
  · refine ⟨by rw [hs]; decide, [.destination s.destination, .start], rfl, ?_⟩
    simp only [HttpResponse.step, hs]
  · refine ⟨by rw [hs]; decide, [], rfl, ?_⟩
    simp only [HttpResponse.step, hs, Netp.Parse.after, List.nil_append]

theorem length_silent (x : Text) : ∀ {s : HttpResponse}, InLength s →
    s.contentLength = x.length + 1 → x.length + 1 < 2 ^ 31 →
      ∃ t, Silent s x t ∧ InLength t ∧ t.contentLength = 1 := by
  induction x with
  | nil =>
    intro s hs hlen _
    exact ⟨s, ⟨rfl, rfl⟩, hs, by simpa using hlen⟩
  | cons b x ih =>
    intro s hs hlen hlt
    rw [List.length_cons] at hlen hlt
    obtain ⟨hcs, cs, hquiet, hstep⟩ := hs.step b
    obtain ⟨t, hcons, htcs, htlen⟩ := consume_more hlen (Nat.succ_pos _) (by omega) .inLength
    rw [hcons] at hstep
    obtain ⟨u, hu, hin, hone⟩ := ih (s := t) (.inr htcs) (by rw [htlen]; push_cast; rfl) (by omega)
    refine ⟨u, Silent.cons hcs ?_ ?_, hin, hone⟩
    · rw [hstep]
      simpa [Netp.Parse.after] using hquiet
    · rw [hstep]
      exact hu

theorem length_ends {data : Text} (hs : s.cs = .consumeLength) (hsrc : s.source = true)
    (hlen : s.contentLength = data.length) (hne : data ≠ []) (hlt : data.length < 2 ^ 31) :
    ∃ x b t, data = x ++ [b] ∧ Ends s x b [] t ∧ t.cs = .main := by
  obtain ⟨x, b, rfl⟩ : ∃ x b, data = x ++ [b] :=
    ⟨data.dropLast, data.getLast hne, (List.dropLast_append_getLast hne).symm⟩
  rw [List.length_append, List.length_singleton] at hlen hlt
  obtain ⟨u, hu, hin, hone⟩ := length_silent x (.inl hs) (by rw [hlen]; push_cast; rfl) hlt
  obtain ⟨hcs, cs, hquiet, hstep⟩ := hin.step b
  obtain ⟨t, hcons, htcs⟩ := consume_last hone .inLength
  have husrc : u.source = true := by rw [← hu.2, reach_source, hsrc]
  rw [hcons] at hstep
  refine ⟨x, b, t, rfl, ⟨u, hu, hcs, ?_, ?_⟩, htcs⟩
  · rw [hstep, Netp.Parse.after, List.flatMap_append, hquiet, finish_source_calls husrc]
    rfl
  · rw [hstep]
    exact ⟨rfl, rfl⟩

/-! ### Chunks -/

/-- In the data of a chunk. -/
def InChunk (s : HttpResponse) : Prop :=
  s.cs = .consumeFirstChunk ∨ s.cs = .inFirstChunk ∨ s.cs = .consumeNextChunk ∨ s.cs = .inNextChunk

theorem InChunk.step (h : InChunk s) (b : UInt8) :
    s.cs ≠ .error ∧ ∃ (cs : List Call) (inside : RspState), cs.flatMap Call.source = [] ∧
      (inside = .inFirstChunk ∨ inside = .inNextChunk) ∧
      s.step b = Netp.Parse.after cs (s.consumeChunk inside) := by
  rcases h with hs | hs | hs | hs
  · refine ⟨by rw [hs]; decide, [.destination s.destination, .start], _, rfl, .inl rfl, ?_⟩
    simp only [HttpResponse.step, hs]
  · refine ⟨by rw [hs]; decide, [], _, rfl, .inl rfl, ?_⟩
    simp only [HttpResponse.step, hs, Netp.Parse.after, List.nil_append]
  · refine ⟨by rw [hs]; decide, [.resume], _, rfl, .inr rfl, ?_⟩
    simp only [HttpResponse.step, hs]
  · refine ⟨by rw [hs]; decide, [], _, rfl, .inr rfl, ?_⟩
    simp only [HttpResponse.step, hs, Netp.Parse.after, List.nil_append]

theorem chunk_data_silent (x : Text) : ∀ {s : HttpResponse} {b : UInt8}, InChunk s →
    s.chunkLength = x.length + 1 → x.length + 1 < 2 ^ 31 →
      ∃ t, Silent s (b :: x) t ∧ t.cs = .chunked := by
  induction x with
  | nil =>
    intro s b hs hlen _
    obtain ⟨hcs, cs, inside, hquiet, -, hstep⟩ := hs.step b
    obtain ⟨t, hcons, htcs, -⟩ := consumeChunk_last (by simpa using hlen) inside
    rw [hcons] at hstep
    refine ⟨t, Silent.cons hcs ?_ ?_, htcs⟩
    · rw [hstep, Netp.Parse.after, List.flatMap_append, hquiet]
      rfl
    · rw [hstep]
      exact ⟨rfl, rfl⟩
  | cons c x ih =>
    intro s b hs hlen hlt
    rw [List.length_cons] at hlen hlt
    obtain ⟨hcs, cs, inside, hquiet, hinside, hstep⟩ := hs.step b
    obtain ⟨t, hcons, htcs, htlen, -⟩ := consumeChunk_more hlen (Nat.succ_pos _) (by omega) inside
    rw [hcons] at hstep
    have hin : InChunk t := by
      rcases hinside with rfl | rfl
      · exact .inr (.inl htcs)
      · exact .inr (.inr (.inr htcs))
    obtain ⟨u, hu, hucs⟩ := ih (b := c) hin (by rw [htlen]; push_cast; rfl) (by omega)
    refine ⟨u, Silent.cons hcs ?_ ?_, hucs⟩
    · rw [hstep, Netp.Parse.after, List.flatMap_append, hquiet]
      rfl
    · rw [hstep]
      exact hu

theorem chunk_silent {c : Chunk} (hwf : c.WellFormed) (hs : s.cs = .chunked) :
    ∃ t, Silent s c.render t ∧ t.cs = .chunked := by
  obtain ⟨t₁, hq₁, hcs₁, hlen₁, -⟩ := sizeLine_chunk hwf hs
  have hin : InChunk t₁ := by
    split_ifs at hcs₁
    · exact .inl hcs₁
    · exact .inr (.inr (.inl hcs₁))
  have hlt := hwf.data_lt
  obtain ⟨b, x, hdata⟩ := List.exists_cons_of_ne_nil hwf.data_ne
  rw [hdata, List.length_cons] at hlen₁ hlt
  obtain ⟨t₂, h₂, hcs₂⟩ := chunk_data_silent x (b := b) hin (by rw [hlen₁]; push_cast; rfl) hlt
  obtain ⟨t₃, hq₃, hcs₃, -⟩ := chunked_crlf hcs₂
  refine ⟨t₃, ?_, hcs₃⟩
  rw [Chunk.render, hdata]
  exact (hq₁.silent.append h₂).append hq₃.silent

theorem chunks_silent {cs : List Chunk} (hwf : ∀ c ∈ cs, c.WellFormed) :
    ∀ {s : HttpResponse}, s.cs = .chunked → ∃ t, Silent s (cs.flatMap Chunk.render) t ∧ t.cs = .chunked := by
  induction cs with
  | nil => exact fun hs => ⟨_, ⟨rfl, rfl⟩, hs⟩
  | cons c cs ih =>
    intro s hs
    obtain ⟨t, ht, htcs⟩ := chunk_silent (hwf c List.mem_cons_self) hs
    obtain ⟨u, hu, hucs⟩ := ih (fun x hx => hwf x (List.mem_cons_of_mem _ hx)) htcs
    exact ⟨u, ht.append hu, hucs⟩

/-- A chunked body calls the source at the end of the line of the last chunk. -/
theorem chunked_ends {cs : List Chunk} {last : Text} {ext : Option Text} (hwf : ∀ c ∈ cs, c.WellFormed)
    (hne : last ≠ []) (hlast : ∀ b ∈ last, b = 48) (hext : ExtWellFormed ext) (hs : s.cs = .chunked)
    (hsrc : s.source = true) :
    ∃ t, Ends s (cs.flatMap Chunk.render ++ (last ++ renderExt ext ++ [13])) 10 crlf t ∧
      t.cs = .version := by
  obtain ⟨t₁, h₁, hcs₁⟩ := chunks_silent hwf hs
  obtain ⟨u, t₂, hq, hucs, hstep, ht₂⟩ := last_line hne hlast hext hcs₁
  obtain ⟨t₃, hempty, hcs₃⟩ := empty_line ht₂
  have husrc : u.source = true := by rw [← hq.silent.2, reach_source, ← h₁.2, reach_source, hsrc]
  refine ⟨t₃, ⟨u, h₁.append hq.silent, by rw [hucs]; decide, ?_, ?_⟩, hcs₃⟩
  · rw [hstep]
    exact finish_source_calls husrc
  · rw [hstep]
    exact hempty.silent

end Bodies

/-! ## The head -/

/-- The bytes of a response up to its body. -/
def Response.head (r : Response) : Text := r.statusLine ++ r.headers.flatMap Header.render ++ crlf

section Head
variable {s : HttpResponse} {cl : ℤ} {ch : Bool} {r : Response}

theorem fin_source (s : HttpResponse) : s.fin.2.flatMap Call.source = [] := by
  unfold HttpResponse.fin
  split_ifs <;> rfl

theorem HeadAt.silent (h : HeadAt s cl ch) :
    Silent s crlf ((leave s).1.goto .headEndCr).fin.1 := by
  refine h.cr.silent.append (Silent.cons RspState.noConfusion ?_ ⟨rfl, rfl⟩)
  exact fin_source ((leave s).1.goto .headEndCr)

theorem head_silent (h : r.HeadReadable s.wantCookies) (hs : s.cs = .main ∨ s.cs = .version) :
    ∃ t, Silent s r.head t := by
  obtain ⟨t, hq, ht⟩ := head_run h hs
  exact ⟨_, hq.silent.append ht.silent⟩

theorem isHeader_connection {hd : Header} (hwf : hd.WellFormed) :
    HttpResponse.isHeader (hd.render ++ [0]) "Connection:" 11 = true ↔ hd.Named (bytes "Connection") :=
  isHeader_iff hwf rfl rfl (by simp [bytes]) (by decide)

theorem header_flags (h : HeadAt s cl ch) {hd : Header} (hwf : hd.WellFormed)
    (hname : ∀ b ∈ hd.name, isNameChar b = true) {t : HttpResponse} (ht : Quiet s hd.render t) :
    ((leave s).1.isConnectionClose = true ∨ hd.SaysClose → (leave t).1.isConnectionClose = true) ∧
      (¬ hd.Named (bytes "Transfer-Encoding") → (leave t).1.isChunked = (leave s).1.isChunked) := by
  obtain ⟨u, hquiet, hreads⟩ := header_line h hwf hname
  obtain rfl : u = t := hquiet.silent.2.symm.trans ht.silent.2
  have hleave : (leave u).1 = u.readHeader (hd.render ++ [0]) := by
    have hbuf : u.buf = hd.render := by rw [hreads.buf, leave_buf, List.nil_append]
    rw [leave, hreads.cs, if_neg (by decide), HttpResponse.header, hbuf]
  rw [hleave]
  refine ⟨?_, ?_⟩
  · intro hclose
    simp only [HttpResponse.readHeader, Bool.or_eq_true, Bool.and_eq_true, hreads.isConnectionClose]
    rcases hclose with hclose | ⟨hnamed, hinfix⟩
    · exact .inl hclose
    · refine .inr ⟨(isHeader_connection hwf).mpr hnamed, ?_⟩
      have hstr : cstr (hd.render ++ [0]) = hd.render :=
        cstr_append_zero (Header.render_ne_zero hwf) []
      have hvalue : hd.value <:+: hd.render := ⟨hd.name ++ [58], crlf, by simp [Header.render]⟩
      have hneedle : cstr (bytes "close") = bytes "close" := rfl
      rw [strstr, hstr, hneedle, decide_eq_true_eq]
      exact hinfix.trans hvalue
  · intro hno
    have hheader : HttpResponse.isHeader (hd.render ++ [0]) "Transfer-Encoding:" 18 = false := by
      rw [← Bool.not_eq_true, isHeader_transferEncoding hwf]
      exact hno
    simp [HttpResponse.readHeader, hheader, hreads.isChunked]

theorem headers_flags {hs : List Header} (hwf : ∀ hd ∈ hs, hd.WellFormed)
    (hname : ∀ hd ∈ hs, ∀ b ∈ hd.name, isNameChar b = true) :
    ∀ {s : HttpResponse} {cl : ℤ} {ch : Bool}, HeadAt s cl ch →
      (s.wantCookies = true → ∀ hd ∈ hs, hd.CookieReadable) →
      ∃ t, Quiet s (hs.flatMap Header.render) t ∧
        ((leave s).1.isConnectionClose = true ∨ (∃ hd ∈ hs, hd.SaysClose) →
          (leave t).1.isConnectionClose = true) ∧
        ((∀ hd ∈ hs, ¬ hd.Named (bytes "Transfer-Encoding")) →
          (leave t).1.isChunked = (leave s).1.isChunked) := by
  induction hs with
  | nil =>
    intro s cl ch _ _
    exact ⟨s, rfl, by simp, fun _ => rfl⟩
  | cons hd hs ih =>
    intro s cl ch h hcookies
    obtain ⟨t, hquiet, ht⟩ := header_step h (hwf hd List.mem_cons_self) (hname hd List.mem_cons_self)
      fun hs => hcookies hs hd List.mem_cons_self
    have hwant : t.wantCookies = s.wantCookies := wantCookies_of_settings hquiet.settings
    obtain ⟨hclose, hchunked⟩ :=
      header_flags h (hwf hd List.mem_cons_self) (hname hd List.mem_cons_self) hquiet
    obtain ⟨u, hquiet', hclose', hchunked'⟩ := ih (fun x hx => hwf x (List.mem_cons_of_mem _ hx))
      (fun x hx => hname x (List.mem_cons_of_mem _ hx)) ht
      fun ht x hx => hcookies (hwant ▸ ht) x (List.mem_cons_of_mem _ hx)
    refine ⟨u, hquiet.append hquiet', ?_, ?_⟩
    · rintro (hold | ⟨x, hx, hsaid⟩)
      · exact hclose' (.inl (hclose (.inl hold)))
      · rcases List.mem_cons.1 hx with rfl | hx
        · exact hclose' (.inl (hclose (.inr hsaid)))
        · exact hclose' (.inr ⟨x, hx, hsaid⟩)
    · intro hno
      exact (hchunked' fun x hx => hno x (List.mem_cons_of_mem _ hx)).trans
        (hchunked (hno hd List.mem_cons_self))

theorem head_chunked (h : r.HeadReadable s.wantCookies) (hcoding : ∃ hd ∈ r.headers, hd.SaysChunked)
    (hno : ∀ hd ∈ r.headers, ¬ hd.Named (bytes "Content-Length"))
    (hs : s.cs = .main ∨ s.cs = .version) : ∃ t, Quiet s r.head t ∧ t.cs = .chunked := by
  obtain ⟨hd, hmem, hchunked⟩ := hcoding
  have hany : (r.headers.any fun hd => hd.SaysChunked) = true :=
    List.any_eq_true.mpr ⟨hd, hmem, by simpa using hchunked⟩
  obtain ⟨t, hq, ht⟩ := head_run h hs
  rw [foldl_lengthAfter_none hno, hany] at ht
  obtain ⟨u, hcr, hcs, -⟩ := ht.chunked
  exact ⟨u, hq.append hcr, hcs⟩

theorem head_close (h : r.HeadReadable s.wantCookies) (hclose : ∃ hd ∈ r.headers, hd.SaysClose)
    (hno : ∀ hd ∈ r.headers, ¬ hd.Named (bytes "Content-Length") ∧
      ¬ hd.Named (bytes "Transfer-Encoding")) (hs : s.cs = .main ∨ s.cs = .version) :
    ∃ t, Quiet s r.head t ∧ t.cs = .consumeAll ∧ t.contentLength = -1 := by
  obtain ⟨t, hline, hreads⟩ := statusLine_line h hs
  have hstart := headAt_of_lineEnd hreads.cs
  have hwant : t.wantCookies = s.wantCookies := wantCookies_of_settings hline.settings
  have hcookies : t.wantCookies = true → ∀ hd ∈ r.headers, hd.CookieReadable :=
    fun ht => h.cookies (hwant ▸ ht)
  obtain ⟨u, hquiet, hu⟩ := headers_run h.headers h.names hstart hcookies
  obtain ⟨u', hquiet', hflag, hchunked⟩ := headers_flags h.headers h.names hstart hcookies
  obtain rfl : u = u' := hquiet.silent.2.symm.trans hquiet'.silent.2
  have hleave : leave t = t.uri := if_pos hreads.cs
  have hcl : ((leave u).1.goto .headEndCr).contentLength = -1 := by
    rw [foldl_lengthAfter_none fun hd hmem => (hno hd hmem).1] at hu
    exact hu.contentLength
  have hch : ((leave u).1.goto .headEndCr).isChunked = false := by
    refine (hchunked fun hd hmem => (hno hd hmem).2).trans ?_
    rw [hleave]
    rfl
  have hcc : ((leave u).1.goto .headEndCr).isConnectionClose = true := hflag (.inr hclose)
  have hfin := hu.fin .consumeAll (by
    rw [HttpResponse.fin, hcl, if_neg (by decide), if_neg (by decide), hch, if_neg (by decide), if_pos hcc])
  exact ⟨_, (hline.append hquiet).append hfin, rfl, hcl⟩

end Head

/-! ## One response -/

section One
variable {s : HttpResponse} {r : Response}

theorem Response.Sent.head {w : Bool} (h : r.Sent) (hread : r.Readable w) : r.HeadReadable w :=
  ⟨h.status, hread.reason_ne, h.reason, h.headers, hread.names, hread.cookies⟩

theorem render_eq (r : Response) : r.render = r.head ++ r.body.render := rfl

theorem head_length (r : Response) : 8 ≤ r.head.length := by
  have hname : (bytes "HTTP/1.1").length = 8 := rfl
  simp only [Response.head, Response.statusLine, List.length_append, hname]
  omega

theorem bodyEnd_pos (r : Response) : 0 < r.bodyEnd := by
  have hhead := head_length r
  have hlen : r.head.length ≤ r.render.length := by
    rw [render_eq, List.length_append]
    exact Nat.le_add_right _ _
  have hcrlf : crlf.length = 2 := rfl
  unfold Response.bodyEnd
  cases r.body <;> simp only <;> omega

theorem bodyEnd_le (r : Response) : r.bodyEnd ≤ r.render.length := by
  unfold Response.bodyEnd
  cases r.body <;> simp only <;> omega

/-- The first byte of a body that ends with the connection finishes it. -/
theorem consume_close (hlen : s.contentLength = -1) (inside : RspState) :
    ∃ t, s.consume inside = (t, s.bodyBlockFinish ++ [.vpt (.pop .httpResponse)]) ∧ t.cs = .main := by
  have hval : toInt (s.contentLength - 1) = -2 := by
    rw [hlen]
    decide
  refine ⟨{ s with contentLength := -2, cs := .main }, ?_, rfl⟩
  simp only [HttpResponse.consume, hval]
  rw [if_pos (by decide)]
  rfl

theorem close_ends (hcs : s.cs = .consumeAll) (hlen : s.contentLength = -1) (hsrc : s.source = true)
    (b : UInt8) : ∃ t, Ends s [] b [] t ∧ t.cs = .main := by
  obtain ⟨t, hcons, ht⟩ := consume_close hlen .inAll
  have hstep : s.step b = Netp.Parse.after [.destination s.destination, .start] (s.consume .inAll) := by
    simp only [HttpResponse.step, hcs]
  rw [hcons] at hstep
  refine ⟨t, ⟨s, ⟨rfl, rfl⟩, by rw [hcs]; decide, ?_, ?_⟩, ht⟩
  · rw [hstep, Netp.Parse.after, List.flatMap_append, finish_source_calls hsrc]
    rfl
  · rw [hstep]
    exact ⟨rfl, rfl⟩

theorem close_view {v : View HttpResponse} (hv : Resting v s none) (hcs : s.cs = .consumeAll)
    (hlen : s.contentLength = -1) (b : UInt8) :
    ∃ t, Resting (httpResponse.viewStep v b) t none ∧ t.cs = .main := by
  obtain ⟨t, hcons, ht⟩ := consume_close hlen .inAll
  have hstep : s.step b = Netp.Parse.after [.destination s.destination, .start] (s.consume .inAll) := by
    simp only [HttpResponse.step, hcs]
  have hfirst : Resting { v with core := t } t none := ⟨rfl, hv.fault, hv.isOpen, hv.output⟩
  obtain ⟨w, hw, hflow, -⟩ := start_view b hfirst s.destination
  obtain ⟨hrest, -⟩ := hflow.finish s b
  refine ⟨t, ?_, ht⟩
  rw [viewStep_go hv.core hv.fault (by rw [hcs]; decide), hstep, hcons, Netp.Parse.after,
    List.foldl_append, hw]
  exact hrest

theorem Response.Sent.delimited (h : r.Sent) (hbody : r.body ≠ .length []) : r.Delimited := by
  rcases h.framed with hd | hd
  · exact hd
  · exact absurd hd.1 hbody

/-- A response with a body calls the source at the end of the body. -/
theorem response_ends (h : r.Sent) (hread : r.Readable s.wantCookies) (hcomp : r.Completing)
    (hs : s.cs = .main ∨ s.cs = .version) (hsrc : s.source = true) :
    ∃ x b y t, r.render = x ++ b :: y ∧ x.length + 1 = r.bodyEnd ∧ Ends s x b y t ∧
      (t.cs = .main ∨ t.cs = .version) := by
  have hhead := h.head hread
  have hdelim := h.delimited
  have hbody := hread.body
  unfold Response.Delimited at hdelim
  unfold Response.Completing at hcomp
  cases hkind : r.body with
  | length data =>
    simp only [hkind] at hdelim hcomp
    obtain ⟨-, hlt, hex, hlen, -⟩ := hdelim (by simpa using hcomp)
    obtain ⟨t, hq, ht⟩ := head_run hhead hs
    rw [foldl_lengthAfter (fun hd hmem hnamed => atoi_of_isLength (hlen hd hmem hnamed) hlt) (-1)
      (.inr hex)] at ht
    have hpos : 0 < data.length := List.length_pos_of_ne_nil hcomp
    obtain ⟨u, hcr, hcs, hcontent⟩ := ht.length (by omega)
    have hquiet : Silent s r.head u := (hq.append hcr).silent
    have husrc : u.source = true := by rw [← hquiet.2, reach_source, hsrc]
    obtain ⟨x, b, z, rfl, hends, hz⟩ := length_ends hcs husrc hcontent hcomp hlt
    refine ⟨r.head ++ x, b, [], z, ?_, ?_, hends.after hquiet, .inl hz⟩
    · rw [render_eq, hkind, Body.render, List.append_assoc]
    · simp only [Response.bodyEnd, hkind, render_eq, Body.render, List.length_append,
        List.length_singleton]
      omega
  | chunked chunks last ext =>
    simp only [hkind] at hdelim hcomp hbody
    obtain ⟨hchunks, hne, hlast, hext, -, hno⟩ := hdelim (by simp)
    obtain ⟨u, hq, hcs⟩ := head_chunked hhead hbody.2 hno hs
    have hquiet : Silent s r.head u := hq.silent
    have husrc : u.source = true := by rw [← hquiet.2, reach_source, hsrc]
    obtain ⟨z, hends, hz⟩ := chunked_ends hchunks hne hlast hext hcs husrc
    refine ⟨_, 10, crlf, z, ?_, ?_, hends.after hquiet, .inr hz⟩
    · simp [render_eq, hkind, Body.render, sizeLine, crlf]
    · simp only [Response.bodyEnd, hkind, render_eq, Body.render, sizeLine, crlf, List.length_append,
        List.length_cons, List.length_nil]
      omega
  | close data =>
    simp only [hkind] at hdelim hcomp hbody
    obtain ⟨-, hno⟩ := hdelim (by simp)
    obtain ⟨b, rfl⟩ := List.length_eq_one_iff.1 hcomp
    obtain ⟨u, hq, hcs, hlen⟩ := head_close hhead hbody hno hs
    have husrc : u.source = true := by rw [← hq.silent.2, reach_source, hsrc]
    obtain ⟨z, hends, hz⟩ := close_ends hcs hlen husrc b
    refine ⟨r.head ++ [], b, [], z, ?_, ?_, hends.after hq.silent, .inl hz⟩
    · rw [render_eq, hkind, Body.render, List.append_nil]
    · simp only [Response.bodyEnd, hkind, render_eq, Body.render, List.length_append,
        List.length_singleton, List.length_nil]

theorem response_rests (h : r.Sent) (hread : r.Readable s.wantCookies) (hcomp : r.Completing)
    {v : View HttpResponse} (hv : Resting v s none) (hs : s.cs = .main ∨ s.cs = .version) :
    ∃ t, Resting (r.render.foldl httpResponse.viewStep v) t none ∧
      (t.cs = .main ∨ t.cs = .version) := by
  have hdelim := h.delimited
  have hbody := hread.body
  have hwf : r.body ≠ .length [] → r.WellFormed := fun hne => ⟨h.status, h.reason, h.headers, hdelim hne⟩
  unfold Response.Completing at hcomp
  cases hkind : r.body with
  | length data =>
    simp only [hkind] at hcomp
    have hsup : r.Supported s.wantCookies :=
      ⟨hread.reason_ne, hread.names, hread.cookies, by rw [hkind]; trivial⟩
    obtain ⟨t, -, hrest, ht, -⟩ := response_run (hwf (by simpa [hkind] using hcomp)) hsup hv hs
    exact ⟨t, hrest, ht⟩
  | chunked chunks last ext =>
    simp only [hkind] at hcomp hbody
    have hsup : r.Supported s.wantCookies := by
      refine ⟨hread.reason_ne, hread.names, hread.cookies, ?_⟩
      rw [hkind]
      exact ⟨hcomp, hbody⟩
    obtain ⟨t, -, hrest, ht, -⟩ := response_run (hwf (by simp [hkind])) hsup hv hs
    exact ⟨t, hrest, ht⟩
  | close data =>
    unfold Response.Delimited at hdelim
    simp only [hkind] at hcomp hbody hdelim
    obtain ⟨b, rfl⟩ := List.length_eq_one_iff.1 hcomp
    obtain ⟨u, hq, hcs, hlen⟩ := head_close (h.head hread) hbody (hdelim (by simp)).2 hs
    obtain ⟨hrest, -⟩ := hq.view hv
    obtain ⟨t, hend, ht⟩ := close_view hrest hcs hlen b
    rw [render_eq, hkind, Body.render, List.foldl_append]
    exact ⟨t, hend, .inl ht⟩

end One

/-! ## Sequences of responses -/

theorem told_add (a b : ℕ) : told (a + b) = told a ++ told b := by
  rw [told, List.replicate_add, List.flatten_append]
  rfl

theorem told_length (k : ℕ) : (told k).length = 2 * k := by
  simp [told, Nat.mul_comm]

theorem told_count (k : ℕ) : (told k).count .preFinish = k := by
  induction k with
  | zero => rfl
  | succ k ih =>
    rw [told_add, List.count_append, ih]
    rfl

theorem completed_zero (rs : List Response) : completed rs 0 = 0 := by
  cases rs with
  | nil => rfl
  | cons r rs => rw [completed, if_pos (bodyEnd_pos r)]

theorem completed_append (pre rs : List Response) (n : ℕ) :
    completed (pre ++ rs) ((pre.flatMap Response.render).length + n) = pre.length + completed rs n := by
  induction pre with
  | nil => simp
  | cons r pre ih =>
    have hle := bodyEnd_le r
    rw [List.cons_append, completed, List.flatMap_cons, List.length_append, if_neg (by omega),
      Nat.add_assoc, Nat.add_sub_cancel_left, ih, List.length_cons]
    omega

section Streams
variable {rs pre post : List Response} {r : Response} {core : HttpResponse}

/-- Over responses with a body the source is told of each at the end of its body. -/
theorem responses_sources (hsent : ∀ r ∈ rs, r.Sent) (hcomp : ∀ r ∈ rs, r.Completing) :
    ∀ {s : HttpResponse}, (∀ r ∈ rs, r.Readable s.wantCookies) → (s.cs = .main ∨ s.cs = .version) →
      s.source = true →
      (∀ k, httpResponse.sources s ((rs.flatMap Response.render).take k) = told (completed rs k)) ∧
        ∃ t, httpResponse.reach s (rs.flatMap Response.render) = t ∧ (t.cs = .main ∨ t.cs = .version) := by
  induction rs with
  | nil =>
    intro s _ hs _
    exact ⟨fun k => by rw [List.flatMap_nil, List.take_nil]; rfl, s, rfl, hs⟩
  | cons r rs ih =>
    intro s hread hs hsrc
    obtain ⟨x, b, y, t, hrender, hend, hends, ht⟩ :=
      response_ends (hsent r List.mem_cons_self) (hread r List.mem_cons_self)
        (hcomp r List.mem_cons_self) hs hsrc
    have hreach : httpResponse.reach s r.render = t := by rw [hrender, hends.reach]
    have hwant : t.wantCookies = s.wantCookies :=
      hreach ▸ wantCookies_of_settings (reach_settings r.render s)
    obtain ⟨hrest, u, hu, hucs⟩ := ih (fun x hx => hsent x (List.mem_cons_of_mem _ hx))
      (fun x hx => hcomp x (List.mem_cons_of_mem _ hx))
      (fun x hx => hwant ▸ hread x (List.mem_cons_of_mem _ hx)) ht (by rw [← hreach, reach_source, hsrc])
    refine ⟨?_, u, ?_, hucs⟩
    · intro k
      have hfirst := hends.sources k
      rw [← hrender] at hfirst
      have hle := bodyEnd_le r
      rw [List.flatMap_cons, List.take_append, Machine.sources_append, hfirst, completed]
      by_cases hk : k < r.bodyEnd
      · rw [if_pos (by omega), if_pos hk, Nat.sub_eq_zero_of_le (by omega)]
        rfl
      · have hlater : httpResponse.sources (httpResponse.reach s (r.render.take k))
            ((rs.flatMap Response.render).take (k - r.render.length)) =
              told (completed rs (k - r.render.length)) := by
          by_cases hwhole : r.render.length ≤ k
          · rw [List.take_of_length_le hwhole, hreach, hrest]
          · rw [Nat.sub_eq_zero_of_le (by omega), completed_zero]
            rfl
        rw [if_neg (by omega), if_neg hk, told_add, hlater]
    · rw [List.flatMap_cons, Machine.reach_append, hreach, hu]

theorem responses_rest (hsent : ∀ r ∈ rs, r.Sent) (hcomp : ∀ r ∈ rs, r.Completing) :
    ∀ {v : View HttpResponse} {s : HttpResponse}, (∀ r ∈ rs, r.Readable s.wantCookies) →
      Resting v s none → (s.cs = .main ∨ s.cs = .version) →
      ∃ t, Resting ((rs.flatMap Response.render).foldl httpResponse.viewStep v) t none ∧
        (t.cs = .main ∨ t.cs = .version) := by
  induction rs with
  | nil => exact fun _ hv hs => ⟨_, hv, hs⟩
  | cons r rs ih =>
    intro v s hread hv hs
    obtain ⟨t, hrest, ht⟩ := response_rests (hsent r List.mem_cons_self) (hread r List.mem_cons_self)
      (hcomp r List.mem_cons_self) hv hs
    have hwant : t.wantCookies = s.wantCookies := by
      have hset := viewStep_settings r.render v
      rw [hrest.core, hv.core] at hset
      exact wantCookies_of_settings hset
    rw [List.flatMap_cons, List.foldl_append]
    exact ih (fun x hx => hsent x (List.mem_cons_of_mem _ hx))
      (fun x hx => hcomp x (List.mem_cons_of_mem _ hx))
      (fun x hx => hwant ▸ hread x (List.mem_cons_of_mem _ hx)) hrest ht

theorem start_resting (core : HttpResponse) :
    Resting (startResponse (.new core)).view (core.goto .main) none := ⟨rfl, rfl, rfl, rfl⟩

theorem receives_view (core : HttpResponse) (ds : List Text) :
    (ds.foldl httpResponse.receive (startResponse (.new core))).view =
      ds.flatten.foldl httpResponse.viewStep (startResponse (.new core)).view :=
  (Machine.byteWise httpResponse_lawful).flatten ds (startResponse_ready core)

theorem viewStep_fault (x : Text) {v : View HttpResponse} (h : v.fault = true) :
    (x.foldl httpResponse.viewStep v).fault = true := by
  induction x generalizing v with
  | nil => exact h
  | cons b x ih =>
    refine ih ?_
    rw [Machine.viewStep, if_pos (by rw [h]; rfl)]
    exact h

/-- What the source has been told after pieces of a stream, if no null pointer was used. -/
theorem told_of_clean {ds : List Text}
    (h : (ds.foldl httpResponse.receive (startResponse (.new core))).fault = false) :
    sourceCalls (ds.foldl httpResponse.receive (startResponse (.new core))).log =
      httpResponse.sources (core.goto .main) ds.flatten :=
  (receives_advances (M := httpResponse) ds (startResponse (.new core))).logged.clean h

theorem told_part (core : HttpResponse) (ds : List Text) :
    sourceCalls (ds.foldl httpResponse.receive (startResponse (.new core))).log <+:
      httpResponse.sources (core.goto .main) ds.flatten :=
  (receives_advances (M := httpResponse) ds (startResponse (.new core))).logged.part

theorem completes_of_completing (hsrc : core.source = true) (hsent : ∀ r ∈ rs, r.Sent)
    (hread : ∀ r ∈ rs, r.Readable core.wantCookies) (hcomp : ∀ r ∈ rs, r.Completing) :
    CompletesEach core rs := by
  rintro ds ⟨rest, hstream⟩
  have hclean : (ds.foldl httpResponse.receive (startResponse (.new core))).fault = false := by
    obtain ⟨t, hrest, -⟩ := responses_rest hsent hcomp (s := core.goto .main) hread (start_resting core) (.inl rfl)
    have hview := receives_view core ds
    by_contra hne
    have hfault : (ds.flatten.foldl httpResponse.viewStep (startResponse (.new core)).view).fault = true := by
      rw [← hview]
      exact Bool.eq_true_of_not_eq_false hne
    have hlate := viewStep_fault rest hfault
    rw [← List.foldl_append, hstream, hrest.fault] at hlate
    cases hlate
  have htake : ds.flatten = (rs.flatMap Response.render).take ds.flatten.length := by
    rw [← hstream, List.take_left]
  have htold : sourceCalls (ds.foldl httpResponse.receive (startResponse (.new core))).log =
      told (completed rs ds.flatten.length) := by
    rw [told_of_clean hclean, ← (responses_sources hsent hcomp (s := core.goto .main) hread (.inl rfl) hsrc).1,
      ← htake]
  refine ⟨htold, ?_⟩
  intro α requests
  have hcount : (ds.foldl httpResponse.receive (startResponse (.new core))).log.count .preFinish =
      completed rs ds.flatten.length := by
    rw [← told_count (completed rs ds.flatten.length), ← htold, sourceCalls]
    exact (List.count_filter rfl).symm
  rw [requestList, hcount, List.head?_drop]

/-! ## A response that is not completed -/

theorem finish_byte {q : Parser HttpResponse} {u t : HttpResponse} (hcore : q.core = u) (hcs : u.cs ≠ .error)
    (b : UInt8) (hstep : u.step b = (t, u.bodyBlockFinish ++ [Call.vpt (.pop .httpResponse)]))
    (hsrc : u.source = true) : httpResponse.isError q.core = false ∧
      httpResponse.step q.core b = u.step b ∧
      (u.step b).2 = [.preFinish, .finishNext, .responseComplete, .vpt (.pop .httpResponse)] := by
  subst hcore
  refine ⟨by simpa [httpResponse] using hcs, rfl, ?_⟩
  rw [hstep, HttpResponse.bodyBlockFinish, if_pos hsrc]
  rfl

/-- `bodyBlockFinish` without a destination: the source hears of the first half only. -/
theorem finish_null {q : Parser HttpResponse} {u t : HttpResponse} (hv : Resting q.view u none)
    (hcs : u.cs ≠ .error) (b : UInt8)
    (hstep : u.step b = (t, u.bodyBlockFinish ++ [Call.vpt (.pop .httpResponse)]))
    (hsrc : u.source = true) : (httpResponse.receive q [b]).log = q.log ++ [.preFinish] := by
  have hcore : q.core = u := hv.core
  have hfault : q.fault = false := hv.fault
  have hopen : q.bodyBlock.isOpen = false := hv.isOpen
  have hout : q.bodyBlock.output = none := hv.output
  obtain ⟨herr, hmachine, hcalls⟩ := finish_byte hcore hcs b hstep hsrc
  simp [Machine.receive, Machine.exec, hfault, herr, hmachine, hcalls, BlockExec.preExec, hopen, Parser.call,
    Parser.perform, Call.exec, BlockExec.finishAt, BlockExec.finish, hout]

/-- After the responses `pre` the machine waits for the next one. -/
theorem after_pre (hsrc : core.source = true) (hsent : ∀ r ∈ pre, r.Sent)
    (hread : ∀ r ∈ pre, r.Readable core.wantCookies) (hcomp : ∀ r ∈ pre, r.Completing) :
    ∃ s, (s.cs = .main ∨ s.cs = .version) ∧ s.source = true ∧ s.wantCookies = core.wantCookies ∧
      Resting ((pre.flatMap Response.render).foldl httpResponse.viewStep (startResponse (.new core)).view)
        s none ∧
      ∀ x, httpResponse.sources (core.goto .main) (pre.flatMap Response.render ++ x) =
        told pre.length ++ httpResponse.sources s x := by
  obtain ⟨s, hrest, hs⟩ := responses_rest hsent hcomp (s := core.goto .main) hread (start_resting core) (.inl rfl)
  obtain ⟨hsources, -⟩ := responses_sources hsent hcomp (s := core.goto .main) hread (.inl rfl) hsrc
  have hview := receives_view core [pre.flatMap Response.render]
  rw [List.flatten_singleton] at hview
  have hadv := receives_advances (M := httpResponse) [pre.flatMap Response.render] (startResponse (.new core))
  rw [List.flatten_singleton] at hadv
  generalize [pre.flatMap Response.render].foldl httpResponse.receive (startResponse (.new core)) = p
    at hview hadv
  rw [← hview] at hrest
  have hreach : httpResponse.reach (core.goto .main) (pre.flatMap Response.render) = s :=
    (hadv.core hrest.fault).symm.trans hrest.core
  have hset : s.settings = core.settings := by
    rw [← hreach, reach_settings]
    rfl
  refine ⟨s, hs, (congrArg Prod.fst hset).trans hsrc, wantCookies_of_settings hset, hview ▸ hrest, ?_⟩
  · intro x
    have hwhole := hsources (pre.flatMap Response.render).length
    have hcount := completed_append pre [] 0
    rw [List.take_of_length_le le_rfl] at hwhole
    rw [List.append_nil, Nat.add_zero] at hcount
    rw [Machine.sources_append, hreach, hwhole, hcount]
    rfl

theorem completed_next {n : ℕ} (h : r.bodyEnd ≤ n) :
    pre.length + 1 ≤ completed (pre ++ r :: post) ((pre.flatMap Response.render).length + n) := by
  rw [completed_append, completed, if_neg (Nat.not_lt.2 h)]
  omega

theorem completed_here {n : ℕ} (h : n < r.bodyEnd) :
    completed (pre ++ r :: post) ((pre.flatMap Response.render).length + n) = pre.length := by
  rw [completed_append, completed, if_pos h, Nat.add_zero]

theorem stream_split (pre post : List Response) (r : Response) :
    (pre ++ r :: post).flatMap Response.render =
      (pre.flatMap Response.render ++ r.head) ++ (r.body.render ++ post.flatMap Response.render) := by
  simp [render_eq]

/-- After the head of a response without a body nothing was said of it. -/
theorem empty_stalls (hsrc : core.source = true) (hsent : ∀ r ∈ pre, r.Sent)
    (hread : ∀ r ∈ pre, r.Readable core.wantCookies) (hcomp : ∀ r ∈ pre, r.Completing)
    (hr : r.HeadReadable core.wantCookies) (hend : r.bodyEnd = r.render.length) (hempty : r.body.render = []) :
    ¬ CompletesEach core (pre ++ r :: post) := by
  intro hall
  obtain ⟨s, hs, -, hwant, -, hsources⟩ := after_pre hsrc hsent hread hcomp
  obtain ⟨t, hquiet⟩ := head_silent (hwant ▸ hr) hs
  have hpart := told_part core [pre.flatMap Response.render ++ r.head]
  have hlen : r.render.length = r.head.length := by rw [render_eq, hempty, List.append_nil]
  have hnext : pre.length + 1 ≤
      completed (pre ++ r :: post) ((pre.flatMap Response.render).length + r.head.length) :=
    completed_next (by omega)
  obtain ⟨htold, -⟩ := hall [pre.flatMap Response.render ++ r.head]
    (by rw [List.flatten_singleton, stream_split]; exact List.prefix_append _ _)
  rw [List.flatten_singleton, List.length_append] at htold
  rw [htold, List.flatten_singleton, hsources, hquiet.1, List.append_nil] at hpart
  have hle := hpart.length_le
  rw [told_length, told_length] at hle
  omega

/-- The first byte of a longer body that ends with the connection completes it. -/
theorem close_stalls (hsrc : core.source = true) (hsent : ∀ r ∈ pre, r.Sent)
    (hread : ∀ r ∈ pre, r.Readable core.wantCookies) (hcomp : ∀ r ∈ pre, r.Completing)
    (hr : r.HeadReadable core.wantCookies)
    {b c : UInt8} {x : Text} (hbody : r.body = .close (b :: c :: x))
    (hclose : ∃ hd ∈ r.headers, hd.SaysClose)
    (hno : ∀ hd ∈ r.headers, ¬ hd.Named (bytes "Content-Length") ∧
      ¬ hd.Named (bytes "Transfer-Encoding")) : ¬ CompletesEach core (pre ++ r :: post) := by
  intro hall
  obtain ⟨s, hs, hsource, hwant, hrest, hsources⟩ := after_pre hsrc hsent hread hcomp
  obtain ⟨u, hq, hcs, hlen⟩ := head_close (hwant ▸ hr) hclose hno hs
  have husrc : u.source = true := by rw [← hq.silent.2, reach_source, hsource]
  obtain ⟨t, hends, -⟩ := close_ends hcs hlen husrc b
  have hone := (hends.after hq.silent).sources (r.head.length + 1)
  rw [List.append_nil, if_neg (by omega), List.take_of_length_le (by simp)] at hone
  have hclean : ([pre.flatMap Response.render ++ (r.head ++ [b])].foldl httpResponse.receive
      (startResponse (.new core))).fault = false := by
    obtain ⟨w, hw, -⟩ := close_view (hq.view hrest).1 hcs hlen b
    have hview := receives_view core [pre.flatMap Response.render ++ (r.head ++ [b])]
    rw [List.flatten_singleton, List.foldl_append, List.foldl_append] at hview
    exact (congrArg View.fault hview).trans hw.fault
  have htold := told_of_clean hclean
  rw [List.flatten_singleton, hsources, hone, ← told_add] at htold
  have hhere : completed (pre ++ r :: post)
      ((pre.flatMap Response.render).length + (r.head.length + 1)) = pre.length := by
    refine completed_here ?_
    simp only [Response.bodyEnd, hbody, render_eq, Body.render, List.length_append, List.length_cons]
    omega
  obtain ⟨hreported, -⟩ := hall [pre.flatMap Response.render ++ (r.head ++ [b])] (by
    rw [List.flatten_singleton, stream_split, hbody]
    exact ⟨c :: x ++ post.flatMap Response.render, by simp [Body.render]⟩)
  rw [List.flatten_singleton, List.length_append, List.length_append, List.length_singleton, hhere,
    htold] at hreported
  have hcount := congrArg List.length hreported
  rw [told_length, told_length] at hcount
  omega

/-- The last chunk finishes a body that no chunk has begun, through a null pointer. -/
theorem chunkless_stalls (hsrc : core.source = true) (hsent : ∀ r ∈ pre, r.Sent)
    (hread : ∀ r ∈ pre, r.Readable core.wantCookies) (hcomp : ∀ r ∈ pre, r.Completing)
    (hr : r.HeadReadable core.wantCookies)
    {last : Text} {ext : Option Text} (hbody : r.body = .chunked [] last ext) (hne : last ≠ [])
    (hlast : ∀ b ∈ last, b = 48) (hext : ExtWellFormed ext)
    (hcoding : ∃ hd ∈ r.headers, hd.SaysChunked)
    (hno : ∀ hd ∈ r.headers, ¬ hd.Named (bytes "Content-Length")) :
    ¬ CompletesEach core (pre ++ r :: post) := by
  intro hall
  obtain ⟨s, hs, hsource, hwant, hrest, hsources⟩ := after_pre hsrc hsent hread hcomp
  obtain ⟨u, hq, hcs⟩ := head_chunked (hwant ▸ hr) hcoding hno hs
  obtain ⟨w, t, hline, hwcs, hstep, -⟩ := last_line hne hlast hext hcs
  have hquiet := hq.append hline
  have hwsrc : w.source = true := by rw [← hquiet.silent.2, reach_source, hsource]
  generalize hx : r.head ++ (last ++ renderExt ext ++ [13]) = x at hquiet
  have hview := receives_view core [pre.flatMap Response.render ++ x]
  rw [List.flatten_singleton, List.foldl_append] at hview
  have hrests := (hquiet.view hrest).1
  rw [← hview] at hrests
  have htold := told_of_clean hrests.fault
  rw [List.flatten_singleton, hsources, hquiet.silent.1, List.append_nil] at htold
  have hlog := finish_null hrests (by rw [hwcs]; decide) 10 hstep hwsrc
  obtain ⟨hcalls, -⟩ := hall [pre.flatMap Response.render ++ x, [10]] (by
    refine ⟨crlf ++ post.flatMap Response.render, ?_⟩
    rw [stream_split, hbody, ← hx]
    simp [Body.render, sizeLine, crlf])
  have hnow : sourceCalls ([pre.flatMap Response.render ++ x, [10]].foldl httpResponse.receive
      (startResponse (.new core))).log = told pre.length ++ [.preFinish] := by
    rw [← htold]
    exact (congrArg sourceCalls hlog).trans (sourceCalls_append _ _)
  have hcount := congrArg List.length (hnow.symm.trans hcalls)
  rw [List.length_append, told_length, told_length, List.length_singleton] at hcount
  omega

theorem not_completing_stalls (hsrc : core.source = true) (hsent : ∀ r ∈ pre, r.Sent)
    (hread : ∀ r ∈ pre, r.Readable core.wantCookies) (hcomp : ∀ r ∈ pre, r.Completing) (hr : r.Sent)
    (hrread : r.Readable core.wantCookies) (hnot : ¬ r.Completing) : ¬ CompletesEach core (pre ++ r :: post) := by
  have hhead := hr.head hrread
  have hdelim := hr.delimited
  have hbody := hrread.body
  unfold Response.Delimited at hdelim
  unfold Response.Completing at hnot
  cases hkind : r.body with
  | length data =>
    simp only [hkind, ne_eq, not_not] at hnot
    exact empty_stalls hsrc hsent hread hcomp hhead (by simp only [Response.bodyEnd, hkind])
      (by rw [hkind, hnot]; rfl)
  | chunked chunks last ext =>
    simp only [hkind, ne_eq, not_not] at hdelim hnot hbody
    obtain ⟨-, hne, hlast, hext, -, hno⟩ := hdelim (by simp)
    rw [hnot] at hkind
    exact chunkless_stalls hsrc hsent hread hcomp hhead hkind hne hlast hext hbody.2 hno
  | close data =>
    simp only [hkind] at hdelim hnot hbody
    cases data with
    | nil =>
      exact empty_stalls hsrc hsent hread hcomp hhead (by simp only [Response.bodyEnd, hkind])
        (by rw [hkind]; rfl)
    | cons b data =>
      cases data with
      | nil => exact absurd rfl hnot
      | cons c x => exact close_stalls hsrc hsent hread hcomp hhead hkind hbody (hdelim (by simp)).2

theorem all_completing (hsrc : core.source = true) (hsent : ∀ r ∈ pre ++ post, r.Sent)
    (hread : ∀ r ∈ pre ++ post, r.Readable core.wantCookies) (hcomp : ∀ r ∈ pre, r.Completing)
    (hall : CompletesEach core (pre ++ post)) : ∀ r ∈ post, r.Completing := by
  induction post generalizing pre with
  | nil => exact fun r hr => absurd hr List.not_mem_nil
  | cons r post ih =>
    have hfirst : r.Completing := by
      by_contra hnot
      have hmem : r ∈ pre ++ r :: post := List.mem_append_right pre List.mem_cons_self
      exact not_completing_stalls hsrc (fun x hx => hsent x (List.mem_append_left _ hx))
        (fun x hx => hread x (List.mem_append_left _ hx)) hcomp (hsent r hmem) (hread r hmem) hnot hall
    have hassoc : pre ++ r :: post = (pre ++ [r]) ++ post := List.append_cons pre r post
    rw [hassoc] at hsent hread hall
    have hpre : ∀ x ∈ pre ++ [r], x.Completing := by
      intro x hx
      rcases List.mem_append.1 hx with hx | hx
      · exact hcomp x hx
      · exact List.mem_singleton.1 hx ▸ hfirst
    have hpost := ih hsent hread hpre hall
    intro x hx
    rcases List.mem_cons.1 hx with rfl | hx
    · exact hfirst
    · exact hpost x hx

end Streams

/-- Every response completes its request exactly if each has a byte of a body, with its length or in
chunks, or a body of one byte that ends with the connection. -/
theorem completes_iff (core : HttpResponse) (hsrc : core.source = true) (rs : List Response)
    (hsent : ∀ r ∈ rs, r.Sent) (hread : ∀ r ∈ rs, r.Readable core.wantCookies) :
    CompletesEach core rs ↔ ∀ r ∈ rs, r.Completing := by
  have hnone : ∀ r ∈ ([] : List Response), r.Completing := fun _ hr => absurd hr List.not_mem_nil
  exact ⟨all_completing hsrc hsent hread hnone, completes_of_completing hsrc hsent hread⟩

/-- The response with one chunk, to a parser that wants the cookies. -/
theorem completes_iff_chunk :
    CompletesEach (HttpResponse.init true true false) [chunkedResponse [⟨bytes "3", none, bytes "abc"⟩]] := by
  have hchunk : ∀ c ∈ [(⟨bytes "3", none, bytes "abc"⟩ : Chunk)], c.WellFormed :=
    fun c hc => List.mem_singleton.mp hc ▸ chunkThree_wellFormed
  have hwf := chunkedResponse_wellFormed hchunk
  refine (completes_iff (HttpResponse.init true true false) rfl _ ?_ ?_).2 ?_
  · intro r hr
    obtain rfl := List.mem_singleton.mp hr
    exact ⟨hwf.status, hwf.reason, hwf.headers, .inl hwf.delimited⟩
  · intro r hr
    obtain rfl := List.mem_singleton.mp hr
    exact ⟨List.cons_ne_nil _ _, chunkedHeader_names, fun _ => chunkedHeader_cookies, by simp, _,
      List.mem_singleton_self _, chunkedHeader_saysChunked⟩
  · intro r hr
    obtain rfl := List.mem_singleton.mp hr
    exact List.cons_ne_nil _ _

/-- The answer to a request that has nothing to send back. -/
def noContent : Response where
  status := bytes "204"
  reason := bytes "No Content"
  headers := []
  body := .length []

/-- The request of a response without a body stays at the head of the list. -/
theorem response_not_completed :
    ¬ ∀ (core : HttpResponse) (rs : List Response), core.source = true → (∀ r ∈ rs, r.Sent) →
      CompletesEach core rs := by
  intro hall
  have hsent : ∀ r ∈ [noContent], r.Sent := by
    intro r hr
    obtain rfl := List.mem_singleton.mp hr
    exact ⟨⟨rfl, by simp [noContent, bytes, digitVal]⟩, by simp [noContent, bytes, isFieldChar],
      by simp [noContent], .inr ⟨rfl, .inl (.inr (.inl rfl))⟩⟩
  obtain ⟨htold, -⟩ := hall (HttpResponse.init true false false) [noContent] rfl hsent [noContent.render]
    (by simp)
  have hnone : sourceCalls ([noContent.render].foldl httpResponse.receive
      (startResponse (.new (HttpResponse.init true false false)))).log = [] := rfl
  have hone : completed [noContent] [noContent.render].flatten.length = 1 := rfl
  rw [hnone, hone] at htold
  exact absurd htold (by decide)

end Netp.Parse
