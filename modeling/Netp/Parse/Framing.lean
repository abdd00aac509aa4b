import Netp.Parse.Message
import Netp.Parse.HttpRsp

/-! # The response parser reads the head of a response

Up to the body only the tree is called (`Quiet`). What counts of the head is what `header` has read
from its lines (`HeadAt`).
-/

namespace Netp.Parse
open Netp.Lib
set_option autoImplicit false

/-! ## Bytes that only call the tree -/

/-- From `s` the bytes lead to `t`, with calls on the tree only. -/
def Quiet : HttpResponse → Text → HttpResponse → Prop
  | s, [], t => s = t
  | s, b :: bs, t =>
      s.cs ≠ .error ∧ (∀ c ∈ (s.step b).2, ∃ x, c = Call.vpt x) ∧ Quiet (s.step b).1 bs t

theorem Quiet.append {s t u : HttpResponse} {x y : Text} (h : Quiet s x t) (h' : Quiet t y u) :
    Quiet s (x ++ y) u := by
  induction x generalizing s with
  | nil => exact h ▸ h'
  | cons b x ih => exact ⟨h.1, h.2.1, ih h.2.2⟩

theorem Quiet.single {s t : HttpResponse} {b : UInt8} (hcs : s.cs ≠ .error) (h : s.step b = (t, [])) :
    Quiet s [b] t := by
  refine ⟨hcs, ?_, ?_⟩
  · rw [h]
    exact fun _ hc => absurd hc List.not_mem_nil
  · rw [h]
    exact rfl

theorem View.calls_vpt {σ : Type} (b : UInt8) (cs : List Call) :
    ∀ {v : View σ}, v.fault = false → (∀ c ∈ cs, ∃ x, c = Call.vpt x) →
      ∃ tr, cs.foldl (View.call b) v = { v with trace := v.trace ++ tr } ∧
        tr.filter Obs.isDelivery = [] := by
  induction cs with
  | nil => exact fun _ _ => ⟨[], by simp, rfl⟩
  | cons c cs ih =>
    intro v hf hcs
    obtain ⟨x, rfl⟩ := hcs c List.mem_cons_self
    have hcall : v.call b (.vpt x) = { v with trace := v.trace ++ [.vpt x] } := by
      simp [View.call, hf]
    obtain ⟨tr, hrun, htr⟩ := ih (v := { v with trace := v.trace ++ [.vpt x] }) hf
      fun c hc => hcs c (List.mem_cons_of_mem _ hc)
    refine ⟨.vpt x :: tr, ?_, ?_⟩
    · rw [List.foldl_cons, hcall, hrun]
      simp
    · simpa [Obs.isDelivery] using htr

/-! ## The settings stay -/

/-- What the application has set. -/
def HttpResponse.settings (s : HttpResponse) : Bool × Bool × Bool := (s.source, s.wantCookies, s.wantLocation)

theorem step_settings (s : HttpResponse) (b : UInt8) : (s.step b).1.settings = s.settings := by
  have hfin : ∀ s : HttpResponse, s.fin.1.settings = s.settings := by
    intro s
    unfold HttpResponse.fin
    split_ifs <;> rfl
  have hline : ∀ (s : HttpResponse) (r : HttpResponse × List Call), r.1.settings = s.settings →
      (s.afterLine r b).1.settings = s.settings := by
    intro s r hr
    unfold HttpResponse.afterLine
    split_ifs
    · exact hr
    · exact hr
    · exact (hfin r.1).trans hr
    · rfl
  have hvalue : ∀ s : HttpResponse, (s.inValue b).1.settings = s.settings := by
    intro s
    unfold HttpResponse.inValue
    simp only
    split_ifs <;> rfl
  have hconsume : ∀ (s : HttpResponse) (inside : RspState), (s.consume inside).1.settings = s.settings := by
    intro s inside
    unfold HttpResponse.consume
    simp only
    split_ifs <;> rfl
  have hchunk : ∀ (s : HttpResponse) (inside : RspState), (s.consumeChunk inside).1.settings = s.settings := by
    intro s inside
    unfold HttpResponse.consumeChunk
    simp only
    split_ifs <;> rfl
  have hheader : ∀ s : HttpResponse, s.chunkHeader.1.settings = s.settings := by
    intro s
    unfold HttpResponse.chunkHeader
    simp only
    split_ifs <;> rfl
  cases hcs : s.cs <;> simp only [HttpResponse.step, hcs]
  case lineEnd => exact hline s _ rfl
  case valueEnd =>
    split_ifs
    · rfl
    · exact hline s _ rfl
  case colon => exact hvalue s.clear2
  case value => exact hvalue s
  case headEndCr =>
    split_ifs
    · exact hfin s
    · rfl
  case consumeLength => exact hconsume s _
  case inLength => exact hconsume s _
  case consumeAll => exact hconsume s _
  case inAll => exact hconsume s _
  case consumeFirstChunk => exact hchunk s _
  case inFirstChunk => exact hchunk s _
  case consumeNextChunk => exact hchunk s _
  case inNextChunk => exact hchunk s _
  case chunkSize => split_ifs <;> first | rfl | exact hheader s
  case inChunkExt => split_ifs <;> first | rfl | exact hheader s
  case chunkCr => split_ifs <;> first | rfl | exact hheader s
  all_goals first | rfl | (split_ifs <;> rfl)

theorem Quiet.settings {s t : HttpResponse} {x : Text} (h : Quiet s x t) : t.settings = s.settings := by
  induction x generalizing s with
  | nil => rw [h]
  | cons b x ih => exact (ih h.2.2).trans (step_settings s b)

theorem viewStep_settings (x : Text) (v : View HttpResponse) :
    (x.foldl httpResponse.viewStep v).core.settings = v.core.settings := by
  induction x generalizing v with
  | nil => rfl
  | cons b x ih =>
    refine (ih _).trans ?_
    rw [Machine.viewStep]
    split_ifs
    · rfl
    · have htake : ∀ w : View HttpResponse, (w.take b).core = w.core := by
        intro w
        unfold View.take
        split_ifs <;> rfl
      rw [htake, View.calls_core]
      exact step_settings v.core b

theorem wantCookies_of_settings {s t : HttpResponse} (h : t.settings = s.settings) :
    t.wantCookies = s.wantCookies := congrArg (fun x => x.2.1) h

/-! ## Bytes that are seen -/

/-- A parser between two deliveries. -/
structure Resting (v : View HttpResponse) (s : HttpResponse) (output : Option Dest) : Prop where
  core : v.core = s
  fault : v.fault = false
  isOpen : v.isOpen = false
  output : v.output = output

def View.deliveries (v : View HttpResponse) : List Obs := v.trace.filter Obs.isDelivery

theorem viewStep_go {v : View HttpResponse} {s : HttpResponse} (hcore : v.core = s)
    (hf : v.fault = false) (hcs : s.cs ≠ .error) (b : UInt8) :
    httpResponse.viewStep v b =
      ((s.step b).2.foldl (View.call b) { v with core := (s.step b).1 }).take b := by
  subst hcore
  have hgo : ¬ (v.fault || httpResponse.isError v.core) = true := by
    simp [hf, httpResponse, hcs]
  rw [Machine.viewStep, if_neg hgo]
  rfl

theorem Quiet.view {t : HttpResponse} {output : Option Dest} {bs : Text} :
    ∀ {s : HttpResponse} {v : View HttpResponse}, Quiet s bs t → Resting v s output →
      Resting (bs.foldl httpResponse.viewStep v) t output ∧
        (bs.foldl httpResponse.viewStep v).deliveries = v.deliveries := by
  induction bs with
  | nil => exact fun h hv => ⟨h ▸ hv, rfl⟩
  | cons b bs ih =>
    intro s v h hv
    obtain ⟨hcs, hvpt, hrest⟩ := h
    obtain ⟨tr, hrun, htr⟩ := View.calls_vpt b (s.step b).2
      (v := { v with core := (s.step b).1 }) hv.fault hvpt
    have hstep : httpResponse.viewStep v b =
        { v with core := (s.step b).1, trace := v.trace ++ tr } := by
      rw [viewStep_go hv.core hv.fault hcs, hrun, View.take]
      exact if_neg (by rw [hv.isOpen]; exact Bool.false_ne_true)
    have hnext : Resting (httpResponse.viewStep v b) (s.step b).1 output := by
      rw [hstep]
      exact ⟨rfl, hv.fault, hv.isOpen, hv.output⟩
    have hdel : (httpResponse.viewStep v b).deliveries = v.deliveries := by
      rw [hstep, View.deliveries, View.deliveries, List.filter_append, htr, List.append_nil]
    obtain ⟨hres, hsame⟩ := ih hrest hnext
    exact ⟨hres, hsame.trans hdel⟩

/-! ## Reading into `buf` -/

/-- From `s` to `t` the bytes `x` went into `buf`, and the framing was left alone. -/
structure Reads (s t : HttpResponse) (cs : RspState) (x : Text) : Prop where
  cs : t.cs = cs
  buf : t.buf = s.buf ++ x
  contentLength : t.contentLength = s.contentLength
  isChunked : t.isChunked = s.isChunked
  isConnectionClose : t.isConnectionClose = s.isConnectionClose
  chunks : t.chunks = s.chunks

theorem Reads.trans {s t u : HttpResponse} {c c' : RspState} {x y : Text} (h : Reads s t c x)
    (h' : Reads t u c' y) : Reads s u c' (x ++ y) where
  cs := h'.cs
  buf := by rw [h'.buf, h.buf, List.append_assoc]
  contentLength := h'.contentLength.trans h.contentLength
  isChunked := h'.isChunked.trans h.isChunked
  isConnectionClose := h'.isConnectionClose.trans h.isConnectionClose
  chunks := h'.chunks.trans h.chunks

/-- Quiet reading. -/
def Line (s : HttpResponse) (x : Text) (t : HttpResponse) (cs : RspState) : Prop :=
  Quiet s x t ∧ Reads s t cs x

theorem Line.append {s t u : HttpResponse} {c c' : RspState} {x y : Text} (h : Line s x t c)
    (h' : Line t y u c') : Line s (x ++ y) u c' :=
  ⟨h.1.append h'.1, h.2.trans h'.2⟩

/-- In the state `c` the bytes that meet `ok` are read, and lead to `c'`. -/
def Takes (c c' : RspState) (ok : UInt8 → Prop) : Prop :=
  ∀ s b, s.cs = c → ok b → ∃ t, s.step b = (t, []) ∧ Reads s t c' [b]

theorem Takes.line {c c' : RspState} {ok : UInt8 → Prop} (h : Takes c c' ok) (hc : c ≠ .error)
    {s : HttpResponse} {b : UInt8} (hs : s.cs = c) (hb : ok b) : ∃ t, Line s [b] t c' := by
  obtain ⟨t, hstep, hreads⟩ := h s b hs hb
  exact ⟨t, Quiet.single (hs ▸ hc) hstep, hreads⟩

theorem Takes.loop {c : RspState} {ok : UInt8 → Prop} (h : Takes c c ok) (hc : c ≠ .error) (x : Text) :
    ∀ {s : HttpResponse}, s.cs = c → (∀ b ∈ x, ok b) → ∃ t, Line s x t c := by
  induction x with
  | nil =>
    intro s hs _
    exact ⟨s, rfl, hs, (List.append_nil _).symm, rfl, rfl, rfl, rfl⟩
  | cons b x ih =>
    intro s hs hok
    obtain ⟨t, ht⟩ := h.line hc hs (hok b List.mem_cons_self)
    obtain ⟨u, hu⟩ := ih ht.2.cs fun b hb => hok b (List.mem_cons_of_mem _ hb)
    exact ⟨u, ht.append hu⟩

/-- A non-empty word, whose first byte leads into the state of the others. -/
theorem Takes.word {c c' : RspState} {ok : UInt8 → Prop} (h : Takes c c' ok) (h' : Takes c' c' ok)
    (hc : c ≠ .error) (hc' : c' ≠ .error) {x : Text} (hx : x ≠ []) {s : HttpResponse} (hs : s.cs = c)
    (hok : ∀ b ∈ x, ok b) : ∃ t, Line s x t c' := by
  obtain ⟨b, x, rfl⟩ := List.exists_cons_of_ne_nil hx
  obtain ⟨t, ht⟩ := h.line hc hs (hok b List.mem_cons_self)
  obtain ⟨u, hu⟩ := h'.loop hc' x ht.2.cs fun b hb => hok b (List.mem_cons_of_mem _ hb)
  exact ⟨u, ht.append hu⟩

theorem takes_of_step {c c' : RspState} {ok : UInt8 → Prop}
    (h : ∀ s : HttpResponse, ∀ b, s.cs = c → ok b → s.step b = ((s.append b).goto c', [])) :
    Takes c c' ok :=
  fun s b hs hb => ⟨_, h s b hs hb, rfl, rfl, rfl, rfl, rfl, rfl⟩

theorem takes_main : Takes .main .version (· ≠ 32) :=
  takes_of_step fun s b hs hb => by simp only [HttpResponse.step, hs, if_pos hb]

theorem takes_version : Takes .version .version (· ≠ 32) :=
  takes_of_step fun s b hs hb => by simp only [HttpResponse.step, hs, if_pos hb]

theorem takes_versionEnd : Takes .version .versionEnd (· = 32) :=
  takes_of_step fun s b hs hb => by simp [HttpResponse.step, hs, hb]

theorem takes_status_first : Takes .versionEnd .status (· ≠ 32) :=
  takes_of_step fun s b hs hb => by simp only [HttpResponse.step, hs, if_pos hb]

theorem takes_status : Takes .status .status (· ≠ 32) :=
  takes_of_step fun s b hs hb => by simp only [HttpResponse.step, hs, if_pos hb]

theorem takes_statusEnd : Takes .status .statusEnd (· = 32) :=
  takes_of_step fun s b hs hb => by simp [HttpResponse.step, hs, hb]

theorem takes_reason_first : Takes .statusEnd .reason (isLineChar · = true) :=
  takes_of_step fun s b hs hb => by simp only [HttpResponse.step, hs, if_pos hb]

theorem takes_reason : Takes .reason .reason (isLineChar · = true) :=
  takes_of_step fun s b hs hb => by simp only [HttpResponse.step, hs, if_pos hb]

theorem takes_lineCr : Takes .reason .lineCr (· = 13) :=
  takes_of_step fun s b hs hb => by simp [HttpResponse.step, hs, hb, isLineChar]

theorem takes_lineEnd : Takes .lineCr .lineEnd (· = 10) :=
  takes_of_step fun s b hs hb => by simp [HttpResponse.step, hs, hb]

theorem isLineChar_of_isFieldChar {b : UInt8} (h : isFieldChar b = true) : isLineChar b = true := by
  have h13 : b ≠ 13 := byte_ne h rfl
  have h10 : b ≠ 10 := byte_ne h rfl
  simp [isLineChar, h13, h10]

/-- A cookie does not begin with the semicolon behind it, right at the colon. -/
def Header.CookieReadable (hd : Header) : Prop :=
  hd.Named (bytes "Set-Cookie") → hd.value.head? ≠ some 59

instance Header.decidableCookieReadable (hd : Header) : Decidable hd.CookieReadable :=
  inferInstanceAs (Decidable (_ → _))

/-- A head that the machine gets through. -/
structure Response.HeadReadable (r : Response) (wantCookies : Bool) : Prop where
  status : r.status.length = 3 ∧ ∀ b ∈ r.status, (digitVal 10 b).isSome
  reason_ne : r.reason ≠ []
  reason : ∀ b ∈ r.reason, isFieldChar b = true
  headers : ∀ hd ∈ r.headers, hd.WellFormed
  names : ∀ hd ∈ r.headers, ∀ b ∈ hd.name, isNameChar b = true
  cookies : wantCookies = true → ∀ hd ∈ r.headers, hd.CookieReadable

/-- The status line, from the start or after bytes that the first word takes in. -/
theorem statusLine_line {r : Response} {w : Bool} (h : r.HeadReadable w) {s : HttpResponse}
    (hs : s.cs = .main ∨ s.cs = .version) : ∃ t, Line s r.statusLine t .lineEnd := by
  have hword : ∀ b ∈ bytes "HTTP/1.1", b ≠ 32 := by simp [bytes]
  have hversion : ∃ t, Line s (bytes "HTTP/1.1") t .version := by
    rcases hs with hs | hs
    · exact takes_main.word takes_version (by decide) (by decide) (by decide) hs hword
    · exact takes_version.loop (by decide) _ hs hword
  have hdigit : ∀ b ∈ r.status, b ≠ 32 := by
    intro b hb h32
    have hspace := (isspace_of_digit (by decide) (h.status.2 b hb)).1
    rw [h32] at hspace
    exact absurd hspace (by decide)
  have hstatus : r.status ≠ [] := by
    intro hnil
    have hlen := h.status.1
    rw [hnil] at hlen
    cases hlen
  obtain ⟨t₁, h₁⟩ := hversion
  obtain ⟨t₂, h₂⟩ := takes_versionEnd.line (by decide) h₁.2.cs rfl
  obtain ⟨t₃, h₃⟩ := takes_status_first.word takes_status (by decide) (by decide) hstatus h₂.2.cs hdigit
  obtain ⟨t₄, h₄⟩ := takes_statusEnd.line (by decide) h₃.2.cs rfl
  obtain ⟨t₅, h₅⟩ := takes_reason_first.word takes_reason (by decide) (by decide) h.reason_ne h₄.2.cs
    fun b hb => isLineChar_of_isFieldChar (h.reason b hb)
  obtain ⟨t₆, h₆⟩ := takes_lineCr.line (by decide) h₅.2.cs rfl
  obtain ⟨t₇, h₇⟩ := takes_lineEnd.line (by decide) h₆.2.cs rfl
  have hall := ((((((h₁.append h₂).append h₃).append h₄).append h₅).append h₆).append h₇)
  have hline : bytes "HTTP/1.1" ++ [32] ++ r.status ++ [32] ++ r.reason ++ [13] ++ [10] =
      r.statusLine := by
    simp [Response.statusLine, crlf]
  rw [hline] at hall
  exact ⟨t₇, hall⟩

/-! ## The headers -/

/-- The leaving action that is due at the end of a line. -/
def leave (s : HttpResponse) : HttpResponse × List Call :=
  if s.cs = .lineEnd then s.uri else s.header

theorem leave_buf (s : HttpResponse) : (leave s).1.buf = [] := by
  unfold leave
  split_ifs <;> rfl

/-- The end of a line of the head: what the leaving action makes of the lines so far. -/
structure HeadAt (s : HttpResponse) (contentLength : ℤ) (chunked : Bool) : Prop where
  cs : s.cs = .lineEnd ∨ s.cs = .valueEnd
  calls : ∀ c ∈ (leave s).2, ∃ x, c = Call.vpt x
  contentLength : (leave s).1.contentLength = contentLength
  isChunked : chunked = true → (leave s).1.isChunked = true
  chunks : (leave s).1.chunks = 0

theorem HeadAt.ne_error {s : HttpResponse} {cl : ℤ} {ch : Bool} (h : HeadAt s cl ch) :
    s.cs ≠ .error := by
  rcases h.cs with hs | hs <;> rw [hs] <;> decide

theorem HeadAt.step {s : HttpResponse} {cl : ℤ} {ch : Bool} (h : HeadAt s cl ch) {b : UInt8}
    (hb : isBlank b = false) : s.step b = s.afterLine (leave s) b := by
  have hb' : ¬ (b = 32 ∨ b = 9) := by simpa [isBlank] using hb
  rcases h.cs with hs | hs
  · simp only [HttpResponse.step, hs, leave, if_true]
  · simp only [HttpResponse.step, hs, leave, if_neg hb', reduceCtorEq, if_false]

theorem headAt_of_lineEnd {s : HttpResponse} (hs : s.cs = .lineEnd) : HeadAt s (-1) false := by
  have hleave : leave s = s.uri := if_pos hs
  refine ⟨.inl hs, ?_, ?_, by simp, ?_⟩
  · rw [hleave]
    simp [HttpResponse.uri]
  · rw [hleave]
    rfl
  · rw [hleave]
    rfl

theorem takes_name : Takes .name .name (isNameChar · = true) :=
  fun s b hs hb => ⟨((s.append1 b).append b).goto .name,
    by simp only [HttpResponse.step, hs, if_pos hb], rfl, rfl, rfl, rfl, rfl, rfl⟩

theorem takes_colon : Takes .name .colon (· = 58) :=
  takes_of_step fun s b hs hb => by
    have hname : ¬ isNameChar b = true := by rw [hb]; decide
    simp only [HttpResponse.step, hs, if_neg hname, if_pos hb]

theorem takes_value_first : Takes .colon .value (isLineChar · = true) :=
  fun s b hs hb => by
    have hb' : ¬ b = 13 ∧ ¬ b = 10 := by simpa [isLineChar] using hb
    exact ⟨((s.clear2.append2 b).append b).goto .value,
      by simp only [HttpResponse.step, hs, HttpResponse.inValue, if_neg hb'.1, if_neg hb'.2],
      rfl, rfl, rfl, rfl, rfl, rfl⟩

theorem takes_value : Takes .value .value (isLineChar · = true) :=
  fun s b hs hb => by
    have hb' : ¬ b = 13 ∧ ¬ b = 10 := by simpa [isLineChar] using hb
    exact ⟨((s.append2 b).append b).goto .value,
      by simp only [HttpResponse.step, hs, HttpResponse.inValue, if_neg hb'.1, if_neg hb'.2],
      rfl, rfl, rfl, rfl, rfl, rfl⟩

theorem takes_colon_cr : Takes .colon .valueCr (· = 13) :=
  fun s b hs hb => ⟨((s.clear2.append2 b).append b).goto .valueCr,
    by simp only [HttpResponse.step, hs, HttpResponse.inValue, if_pos hb], rfl, rfl, rfl, rfl, rfl, rfl⟩

theorem takes_value_cr : Takes .value .valueCr (· = 13) :=
  fun s b hs hb => ⟨((s.append2 b).append b).goto .valueCr,
    by simp only [HttpResponse.step, hs, HttpResponse.inValue, if_pos hb], rfl, rfl, rfl, rfl, rfl, rfl⟩

theorem takes_valueEnd : Takes .valueCr .valueEnd (· = 10) :=
  fun s b hs hb => ⟨((s.append2 b).append b).goto .valueEnd,
    by simp only [HttpResponse.step, hs, if_pos hb], rfl, rfl, rfl, rfl, rfl, rfl⟩

theorem value_line {x : Text} (hx : ∀ b ∈ x, isLineChar b = true) {s : HttpResponse}
    (hs : s.cs = .colon) : ∃ t, Line s (x ++ crlf) t .valueEnd := by
  have hcr : ∃ t, Line s (x ++ [13]) t .valueCr := by
    by_cases hnil : x = []
    · subst hnil
      exact takes_colon_cr.line (by decide) hs rfl
    · obtain ⟨t, ht⟩ := takes_value_first.word takes_value (by decide) (by decide) hnil hs hx
      obtain ⟨u, hu⟩ := takes_value_cr.line (by decide) ht.2.cs rfl
      exact ⟨u, ht.append hu⟩
  obtain ⟨t, ht⟩ := hcr
  obtain ⟨u, hu⟩ := takes_valueEnd.line (by decide) ht.2.cs rfl
  have hall := ht.append hu
  rw [List.append_assoc] at hall
  exact ⟨u, hall⟩

theorem isBlank_of_isNameChar {b : UInt8} (h : isNameChar b = true) : isBlank b = false := by
  have h32 : b ≠ 32 := byte_ne h rfl
  have h9 : b ≠ 9 := byte_ne h rfl
  simp [isBlank, h32, h9]

/-- A header line, after the leaving action of the line before it. -/
theorem header_line {s : HttpResponse} {cl : ℤ} {ch : Bool} (h : HeadAt s cl ch) {hd : Header}
    (hwf : hd.WellFormed) (hname : ∀ b ∈ hd.name, isNameChar b = true) :
    ∃ t, Quiet s hd.render t ∧ Reads (leave s).1 t .valueEnd hd.render := by
  obtain ⟨b, name, hcons⟩ := List.exists_cons_of_ne_nil hwf.name_ne
  have hb : isNameChar b = true := hname b (hcons ▸ List.mem_cons_self)
  have hrest : ∀ b ∈ name, isNameChar b = true :=
    fun c hc => hname c (hcons ▸ List.mem_cons_of_mem _ hc)
  -- the first byte of the name runs the leaving action
  have hfirst : s.step b =
      (((((leave s).1.clear1).append1 b).append b).goto .name, (leave s).2) := by
    rw [h.step (isBlank_of_isNameChar hb), HttpResponse.afterLine, if_pos hb]
  have hquiet : Quiet s [b] ((((leave s).1.clear1).append1 b).append b |>.goto .name) := by
    refine ⟨h.ne_error, ?_, ?_⟩
    · rw [hfirst]
      exact h.calls
    · rw [hfirst]
      exact rfl
  have hreads : Reads (leave s).1 ((((leave s).1.clear1).append1 b).append b |>.goto .name) .name [b] :=
    ⟨rfl, rfl, rfl, rfl, rfl, rfl⟩
  obtain ⟨t₁, h₁⟩ := takes_name.loop (by decide) name hreads.cs hrest
  obtain ⟨t₂, h₂⟩ := takes_colon.line (by decide) h₁.2.cs rfl
  obtain ⟨t₃, h₃⟩ := value_line (fun b hb => isLineChar_of_isFieldChar (hwf.value b hb)) h₂.2.cs
  have hall := (h₁.append h₂).append h₃
  have hrender : [b] ++ (name ++ [58] ++ (hd.value ++ crlf)) = hd.render := by
    simp [Header.render, hcons]
  exact ⟨t₃, hrender ▸ hquiet.append hall.1, hrender ▸ hreads.trans hall.2⟩

/-! ## What `header` reads -/

theorem take_first_eq_iff {x : UInt8} {a b r : Text} (ha : x ∉ a) (hb : x ∉ b) :
    (a ++ x :: r).take (b.length + 1) = b ++ [x] ↔ a = b := by
  induction a generalizing b with
  | nil =>
    cases b with
    | nil => simp
    | cons y b =>
      refine iff_of_false (fun h => ?_) (by simp)
      have hhead : x = y := by simpa using congrArg List.head? h
      exact hb (hhead ▸ List.mem_cons_self)
  | cons y a ih =>
    cases b with
    | nil =>
      refine iff_of_false (fun h => ?_) (by simp)
      have hhead : y = x := by simpa using congrArg List.head? h
      exact ha (hhead ▸ List.mem_cons_self)
    | cons z b =>
      have ha' : x ∉ a := fun h => ha (List.mem_cons_of_mem _ h)
      have hb' : x ∉ b := fun h => hb (List.mem_cons_of_mem _ h)
      simp [ih ha' hb']

theorem Header.render_ne_zero {hd : Header} (hwf : hd.WellFormed) : ∀ b ∈ hd.render, b ≠ 0 := by
  have htoken : ∀ b : UInt8, isTokenChar b = true → b ≠ 0 := fun _ hb => byte_ne hb rfl
  have hfield : ∀ b : UInt8, isFieldChar b = true → b ≠ 0 := fun _ hb => byte_ne hb rfl
  intro b hb
  simp only [Header.render, crlf, List.mem_append, List.mem_cons, List.not_mem_nil, or_false] at hb
  obtain (hb | hb | hb) | hb | hb := hb
  · exact htoken b (hwf.name b hb)
  · rw [hb]
    decide
  · exact hfield b (hwf.value b hb)
  · rw [hb]
    decide
  · rw [hb]
    decide

theorem isHeader_iff {hd : Header} (hwf : hd.WellFormed) {name : String} {n : ℕ} {word : Text}
    (hword : bytes name = word ++ [58]) (hn : n = word.length + 1) (h0 : ∀ b ∈ word, b ≠ 0)
    (h58 : (58 : UInt8) ∉ word.map tolower) :
    HttpResponse.isHeader (hd.render ++ [0]) name n = true ↔ hd.Named word := by
  have htoken : ∀ b : UInt8, isTokenChar b = true → tolower b ≠ 58 :=
    fun _ hb => (tolower_eq (by decide)).not.mpr (byte_ne hb rfl)
  have hcolon : (58 : UInt8) ∉ hd.name.map tolower := by
    intro hmem
    obtain ⟨b, hb, heq⟩ := List.mem_map.mp hmem
    exact htoken b (hwf.name b hb) heq
  have hword0 : ∀ b ∈ bytes name, b ≠ 0 := by
    rw [hword]
    intro b hb
    obtain hb | hb := List.mem_append.mp hb
    · exact h0 b hb
    · rw [List.mem_singleton.mp hb]
      decide
  have hcut : ((hd.render.take n).map tolower = (word ++ [58]).map tolower) ↔ hd.Named word := by
    have hmap : hd.render.map tolower =
        hd.name.map tolower ++ 58 :: (hd.value ++ crlf).map tolower := by
      simp [Header.render, show tolower 58 = 58 by decide]
    have hlen : n = (word.map tolower).length + 1 := by rw [hn, List.length_map]
    have hend : (word ++ [58]).map tolower = word.map tolower ++ [58] := by
      simp [show tolower 58 = 58 by decide]
    rw [List.map_take, hmap, hlen, hend]
    exact take_first_eq_iff hcolon h58
  have hstr : cstr (hd.render ++ [0]) = hd.render :=
    cstr_append_zero (Header.render_ne_zero hwf) []
  have hcase : strncaseeq (hd.render ++ [0]) (bytes name) n = true ↔ hd.Named word := by
    have hsame : strncaseeq (hd.render ++ [0]) (bytes name) n = strncaseeq hd.render (bytes name) n := by
      simp only [strncaseeq, hstr, cstr_eq_self (Header.render_ne_zero hwf)]
    have htake : (word ++ [58]).take n = word ++ [58] := List.take_of_length_le (by simp [hn])
    rw [hsame, strncaseeq_iff (Header.render_ne_zero hwf) hword0, hword, htake]
    exact hcut
  rw [HttpResponse.isHeader, Bool.and_eq_true, hcase, decide_eq_true_eq]
  refine ⟨And.right, fun h => ⟨?_, h⟩⟩
  have hlen := congrArg List.length (hcut.mpr h)
  simp only [List.length_map, List.length_take, List.length_append, List.length_singleton] at hlen ⊢
  omega

theorem isHeader_contentLength {hd : Header} (hwf : hd.WellFormed) :
    HttpResponse.isHeader (hd.render ++ [0]) "Content-Length:" 15 = true ↔
      hd.Named (bytes "Content-Length") :=
  isHeader_iff hwf rfl rfl (by simp [bytes]) (by decide)

theorem isHeader_transferEncoding {hd : Header} (hwf : hd.WellFormed) :
    HttpResponse.isHeader (hd.render ++ [0]) "Transfer-Encoding:" 18 = true ↔
      hd.Named (bytes "Transfer-Encoding") :=
  isHeader_iff hwf rfl rfl (by simp [bytes]) (by decide)

theorem isHeader_setCookie {hd : Header} (hwf : hd.WellFormed) :
    HttpResponse.isHeader (hd.render ++ [0]) "Set-Cookie:" 11 = true ↔ hd.Named (bytes "Set-Cookie") :=
  isHeader_iff hwf rfl rfl (by simp [bytes]) (by decide)

theorem cookieFault_render {hd : Header} (hwf : hd.WellFormed) (h : hd.CookieReadable) :
    HttpResponse.cookieFault (hd.render ++ [0]) = false := by
  rw [← Bool.not_eq_true, HttpResponse.cookieFault, Bool.and_eq_true, isHeader_setCookie hwf]
  rintro ⟨hnamed, hany⟩
  obtain ⟨i, hi, hlt⟩ := (Option.any_eq_true _ _).1 hany
  have hlen : hd.name.length = 10 := by
    have hmap := congrArg List.length hnamed
    rw [List.length_map, List.length_map] at hmap
    exact hmap
  have hget := strchr_some hi
  rw [cstr_append_zero (Header.render_ne_zero hwf), Header.render, List.append_assoc, List.cons_append] at hget
  have hlt := of_decide_eq_true hlt
  rcases Nat.lt_trichotomy i 10 with hlow | rfl | hhigh
  · rw [List.getElem?_append_left (by omega)] at hget
    exact byte_ne (hwf.name 59 (List.mem_of_getElem? hget)) (d := 59) rfl rfl
  · rw [List.getElem?_append_right (by omega), hlen] at hget
    exact absurd (Option.some.inj hget) (by decide)
  · obtain rfl : i = 11 := by omega
    rw [List.getElem?_append_right (by omega), hlen, List.getElem?_cons_succ, ← List.head?_eq_getElem?] at hget
    cases hvalue : hd.value with
    | nil =>
      rw [hvalue] at hget
      exact absurd (Option.some.inj hget) (by decide)
    | cons b value =>
      rw [hvalue] at hget
      exact h hnamed (by rw [hvalue]; exact hget)

/-- The end of the line is behind every byte that is not its own. -/
theorem render_before_end {hd : Header} {i : ℕ} {b : UInt8} (hget : hd.render[i]? = some b) (hcr : b ≠ 13)
    (hlf : b ≠ 10) : i + 3 ≤ hd.render.length ∧ (13 : UInt8) ∈ hd.render.drop i := by
  have hsplit : hd.render = (hd.name ++ 58 :: hd.value) ++ crlf := by simp [Header.render]
  rw [hsplit] at hget ⊢
  generalize hd.name ++ 58 :: hd.value = x at hget ⊢
  have hlt : i < x.length := by
    by_contra hge
    rw [List.getElem?_append_right (by omega)] at hget
    rcases List.mem_cons.1 (List.mem_of_getElem? hget) with rfl | hmem
    · exact hcr rfl
    · exact hlf (List.mem_singleton.1 hmem)
  refine ⟨?_, ?_⟩
  · rw [List.length_append]
    show i + 3 ≤ x.length + 2
    omega
  · rw [List.drop_append_of_le_length (by omega)]
    exact List.mem_append_right _ List.mem_cons_self

theorem locationFault_render {hd : Header} (hwf : hd.WellFormed) :
    HttpResponse.locationFault (hd.render ++ [0]) = false := by
  have hcstr : ∀ i, i ≤ hd.render.length → cstr ((hd.render ++ [0]).drop i) = hd.render.drop i := by
    intro i hi
    rw [List.drop_append_of_le_length hi]
    exact cstr_append_zero (fun b hb => Header.render_ne_zero hwf b (List.mem_of_mem_drop hb)) []
  -- where a byte is found there is more of the line behind it
  have hfound : ∀ i j c, i ≤ hd.render.length → c ≠ 13 → c ≠ 10 →
      strchr ((hd.render ++ [0]).drop i) c = some j →
      i + j + 3 ≤ hd.render.length ∧ (13 : UInt8) ∈ hd.render.drop (i + j) := by
    intro i j c hi hcr hlf hj
    have hget := strchr_some hj
    rw [hcstr i hi, List.getElem?_drop] at hget
    exact render_before_end hget hcr hlf
  unfold HttpResponse.locationFault
  by_cases hloc : 9 ≤ (hd.render ++ [0]).length ∧ bytes "Location:" <+: hd.render ++ [0]
  · rw [decide_eq_true hloc, Bool.true_and]
    have hlen : 10 ≤ hd.render.length := by
      have hnine : hd.render[8]? = some 58 := by
        obtain ⟨rest, hrest⟩ := hloc.2
        have h8 : (bytes "Location:" ++ rest)[8]? = some 58 := by
          rw [List.getElem?_append_left (by decide)]
          rfl
        rw [hrest] at h8
        by_cases hlt : 8 < hd.render.length
        · rwa [List.getElem?_append_left hlt] at h8
        · rw [List.getElem?_append_right (by omega)] at h8
          exact absurd (List.mem_of_getElem? h8) (by decide)
      have hend := (render_before_end hnine (by decide) (by decide)).1
      omega
    split
    · rfl
    · rename_i i hi
      obtain ⟨hroom, -⟩ := hfound 10 i 58 hlen (by decide) (by decide) hi
      have hin : ¬(hd.render ++ [0]).length ≤ 10 + i + 3 := by
        rw [List.length_append, List.length_singleton]
        omega
      rw [decide_eq_false hin, Bool.false_or]
      split
      · rfl
      · rename_i j hj
        obtain ⟨hroom', hcr⟩ := hfound (10 + i + 3) j 47 hroom (by decide) (by decide) hj
        rw [← Option.not_isSome, strchr_isSome, Bool.not_true]
        rw [hcstr _ (by omega)]
        exact hcr
  · rw [decide_eq_false hloc, Bool.false_and]

/-- `Content-Length` after a header line. -/
def lengthAfter (cl : ℤ) (hd : Header) : ℤ :=
  if hd.Named (bytes "Content-Length") then atoi (hd.value ++ crlf ++ [0]) else cl

/-- The header announces the chunked coding, in the case the parser looks for. -/
def Header.SaysChunked (hd : Header) : Prop :=
  hd.Named (bytes "Transfer-Encoding") ∧ bytes "chunked" <:+: hd.value

instance Header.decidableSaysChunked (hd : Header) : Decidable hd.SaysChunked :=
  inferInstanceAs (Decidable (_ ∧ _))

theorem header_step {s : HttpResponse} {cl : ℤ} {ch : Bool} (h : HeadAt s cl ch) {hd : Header}
    (hwf : hd.WellFormed) (hname : ∀ b ∈ hd.name, isNameChar b = true)
    (hcookie : s.wantCookies = true → hd.CookieReadable) :
    ∃ t, Quiet s hd.render t ∧ HeadAt t (lengthAfter cl hd) (ch || hd.SaysChunked) := by
  obtain ⟨t, hquiet, hreads⟩ := header_line h hwf hname
  have hbuf : t.buf = hd.render := by rw [hreads.buf, leave_buf, List.nil_append]
  have hleave : (leave t).1 = t.readHeader (hd.render ++ [0]) := by
    rw [leave, hreads.cs, if_neg (by decide), HttpResponse.header, hbuf]
  have hcalm : t.headerFault (hd.render ++ [0]) = false := by
    have hwant : t.wantCookies = s.wantCookies := wantCookies_of_settings hquiet.settings
    rw [HttpResponse.headerFault, hwant, locationFault_render hwf, Bool.and_false, Bool.or_false]
    cases hs : s.wantCookies with
    | false => rfl
    | true => exact cookieFault_render hwf (hcookie hs)
  refine ⟨t, hquiet, .inr hreads.cs, ?_, ?_, ?_, ?_⟩
  · rw [leave, hreads.cs, if_neg (by decide), HttpResponse.header, hbuf, hcalm]
    simp [headerCalls]
  · rw [hleave]
    simp only [HttpResponse.readHeader, lengthAfter, isHeader_contentLength hwf, hreads.contentLength,
      h.contentLength]
    split_ifs with hcl
    · have hlen : hd.name.length = 14 := by
        have hmap := congrArg List.length hcl
        rw [List.length_map, List.length_map] at hmap
        exact hmap
      have hdrop : (hd.render ++ [0]).drop 15 = hd.value ++ crlf ++ [0] := by
        have hsplit : hd.render ++ [0] = (hd.name ++ [58]) ++ (hd.value ++ crlf ++ [0]) := by
          simp [Header.render]
        rw [hsplit]
        exact List.drop_left' (by simp [hlen])
      rw [hdrop]
    · rfl
  · intro hch
    rw [hleave]
    simp only [HttpResponse.readHeader, Bool.or_eq_true, Bool.and_eq_true, hreads.isChunked]
    rw [Bool.or_eq_true, decide_eq_true_eq] at hch
    obtain hch | ⟨hnamed, hinfix⟩ := hch
    · exact .inl (h.isChunked hch)
    · refine .inr ⟨(isHeader_transferEncoding hwf).mpr hnamed, ?_⟩
      have hstr : cstr (hd.render ++ [0]) = hd.render :=
        cstr_append_zero (Header.render_ne_zero hwf) []
      have hvalue : hd.value <:+: hd.render := ⟨hd.name ++ [58], crlf, by simp [Header.render]⟩
      have hneedle : cstr (bytes "chunked") = bytes "chunked" := rfl
      rw [strstr, hstr, hneedle, decide_eq_true_eq]
      exact hinfix.trans hvalue
  · rw [hleave]
    exact hreads.chunks.trans h.chunks

theorem headers_run {hs : List Header} (hwf : ∀ hd ∈ hs, hd.WellFormed)
    (hname : ∀ hd ∈ hs, ∀ b ∈ hd.name, isNameChar b = true) :
    ∀ {s : HttpResponse} {cl : ℤ} {ch : Bool}, HeadAt s cl ch →
      (s.wantCookies = true → ∀ hd ∈ hs, hd.CookieReadable) →
      ∃ t, Quiet s (hs.flatMap Header.render) t ∧
        HeadAt t (hs.foldl lengthAfter cl) (ch || hs.any fun hd => hd.SaysChunked) := by
  induction hs with
  | nil =>
    intro s cl ch h _
    exact ⟨s, rfl, by simpa using h⟩
  | cons hd hs ih =>
    intro s cl ch h hcookies
    obtain ⟨t, hquiet, ht⟩ := header_step h (hwf hd List.mem_cons_self) (hname hd List.mem_cons_self)
      fun hs => hcookies hs hd List.mem_cons_self
    have hwant : t.wantCookies = s.wantCookies := wantCookies_of_settings hquiet.settings
    obtain ⟨u, hquiet', hu⟩ := ih (fun x hx => hwf x (List.mem_cons_of_mem _ hx))
      (fun x hx => hname x (List.mem_cons_of_mem _ hx)) ht
      fun ht x hx => hcookies (hwant ▸ ht) x (List.mem_cons_of_mem _ hx)
    refine ⟨u, hquiet.append hquiet', ?_⟩
    simpa [Bool.or_assoc] using hu

theorem foldl_lengthAfter_none {hs : List Header}
    (h : ∀ hd ∈ hs, ¬ hd.Named (bytes "Content-Length")) (cl : ℤ) : hs.foldl lengthAfter cl = cl := by
  induction hs with
  | nil => rfl
  | cons hd hs ih =>
    rw [List.foldl_cons, lengthAfter, if_neg (h hd List.mem_cons_self)]
    exact ih fun x hx => h x (List.mem_cons_of_mem _ hx)

theorem foldl_lengthAfter {hs : List Header} {n : ℤ}
    (h : ∀ hd ∈ hs, hd.Named (bytes "Content-Length") → atoi (hd.value ++ crlf ++ [0]) = n) (cl : ℤ)
    (hex : cl = n ∨ ∃ hd ∈ hs, hd.Named (bytes "Content-Length")) : hs.foldl lengthAfter cl = n := by
  induction hs generalizing cl with
  | nil =>
    obtain hcl | ⟨hd, hmem, -⟩ := hex
    · exact hcl
    · exact absurd hmem List.not_mem_nil
  | cons hd hs ih =>
    have hrest : ∀ x ∈ hs, x.Named (bytes "Content-Length") → atoi (x.value ++ crlf ++ [0]) = n :=
      fun x hx => h x (List.mem_cons_of_mem _ hx)
    rw [List.foldl_cons]
    by_cases hnamed : hd.Named (bytes "Content-Length")
    · rw [lengthAfter, if_pos hnamed, h hd List.mem_cons_self hnamed]
      exact ih hrest n (.inl rfl)
    · rw [lengthAfter, if_neg hnamed]
      refine ih hrest cl ?_
      obtain hcl | ⟨x, hx, hxn⟩ := hex
      · exact .inl hcl
      · obtain rfl | hx := List.mem_cons.mp hx
        · exact absurd hxn hnamed
        · exact .inr ⟨x, hx, hxn⟩

theorem atoi_of_isLength {value : Text} {n : ℕ} (h : IsLength value n) (hn : n < 2 ^ 31) :
    atoi (value ++ crlf ++ [0]) = n := by
  obtain ⟨pre, ds, post, rfl, hblank, hne, hds, rfl⟩ := h
  have hspace : ∀ b : UInt8, isBlank b = true → isspace b = true ∧ digitVal 10 b = none ∧ b ≠ 0 := by
    intro b hb
    obtain rfl | rfl : b = 32 ∨ b = 9 := of_decide_eq_true hb
    · decide
    · decide
  have hpre : ∀ b ∈ pre, isspace b = true :=
    fun b hb => (hspace b (hblank b (List.mem_append_left _ hb))).1
  have hpost : ∀ b ∈ post, isBlank b = true := fun b hb => hblank b (List.mem_append_right _ hb)
  have hhead : ∀ b, (post ++ crlf).head? = some b → digitVal 10 b = none := by
    intro b hb
    cases post with
    | nil =>
      have hcr : (13 : UInt8) = b := by simpa [crlf] using hb
      rw [← hcr]
      decide
    | cons x post =>
      have hx : x = b := by simpa using hb
      exact (hspace b (hx ▸ hpost x List.mem_cons_self)).2.1
  have hzero : ∀ b ∈ post ++ crlf, b ≠ 0 := by
    intro b hb
    obtain hb | hb := List.mem_append.mp hb
    · exact (hspace b (hpost b hb)).2.2
    · have hcrlf : ∀ b ∈ crlf, b ≠ 0 := by simp [crlf]
      exact hcrlf b hb
  have hval : strtol (pre ++ ds ++ (post ++ crlf) ++ 0 :: []) 10 = numVal 10 ds :=
    strtol_digits (.inl rfl) hpre hne hds hhead hzero (fun h => absurd h (by decide)) hn
  have hsplit : pre ++ ds ++ post ++ crlf ++ [0] = pre ++ ds ++ (post ++ crlf) ++ 0 :: [] := by simp
  rw [atoi, hsplit, hval]
  exact toInt_of_lt (by omega) (by omega)

theorem HeadAt.cr {s : HttpResponse} {cl : ℤ} {ch : Bool} (h : HeadAt s cl ch) :
    Quiet s [13] ((leave s).1.goto .headEndCr) := by
  have hstep : s.step 13 = ((leave s).1.goto .headEndCr, (leave s).2) := by
    rw [h.step (by decide), HttpResponse.afterLine, if_neg (by decide), if_pos rfl]
  refine ⟨h.ne_error, ?_, ?_⟩
  · rw [hstep]
    exact h.calls
  · rw [hstep]
    exact rfl

theorem HeadAt.fin {s : HttpResponse} {cl : ℤ} {ch : Bool} (h : HeadAt s cl ch) (cs : RspState)
    (hfin : ((leave s).1.goto .headEndCr).fin =
      (((leave s).1.goto .headEndCr).goto cs, [.vpt (.pop .httpHead)])) :
    Quiet s crlf (((leave s).1.goto .headEndCr).goto cs) := by
  have hstep : ((leave s).1.goto .headEndCr).step 10 = ((leave s).1.goto .headEndCr).fin := rfl
  have hlast : Quiet ((leave s).1.goto .headEndCr) [10] (((leave s).1.goto .headEndCr).goto cs) := by
    refine ⟨RspState.noConfusion, ?_, ?_⟩
    · rw [hstep, hfin]
      simp
    · rw [hstep, hfin]
      exact rfl
  exact h.cr.append hlast

theorem HeadAt.length {s : HttpResponse} {cl : ℤ} {ch : Bool} (h : HeadAt s cl ch) (hcl : 0 < cl) :
    ∃ t, Quiet s crlf t ∧ t.cs = .consumeLength ∧ t.contentLength = cl := by
  have hlen : ((leave s).1.goto .headEndCr).contentLength = cl := h.contentLength
  refine ⟨_, h.fin .consumeLength ?_, rfl, h.contentLength⟩
  rw [HttpResponse.fin, hlen, if_neg (by omega), if_pos hcl]

theorem HeadAt.chunked {s : HttpResponse} (h : HeadAt s (-1) true) :
    ∃ t, Quiet s crlf t ∧ t.cs = .chunked ∧ t.chunks = 0 := by
  have hlen : ((leave s).1.goto .headEndCr).contentLength = -1 := h.contentLength
  have hch : ((leave s).1.goto .headEndCr).isChunked = true := h.isChunked rfl
  refine ⟨_, h.fin .chunked ?_, rfl, h.chunks⟩
  rw [HttpResponse.fin, hlen, if_neg (by decide), if_neg (by decide), if_pos hch]

end Netp.Parse
