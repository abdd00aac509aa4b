import Netp.Parse.Fetch
import Netp.Parse.Completion

/-! # A connection after another one (`parse/connection.cc`)

`start` resets the state of a parser's machine and nothing else. Of the other fields none is read before
it is set again: `live` erases those of which that is so, and a step sees no difference (`step_live`).
The body block is another matter. It keeps its open flag and its destination, and a connection that was
lost inside a body sends the next response's head to the consumers of the old one.
`startsClean_iff` says that this is all that is left over of the parser; the tree is left to `FetchTree`.
-/

namespace Netp.Parse
open Netp.Lib
set_option autoImplicit false

/-! ## The fields that are still read -/

namespace RspState

/-- The states up to the end of the status line, where `uri` sets what the headers are to say. -/
def inStatusLine : RspState → Bool
  | .error | .main | .version | .versionEnd | .status | .statusEnd | .reason | .lineCr | .lineEnd => true
  | _ => false

def inName : RspState → Bool
  | .name | .colon => true
  | _ => false

def inHeaderValue : RspState → Bool
  | .value | .valueCr | .valueEnd => true
  | _ => false

/-- The states in the data of a chunk. -/
def inChunk : RspState → Bool
  | .consumeFirstChunk | .inFirstChunk | .consumeNextChunk | .inNextChunk => true
  | _ => false

end RspState

/-- The fields that the machine may read before it sets them; no call depends on the rest. -/
def HttpResponse.live (s : HttpResponse) : HttpResponse where
  cs := s.cs
  buf := if s.cs.inStatusLine then [] else s.buf
  buf1 := if s.cs.inName || s.cs.inHeaderValue then s.buf1 else []
  buf2 := if s.cs.inHeaderValue then s.buf2 else []
  contentLength := if s.cs.inStatusLine then 0 else s.contentLength
  chunkLength := if s.cs.inChunk then s.chunkLength else 0
  isGzipped := if s.cs.inStatusLine then false else s.isGzipped
  isBrotli := if s.cs.inStatusLine then false else s.isBrotli
  isChunked := if s.cs.inStatusLine then false else s.isChunked
  isConnectionClose := if s.cs.inStatusLine then false else s.isConnectionClose
  chunks := if s.cs.inStatusLine then 0 else s.chunks
  contentType := if s.cs.inStatusLine then .unspecified else s.contentType
  source := s.source
  wantCookies := s.wantCookies
  cookies := []
  wantLocation := s.wantLocation
  location := []

namespace HttpResponse
variable {s : HttpResponse}

/-- With other buffers of the header's name and value, and another length of the chunk. -/
def erase (s : HttpResponse) (buf1 buf2 : Text) (chunkLength : ℤ) : HttpResponse :=
  { s with buf1 := buf1, buf2 := buf2, chunkLength := chunkLength, cookies := [], location := [] }

theorem live_eq (s : HttpResponse) : s.live =
    if s.cs.inStatusLine then { init s.source s.wantCookies s.wantLocation with cs := s.cs }
    else if s.cs.inName then s.erase s.buf1 [] 0
    else if s.cs.inHeaderValue then s.erase s.buf1 s.buf2 0
    else if s.cs.inChunk then s.erase [] [] s.chunkLength
    else s.erase [] [] 0 := by
  cases hcs : s.cs <;> simp [live, hcs, RspState.inStatusLine, RspState.inName, RspState.inHeaderValue,
    RspState.inChunk, init, erase]

theorem fin_erase (s : HttpResponse) (buf1 buf2 : Text) (chunkLength : ℤ) :
    (s.erase buf1 buf2 chunkLength).fin.2 = s.fin.2 ∧
      (s.erase buf1 buf2 chunkLength).fin.1.live = s.fin.1.live := by
  generalize ht : s.erase buf1 buf2 chunkLength = t
  have hlength : t.contentLength = s.contentLength := ht ▸ rfl
  have hchunked : t.isChunked = s.isChunked := ht ▸ rfl
  have hclose : t.isConnectionClose = s.isConnectionClose := ht ▸ rfl
  unfold fin
  rw [hlength, hchunked, hclose, ← ht]
  split_ifs <;> exact ⟨rfl, rfl⟩

/-- The leaving action of a header does not read what is erased. -/
theorem header_erase (s : HttpResponse) :
    let t := s.erase s.buf1 s.buf2 0
    t.header.2 = s.header.2 ∧
      t.header.1.erase t.header.1.buf1 t.header.1.buf2 0 =
        s.header.1.erase s.header.1.buf1 s.header.1.buf2 0 := ⟨rfl, rfl⟩

theorem afterLine_erase (s : HttpResponse) (b : UInt8) :
    ((s.erase s.buf1 s.buf2 0).afterLine (s.erase s.buf1 s.buf2 0).header b).2 = (s.afterLine s.header b).2 ∧
      ((s.erase s.buf1 s.buf2 0).afterLine (s.erase s.buf1 s.buf2 0).header b).1.live =
        (s.afterLine s.header b).1.live := by
  obtain ⟨hcalls, hsame⟩ := s.header_erase
  generalize (s.erase s.buf1 s.buf2 0).header = r at hcalls hsame
  generalize s.header = q at hcalls hsame
  have hr := fin_erase r.1 r.1.buf1 r.1.buf2 0
  have hq := fin_erase q.1 q.1.buf1 q.1.buf2 0
  rw [hsame] at hr
  unfold afterLine
  split_ifs
  · exact ⟨hcalls, congrArg (fun t => (((t.clear1.append1 b).append b).goto .name).live) hsame⟩
  · exact ⟨hcalls, congrArg (fun t => (t.goto .headEndCr).live) hsame⟩
  · refine ⟨?_, hr.2.symm.trans hq.2⟩
    rw [Netp.Parse.after, Netp.Parse.after, hcalls, ← hr.1, hq.1]
  · exact ⟨rfl, rfl⟩

theorem step_live (s : HttpResponse) (b : UInt8) :
    (s.live.step b).2 = (s.step b).2 ∧ (s.live.step b).1.live = (s.step b).1.live := by
  rw [live_eq s]
  cases hcs : s.cs <;>
    simp only [RspState.inStatusLine, RspState.inName, RspState.inHeaderValue, RspState.inChunk, if_true, Bool.false_eq_true, if_false]
  case error =>
    simp only [step, hcs, live_eq s, true_and]
    rfl
  case main | version | versionEnd | status | statusEnd | reason | lineCr =>
    simp only [step, hcs]
    split_ifs <;> exact ⟨rfl, rfl⟩
  case lineEnd =>
    simp only [step, hcs, afterLine]
    split_ifs <;> exact ⟨rfl, rfl⟩
  case name | valueCr =>
    simp only [step, hcs, erase]
    split_ifs <;> exact ⟨rfl, rfl⟩
  case colon | value =>
    simp only [step, hcs, erase, inValue]
    split_ifs <;> exact ⟨rfl, rfl⟩
  case valueEnd =>
    have hline := afterLine_erase s b
    simp only [step, erase, hcs] at hline ⊢
    split_ifs
    · exact ⟨rfl, rfl⟩
    · exact hline
  case headEndCr =>
    simp only [step, hcs, erase, fin]
    split_ifs <;> exact ⟨rfl, rfl⟩
  case consumeLength | inLength | consumeAll | inAll =>
    simp only [step, hcs, erase, consume]
    split_ifs <;> exact ⟨rfl, rfl⟩
  case consumeFirstChunk | inFirstChunk | consumeNextChunk | inNextChunk =>
    simp only [step, hcs, erase, consumeChunk]
    split_ifs <;> exact ⟨rfl, rfl⟩
  all_goals
    simp only [step, hcs, erase, chunkHeader]
    split_ifs <;> exact ⟨rfl, rfl⟩

theorem live_cs (s : HttpResponse) : s.live.cs = s.cs := rfl

end HttpResponse

/-! ## Invariants and pairs of parsers -/

section Machines
variable {σ : Type} {M : Machine σ}

/-- An invariant of a parser between the calls of `receive`, from one that holds inside them. -/
theorem receive_invariant {O I : Parser σ → Prop}
    (hpre : ∀ s, O s → I { s with bodyBlock := s.bodyBlock.preExec })
    (hbyte : ∀ data p s b, I s → s.fault = false → M.isError s.core = false →
      I ((M.step s.core b).2.foldl (Parser.call data p) { s with core := (M.step s.core b).1 }))
    (hpost : ∀ data s, I s → s.fault = false →
      O (s.perform (s.bodyBlock.postExec data data.length)))
    (hstop : ∀ s, I s → (s.fault || M.isError s.core) = true → O s)
    {s : Parser σ} (h : O s) (data : Text) : O (M.receive s data) := by
  have hexec : ∀ (rest : Text) (p : ℕ) (s : Parser σ), I s → (s.fault || M.isError s.core) = false →
      I (M.exec data rest p s) := by
    intro rest
    induction rest with
    | nil => exact fun p s h _ => h
    | cons b rest ih =>
      intro p s h hgo
      have hrun : s.fault = false ∧ M.isError s.core = false := by simpa using hgo
      have hnext := hbyte data p s b h hrun.1 hrun.2
      rw [Machine.exec]
      split_ifs with hend
      · exact hnext
      · exact ih (p + 1) _ hnext (by simpa using hend)
  unfold Machine.receive
  split_ifs with hend
  · exact h
  · have hlast := hexec data 0 { s with bodyBlock := s.bodyBlock.preExec } (hpre s h)
      (by simpa using hend)
    simp only
    split_ifs with hend'
    · exact hstop _ hlast hend'
    · have hrun : (M.exec data data 0 { s with bodyBlock := s.bodyBlock.preExec }).fault = false ∧
          M.isError (M.exec data data 0 { s with bodyBlock := s.bodyBlock.preExec }).core = false := by
        simpa using hend'
      exact hpost data _ hlast hrun.1

/-- States from which the machine makes the same calls. -/
structure Machine.Bisim (M : Machine σ) (R : σ → σ → Prop) : Prop where
  error : ∀ {s t}, R s t → M.isError s = M.isError t
  calls : ∀ {s t} (b : UInt8), R s t → (M.step s b).2 = (M.step t b).2
  next : ∀ {s t} (b : UInt8), R s t → R (M.step s b).1 (M.step t b).1

/-- Two parsers that have done the same since their logs were `p` and `q`. -/
structure Twin (R : σ → σ → Prop) (p q : List Effect) (s t : Parser σ) : Prop where
  core : R s.core t.core
  bodyBlock : s.bodyBlock = t.bodyBlock
  fault : s.fault = t.fault
  log : ∃ es, s.log = p ++ es ∧ t.log = q ++ es

variable {R : σ → σ → Prop} {p q : List Effect} {s t : Parser σ}

theorem Twin.perform (h : Twin R p q s t) (r : Option (List Effect × BlockExec)) :
    Twin R p q (s.perform r) (t.perform r) := by
  cases r with
  | none => exact ⟨h.core, h.bodyBlock, rfl, h.log⟩
  | some r =>
    obtain ⟨es, hs, ht⟩ := h.log
    refine ⟨h.core, rfl, h.fault, es ++ r.1, ?_, ?_⟩
    · rw [Parser.perform, hs, List.append_assoc]
    · rw [Parser.perform, ht, List.append_assoc]

theorem Twin.calls (data : Text) (n : ℕ) (cs : List Call) :
    ∀ {s t : Parser σ}, Twin R p q s t →
      Twin R p q (cs.foldl (Parser.call data n) s) (cs.foldl (Parser.call data n) t) := by
  induction cs with
  | nil => exact fun h => h
  | cons c cs ih =>
    intro s t h
    refine ih ?_
    unfold Parser.call
    rw [← h.fault, ← h.bodyBlock]
    split_ifs
    · exact h
    · exact h.perform _

theorem Twin.exec (hR : M.Bisim R) (data rest : Text) :
    ∀ {n : ℕ} {s t : Parser σ}, Twin R p q s t →
      Twin R p q (M.exec data rest n s) (M.exec data rest n t) := by
  induction rest with
  | nil => exact fun h => h
  | cons b rest ih =>
    intro n s t h
    have hnext : Twin R p q
        ((M.step s.core b).2.foldl (Parser.call data n) { s with core := (M.step s.core b).1 })
        ((M.step t.core b).2.foldl (Parser.call data n) { t with core := (M.step t.core b).1 }) := by
      rw [← hR.calls b h.core]
      exact Twin.calls data n _ ⟨hR.next b h.core, h.bodyBlock, h.fault, h.log⟩
    rw [Machine.exec, Machine.exec, ← hnext.fault, ← hR.error hnext.core]
    split_ifs
    · exact hnext
    · exact ih hnext

theorem Twin.receive (hR : M.Bisim R) (h : Twin R p q s t) (data : Text) :
    Twin R p q (M.receive s data) (M.receive t data) := by
  have hstop : (t.fault || M.isError t.core) = (s.fault || M.isError s.core) := by
    rw [h.fault, hR.error h.core]
  unfold Machine.receive
  rw [hstop]
  split_ifs
  · exact h
  · have hexec : Twin R p q (M.exec data data 0 { s with bodyBlock := s.bodyBlock.preExec })
        (M.exec data data 0 { t with bodyBlock := t.bodyBlock.preExec }) :=
      Twin.exec hR data data ⟨h.core, congrArg BlockExec.preExec h.bodyBlock, h.fault, h.log⟩
    simp only
    rw [← hexec.fault, ← hR.error hexec.core, ← hexec.bodyBlock]
    split_ifs
    · exact hexec
    · exact hexec.perform _

end Machines

theorem live_bisim : httpResponse.Bisim fun s t => s.live = t.live where
  error {s t} h := by
    have hcs : s.live.cs = t.live.cs := congrArg HttpResponse.cs h
    rw [HttpResponse.live_cs, HttpResponse.live_cs] at hcs
    simp only [httpResponse, hcs]
  calls {s t} b h := by
    have hs := (HttpResponse.step_live s b).1
    rw [h] at hs
    exact hs.symm.trans (HttpResponse.step_live t b).1
  next {s t} b h := by
    have hs := (HttpResponse.step_live s b).2
    rw [h] at hs
    exact hs.symm.trans (HttpResponse.step_live t b).2

/-! ## What stays true of the parsers of a connection -/

/-- A block that is closed and without a destination is as the constructor made it. -/
def BlockExec.Tidy (b : BlockExec) : Prop := b.isOpen = false → b.output = none → b = .init

theorem finish_init {b : BlockExec} {r : List Effect × BlockExec} (h : b.finish = some r) : r.2 = .init := by
  obtain ⟨d, -, rfl⟩ := Option.map_eq_some_iff.1 h
  rfl

theorem finishAt_init {data : Text} {q : ℕ} {b : BlockExec} {r : List Effect × BlockExec}
    (h : b.finishAt data q = some r) : r.2 = .init := by
  unfold BlockExec.finishAt at h
  split_ifs at h
  · obtain ⟨e, -, h⟩ := Option.bind_eq_some_iff.1 h
    obtain ⟨r', hr', rfl⟩ := Option.map_eq_some_iff.1 h
    have hinit := finish_init hr'
    exact hinit
  · exact finish_init h

theorem exec_tidy {data : Text} {p : ℕ} {b : BlockExec} {c : Call} {r : List Effect × BlockExec}
    (h : b.Tidy) (hr : c.exec data p b = some r) : r.2.Tidy := by
  cases c with
  | vpt c => obtain rfl := Option.some.inj hr; exact h
  | destination d =>
    obtain rfl := Option.some.inj hr
    intro _ hnone
    cases hnone
  | start =>
    obtain ⟨d, -, rfl⟩ := Option.map_eq_some_iff.1 hr
    intro hclosed
    cases hclosed
  | pause =>
    obtain ⟨e, he, rfl⟩ := Option.map_eq_some_iff.1 hr
    intro _ hnone
    have hout : b.output = none := hnone
    simp [BlockExec.ship, hout] at he
  | resume =>
    obtain rfl := Option.some.inj hr
    intro hclosed
    cases hclosed
  | finish => exact fun _ _ => finishAt_init hr
  | finishNext => exact fun _ _ => finishAt_init hr
  | preFinish => obtain rfl := Option.some.inj hr; exact h
  | responseComplete => obtain rfl := Option.some.inj hr; exact h
  | fault => cases hr

/-- The response parser of a connection: it has a source, wants the cookies and the location, and has a
tidy block. -/
def Kept (s : Parser HttpResponse) : Prop := s.core.settings = (true, true, true) ∧ s.bodyBlock.Tidy

theorem receive_kept {s : Parser HttpResponse} (h : Kept s) (data : Text) :
    Kept (httpResponse.receive s data) := by
  have hperform : ∀ {s : Parser HttpResponse} {r : Option (List Effect × BlockExec)}, Kept s →
      (∀ x, r = some x → x.2.Tidy) → Kept (s.perform r) := by
    intro s r hs hr
    cases r with
    | none => exact hs
    | some x => exact ⟨hs.1, hr x rfl⟩
  refine receive_invariant (I := Kept) ?_ ?_ ?_ (fun _ hs _ => hs) h data
  · intro s hs
    refine ⟨hs.1, ?_⟩
    unfold BlockExec.preExec
    split_ifs with hopen
    · intro hclosed
      rw [hopen] at hclosed
      cases hclosed
    · exact hs.2
  · intro data p s b hs _ _
    have hcalls : ∀ (cs : List Call) {s : Parser HttpResponse}, Kept s →
        Kept (cs.foldl (Parser.call data p) s) := by
      intro cs
      induction cs with
      | nil => exact fun hs => hs
      | cons c cs ih =>
        intro s hs
        refine ih ?_
        unfold Parser.call
        split_ifs
        · exact hs
        · exact hperform hs fun x hx => exec_tidy hs.2 hx
    exact hcalls _ ⟨(step_settings s.core b).trans hs.1, hs.2⟩
  · intro data s hs _
    refine hperform hs fun x hx => ?_
    unfold BlockExec.postExec at hx
    split_ifs at hx with hopen
    · obtain ⟨e, -, rfl⟩ := Option.map_eq_some_iff.1 hx
      intro hclosed
      have hshut : s.bodyBlock.isOpen = false := hclosed
      rw [hopen] at hshut
      cases hshut
    · obtain rfl := Option.some.inj hx
      exact hs.2

theorem vpt_calls {σ : Type} (data : Text) (p : ℕ) (cs : List Call) (hvpt : ∀ c ∈ cs, ∃ v, c = .vpt v) :
    ∀ {s : Parser σ}, s.fault = false → ∃ vs : List VptCall,
      cs.foldl (Parser.call data p) s = { s with log := s.log ++ vs.map .vpt } := by
  induction cs with
  | nil =>
    intro s _
    refine ⟨[], ?_⟩
    rw [List.map_nil, List.append_nil]
    rfl
  | cons c cs ih =>
    intro s hf
    obtain ⟨v, rfl⟩ := hvpt c List.mem_cons_self
    have hcall : s.call data p (.vpt v) = { s with log := s.log ++ [.vpt v] } := by
      rw [Parser.call, if_neg (by rw [hf]; exact Bool.false_ne_true)]
      rfl
    obtain ⟨vs, hrest⟩ := ih (fun x hx => hvpt x (List.mem_cons_of_mem _ hx))
      (s := { s with log := s.log ++ [.vpt v] }) hf
    refine ⟨v :: vs, ?_⟩
    rw [List.foldl_cons, hcall, hrest, List.append_assoc]
    rfl

/-- The request parser of a connection uses no null pointer: an open block has its destination, and in a
body it is open. Inside `receive` it has its pointer as well. -/
structure Fed (inside : Bool) (s : Parser HttpRequest) : Prop where
  fault : s.fault = false
  opened : s.bodyBlock.isOpen = true →
    s.bodyBlock.output.isSome = true ∧ (inside = true → s.bodyBlock.fromPos.isSome = true)
  body : s.core.cs = .inConsume → s.bodyBlock.isOpen = true

section Requests
variable {s : Parser HttpRequest} {data : Text} {p : ℕ}

/-- A transition that only calls the tree, and does not go into a body. -/
def Plain (r : HttpRequest × List Call) : Prop := (∀ c ∈ r.2, ∃ v, c = .vpt v) ∧ r.1.cs ≠ .inConsume

theorem fin_plain (s : HttpRequest) : Plain s.fin := by
  unfold HttpRequest.fin
  split_ifs <;> exact ⟨by simp, ReqState.noConfusion⟩

theorem requestAfterLine_plain (s : HttpRequest) {r : HttpRequest × List Call} (b : UInt8)
    (hr : ∀ c ∈ r.2, ∃ v, c = .vpt v) : Plain (s.afterLine r b) := by
  obtain ⟨hfin, hcs⟩ := fin_plain r.1
  unfold HttpRequest.afterLine
  split_ifs
  · exact ⟨hr, ReqState.noConfusion⟩
  · exact ⟨hr, ReqState.noConfusion⟩
  · refine ⟨?_, hcs⟩
    intro c hc
    rcases List.mem_append.1 hc with hc | hc
    · exact hr c hc
    · exact hfin c hc
  · exact ⟨by simp, ReqState.noConfusion⟩

/-- The transitions of the request parser: those that only call the tree, and those of a body. -/
theorem request_step (s : HttpRequest) (b : UInt8) : Plain (s.step b) ∨
    s.step b = Netp.Parse.after [.destination ⟨.plain, false⟩, .start] s.consumeByte ∨
      s.cs = .inConsume ∧ s.step b = s.consumeByte := by
  cases hcs : s.cs <;> simp only [HttpRequest.step, hcs]
  case consume => exact .inr (.inl trivial)
  case inConsume => exact .inr (.inr ⟨trivial, trivial⟩)
  case lineEnd => exact .inl (requestAfterLine_plain s b (by simp [HttpRequest.requestLine]))
  case valueEnd =>
    left
    split_ifs
    · exact ⟨by simp, ReqState.noConfusion⟩
    · exact requestAfterLine_plain s b (by simp [HttpRequest.header, headerCalls])
  case headEndCr =>
    left
    split_ifs
    · exact fin_plain s
    · exact ⟨by simp, ReqState.noConfusion⟩
  case error => exact .inl ⟨by simp, by rw [hcs]; exact ReqState.noConfusion⟩
  case method | uri | protocol =>
    left
    split_ifs <;>
      exact ⟨by simp [HttpRequest.andGoto, HttpRequest.method, HttpRequest.uri, HttpRequest.protocol,
        HttpRequest.lineCalls], ReqState.noConfusion⟩
  case colon | value =>
    left
    simp only [HttpRequest.inValue]
    split_ifs <;> exact ⟨by simp, ReqState.noConfusion⟩
  all_goals
    left
    split_ifs <;> exact ⟨by simp, ReqState.noConfusion⟩

/-- The last byte of a body finishes it, and another one does not touch it. -/
theorem consumeByte_fed (h : Fed true s) (hopen : s.bodyBlock.isOpen = true) (core : HttpRequest) :
    Fed true (core.consumeByte.2.foldl (Parser.call data p) { s with core := core.consumeByte.1 }) := by
  obtain ⟨hout, hfrom⟩ := h.opened hopen
  obtain ⟨d, hd⟩ := Option.isSome_iff_exists.1 hout
  obtain ⟨f, hf⟩ := Option.isSome_iff_exists.1 (hfrom rfl)
  unfold HttpRequest.consumeByte
  simp only
  split_ifs
  · simp [Parser.call, Parser.perform, h.fault, Call.exec, BlockExec.finishAt, BlockExec.ship,
      BlockExec.finish, hopen, hd, hf]
    exact ⟨rfl, by simp [BlockExec.init], by simp [HttpRequest.goto]⟩
  · exact ⟨h.fault, h.opened, fun _ => hopen⟩

theorem byte_fed (h : Fed true s) (b : UInt8) :
    Fed true ((httpRequest.step s.core b).2.foldl (Parser.call data p)
      { s with core := (httpRequest.step s.core b).1 }) := by
  rcases request_step s.core b with ⟨hvpt, hcs⟩ | hstep | ⟨hcs, hstep⟩
  · obtain ⟨vs, hrun⟩ := vpt_calls data p _ hvpt
      (s := { s with core := (httpRequest.step s.core b).1 }) h.fault
    rw [show httpRequest.step s.core b = s.core.step b from rfl] at hrun ⊢
    rw [hrun]
    exact ⟨h.fault, h.opened, fun hin => absurd hin hcs⟩
  · have hstart : [Call.destination ⟨.plain, false⟩, .start].foldl (Parser.call data p)
        { s with core := (httpRequest.step s.core b).1 } =
        { s with
          core := (httpRequest.step s.core b).1
          bodyBlock := ⟨true, some ⟨.plain, false⟩, some p⟩
          log := s.log ++ [.start ⟨.plain, false⟩] } := by
      simp [Parser.call, Parser.perform, h.fault, Call.exec, BlockExec.start]
    have hfed : Fed true { s with
        bodyBlock := ⟨true, some ⟨.plain, false⟩, some p⟩
        log := s.log ++ [.start ⟨.plain, false⟩] } := ⟨h.fault, fun _ => ⟨rfl, fun _ => rfl⟩, fun _ => rfl⟩
    have hnext : httpRequest.step s.core b = _ := hstep
    rw [hnext] at hstart ⊢
    rw [Netp.Parse.after, List.foldl_append]
    rw [Netp.Parse.after] at hstart
    rw [hstart]
    exact consumeByte_fed hfed rfl s.core
  · have hnext : httpRequest.step s.core b = _ := hstep
    rw [hnext]
    exact consumeByte_fed h (h.body hcs) s.core

theorem receive_fed (h : Fed false s) (data : Text) : Fed false (httpRequest.receive s data) := by
  refine receive_invariant (I := Fed true) ?_ (fun _ _ _ b hs _ _ => byte_fed hs b) ?_ ?_ h data
  · intro s hs
    unfold BlockExec.preExec
    split_ifs with hopen
    · exact ⟨hs.fault, fun _ => ⟨(hs.opened hopen).1, fun _ => rfl⟩, fun _ => hopen⟩
    · exact ⟨hs.fault, fun hop => absurd hop hopen, hs.body⟩
  · intro data s hs _
    unfold BlockExec.postExec
    split_ifs with hopen
    · obtain ⟨hout, hfrom⟩ := hs.opened hopen
      obtain ⟨d, hd⟩ := Option.isSome_iff_exists.1 hout
      obtain ⟨f, hf⟩ := Option.isSome_iff_exists.1 (hfrom rfl)
      have hship : s.bodyBlock.ship data data.length = some (.receive d (data.extract f data.length)) := by
        simp only [BlockExec.ship, hd, hf]
      rw [hship]
      exact ⟨hs.fault, fun _ => ⟨hout, fun hno => absurd hno Bool.false_ne_true⟩, hs.body⟩
    · exact ⟨hs.fault, fun hop => absurd hop hopen, hs.body⟩
  · intro s hs _
    exact ⟨hs.fault, fun hop => ⟨(hs.opened hop).1, fun hno => absurd hno Bool.false_ne_true⟩, hs.body⟩

end Requests

namespace FetchConnection
variable {c d : FetchConnection} {P : Parser HttpResponse}

/-- The parsers of a connection, with the response parser as it is. -/
structure Good (P : Parser HttpResponse) (c : FetchConnection) : Prop where
  response : c.responseParser = P
  request : Fed false c.requestParser

theorem Good.of_eq (h : c.Good P) (hresponse : d.responseParser = c.responseParser)
    (hrequest : d.requestParser = c.requestParser) : d.Good P :=
  ⟨hresponse.trans h.response, hrequest ▸ h.request⟩

theorem crash_good (h : c.Good P) : c.crash.Good P := h.of_eq rfl rfl

theorem parseRequest_good (h : c.Good P) (content : Text) : (c.parseRequest content).Good P := by
  unfold parseRequest
  simp only
  split_ifs
  · exact h.of_eq rfl rfl
  · exact ⟨h.response, receive_fed h.request _⟩

theorem written_good (h : c.Good P) (content : Text) (nbytes later : ℤ) :
    (c.written content nbytes later).Good P := by
  by_cases hsize : nbytes = toInt content.length
  · rw [written_whole hsize]
    exact h.of_eq rfl rfl
  · rw [written_short hsize]
    exact h.of_eq rfl rfl

theorem send_good (h : c.Good P) (request : Request) (turn : Turn) : (c.send request turn).Good P := by
  have hparse := parseRequest_good h request.content
  unfold send
  generalize c.parseRequest request.content = d at hparse
  simp only
  split_ifs
  · exact hparse
  · cases d.write (toInt request.content.length) turn.nbytes with
    | none => exact crash_good hparse
    | some nbytes => exact written_good hparse request.content nbytes turn.later

theorem maybeSend_good (h : c.Good P) : c.maybeSend.Good P := by
  by_cases hother : c.state = .idle → c.requestList = []
  · rw [maybeSend_other hother]
    exact h
  · obtain ⟨hidle, hne⟩ := Classical.not_imp.1 hother
    obtain ⟨request, rest, hlist⟩ := List.exists_cons_of_ne_nil hne
    have hturn : c.takeTurn.Good P := h.of_eq rfl rfl
    rw [maybeSend_idle hidle hlist]
    split_ifs
    · exact send_good hturn request (c.turns 0)
    · exact hturn

theorem detachFirst_good (h : c.Good P) : c.detachFirst.Good P := by
  unfold detachFirst
  split <;> exact h.of_eq rfl rfl

theorem effect_good (h : c.Good P) (e : Effect) : (c.effect e).Good P := by
  unfold effect
  by_cases hf : c.fault = true
  · rw [if_pos hf]
    exact h
  · rw [if_neg hf]
    cases e with
    | start d =>
      simp only
      split_ifs <;> exact h.of_eq rfl rfl
    | preFinish =>
      have hdetach := detachFirst_good (c := c.note .completed) (h.of_eq rfl rfl)
      simp only [preFinish]
      split_ifs
      · exact hdetach
      · exact hdetach.of_eq rfl rfl
    | responseComplete => exact maybeSend_good h
    | vpt v => exact h.of_eq rfl rfl
    | receive d data => exact h.of_eq rfl rfl
    | finish d => exact h.of_eq rfl rfl

theorem effects_good (es : List Effect) : ∀ {c : FetchConnection}, c.Good P → (es.foldl effect c).Good P := by
  induction es with
  | nil => exact fun h => h
  | cons e es ih => exact fun h => ih (effect_good h e)

theorem perform_good (h : c.Good P) (parser : Parser HttpResponse) : (c.perform parser).Good parser := by
  have hrun := effects_good (P := parser) (parser.log.drop c.responseParser.log.length)
    (c := { c with responseParser := parser }) ⟨rfl, h.request⟩
  exact hrun.of_eq rfl rfl

/-- The invariant between two events. -/
structure Steady (c : FetchConnection) : Prop where
  kept : Kept c.responseParser
  fed : Fed false c.requestParser
  alive : c.fault = false → c.responseParser.fault = false

theorem Steady.good (h : c.Steady) : c.Good c.responseParser := ⟨rfl, h.fed⟩

theorem Good.steady (h : c.Good P) (hP : Kept P) (hf : P.fault = false) : c.Steady :=
  ⟨h.response ▸ hP, h.request, fun _ => h.response ▸ hf⟩

theorem dataAvail_steady (h : c.Steady) (bytes : Text) : (c.dataAvail bytes).Steady := by
  unfold dataAvail
  split_ifs
  · exact h
  · have hperform := perform_good h.good (httpResponse.receive c.responseParser bytes)
    refine ⟨?_, hperform.request, ?_⟩
    · rw [hperform.response]
      exact receive_kept h.kept bytes
    · intro hf
      rw [hperform.response]
      exact (Bool.or_eq_false_iff.1 hf).2

/-- The response parser after a reconnect: the machine has been started. -/
def restarted (c : FetchConnection) (host : Text) : Parser HttpResponse :=
  { c.responseParser with
    core := c.responseParser.core.goto .main
    log := c.responseParser.log ++ (startCalls host).map .vpt }

theorem connectComplete_good (h : c.Steady) (hf : c.fault = false) :
    c.connectComplete.Good (c.restarted c.fetchHost) := by
  refine maybeSend_good ?_
  rw [startParsers_eq hf]
  exact ⟨rfl, h.fed.fault, h.fed.opened, ReqState.noConfusion⟩

theorem getGoing_good (h : c.Good P) (host : Text) : (c.getGoing host).Good P := by
  unfold getGoing
  simp only
  split_ifs <;> exact h.of_eq rfl rfl

theorem disconnect_good (h : c.Good P) : c.disconnect.Good P := by
  have hclose : c.close.Good P := h.of_eq rfl rfl
  unfold disconnect
  simp only
  split_ifs
  · exact detachFirst_good hclose
  · exact (detachFirst_good hclose).of_eq rfl rfl
  · exact hclose
  · exact hclose.of_eq rfl rfl

theorem readReady_steady (reads : List (Option Text)) :
    ∀ {c : FetchConnection}, c.Steady → (c.readReady reads).Steady := by
  induction reads with
  | nil => exact fun h => h
  | cons read reads ih =>
    intro c h
    cases read with
    | none => exact ⟨h.kept, h.fed, h.alive⟩
    | some bytes =>
      cases bytes with
      | nil => exact h
      | cons b bytes =>
        rw [readReady]
        split_ifs
        · exact dataAvail_steady h _
        · exact ih (dataAvail_steady h _)

theorem step_steady {throttleDelay : ℤ} {turns : ℕ → Turn} {event : FetchEvent} (h : c.Steady)
    (hs : (fetchConnection throttleDelay turns).step c event = some d) : d.Steady := by
  cases hf : c.fault with
  | true => simp [fetchConnection, hf] at hs
  | false =>
    have hno : ¬ c.fault = true := by rw [hf]; exact Bool.false_ne_true
    have hlive := h.alive hf
    simp only [fetchConnection, if_neg hno] at hs
    cases event with
    | queueRequest request =>
      obtain rfl := Option.some.inj hs
      have hlist : Good c.responseParser { c with requestList := c.requestList ++ [request] } :=
        h.good.of_eq rfl rfl
      exact (maybeSend_good hlist).steady h.kept hlive
    | getGoing host =>
      obtain rfl := Option.some.inj hs
      exact (getGoing_good h.good host).steady h.kept hlive
    | connectComplete =>
      simp only [Option.ite_none_right_eq_some, Option.some.injEq] at hs
      obtain ⟨-, rfl⟩ := hs
      have hstart := connectComplete_good (c := { c with selectFd := some .established })
        ⟨h.kept, h.fed, h.alive⟩ hf
      exact hstart.steady ⟨h.kept.1, h.kept.2⟩ hlive
    | readReady reads =>
      simp only [Option.ite_none_right_eq_some, Option.some.injEq] at hs
      obtain ⟨-, rfl⟩ := hs
      exact readReady_steady reads h
    | timer =>
      obtain rfl := Option.some.inj hs
      exact (maybeSend_good h.good).steady h.kept hlive
    | disconnect =>
      obtain rfl := Option.some.inj hs
      exact (disconnect_good h.good).steady h.kept hlive

theorem reach_steady {throttleDelay : ℤ} {turns : ℕ → Turn}
    (h : Reach (fetchConnection throttleDelay turns) c) : c.Steady := by
  refine ReachIf.invariant ?_ (fun _ _ _ hc _ hs => step_steady hc hs) h
  exact ⟨⟨rfl, fun _ _ => rfl⟩, ⟨rfl, fun hopen => absurd hopen Bool.false_ne_true, ReqState.noConfusion⟩,
    fun _ => rfl⟩

/-! ## Two connections -/

/-- Two connections with the same requests before them, of which the first has seen `pre` already. -/
structure Same (pre : List (Option ℕ × Effect)) (c d : FetchConnection) : Prop where
  state : c.state = d.state
  lastSend : c.lastSend = d.lastSend
  throttleDelay : c.throttleDelay = d.throttleDelay
  requestList : c.requestList = d.requestList
  selectFd : c.selectFd = d.selectFd
  turns : c.turns = d.turns
  fault : c.fault = d.fault
  seen : c.seen = pre ++ d.seen
  fed : Fed false c.requestParser ∧ Fed false d.requestParser

section Same
variable {pre : List (Option ℕ × Effect)}

theorem Same.crash (h : Same pre c d) : Same pre c.crash d.crash := { h with fault := rfl }

theorem Same.note (h : Same pre c d) (e : LinkEvent) : Same pre (c.note e) (d.note e) := { h with }

theorem Same.see (h : Same pre c d) (consumer : Option ℕ) (e : Effect) :
    Same pre (c.see consumer e) (d.see consumer e) where
  __ := h
  seen := by rw [FetchConnection.see, FetchConnection.see, h.seen, List.append_assoc]

theorem Same.parseRequest (h : Same pre c d) (content : Text) :
    Same pre (c.parseRequest content) (d.parseRequest content) := by
  unfold FetchConnection.parseRequest
  simp only
  split_ifs
  · exact h.crash
  · have hc := receive_fed h.fed.1 (content.take (toInt content.length).toNat)
    have hd := receive_fed h.fed.2 (content.take (toInt content.length).toNat)
    exact { h with fault := by simp only [h.fault, hc.fault, hd.fault], fed := ⟨hc, hd⟩ }

theorem Same.written (h : Same pre c d) (content : Text) (nbytes later : ℤ) :
    Same pre (c.written content nbytes later) (d.written content nbytes later) := by
  by_cases hsize : nbytes = toInt content.length
  · rw [written_whole hsize, written_whole hsize]
    exact { h with state := rfl, lastSend := rfl }
  · rw [written_short hsize, written_short hsize]
    exact { h with state := rfl, lastSend := rfl, selectFd := rfl }

theorem Same.send (h : Same pre c d) (request : Request) (turn : Turn) :
    Same pre (c.send request turn) (d.send request turn) := by
  have hparse := h.parseRequest request.content
  unfold FetchConnection.send
  generalize c.parseRequest request.content = c' at hparse
  generalize d.parseRequest request.content = d' at hparse
  have hwrite : d'.write (toInt request.content.length) turn.nbytes =
      c'.write (toInt request.content.length) turn.nbytes := by
    rw [write, write, hparse.selectFd]
  simp only
  rw [hwrite, ← hparse.fault]
  split_ifs
  · exact hparse
  · cases c'.write (toInt request.content.length) turn.nbytes with
    | none => exact hparse.crash
    | some nbytes => exact hparse.written request.content nbytes turn.later

theorem Same.maybeSend (h : Same pre c d) : Same pre c.maybeSend d.maybeSend := by
  by_cases hother : c.state = .idle → c.requestList = []
  · rw [maybeSend_other hother, maybeSend_other (by rw [← h.state, ← h.requestList]; exact hother)]
    exact h
  · obtain ⟨hidle, hne⟩ := Classical.not_imp.1 hother
    obtain ⟨request, rest, hlist⟩ := List.exists_cons_of_ne_nil hne
    have hturn : Same pre c.takeTurn d.takeTurn :=
      { h with turns := funext fun n => congrFun h.turns (n + 1) }
    rw [maybeSend_idle hidle hlist,
      maybeSend_idle (h.state.symm.trans hidle) (h.requestList.symm.trans hlist),
      ← h.turns, ← h.lastSend, ← h.throttleDelay]
    split_ifs
    · exact hturn.send request (c.turns 0)
    · exact hturn

theorem Same.preFinish (h : Same pre c d) (hf : c.fault = false) : Same pre c.preFinish d.preFinish := by
  rw [preFinish_eq hf, preFinish_eq (h.fault.symm.trans hf), ← h.requestList]
  cases hlist : c.requestList with
  | nil => exact (h.note .completed).crash
  | cons request rest => exact { h with state := rfl, requestList := rfl }

theorem Same.effect (h : Same pre c d) (e : Effect) : Same pre (c.effect e) (d.effect e) := by
  unfold FetchConnection.effect
  rw [← h.fault]
  cases hf : c.fault with
  | true => exact h
  | false =>
    rw [if_neg Bool.false_ne_true, if_neg Bool.false_ne_true]
    cases e with
    | start dest =>
      have hnext : d.nextConsumer = c.nextConsumer := by
        rw [nextConsumer, nextConsumer, h.requestList]
      simp only
      rw [hnext]
      split_ifs
      · exact h.crash
      · exact h.see _ _
    | preFinish => exact h.preFinish hf
    | responseComplete => exact h.maybeSend
    | vpt v => exact h.see none _
    | receive dest data => exact h.see none _
    | finish dest => exact h.see none _

theorem Same.effects (es : List Effect) :
    ∀ {c d : FetchConnection}, Same pre c d → Same pre (es.foldl FetchConnection.effect c) (es.foldl FetchConnection.effect d) := by
  induction es with
  | nil => exact fun h => h
  | cons e es ih => exact fun h => ih (h.effect e)

/-- Two connections whose parsers have done the same since they were started. -/
structure Alike (pre : List (Option ℕ × Effect)) (p q : List Effect) (c d : FetchConnection) : Prop where
  same : Same pre c d
  twin : Twin (fun s t => s.live = t.live) p q c.responseParser d.responseParser

theorem Alike.perform {p q : List Effect} (h : Alike pre p q c d) {s t : Parser HttpResponse}
    (hst : Twin (fun s t => s.live = t.live) p q s t) : Alike pre p q (c.perform s) (d.perform t) := by
  obtain ⟨old, hc, hd⟩ := h.twin.log
  obtain ⟨new, hs, ht⟩ := hst.log
  have hdrop : t.log.drop d.responseParser.log.length = s.log.drop c.responseParser.log.length := by
    rw [hc, hd, hs, ht, List.length_append, List.length_append, ← List.drop_drop, ← List.drop_drop,
      List.drop_left, List.drop_left]
  have hsame : Same pre { c with responseParser := s } { d with responseParser := t } := { h.same with }
  have heffects := hsame.effects (s.log.drop c.responseParser.log.length)
  have hc' := perform_good (P := c.responseParser) ⟨rfl, h.same.fed.1⟩ s
  have hd' := perform_good (P := d.responseParser) ⟨rfl, h.same.fed.2⟩ t
  refine ⟨?_, ?_⟩
  · unfold FetchConnection.perform
    rw [hdrop]
    exact { heffects with fault := by simp only [heffects.fault, hst.fault] }
  · rw [hc'.response, hd'.response]
    exact hst

theorem Alike.dataAvail {p q : List Effect} (h : Alike pre p q c d) (bytes : Text) :
    Alike pre p q (c.dataAvail bytes) (d.dataAvail bytes) := by
  unfold FetchConnection.dataAvail
  rw [← h.same.fault]
  split_ifs
  · exact h
  · exact h.perform (h.twin.receive live_bisim bytes)

theorem Alike.stream {p q : List Effect} (ds : List Text) :
    ∀ {c d : FetchConnection}, Alike pre p q c d →
      Alike pre p q (ds.foldl FetchConnection.dataAvail c) (ds.foldl FetchConnection.dataAvail d) := by
  induction ds with
  | nil => exact fun h => h
  | cons bytes ds ih => exact fun h => ih (h.dataAvail bytes)

end Same

/-! ## The next connection -/

/-- A new connection with the requests that are left, and with the same answers to come. -/
def fresh (c : FetchConnection) : FetchConnection :=
  c.requestList.foldl queueRequest (new c.throttleDelay c.turns)

/-- `getGoing`, and the event loop's `connectComplete`. -/
def reconnect (c : FetchConnection) (host : Text) : FetchConnection :=
  connectComplete { c.getGoing host with selectFd := some .established }

/-- From the reconnect on, the response side does the same as on a fresh connection, whatever is
received. -/
def StartsClean (c : FetchConnection) (host : Text) : Prop :=
  ∀ ds : List Text, (ds.foldl dataAvail (c.reconnect host)).seen.drop c.seen.length =
    (ds.foldl dataAvail (c.fresh.reconnect host)).seen

theorem fresh_eq (c : FetchConnection) :
    c.fresh = { new c.throttleDelay c.turns with requestList := c.requestList } := by
  have hqueue : ∀ (rs : List Request) (d : FetchConnection), d.state = .disconnected →
      rs.foldl queueRequest d = { d with requestList := d.requestList ++ rs } := by
    intro rs
    induction rs with
    | nil =>
      intro d _
      rw [List.append_nil]
      rfl
    | cons r rs ih =>
      intro d hd
      have hfirst : d.queueRequest r = { d with requestList := d.requestList ++ [r] } := by
        refine maybeSend_other fun hidle => ?_
        have hstate : d.state = .idle := hidle
        rw [hd] at hstate
        cases hstate
      have hrest := ih { d with requestList := d.requestList ++ [r] } hd
      rw [List.foldl_cons, hfirst, hrest, List.append_assoc]
      rfl
  exact hqueue c.requestList (new c.throttleDelay c.turns) rfl

/-- Both parsers of a fresh connection are as the constructor made them. -/
theorem fresh_steady (c : FetchConnection) : c.fresh.Steady := by
  rw [fresh_eq]
  exact ⟨⟨rfl, fun _ _ => rfl⟩, ⟨rfl, fun hopen => absurd hopen Bool.false_ne_true, ReqState.noConfusion⟩,
    fun _ => rfl⟩

/-- The connection when the event loop calls `connectComplete`. -/
def connected (c : FetchConnection) (host : Text) : FetchConnection :=
  { initiate { c with fetchHost := host } with state := .connecting, selectFd := some .established }

theorem reconnect_eq (hstate : c.state = .disconnected) (hlist : c.requestList ≠ []) (host : Text) :
    c.reconnect host = connectComplete (c.connected host) := by
  have hgo : c.getGoing host = { initiate { c with fetchHost := host } with state := .connecting } :=
    if_pos ⟨hlist, hstate⟩
  rw [reconnect, hgo]
  rfl

/-- The state of the machine is all that is read at the start of a stream. -/
theorem live_start {s t : HttpResponse} (h : s.settings = t.settings) :
    (s.goto .main).live = (t.goto .main).live := by
  have hlive : ∀ u : HttpResponse, (u.goto .main).live =
      { HttpResponse.init u.settings.1 u.settings.2.1 u.settings.2.2 with cs := .main } := fun _ => rfl
  rw [hlive, hlive, h]

section Reconnect
variable (host : Text)

theorem reconnect_good (h : c.Steady) (hf : c.fault = false) (hstate : c.state = .disconnected)
    (hlist : c.requestList ≠ []) : (c.reconnect host).Good (c.restarted host) := by
  rw [reconnect_eq hstate hlist]
  exact connectComplete_good (c := c.connected host) ⟨h.kept, h.fed, h.alive⟩ hf

theorem fresh_reconnect_good (c : FetchConnection) (hlist : c.requestList ≠ []) :
    (c.fresh.reconnect host).Good (c.fresh.restarted host) := by
  refine reconnect_good host c.fresh_steady ?_ ?_ ?_
  · rw [fresh_eq]
    rfl
  · rw [fresh_eq]
    rfl
  · rw [fresh_eq]
    exact hlist

theorem reconnect_same (h : c.Steady) (hf : c.fault = false) (hstate : c.state = .disconnected)
    (hlist : c.requestList ≠ []) : Same c.seen (c.reconnect host) (c.fresh.reconnect host) := by
  have hfresh := c.fresh_eq
  have hstart := startParsers_eq (c := c.connected host) hf
  have hstart' := startParsers_eq (c := c.fresh.connected host) (by rw [hfresh]; rfl)
  rw [reconnect_eq hstate hlist, reconnect_eq (by rw [hfresh]; rfl) (by rw [hfresh]; exact hlist)]
  refine Same.maybeSend ?_
  rw [hstart, hstart', hfresh]
  refine ⟨rfl, rfl, rfl, rfl, rfl, rfl, h.alive hf, rfl, ?_⟩
  exact ⟨⟨h.fed.fault, h.fed.opened, ReqState.noConfusion⟩,
    ⟨rfl, fun hopen => absurd hopen Bool.false_ne_true, ReqState.noConfusion⟩⟩

/-- A connection with nothing left in the body block goes on as a fresh one. -/
theorem reconnect_alike (h : c.Steady) (hf : c.fault = false) (hstate : c.state = .disconnected)
    (hlist : c.requestList ≠ []) (hblock : c.responseParser.bodyBlock = .init) :
    Alike c.seen c.responseParser.log [] (c.reconnect host) (c.fresh.reconnect host) := by
  have htwin : Twin (fun s t => s.live = t.live) c.responseParser.log [] (c.restarted host)
      (c.fresh.restarted host) := by
    rw [fresh_eq]
    exact ⟨live_start h.kept.1, hblock, h.alive hf, _, rfl, rfl⟩
  refine ⟨reconnect_same host h hf hstate hlist, ?_⟩
  rw [(reconnect_good host h hf hstate hlist).response, (fresh_reconnect_good host c hlist).response]
  exact htwin

theorem startsClean_of_init (h : c.Steady) (hf : c.fault = false) (hstate : c.state = .disconnected)
    (hlist : c.requestList ≠ []) (hblock : c.responseParser.bodyBlock = .init) : c.StartsClean host := by
  intro ds
  rw [((reconnect_alike host h hf hstate hlist hblock).stream ds).same.seen, List.drop_left]

/-! ### What is left over -/

/-- The first byte of a response: nothing, or it is shipped, or a null pointer is used. -/
theorem first_byte {s : Parser HttpResponse} (hf : s.fault = false) (hcs : s.core.cs = .main) :
    httpResponse.receive s [72] =
      let core := (s.core.append 72).goto .version
      if s.bodyBlock.isOpen then
        match s.bodyBlock.output with
        | none => { s with core := core, bodyBlock := { s.bodyBlock with fromPos := some 0 }, fault := true }
        | some d => { s with
            core := core
            bodyBlock := { s.bodyBlock with fromPos := none }
            log := s.log ++ [.receive d [72]] }
      else { s with core := core } := by
  have hstep : httpResponse.step s.core 72 = ((s.core.append 72).goto .version, []) := by
    have hmain : s.core.step 72 = ((s.core.append 72).goto .version, []) := by
      simp only [HttpResponse.step, hcs]
      rw [if_pos (by decide)]
    exact hmain
  have herr : httpResponse.isError s.core = false := by simp [httpResponse, hcs]
  have herr' : httpResponse.isError ((s.core.append 72).goto .version) = false := rfl
  cases hopen : s.bodyBlock.isOpen with
  | false =>
    simp [Machine.receive, Machine.exec, hf, herr, hstep, herr', BlockExec.preExec, BlockExec.postExec, hopen,
      Parser.perform]
  | true =>
    cases hout : s.bodyBlock.output <;>
      simp [Machine.receive, Machine.exec, hf, herr, hstep, herr', BlockExec.preExec, BlockExec.postExec,
        BlockExec.ship, hopen, hout, Parser.perform]

theorem dataAvail_eq (hf : c.fault = false) {bytes : Text} {es : List Effect}
    (hlog : (httpResponse.receive c.responseParser bytes).log = c.responseParser.log ++ es) :
    c.dataAvail bytes =
      let parser := httpResponse.receive c.responseParser bytes
      let d := es.foldl effect { c with responseParser := parser }
      { d with fault := d.fault || parser.fault } := by
  have hno : ¬ c.fault = true := by rw [hf]; exact Bool.false_ne_true
  rw [dataAvail, if_neg hno, perform, hlog, List.drop_left]

theorem effect_body (hf : c.fault = false) {e : Effect}
    (he : (∃ d data, e = .receive d data) ∨ ∃ d, e = .finish d) : c.effect e = c.see none e := by
  rcases he with ⟨d, data, rfl⟩ | ⟨d, rfl⟩ <;> rw [effect, if_neg (by rw [hf]; exact Bool.false_ne_true)]

theorem stream_fault (ds : List Text) (hf : c.fault = true) : ds.foldl dataAvail c = c := by
  induction ds with
  | nil => rfl
  | cons bytes ds ih =>
    have hstop : c.dataAvail bytes = c := by rw [dataAvail, if_pos hf]
    rw [List.foldl_cons, hstop, ih]

theorem dataAvail_vpt (hf : c.fault = false) {bytes : Text} (cs : List VptCall)
    (hlog : (httpResponse.receive c.responseParser bytes).log = c.responseParser.log ++ cs.map .vpt) :
    c.dataAvail bytes = { c with
      responseParser := httpResponse.receive c.responseParser bytes
      seen := c.seen ++ cs.map fun v => (none, .vpt v)
      fault := (httpResponse.receive c.responseParser bytes).fault } := by
  have hno : ¬ c.fault = true := by rw [hf]; exact Bool.false_ne_true
  rw [dataAvail, if_neg hno, perform_vpt hf _ hlog]

/-- The response parser of a fresh connection, with nothing in its log. -/
def atStart : Parser HttpResponse := ⟨(HttpResponse.init true true true).goto .main, .init, [], false⟩

theorem fresh_noContent (c : FetchConnection) :
    (httpResponse.receive (httpResponse.receive (c.fresh.restarted host) [72])
      (noContent.render.drop 1)).log = (c.fresh.restarted host).log ++
        [VptCall.consumePair, .push .httpResponse, .push .httpHead, .pop .httpHead,
          .pop .httpResponse].map Effect.vpt := by
  have htwin : Twin (fun s t => s.live = t.live) (c.fresh.restarted host).log [] (c.fresh.restarted host)
      atStart := by
    rw [fresh_eq]
    exact ⟨rfl, rfl, rfl, [], (List.append_nil _).symm, rfl⟩
  obtain ⟨es, hlog, hes⟩ :=
    ((htwin.receive live_bisim [72]).receive live_bisim (noContent.render.drop 1)).log
  have hconcrete : (httpResponse.receive (httpResponse.receive atStart [72]) (noContent.render.drop 1)).log =
      [VptCall.consumePair, .push .httpResponse, .push .httpHead, .pop .httpHead,
        .pop .httpResponse].map Effect.vpt := rfl
  rw [hlog, ← hconcrete, hes, List.nil_append]

theorem fresh_first (c : FetchConnection) :
    httpResponse.receive (c.fresh.restarted host) [72] = { c.fresh.restarted host with
      core := ((c.fresh.restarted host).core.append 72).goto .version } := by
  have hfault : (c.fresh.restarted host).fault = false := by rw [fresh_eq]; rfl
  have hclosed : (c.fresh.restarted host).bodyBlock.isOpen = false := by rw [fresh_eq]; rfl
  rw [first_byte hfault rfl, hclosed]
  rfl

theorem fresh_dataAvail (c : FetchConnection) (hlist : c.requestList ≠ [])
    (hup : (c.fresh.reconnect host).fault = false) :
    let d := (c.fresh.reconnect host).dataAvail [72]
    d.fault = false ∧ d.seen = (c.fresh.reconnect host).seen ∧
      d.responseParser = httpResponse.receive (c.fresh.restarted host) [72] := by
  have hparser := (fresh_reconnect_good host c hlist).response
  have hrun := dataAvail_vpt hup [] (by
    rw [hparser, fresh_first host, List.map_nil, List.append_nil])
  have hfault : (httpResponse.receive (c.fresh.restarted host) [72]).fault = false := by
    rw [fresh_first host, fresh_eq]
    rfl
  simp only
  rw [hrun, hparser]
  exact ⟨hfault, List.append_nil _, rfl⟩

theorem open_not_clean (h : c.Steady) (hf : c.fault = false) (hstate : c.state = .disconnected)
    (hlist : c.requestList ≠ []) (hup : (c.reconnect host).fault = false)
    (hopen : c.responseParser.bodyBlock.isOpen = true) : ¬ c.StartsClean host := by
  intro hclean
  have hsame := reconnect_same host h hf hstate hlist
  have hparser := (reconnect_good host h hf hstate hlist).response
  obtain ⟨hfault, hseen, hfresh⟩ := fresh_dataAvail host c hlist (hsame.fault.symm.trans hup)
  have hfirst := first_byte (s := c.restarted host) (h.alive hf) rfl
  have hblock : (c.restarted host).bodyBlock.isOpen = true := hopen
  simp only [hblock, if_true] at hfirst
  rw [← hparser] at hfirst
  cases hout : c.responseParser.bodyBlock.output with
  | some d =>
    have hout' : (c.reconnect host).responseParser.bodyBlock.output = some d := by rw [hparser]; exact hout
    rw [hout'] at hfirst
    have hlog : (httpResponse.receive (c.reconnect host).responseParser [72]).log =
        (c.reconnect host).responseParser.log ++ [.receive d [72]] := by rw [hfirst]
    have hstale : ((c.reconnect host).dataAvail [72]).seen =
        (c.reconnect host).seen ++ [(none, .receive d [72])] := by
      have heffect := effect_body (e := .receive d [72])
        (c := { c.reconnect host with
          responseParser := httpResponse.receive (c.reconnect host).responseParser [72] }) hup
        (.inl ⟨d, [72], rfl⟩)
      rw [dataAvail_eq hup hlog]
      simp only [List.foldl_cons, List.foldl_nil]
      rw [heffect]
      rfl
    have hdrop := hclean [[72]]
    rw [List.foldl_cons, List.foldl_nil, hstale, hsame.seen, List.append_assoc, List.drop_left,
      List.foldl_cons, List.foldl_nil, hseen] at hdrop
    have hlength := congrArg List.length hdrop
    simp at hlength
  | none =>
    have hout' : (c.reconnect host).responseParser.bodyBlock.output = none := by rw [hparser]; exact hout
    rw [hout'] at hfirst
    have hstale := dataAvail_vpt hup [] (by
      rw [hfirst, List.map_nil, List.append_nil])
    have hcrash : ((c.reconnect host).dataAvail [72]).fault = true := by rw [hstale, hfirst]
    have hstill : ((c.reconnect host).dataAvail [72]).seen = (c.reconnect host).seen := by
      rw [hstale]
      exact List.append_nil _
    have hlog := fresh_noContent host c
    have hquiet : (c.fresh.restarted host).log =
        (httpResponse.receive (c.fresh.restarted host) [72]).log := by rw [fresh_first host]
    rw [hquiet, ← hfresh] at hlog
    have hdrop := hclean [[72], noContent.render.drop 1]
    rw [List.foldl_cons, stream_fault _ hcrash, hstill, hsame.seen, List.drop_left, List.foldl_cons,
      List.foldl_cons, List.foldl_nil, dataAvail_vpt hfault _ hlog] at hdrop
    have hlength := congrArg List.length hdrop
    simp [hseen] at hlength

theorem quiet_exec (data x : Text) :
    ∀ {s t : HttpResponse} {n : ℕ} {q : Parser HttpResponse}, Quiet s x t → q.core = s → q.fault = false →
      ∃ vs : List VptCall,
        httpResponse.exec data x n q = { q with core := t, log := q.log ++ vs.map .vpt } := by
  induction x with
  | nil =>
    rintro s t n q rfl rfl -
    refine ⟨[], ?_⟩
    rw [List.map_nil, List.append_nil]
    rfl
  | cons b x ih =>
    rintro s t n q ⟨-, hvpt, hrest⟩ rfl hf
    obtain ⟨vs, hrun⟩ := vpt_calls data n _ hvpt (s := { q with core := (q.core.step b).1 }) hf
    have hstep : httpResponse.step q.core b = q.core.step b := rfl
    rw [Machine.exec, hstep, hrun]
    cases herr : httpResponse.isError (q.core.step b).1 with
    | true =>
      -- no byte follows that is read
      have hlast : x = [] := by
        cases x with
        | nil => rfl
        | cons c x => exact absurd (by simpa [httpResponse] using herr) hrest.1
      subst hlast
      obtain rfl : (q.core.step b).1 = t := hrest
      refine ⟨vs, ?_⟩
      rw [Bool.or_true, if_pos rfl]
    | false =>
      obtain ⟨vs', hnext⟩ := ih (n := n + 1)
        (q := { q with core := (q.core.step b).1, log := q.log ++ vs.map .vpt }) hrest rfl hf
      refine ⟨vs ++ vs', ?_⟩
      rw [Bool.or_false, if_neg (by rw [hf]; exact Bool.false_ne_true), hnext, List.map_append,
        List.append_assoc]

theorem quiet_receive {s t : HttpResponse} {x : Text} (h : Quiet s x t) {q : Parser HttpResponse}
    (hcore : q.core = s) (hf : q.fault = false) (hclosed : q.bodyBlock.isOpen = false)
    (hcs : s.cs ≠ .error) :
    ∃ vs : List VptCall, httpResponse.receive q x = { q with core := t, log := q.log ++ vs.map .vpt } := by
  have herr : httpResponse.isError q.core = false := by
    rw [hcore]
    simpa [httpResponse] using hcs
  have hgo : ¬ (q.fault || httpResponse.isError q.core) = true := by
    rw [hf, herr]
    exact Bool.false_ne_true
  have hpre : { q with bodyBlock := q.bodyBlock.preExec } = q := by
    rw [BlockExec.preExec, if_neg (by rw [hclosed]; exact Bool.false_ne_true)]
  have hpost : q.bodyBlock.postExec x x.length = some ([], q.bodyBlock) := by
    rw [BlockExec.postExec, if_neg (by rw [hclosed]; exact Bool.false_ne_true)]
  obtain ⟨vs, hrun⟩ := quiet_exec x x (n := 0) h hcore hf
  refine ⟨vs, ?_⟩
  rw [Machine.receive, if_neg hgo, hpre, hrun]
  simp only [hpost, Parser.perform, List.append_nil]
  split_ifs <;> rfl

theorem finish_set {q : Parser HttpResponse} {u t : HttpResponse} {d : Dest} (hcore : q.core = u)
    (hf : q.fault = false) (hclosed : q.bodyBlock.isOpen = false) (hout : q.bodyBlock.output = some d)
    (hcs : u.cs ≠ .error) (b : UInt8)
    (hstep : u.step b = (t, u.bodyBlockFinish ++ [Call.vpt (.pop .httpResponse)]))
    (hsrc : u.source = true) : (httpResponse.receive q [b]).log =
      q.log ++ [.preFinish, .finish d, .responseComplete, .vpt (.pop .httpResponse)] := by
  obtain ⟨herr, hmachine, hcalls⟩ := finish_byte hcore hcs b hstep hsrc
  simp [Machine.receive, Machine.exec, hf, herr, hmachine, hcalls, BlockExec.preExec, hclosed, Parser.call,
    Parser.perform, Call.exec, BlockExec.finishAt, BlockExec.finish, hout, BlockExec.postExec, BlockExec.init]

/-! ### What is seen grows -/

/-- The requests and what has been seen are left alone. -/
def Untouched (c d : FetchConnection) : Prop := d.requestList = c.requestList ∧ d.seen = c.seen

theorem Untouched.trans {e : FetchConnection} (h : Untouched c d) (h' : Untouched d e) : Untouched c e :=
  ⟨h'.1.trans h.1, h'.2.trans h.2⟩

theorem crash_untouched (c : FetchConnection) : Untouched c c.crash := ⟨rfl, rfl⟩

theorem parseRequest_untouched (c : FetchConnection) (content : Text) :
    Untouched c (c.parseRequest content) := by
  unfold parseRequest
  simp only
  split_ifs <;> exact ⟨rfl, rfl⟩

theorem written_untouched (c : FetchConnection) (content : Text) (nbytes later : ℤ) :
    Untouched c (c.written content nbytes later) := by
  by_cases hsize : nbytes = toInt content.length
  · rw [written_whole hsize]
    exact ⟨rfl, rfl⟩
  · rw [written_short hsize]
    exact ⟨rfl, rfl⟩

theorem send_untouched (c : FetchConnection) (request : Request) (turn : Turn) :
    Untouched c (c.send request turn) := by
  have hparse := parseRequest_untouched c request.content
  unfold send
  generalize c.parseRequest request.content = d at hparse
  refine hparse.trans ?_
  simp only
  split_ifs
  · exact ⟨rfl, rfl⟩
  · cases d.write (toInt request.content.length) turn.nbytes with
    | none => exact crash_untouched d
    | some nbytes => exact written_untouched d request.content nbytes turn.later

theorem maybeSend_untouched (c : FetchConnection) : Untouched c c.maybeSend := by
  by_cases hother : c.state = .idle → c.requestList = []
  · rw [maybeSend_other hother]
    exact ⟨rfl, rfl⟩
  · obtain ⟨hidle, hne⟩ := Classical.not_imp.1 hother
    obtain ⟨request, rest, hlist⟩ := List.exists_cons_of_ne_nil hne
    have hturn : Untouched c c.takeTurn := ⟨rfl, rfl⟩
    rw [maybeSend_idle hidle hlist]
    split_ifs
    · exact hturn.trans (send_untouched c.takeTurn request (c.turns 0))
    · exact hturn

theorem preFinish_seen (hf : c.fault = false) : c.preFinish.seen = c.seen := by
  rw [preFinish_eq hf]
  cases c.requestList <;> rfl

theorem effect_seen (c : FetchConnection) (e : Effect) : c.seen <+: (c.effect e).seen := by
  unfold effect
  cases hf : c.fault with
  | true => exact List.prefix_rfl
  | false =>
    rw [if_neg Bool.false_ne_true]
    cases e with
    | start d =>
      simp only
      split_ifs
      · exact List.prefix_rfl
      · exact List.prefix_append _ _
    | preFinish => exact (preFinish_seen hf).symm ▸ List.prefix_rfl
    | responseComplete => exact c.maybeSend_untouched.2.symm ▸ List.prefix_rfl
    | vpt v => exact List.prefix_append _ _
    | receive d data => exact List.prefix_append _ _
    | finish d => exact List.prefix_append _ _

theorem effects_seen (es : List Effect) : ∀ c : FetchConnection, c.seen <+: (es.foldl effect c).seen := by
  induction es with
  | nil => exact fun _ => List.prefix_rfl
  | cons e es ih => exact fun c => (effect_seen c e).trans (ih _)

theorem reconnect_requestList (hf : c.fault = false) (hstate : c.state = .disconnected)
    (hlist : c.requestList ≠ []) : (c.reconnect host).requestList = c.requestList := by
  have hstart := startParsers_eq (c := c.connected host) hf
  rw [reconnect_eq hstate hlist, connectComplete, (maybeSend_untouched _).1, hstart]
  rfl

/-- The end of a response through the destination of an earlier one is seen. -/
theorem finish_seen (hf : c.fault = false) (hlist : c.requestList ≠ []) (d : Dest) (es : List Effect) :
    c.seen ++ [(none, .finish d)] <+: ((.preFinish :: .finish d :: es).foldl effect c).seen := by
  obtain ⟨request, rest, hrequests⟩ := List.exists_cons_of_ne_nil hlist
  have hno : ¬ c.fault = true := by rw [hf]; exact Bool.false_ne_true
  have hfirst : c.effect .preFinish = { c.note .completed with requestList := rest, state := .idle } := by
    rw [effect, if_neg hno]
    simp only
    rw [preFinish_eq hf, hrequests]
  have hsecond : (c.effect .preFinish).effect (.finish d) = (c.effect .preFinish).see none (.finish d) := by
    refine effect_body ?_ (.inr ⟨d, rfl⟩)
    rw [hfirst]
    exact hf
  have hseen : (c.effect .preFinish).seen = c.seen := by rw [hfirst]; rfl
  rw [List.foldl_cons, List.foldl_cons, hsecond]
  have hgrow := effects_seen es ((c.effect .preFinish).see none (.finish d))
  have hsee : ((c.effect .preFinish).see none (.finish d)).seen = c.seen ++ [(none, .finish d)] := by
    rw [see, hseen]
  rwa [hsee] at hgrow

/-- The bytes of a chunked response without a chunk, up to its last line feed. -/
def chunkless : Text := (chunkedResponse []).head ++ (bytes "0" ++ renderExt none ++ [13])

theorem chunkless_quiet {s : HttpResponse} (hcs : s.cs = .main) (hsrc : s.source = true) :
    ∃ u t, Quiet s chunkless u ∧ u.cs ≠ .error ∧ u.source = true ∧
      u.step 10 = (t, u.bodyBlockFinish ++ [Call.vpt (.pop .httpResponse)]) := by
  have hwf : (chunkedResponse []).WellFormed := chunkedResponse_wellFormed fun c hc => absurd hc List.not_mem_nil
  have hhead : (chunkedResponse []).HeadReadable s.wantCookies :=
    ⟨hwf.status, List.cons_ne_nil _ _, hwf.reason, hwf.headers, chunkedHeader_names,
      fun _ => chunkedHeader_cookies⟩
  have hcoding : ∃ hd ∈ (chunkedResponse []).headers, hd.SaysChunked :=
    ⟨_, List.mem_singleton_self _, chunkedHeader_saysChunked⟩
  have hno : ∀ hd ∈ (chunkedResponse []).headers, ¬ hd.Named (bytes "Content-Length") := by
    intro hd hmem
    obtain rfl : hd = ⟨bytes "Transfer-Encoding", bytes " chunked"⟩ := List.mem_singleton.mp hmem
    decide
  obtain ⟨v, hquiet, hchunked⟩ := head_chunked hhead hcoding hno (.inl hcs)
  have hzero : bytes "0" ≠ [] ∧ ∀ b ∈ bytes "0", b = 48 := ⟨List.cons_ne_nil _ _, by simp [bytes]⟩
  have hext : ExtWellFormed none := by simp [ExtWellFormed]
  obtain ⟨u, t, hline, hucs, hstep, -⟩ := last_line hzero.1 hzero.2 hext hchunked
  have hall := hquiet.append hline
  refine ⟨u, t, hall, ?_, ?_, hstep⟩
  · rw [hucs]
    exact RspState.noConfusion
  · rw [← hall.silent.2, reach_source]
    exact hsrc

/-- A connection that has read the head of the response, and the line of the last chunk. -/
theorem chunkless_dataAvail (hf : c.fault = false) (hP : c.responseParser.fault = false)
    (hclosed : c.responseParser.bodyBlock.isOpen = false) (hcs : c.responseParser.core.cs = .main)
    (hsrc : c.responseParser.core.source = true) :
    ∃ (u t : HttpResponse) (vs : List VptCall), u.cs ≠ .error ∧ u.source = true ∧
      u.step 10 = (t, u.bodyBlockFinish ++ [Call.vpt (.pop .httpResponse)]) ∧
      c.dataAvail chunkless = { c with
        responseParser := { c.responseParser with
          core := u
          log := c.responseParser.log ++ vs.map .vpt }
        seen := c.seen ++ vs.map fun v => (none, .vpt v) } := by
  obtain ⟨u, t, hquiet, hucs, husrc, hstep⟩ := chunkless_quiet hcs hsrc
  obtain ⟨vs, hreceive⟩ := quiet_receive hquiet rfl hP hclosed (by rw [hcs]; exact RspState.noConfusion)
  refine ⟨u, t, vs, hucs, husrc, hstep, ?_⟩
  rw [dataAvail_vpt hf vs (by rw [hreceive]), hreceive]
  simp only [hP, hf]

/-- A destination that was left behind takes the end of a chunked response without a chunk. -/
theorem set_not_clean (h : c.Steady) (hf : c.fault = false) (hstate : c.state = .disconnected)
    (hlist : c.requestList ≠ []) (hup : (c.reconnect host).fault = false)
    (hclosed : c.responseParser.bodyBlock.isOpen = false) {d : Dest}
    (hout : c.responseParser.bodyBlock.output = some d) : ¬ c.StartsClean host := by
  intro hclean
  have hsame := reconnect_same host h hf hstate hlist
  have hrequests := reconnect_requestList host hf hstate hlist
  have hparser := (reconnect_good host h hf hstate hlist).response
  have hparser' := (fresh_reconnect_good host c hlist).response
  have hup' : (c.fresh.reconnect host).fault = false := hsame.fault.symm.trans hup
  have hfresh : (c.fresh.restarted host).fault = false ∧ (c.fresh.restarted host).bodyBlock = .init ∧
      (c.fresh.restarted host).core.source = true := by
    rw [fresh_eq]
    exact ⟨rfl, rfl, rfl⟩
  obtain ⟨u, t, vs, hucs, husrc, hstep, hstale⟩ := chunkless_dataAvail hup (by rw [hparser]; exact h.alive hf)
    (by rw [hparser]; exact hclosed) (by rw [hparser]; rfl) (by rw [hparser]; exact congrArg Prod.fst h.kept.1)
  obtain ⟨u', t', vs', hucs', husrc', hstep', hnew⟩ := chunkless_dataAvail hup'
    (by rw [hparser']; exact hfresh.1) (by rw [hparser', hfresh.2.1]; rfl) (by rw [hparser']; rfl)
    (by rw [hparser']; exact hfresh.2.2)
  generalize hx : (c.reconnect host).dataAvail chunkless = x at hstale
  generalize hy : (c.fresh.reconnect host).dataAvail chunkless = y at hnew
  have hxseen : x.seen = c.seen ++ y.seen := by
    have hdrop := hclean [chunkless]
    rw [List.foldl_cons, List.foldl_nil, List.foldl_cons, List.foldl_nil, hx, hy, hstale, hsame.seen,
      List.append_assoc, List.drop_left] at hdrop
    rw [hstale, ← hdrop, hsame.seen, List.append_assoc]
  -- the old destination is finished
  have hlog : (httpResponse.receive x.responseParser [10]).log =
      x.responseParser.log ++ [.preFinish, .finish d, .responseComplete, .vpt (.pop .httpResponse)] := by
    refine finish_set (u := u) (by rw [hstale]) ?_ ?_ ?_ hucs 10 hstep husrc
    · rw [hstale, hparser]
      exact h.alive hf
    · rw [hstale, hparser]
      exact hclosed
    · rw [hstale, hparser]
      exact hout
  have hseen : x.seen ++ [(none, .finish d)] <+: (x.dataAvail [10]).seen := by
    have hfinish := finish_seen (c := { x with responseParser := httpResponse.receive x.responseParser [10] })
      (by rw [hstale]; exact hup) (by rw [hstale]; exact hrequests ▸ hlist) d
      [.responseComplete, .vpt (.pop .httpResponse)]
    rw [dataAvail_eq (by rw [hstale]; exact hup) hlog]
    exact hfinish
  -- a fresh connection has no destination to finish
  have hlog' : (httpResponse.receive y.responseParser [10]).log = y.responseParser.log ++ [.preFinish] := by
    refine finish_null (u := u') ⟨by rw [hnew]; rfl, ?_, ?_, ?_⟩ hucs' 10 hstep' husrc'
    · rw [hnew, hparser']
      exact hfresh.1
    · rw [hnew, hparser']
      exact congrArg BlockExec.isOpen hfresh.2.1
    · rw [hnew, hparser']
      exact congrArg BlockExec.output hfresh.2.1
  have hseen' : (y.dataAvail [10]).seen = y.seen := by
    have hno : ({ y with responseParser := httpResponse.receive y.responseParser [10] } : FetchConnection).fault =
        false := by rw [hnew]; exact hup'
    have heffect : effect { y with responseParser := httpResponse.receive y.responseParser [10] } .preFinish =
        preFinish { y with responseParser := httpResponse.receive y.responseParser [10] } := by
      rw [effect, if_neg (by rw [hno]; exact Bool.false_ne_true)]
    rw [dataAvail_eq (by rw [hnew]; exact hup') hlog']
    simp only [List.foldl_cons, List.foldl_nil]
    rw [heffect, preFinish_seen hno]
  have hdrop := hclean [chunkless, [10]]
  rw [List.foldl_cons, List.foldl_cons, List.foldl_nil, List.foldl_cons, List.foldl_cons, List.foldl_nil,
    hx, hy, hseen'] at hdrop
  have hlength := hseen.length_le
  have hcount := congrArg List.length hdrop
  rw [List.length_drop] at hcount
  rw [List.length_append, hxseen, List.length_append, List.length_singleton] at hlength
  omega

/-- The response side does the same as on a fresh connection exactly if the connection was lost while the
body block was closed and had no destination. -/
theorem startsClean_iff (h : c.Steady) (hf : c.fault = false) (hstate : c.state = .disconnected)
    (hlist : c.requestList ≠ []) (hup : (c.reconnect host).fault = false) : c.StartsClean host ↔
      c.responseParser.bodyBlock.isOpen = false ∧ c.responseParser.bodyBlock.output = none := by
  constructor
  · intro hclean
    have hclosed : c.responseParser.bodyBlock.isOpen = false := by
      cases hopen : c.responseParser.bodyBlock.isOpen with
      | false => rfl
      | true => exact absurd hclean (open_not_clean host h hf hstate hlist hup hopen)
    refine ⟨hclosed, ?_⟩
    cases hout : c.responseParser.bodyBlock.output with
    | none => rfl
    | some d => exact absurd hclean (set_not_clean host h hf hstate hlist hup hclosed hout)
  · rintro ⟨hclosed, hout⟩
    exact startsClean_of_init host h hf hstate hlist (h.kept.2 hclosed hout)

end Reconnect

end FetchConnection

end Netp.Parse
