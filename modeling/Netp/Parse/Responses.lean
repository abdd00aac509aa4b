import Netp.Parse.SessionStage

/-! # Responses leave the tree as they found it, or not

The calls of a byte fit at the stages of its state (`HttpResponse.step_goes`), so that at the end of a
response the tree is known: an HTML body is cleared up to its barrier, and a JSON body leaves open what
its machine was in.
-/

namespace Netp.Parse
open Netp.Lib
set_option autoImplicit false

variable {decode : Decode} {packet : Bool} {s s' : Session} {st st' : Stage} {data : Text} {p : ℕ}

/-! ## The stages of the response parser -/

/-- The counter of the chunks after the first one. -/
def HttpResponse.Started (s : HttpResponse) : Prop := 0 < s.chunks ∧ s.chunks < 2 ^ 31

/-- The stages that a state of the parser allows. -/
def HttpResponse.Stages (s : HttpResponse) (st : Stage) : Prop :=
  match s.cs with
  | .error => True
  | .main => st = .tree [] ∨ st = .done ∨ st = .fault
  | .version | .versionEnd | .status | .statusEnd | .reason | .lineCr | .lineEnd => st = .tree []
  | .name | .colon | .value | .valueCr | .valueEnd | .headEndCr =>
      st = .tree [.httpHead, .httpResponse] ∧ s.chunks = 0
  | .consumeLength | .consumeAll => st = .tree [.httpResponse]
  | .inLength | .inAll => st = .body
  | .consumeFirstChunk => st = .tree [.httpResponse] ∧ s.Started
  | .inFirstChunk | .consumeNextChunk | .inNextChunk => st = .body ∧ s.Started
  | .chunked | .chunkedCr | .chunkSize | .chunkExt | .inChunkExt | .chunkCr =>
      st = .tree [.httpResponse] ∧ s.chunks = 0 ∨ st = .body ∧ s.Started

/-- The calls of a transition fit at the stage, and lead to one that the next state allows. -/
def Goes (st : Stage) (r : HttpResponse × List Call) : Prop :=
  ∃ st', r.2.foldlM Stage.call st = some st' ∧ r.1.Stages st'

namespace HttpResponse
variable {s : HttpResponse} {b : UInt8}

theorem goes_error : Goes st (s.goto .error, []) := ⟨st, rfl, trivial⟩

theorem fin_goes (hzero : s.chunks = 0) : Goes (.tree [.httpHead, .httpResponse]) s.fin := by
  unfold fin
  split_ifs
  · exact ⟨.done, rfl, .inr (.inl rfl)⟩
  · exact ⟨_, rfl, rfl⟩
  · exact ⟨_, rfl, .inl ⟨rfl, hzero⟩⟩
  · exact ⟨_, rfl, rfl⟩
  · exact ⟨_, rfl, .inl rfl⟩

theorem Goes.after {cs : List Call} {r : HttpResponse × List Call} {mid : Stage}
    (hcs : cs.foldlM Stage.call st = some mid) (h : Goes mid r) : Goes st (after cs r) := by
  obtain ⟨st', hst', hstages⟩ := h
  refine ⟨st', ?_, hstages⟩
  rw [Netp.Parse.after, List.foldlM_append, hcs]
  exact hst'

theorem afterLine_goes {r : HttpResponse × List Call}
    (hcs : r.2.foldlM Stage.call st = some (.tree [.httpHead, .httpResponse]))
    (hzero : r.1.chunks = 0) : Goes st (s.afterLine r b) := by
  unfold afterLine
  split_ifs
  · exact ⟨_, hcs, rfl, hzero⟩
  · exact ⟨_, hcs, rfl, hzero⟩
  · exact Goes.after hcs (fin_goes hzero)
  · exact goes_error

theorem inValue_goes (hzero : s.chunks = 0) :
    Goes (.tree [.httpHead, .httpResponse]) (s.inValue b) := by
  unfold inValue
  simp only
  split_ifs
  · exact ⟨_, rfl, rfl, hzero⟩
  · exact ⟨_, rfl, rfl, hzero⟩
  · exact ⟨_, rfl, rfl, hzero⟩

theorem finish_calls :
    (s.bodyBlockFinish ++ [Call.vpt (.pop .httpResponse)]).foldlM Stage.call .body = some .done ∧
    (s.bodyBlockFinish ++ [Call.vpt (.pop .httpResponse)]).foldlM Stage.call
      (.tree [.httpResponse]) = some .fault := by
  unfold bodyBlockFinish
  split_ifs <;> exact ⟨rfl, rfl⟩

theorem consume_goes {inside : RspState} (hin : inside = .inLength ∨ inside = .inAll) :
    Goes .body (s.consume inside) := by
  unfold consume
  simp only
  split_ifs
  · exact ⟨_, finish_calls.1, .inr (.inl rfl)⟩
  · obtain rfl | rfl := hin <;> exact ⟨_, rfl, rfl⟩

theorem consumeChunk_goes {inside : RspState} (hin : inside = .inFirstChunk ∨ inside = .inNextChunk)
    (hstarted : s.Started) : Goes .body (s.consumeChunk inside) := by
  unfold consumeChunk
  simp only
  split_ifs
  · exact ⟨_, rfl, .inr ⟨rfl, hstarted⟩⟩
  · obtain rfl | rfl := hin <;> exact ⟨_, rfl, rfl, hstarted⟩

/-- The counter of the chunks goes up, as long as it does not overflow. -/
theorem started_succ {c : ℤ} (hlo : 0 ≤ c) (hhi : c < 2 ^ 31) (hpos : ¬ toInt (c + 1) < 0) :
    0 < toInt (c + 1) ∧ toInt (c + 1) < 2 ^ 31 := by
  by_cases hmax : c + 1 < 2 ^ 31
  · rw [toInt_of_lt (by omega) hmax]
    omega
  · have hc : c = 2 ^ 31 - 1 := by omega
    rw [hc] at hpos
    exact absurd (by decide) hpos

theorem chunkHeader_goes
    (h : st = .tree [.httpResponse] ∧ s.chunks = 0 ∨ st = .body ∧ s.Started)
    (hpos : ¬ s.chunkHeader.1.chunks < 0) : Goes st s.chunkHeader := by
  unfold chunkHeader at hpos ⊢
  simp only at hpos ⊢
  split_ifs at hpos ⊢ with hlen hfirst
  · obtain ⟨rfl, -⟩ | ⟨rfl, -⟩ := h
    · exact ⟨_, finish_calls.2, .inr (.inr rfl)⟩
    · exact ⟨_, finish_calls.1, .inr (.inl rfl)⟩
  · obtain ⟨rfl, hzero⟩ | ⟨rfl, hstarted⟩ := h
    · exact ⟨_, rfl, rfl, started_succ (by omega) (by omega) hpos⟩
    · have hgt := hstarted.1
      omega
  · obtain ⟨rfl, hzero⟩ | ⟨rfl, hstarted⟩ := h
    · exact absurd hzero hfirst
    · exact ⟨_, rfl, rfl, started_succ hstarted.1.le hstarted.2 hpos⟩

/-- The leaving action of a header, where it is defined. -/
theorem header_goes (hcalm : s.headerFault (s.buf ++ [0]) = false) (hzero : s.chunks = 0) :
    Goes (.tree [.httpHead, .httpResponse]) (s.afterLine s.header b) := by
  refine afterLine_goes ?_ hzero
  simp only [header, hcalm]
  rfl

theorem fault_calls (cs : List Call) : cs.foldlM Stage.call .fault = some .fault := by
  induction cs with
  | nil => rfl
  | cons c cs ih => exact ih

/-- Where it is not defined nothing follows. -/
theorem header_faults (hfault : s.headerFault (s.buf ++ [0]) = true) {ts : List NodeType} :
    Goes (.tree ts) (s.afterLine s.header b) ∨
      (s.afterLine s.header b).2.foldlM Stage.call (.tree ts) = some .fault := by
  have hcalls : s.header.2.foldlM Stage.call (.tree ts) = some .fault := by
    simp only [header, hfault, if_true, List.cons_append, List.foldlM_cons]
    exact fault_calls _
  unfold afterLine
  split_ifs
  · exact .inr hcalls
  · exact .inr hcalls
  · right
    rw [Netp.Parse.after, List.foldlM_append, hcalls]
    exact fault_calls _
  · exact .inl goes_error

/-- The calls of a byte that reads no header, or one that can be read. -/
theorem step_calm (h : s.Stages st) (hmain : s.cs = .main → st = .tree [])
    (hpos : ¬ (s.step b).1.chunks < 0)
    (hcalm : s.cs = .valueEnd → s.headerFault (s.buf ++ [0]) = false) : Goes st (s.step b) := by
  unfold Stages at h
  cases hcs : s.cs <;> simp only [hcs] at h <;> simp only [step, hcs] at hpos ⊢
  case error => exact ⟨st, rfl, by simp only [Stages, hcs]⟩
  case main =>
    rw [hmain hcs]
    split_ifs
    · exact ⟨_, rfl, rfl⟩
    · exact goes_error
  case lineEnd =>
    rw [h]
    exact afterLine_goes rfl rfl
  case name =>
    obtain ⟨rfl, hzero⟩ := h
    split_ifs
    · exact ⟨_, rfl, rfl, hzero⟩
    · exact ⟨_, rfl, rfl, hzero⟩
    · exact goes_error
  case colon =>
    obtain ⟨rfl, hzero⟩ := h
    exact inValue_goes hzero
  case value =>
    obtain ⟨rfl, hzero⟩ := h
    exact inValue_goes hzero
  case valueCr =>
    obtain ⟨rfl, hzero⟩ := h
    split_ifs
    · exact ⟨_, rfl, rfl, hzero⟩
    · exact goes_error
  case valueEnd =>
    obtain ⟨rfl, hzero⟩ := h
    split_ifs
    · exact ⟨_, rfl, rfl, hzero⟩
    · exact header_goes (hcalm hcs) hzero
  case headEndCr =>
    obtain ⟨rfl, hzero⟩ := h
    split_ifs
    · exact fin_goes hzero
    · exact goes_error
  case consumeLength =>
    rw [h]
    exact Goes.after rfl (consume_goes (.inl rfl))
  case consumeAll =>
    rw [h]
    exact Goes.after rfl (consume_goes (.inr rfl))
  case inLength =>
    rw [h]
    exact consume_goes (.inl rfl)
  case inAll =>
    rw [h]
    exact consume_goes (.inr rfl)
  case consumeFirstChunk =>
    rw [h.1]
    exact Goes.after rfl (consumeChunk_goes (.inl rfl) h.2)
  case inFirstChunk =>
    rw [h.1]
    exact consumeChunk_goes (.inl rfl) h.2
  case consumeNextChunk =>
    rw [h.1]
    exact Goes.after rfl (consumeChunk_goes (.inr rfl) h.2)
  case inNextChunk =>
    rw [h.1]
    exact consumeChunk_goes (.inr rfl) h.2
  case chunked =>
    split_ifs
    · exact ⟨_, rfl, h⟩
    · exact ⟨_, rfl, h⟩
    · exact ⟨_, rfl, h⟩
    · exact goes_error
  case chunkedCr =>
    split_ifs
    · exact ⟨_, rfl, h⟩
    · exact goes_error
  case chunkSize =>
    split_ifs at hpos ⊢
    · exact ⟨_, rfl, h⟩
    · exact ⟨_, rfl, h⟩
    · exact ⟨_, rfl, h⟩
    · exact chunkHeader_goes h hpos
    · exact goes_error
  case chunkExt =>
    split_ifs
    · exact ⟨_, rfl, h⟩
    · exact goes_error
  case inChunkExt =>
    split_ifs at hpos ⊢
    · exact ⟨_, rfl, h⟩
    · exact ⟨_, rfl, h⟩
    · exact chunkHeader_goes h hpos
  case chunkCr =>
    split_ifs at hpos ⊢
    · exact chunkHeader_goes h hpos
    · exact goes_error
  -- the status line
  all_goals
    rw [h]
    split_ifs <;> first | exact ⟨_, rfl, rfl⟩ | exact goes_error

theorem step_goes (h : s.Stages st) (hmain : s.cs = .main → st = .tree [])
    (hpos : ¬ (s.step b).1.chunks < 0) :
    Goes st (s.step b) ∨ (s.step b).2.foldlM Stage.call st = some .fault := by
  by_cases hcs : s.cs = .valueEnd
  · cases hfault : s.headerFault (s.buf ++ [0]) with
    | false => exact .inl (step_calm h hmain hpos fun _ => hfault)
    | true =>
      rw [Stages, hcs] at h
      obtain ⟨rfl, hzero⟩ := h
      simp only [step, hcs]
      split_ifs
      · exact .inl ⟨_, rfl, rfl, hzero⟩
      · exact header_faults hfault
  · exact .inl (step_calm h hmain hpos fun hvalue => absurd hvalue hcs)

theorem step_contentType (h : s.Stages .body) (b : UInt8) :
    (s.step b).1.contentType = s.contentType := by
  unfold Stages at h
  have hheader : s.chunkHeader.1.contentType = s.contentType := by
    unfold chunkHeader
    simp only
    split_ifs <;> rfl
  have hconsume (inside : RspState) : (s.consume inside).1.contentType = s.contentType := by
    unfold consume
    simp only
    split_ifs <;> rfl
  have hchunk (inside : RspState) : (s.consumeChunk inside).1.contentType = s.contentType := by
    unfold consumeChunk
    simp only
    split_ifs <;> rfl
  cases hcs : s.cs <;> simp only [hcs, reduceCtorEq, or_self, false_and] at h <;> simp only [step, hcs]
  case inLength => exact hconsume _
  case inAll => exact hconsume _
  case inFirstChunk => exact hchunk _
  case consumeNextChunk => exact hchunk _
  case inNextChunk => exact hchunk _
  all_goals split_ifs <;> first | rfl | exact hheader

end HttpResponse

/-! ## Runs -/

/-- The text that the JSON parser is given, if it is given any, leaves the machine outside of every
number, string, array and object. -/
def Completed.Outside (r : Completed) : Prop :=
  ∀ text, jsonText r.contentType r.pieces = some text → (Json.init.run text).outside = true

/-- What holds between two bytes. -/
structure Session.Inv (s : Session) : Prop where
  stage : s.parser.fault = true ∨ ∃ st, s.parser.core.Stages st ∧ s.At st
  responses : ∀ r ∈ s.responses, r.before.SameNode r.after ↔ r.Outside

theorem leftByResponse_eq_nil_iff (text : Option Text) :
    leftByResponse text = [] ↔ ∀ t, text = some t → (Json.init.run t).outside = true := by
  have hleft : leftByResponse text = [] ↔ leftOpen text = [] := by
    unfold leftByResponse
    split_ifs with hnil
    · exact iff_of_true rfl hnil
    · exact iff_of_false (List.append_ne_nil_of_right_ne_nil _ (List.cons_ne_nil _ _)) hnil
  rw [hleft]
  cases text with
  | none => exact iff_of_true rfl fun t ht => by cases ht
  | some t =>
    rw [leftOpen]
    split_ifs with hout
    · refine iff_of_true rfl ?_
      intro u hu
      cases hu
      exact hout
    · refine iff_of_false (List.append_ne_nil_of_right_ne_nil _ (List.cons_ne_nil _ _)) ?_
      intro hall
      exact hout (hall t rfl)

theorem foldlM_keeps {σ α γ : Type} {f : σ → α → Option σ} (g : σ → γ)
    (hf : ∀ s a s', f s a = some s' → g s' = g s) {l : List α} {s s' : σ}
    (hs : l.foldlM f s = some s') : g s' = g s := by
  have hstep : ∀ t a t', g t = g s → f t a = some t' → g t' = g s := by
    intro t a t' ht hf'
    exact (hf t a t' hf').trans ht
  exact foldlM_invariant hstep rfl hs

theorem effect_frame {e : Effect} (hs : s.effect decode packet e = some s') :
    (s'.parser, s'.responses) = (s.parser, s.responses) := by
  cases e with
  | vpt c =>
    cases c with
    | push type =>
      obtain ⟨v, -, rfl⟩ := Option.map_eq_some_iff.mp hs
      rfl
    | pop type =>
      obtain ⟨v, -, rfl⟩ := Option.map_eq_some_iff.mp hs
      rfl
    | consumePair =>
      rw [Session.effect, Session.vptCall] at hs
      split at hs <;> cases hs <;> rfl
    | setText text => cases hs; rfl
    | generatePair => cases hs; rfl
    | setConsumer => cases hs; rfl
  | receive d data =>
    refine foldlM_keeps (s := { s with encoded := s.encoded ++ [data] })
      (fun s : Session => (s.parser, s.responses)) ?_ hs
    intro t piece t' ht
    obtain ⟨r, -, rfl⟩ := Option.map_eq_some_iff.mp ht
    rfl
  | finish d =>
    obtain ⟨r, -, rfl⟩ := Option.map_eq_some_iff.mp hs
    rfl
  | start d => cases hs; rfl
  | preFinish => cases hs; rfl
  | responseComplete => cases hs; rfl

theorem perform_frame {parser : Parser HttpResponse}
    (hs : s.perform decode packet parser = some s') :
    (s'.parser, s'.responses) = (parser, s.responses) :=
  foldlM_keeps (fun s : Session => (s.parser, s.responses)) (fun _ _ _ => effect_frame) hs

theorem calls_refines {cs : List Call} (hs : cs.foldlM (Session.call decode packet data p) s = some s') :
    s'.parser = cs.foldl (Parser.call data p) s.parser := by
  induction cs generalizing s with
  | nil =>
    cases hs
    rfl
  | cons c cs ih =>
    rw [List.foldlM_cons] at hs
    obtain ⟨t, ht, hs⟩ := Option.bind_eq_some_iff.mp hs
    rw [ih hs, (Prod.mk.inj (perform_frame ht)).1]
    rfl

theorem parser_complete (s : Session) : s.complete.parser = s.parser := by
  rw [Session.complete]
  split_ifs <;> rfl

theorem exec_refines {rest : Text} (hs : s.exec decode packet data rest p = some s') :
    s'.parser = httpResponse.exec data rest p s.parser := by
  induction rest generalizing s p with
  | nil =>
    cases hs
    rfl
  | cons b rest ih =>
    obtain ⟨t, ht, hs⟩ := Option.bind_eq_some_iff.mp hs
    have hparser : t.parser = (httpResponse.step s.parser.core b).2.foldl (Parser.call data p)
        { s.parser with core := (httpResponse.step s.parser.core b).1 } := by
      rw [Session.byte] at ht
      simp only at ht
      split_ifs at ht
      obtain ⟨u, hu, rfl⟩ := Option.map_eq_some_iff.mp ht
      rw [parser_complete]
      exact calls_refines hu
    rw [Machine.exec]
    simp only [← hparser]
    split_ifs at hs ⊢
    · cases hs
      rfl
    · exact ih hs

theorem receive_refines (hs : s.receive decode packet data = some s') :
    s'.parser = httpResponse.receive s.parser data := by
  rw [Session.receive] at hs
  rw [Machine.receive]
  split_ifs at hs ⊢
  · cases hs
    rfl
  · obtain ⟨t, ht, hs⟩ := Option.bind_eq_some_iff.mp hs
    have hparser := exec_refines ht
    simp only [← hparser]
    split_ifs at hs ⊢
    · cases hs
      rfl
    · exact (Prod.mk.inj (perform_frame hs)).1

theorem call_core (parser : Parser HttpResponse) (c : Call) :
    (parser.call data p c).core = parser.core := by
  rw [Parser.call]
  split_ifs
  · rfl
  · cases c.exec data p parser.bodyBlock <;> rfl

theorem calls_frame {cs : List Call} (hs : cs.foldlM (Session.call decode packet data p) s = some s') :
    (s'.parser.core, s'.responses) = (s.parser.core, s.responses) := by
  refine foldlM_keeps (fun s : Session => (s.parser.core, s.responses)) ?_ hs
  intro t c t' ht
  obtain ⟨hparser, hresponses⟩ := Prod.mk.inj (perform_frame ht)
  rw [hparser, hresponses, call_core]

theorem begin_at (h : s.Inv) :
    s.parser.fault = true ∨ ∃ st, s.parser.core.Stages st ∧
      (s.parser.core.cs = .main → st = .tree []) ∧ s.begin.At st := by
  obtain h | ⟨st, hstages, hat⟩ := h.stage
  · exact .inl h
  · rw [Session.begin]
    split_ifs with hmain
    · have hstages' := hstages
      rw [HttpResponse.Stages, hmain] at hstages'
      simp only at hstages'
      have htree : s.parser.core.Stages (.tree []) := by
        rw [HttpResponse.Stages, hmain]
        exact .inl rfl
      obtain rfl | rfl | rfl := hstages'
      · exact .inr ⟨_, htree, fun _ => rfl, .refl _, rfl, hat.2.2⟩
      · exact .inr ⟨_, htree, fun _ => rfl, .refl _, rfl, hat.2⟩
      · exact .inl hat
    · exact .inr ⟨st, hstages, fun hcontra => absurd hcontra hmain, hat⟩

/-- The end of a response: the tree is as it was before, or the JSON parser has left nodes open. -/
theorem complete_inv (h : s.parser.fault = true ∨ ∃ st, s.parser.core.Stages st ∧ s.At st)
    (hresponses : ∀ r ∈ s.responses, r.before.SameNode r.after ↔ r.Outside) : s.complete.Inv := by
  rw [Session.complete]
  split_ifs with hdone
  · refine ⟨?_, ?_⟩
    · obtain h | ⟨st, hstages, hat⟩ := h
      · exact .inl h
      · exact .inr ⟨st, hstages, by cases st <;> exact hat⟩
    · intro r hr
      obtain hr | hr := List.mem_append.mp hr
      · exact hresponses r hr
      · rw [List.mem_singleton.mp hr]
        obtain ⟨hmain, hfault⟩ := hdone
        obtain h | ⟨st, hstages, hat⟩ := h
        · rw [hfault] at h
          cases h
        · rw [HttpResponse.Stages, hmain] at hstages
          simp only at hstages
          obtain rfl | rfl | rfl := hstages
          · refine iff_of_true (hat.1.sameNode_iff.mpr rfl) ?_
            intro text htext
            simp only [hat.2.1] at htext
            cases htext
          · exact hat.1.sameNode_iff.trans (leftByResponse_eq_nil_iff _)
          · have hcontra : s.parser.fault = true := hat
            rw [hfault] at hcontra
            cases hcontra
  · exact ⟨h, hresponses⟩

theorem HttpResponse.Stages.tree_or_body {s : HttpResponse} (h : s.Stages st) (herror : s.cs ≠ .error)
    (hmain : s.cs = .main → st = .tree []) : (∃ ts, st = .tree ts) ∨ st = .body := by
  unfold HttpResponse.Stages at h
  cases hcs : s.cs <;> simp only [hcs] at h
  case error => exact absurd hcs herror
  case main => exact .inl ⟨_, hmain hcs⟩
  all_goals first
    | exact .inl ⟨_, h⟩
    | exact .inl ⟨_, h.1⟩
    | exact .inr h
    | exact .inr h.1
    | exact h.elim (fun h => .inl ⟨_, h.1⟩) fun h => .inr h.1

theorem moved_at {b : UInt8} (hstages : s.parser.core.Stages st) (herror : s.parser.core.cs ≠ .error)
    (hmain : s.parser.core.cs = .main → st = .tree []) (hat : s.begin.At st) :
    Session.At { s.begin with
      parser := { s.parser with core := (httpResponse.step s.parser.core b).1 } } st := by
  have hparser : s.begin.parser = s.parser := by
    rw [Session.begin]
    split_ifs <;> rfl
  obtain ⟨ts, rfl⟩ | rfl := hstages.tree_or_body herror hmain
  · refine ⟨hat.1, hat.2.1, ?_⟩
    rw [← hparser]
    exact hat.2.2
  · obtain ⟨hbody, hout⟩ := hat
    rw [hparser] at hout
    refine ⟨?_, hout⟩
    rw [Session.InBody, hparser] at hbody
    rw [Session.InBody]
    simp only [httpResponse, HttpResponse.step_contentType hstages]
    exact hbody

/-- The step lemma: a byte keeps the invariant. -/
theorem byte_inv {b : UInt8} (h : s.Inv)
    (hgoes : (s.parser.fault || httpResponse.isError s.parser.core) = false)
    (hs : s.byte decode packet data p b = some s') : s'.Inv := by
  obtain ⟨hfault, herror⟩ := Bool.or_eq_false_iff.mp hgoes
  have hcs : s.parser.core.cs ≠ .error := of_decide_eq_false herror
  rw [Session.byte] at hs
  simp only at hs
  split_ifs at hs with hpos
  obtain ⟨t, ht, rfl⟩ := Option.map_eq_some_iff.mp hs
  obtain ⟨hcore, hresponses⟩ := Prod.mk.inj (calls_frame ht)
  refine complete_inv ?_ ?_
  · obtain hcontra | ⟨st, hstages, hmain, hat⟩ := begin_at h
    · rw [hfault] at hcontra
      cases hcontra
    · have hmoved := moved_at (b := b) hstages hcs hmain hat
      obtain ⟨st', hcalls, hstages'⟩ | hcalls := HttpResponse.step_goes hstages hmain hpos
      · obtain hnull | hat' := At.calls (.inr hmoved) hcalls ht
        · exact .inl hnull
        · refine .inr ⟨st', ?_, hat'⟩
          rw [hcore]
          exact hstages'
      · exact .inl ((At.calls (.inr hmoved) hcalls ht).elim id id)
  · have hbegin : s.begin.responses = s.responses := by
      rw [Session.begin]
      split_ifs <;> rfl
    rw [hresponses, hbegin]
    exact h.responses

theorem exec_inv {rest : Text} (h : s.Inv)
    (hgoes : (s.parser.fault || httpResponse.isError s.parser.core) = false)
    (hs : s.exec decode packet data rest p = some s') : s'.Inv := by
  induction rest generalizing s p with
  | nil =>
    cases hs
    exact h
  | cons b rest ih =>
    obtain ⟨t, ht, hs⟩ := Option.bind_eq_some_iff.mp hs
    have hinv := byte_inv h hgoes ht
    split_ifs at hs with hstop
    · cases hs
      exact hinv
    · exact ih hinv (Bool.not_eq_true _ ▸ hstop) hs

theorem body_of_output (h : s.Inv)
    (hgoes : (s.parser.fault || httpResponse.isError s.parser.core) = false)
    (hout : s.parser.bodyBlock.output ≠ none) : s.parser.core.Stages .body ∧ s.At .body := by
  obtain ⟨hfault, herror⟩ := Bool.or_eq_false_iff.mp hgoes
  have hcs : s.parser.core.cs ≠ .error := of_decide_eq_false herror
  obtain hcontra | ⟨st, hstages, hat⟩ := h.stage
  · rw [hfault] at hcontra
    cases hcontra
  · by_cases hmain : s.parser.core.cs = .main
    · rw [HttpResponse.Stages, hmain] at hstages
      simp only at hstages
      obtain rfl | rfl | rfl := hstages
      · exact absurd hat.2.2 hout
      · exact absurd hat.2 hout
      · have hcontra : s.parser.fault = true := hat
        rw [hfault] at hcontra
        cases hcontra
    · obtain ⟨ts, rfl⟩ | rfl := hstages.tree_or_body hcs fun hcontra => absurd hcontra hmain
      · exact absurd hat.2.2 hout
      · exact ⟨hstages, hat⟩

theorem postExec_inv (h : s.Inv) (hgoes : (s.parser.fault || httpResponse.isError s.parser.core) = false)
    (hs : s.perform decode packet
      (s.parser.perform (s.parser.bodyBlock.postExec data p)) = some s') : s'.Inv := by
  obtain ⟨hparser, hresponses⟩ := Prod.mk.inj (perform_frame hs)
  have hcore : s'.parser.core = s.parser.core := by
    rw [hparser]
    cases s.parser.bodyBlock.postExec data p <;> rfl
  refine ⟨?_, hresponses ▸ h.responses⟩
  rw [BlockExec.postExec] at hs
  split_ifs at hs with hopen
  · cases hout : s.parser.bodyBlock.output with
    | none =>
      rw [BlockExec.ship, hout, Option.map_none, perform_none] at hs
      cases hs
      exact .inl rfl
    | some d =>
      obtain ⟨hstages, hat⟩ := body_of_output h hgoes (by rw [hout]; exact Option.some_ne_none d)
      obtain hnull | hat' := ship_at (f := fun b => { b with fromPos := none }) (fun _ => rfl) hat hs
      · exact .inl hnull
      · exact .inr ⟨_, by rw [hcore]; exact hstages, hat'⟩
  · rw [perform_some] at hs
    cases hs
    obtain hnull | ⟨st, hstages, hat⟩ := h.stage
    · exact .inl hnull
    · exact .inr ⟨st, hstages, emit_at hat []⟩

theorem receive_inv (h : s.Inv) (hs : s.receive decode packet data = some s') : s'.Inv := by
  rw [Session.receive] at hs
  split_ifs at hs with hstop
  · cases hs
    exact h
  · obtain ⟨t, ht, hs⟩ := Option.bind_eq_some_iff.mp hs
    have hpre : Session.Inv
        { s with parser := { s.parser with bodyBlock := s.parser.bodyBlock.preExec } } := by
      have hout : s.parser.bodyBlock.preExec.output = s.parser.bodyBlock.output := by
        rw [BlockExec.preExec]
        split_ifs <;> rfl
      refine ⟨?_, h.responses⟩
      obtain hnull | ⟨st, hstages, hat⟩ := h.stage
      · exact .inl hnull
      · refine .inr ⟨st, hstages, ?_⟩
        cases st <;> simpa only [Session.At, Session.InBody, hout] using hat
    have hinv := exec_inv hpre (Bool.not_eq_true _ ▸ hstop) ht
    split_ifs at hs with hstop'
    · cases hs
      exact hinv
    · exact postExec_inv hinv (Bool.not_eq_true _ ▸ hstop') hs

/-- The run lemma. -/
theorem session_inv {core : HttpResponse} {v : VPT} (h : Reach (session decode packet core v) s) :
    s.Inv := by
  have hinit : (Session.new core v).Inv := by
    refine ⟨.inr ⟨.tree [], .inl rfl, .refl v, rfl, rfl⟩, ?_⟩
    intro r hr
    exact absurd hr List.not_mem_nil
  refine ReachIf.invariant hinit ?_ h
  intro t a t' hinv _ ht
  cases a with
  | receive data => exact receive_inv hinv ht
  | pair pat =>
    cases ht
    refine ⟨?_, hinv.responses⟩
    obtain hnull | ⟨st, hstages, hat⟩ := hinv.stage
    · exact .inl hnull
    · exact .inr ⟨st, hstages, by cases st <;> exact hat⟩

theorem session_refines {core : HttpResponse} {v : VPT} (h : Reach (session decode packet core v) s) :
    ∃ ds : List Text, s.parser = ds.foldl httpResponse.receive (startResponse (.new core)) := by
  have hinit : ∃ ds : List Text, (Session.new core v).parser =
      ds.foldl httpResponse.receive (startResponse (.new core)) := ⟨[], rfl⟩
  refine ReachIf.invariant (I := fun s : Session => ∃ ds : List Text,
    s.parser = ds.foldl httpResponse.receive (startResponse (.new core))) hinit ?_ h
  rintro t a t' ⟨ds, hds⟩ - ht
  cases a with
  | receive data => exact ⟨ds ++ [data], by rw [receive_refines ht, hds, List.foldl_concat]⟩
  | pair pat =>
    cases ht
    exact ⟨ds, hds⟩

/-- A response leaves the tree at the node where it found it exactly if its body was not given to the
JSON parser, or did not end there inside of a number, a string, an array or an object. -/
theorem responses_balanced {core : HttpResponse} {v : VPT}
    (h : Reach (session decode packet core v) s) :
    ∀ r ∈ s.responses, r.before.SameNode r.after ↔
      ∀ text, jsonText r.contentType r.pieces = some text → (Json.init.run text).outside = true :=
  (session_inv h).responses

/-- A parser of its own, after `start`, without patterns. -/
def plainSession : System Session Input :=
  session (fun _ _ _ => []) true (.init false false false)
    (((initVpt []).push .langHttp).getD (initVpt []))

/-- A response with a body of the length given in the text. -/
def response (contentType length body : String) : Text :=
  bytes "HTTP/1.1 200 OK\r\nContent-Type: " ++ bytes contentType ++ bytes "\r\nContent-Length: " ++
    bytes length ++ bytes "\r\n\r\n" ++ bytes body

/-- Tags that are closed in the wrong order or not at all, and then a text that is complete. -/
def goodStream : List Input :=
  [.receive (response "text/html" "20" "<html><b><p"), .receive (bytes "></b></b>"),
    .receive (response "application/json" "5" "[1,2]")]

theorem responses_balanced_good :
    ∃ s, Reach plainSession s ∧ s.responses.length = 2 ∧
      ∀ r ∈ s.responses, r.before.SameNode r.after := by
  have hrun : (run plainSession plainSession.init goodStream).map (fun s => s.responses.map fun r =>
      (jsonText r.contentType r.pieces).map fun text => (Json.init.run text).outside) =
        some [none, some true] := by decide +kernel
  obtain ⟨s, hs, htexts⟩ := Option.map_eq_some_iff.mp hrun
  have hreach : Reach plainSession s := Reach.run .init hs
  refine ⟨s, hreach, ?_, ?_⟩
  · have hlen := congrArg List.length htexts
    rw [List.length_map] at hlen
    exact hlen
  · intro r hr
    refine (responses_balanced hreach r hr).mpr ?_
    intro text htext
    have hmem := List.mem_map_of_mem (f := fun r : Completed =>
      (jsonText r.contentType r.pieces).map fun text => (Json.init.run text).outside) hr
    rw [htexts] at hmem
    simpa [htext] using hmem

/-- A body that is cut off inside of an object. -/
theorem response_unbalanced :
    ¬ ∀ (decode : Decode) (packet : Bool) (core : HttpResponse) (v : VPT) (s : Session),
      Reach (session decode packet core v) s → ∀ r ∈ s.responses, r.before.SameNode r.after := by
  intro hclaim
  have hrun : (run plainSession plainSession.init [.receive (response "application/json" "1" "\x7b")]).map
      (fun s => s.responses.map fun r => (r.before.vs.length, r.after.vs.length)) = some [(1, 4)] := by
    decide +kernel
  obtain ⟨s, hs, hdepths⟩ := Option.map_eq_some_iff.mp hrun
  cases hr : s.responses with
  | nil =>
    rw [hr] at hdepths
    cases hdepths
  | cons r rs =>
    have hsame := hclaim _ _ _ _ s (Reach.run .init hs) r (hr ▸ List.mem_cons_self)
    rw [hr] at hdepths
    obtain ⟨hdepth, -⟩ := List.cons.inj hdepths
    obtain ⟨hbefore, hafter⟩ := Prod.mk.inj hdepth
    rw [hsame.below] at hafter
    omega

end Netp.Parse
