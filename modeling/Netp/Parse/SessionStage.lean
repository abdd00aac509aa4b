import Netp.Parse.Session

/-! # The stages of a response

`Stage` is where the tree and the body parser are within a response, as far as the calls of the
response parser show it. `Session.At` says what holds at a stage; every call that fits takes it from
one stage to the next (`At.call`).
-/

namespace Netp.Parse
open Netp.Lib
set_option autoImplicit false

inductive Stage
  /-- Before the body, with these nodes open. -/
  | tree (ts : List NodeType)
  /-- The destination of the body is set. -/
  | ready
  | body
  /-- The body parser is finished. -/
  | closed
  | done
  /-- The parser has called through a null pointer. -/
  | fault

/-- What a call on the tree does to the types of the open nodes, where it fits. -/
def VptCall.apply : VptCall → List NodeType → Option (List NodeType)
  | .push type, ts => some (type :: ts)
  | .pop type, t :: ts => if t = type then some ts else none
  | .setText _, t :: ts => some (t :: ts)
  | .consumePair, ts => some ts
  | _, _ => none

/-- The stage after a call, `none` if the call does not fit. -/
def Stage.call : Stage → Call → Option Stage
  | .fault, _ => some .fault
  | st, .preFinish => some st
  | st, .responseComplete => some st
  | .tree ts, .vpt c => (c.apply ts).map .tree
  | .tree [.httpResponse], .destination _ => some .ready
  | .tree _, .finishNext => some .fault
  | .tree _, .fault => some .fault
  | .ready, .start => some .body
  | .body, .pause => some .body
  | .body, .resume => some .body
  | .body, .finish => some .closed
  | .body, .finishNext => some .closed
  | .closed, .vpt (.pop .httpResponse) => some .done
  | _, _ => none

/-- The nodes that the end of a response leaves open. -/
def leftByResponse (text : Option Text) : List NodeType :=
  if leftOpen text = [] then [] else leftOpen text ++ [.httpResponse]

/-- The body parser is on top of the node of the response. -/
def Session.InBody (s : Session) : Prop :=
  s.body.Holds s.before s.vpt [.httpResponse] (chosen s.parser.core.contentType s.pieces)

/-- What holds at a stage. -/
def Session.At (s : Session) : Stage → Prop
  | .tree ts => Open s.before s.vpt ts ∧ s.pieces = [] ∧ s.parser.bodyBlock.output = none
  | .ready => Open s.before s.vpt [.httpResponse] ∧ s.pieces = [] ∧
      s.parser.bodyBlock.output.isSome
  | .body => s.InBody ∧ s.parser.bodyBlock.output.isSome
  | .closed => Open s.before s.vpt
        (leftOpen (jsonText s.parser.core.contentType s.pieces) ++ [.httpResponse]) ∧
      s.parser.bodyBlock.output = none
  | .done => Open s.before s.vpt (leftByResponse (jsonText s.parser.core.contentType s.pieces)) ∧
      s.parser.bodyBlock.output = none
  | .fault => s.parser.fault = true

variable {decode : Decode} {packet : Bool} {s s' : Session} {st st' : Stage} {data : Text} {p : ℕ}

/-! ## The effects -/

theorem vptCall_open {c : VptCall} {ts us : List NodeType} (h : Open s.before s.vpt ts)
    (hc : c.apply ts = some us) (hs : s.vptCall c = some s') :
    Open s'.before s'.vpt us ∧ s'.pieces = s.pieces ∧ s'.parser = s.parser := by
  cases c with
  | push type =>
    obtain ⟨v, hv, rfl⟩ := Option.map_eq_some_iff.mp hs
    cases hc
    exact ⟨h.push hv, rfl, rfl⟩
  | pop type =>
    cases ts with
    | nil => cases hc
    | cons t ts =>
      rw [VptCall.apply] at hc
      split_ifs at hc with htype
      cases hc
      subst htype
      obtain ⟨w, hw, hopen⟩ := h.pop
      rw [Session.vptCall, hw] at hs
      cases hs
      exact ⟨hopen, rfl, rfl⟩
  | setText text =>
    cases ts with
    | nil => cases hc
    | cons t ts =>
      cases hs
      cases hc
      exact ⟨h.setText text, rfl, rfl⟩
  | consumePair =>
    cases hc
    rw [Session.vptCall] at hs
    split at hs <;> cases hs <;> exact ⟨⟨h.stack, h.count⟩, rfl, rfl⟩
  | generatePair => cases ts <;> cases hc
  | setConsumer => cases ts <;> cases hc

theorem bodyReceive_inBody (h : s.InBody) (hs : s.bodyReceive packet data = some s') :
    s'.InBody ∧ s'.parser = s.parser := by
  obtain ⟨r, hr, rfl⟩ := Option.map_eq_some_iff.mp hs
  exact ⟨BodyParser.receive_holds h hr, rfl⟩

theorem bodyReceives_inBody {pieces : List Text} (h : s.InBody)
    (hs : pieces.foldlM (Session.bodyReceive packet) s = some s') :
    s'.InBody ∧ s'.parser = s.parser := by
  induction pieces generalizing s with
  | nil =>
    cases hs
    exact ⟨h, rfl⟩
  | cons data pieces ih =>
    rw [List.foldlM_cons] at hs
    obtain ⟨t, ht, hs⟩ := Option.bind_eq_some_iff.mp hs
    obtain ⟨hbody, hparser⟩ := bodyReceive_inBody h ht
    obtain ⟨hbody', hparser'⟩ := ih hbody hs
    exact ⟨hbody', hparser'.trans hparser⟩

theorem effect_receive {d : Dest} (h : s.InBody)
    (hs : s.effect decode packet (.receive d data) = some s') : s'.InBody ∧ s'.parser = s.parser :=
  bodyReceives_inBody (s := { s with encoded := s.encoded ++ [data] }) h hs

theorem effect_finish {d : Dest} (h : s.InBody) (hout : s.parser.bodyBlock.output = none)
    (hs : s.effect decode packet (.finish d) = some s') : s'.At .closed := by
  obtain ⟨r, hr, hopen⟩ := BodyParser.finish_open h
  rw [Session.effect, hr] at hs
  cases hs
  exact ⟨hopen, hout⟩

/-! ## The calls -/

/-- The session after the parser has changed its block and its log. -/
def Session.emit (s : Session) (es : List Effect) (b : BlockExec) : Session :=
  { s with parser := { s.parser with bodyBlock := b, log := s.parser.log ++ es } }

theorem perform_none :
    s.perform decode packet (s.parser.perform none) =
      some { s with parser := { s.parser with fault := true } } := by
  rw [Session.perform, Parser.perform, List.drop_length]
  rfl

theorem perform_some (es : List Effect) (b : BlockExec) :
    s.perform decode packet (s.parser.perform (some (es, b))) =
      es.foldlM (Session.effect decode packet) (s.emit es b) := by
  rw [Session.perform, Parser.perform, List.drop_left]
  rfl

theorem perform_one {e : Effect} {b : BlockExec}
    (hs : s.perform decode packet (s.parser.perform (some ([e], b))) = some s') :
    (s.emit [e] b).effect decode packet e = some s' := by
  rw [perform_some, List.foldlM_cons] at hs
  obtain ⟨t, ht, hs⟩ := Option.bind_eq_some_iff.mp hs
  cases hs
  exact ht

theorem ship_eq_some {b : BlockExec} {q : ℕ} {e : Effect} (h : b.ship data q = some e) :
    ∃ d piece, e = .receive d piece := by
  unfold BlockExec.ship at h
  split at h
  · cases h
    exact ⟨_, _, rfl⟩
  · cases h

/-- A piece of an open body is shipped, at the end of a `receive` call or of a chunk. -/
theorem ship_at {q : ℕ} {f : BlockExec → BlockExec} (hf : ∀ b, (f b).output = b.output)
    (h : s.At .body)
    (hs : s.perform decode packet (s.parser.perform
      ((s.parser.bodyBlock.ship data q).map fun e => ([e], f s.parser.bodyBlock))) = some s') :
    s'.parser.fault = true ∨ s'.At .body := by
  cases hship : s.parser.bodyBlock.ship data q with
  | none =>
    rw [hship, Option.map_none, perform_none] at hs
    cases hs
    exact .inl rfl
  | some e =>
    obtain ⟨d, piece, rfl⟩ := ship_eq_some hship
    rw [hship, Option.map_some] at hs
    obtain ⟨hbody, hparser⟩ := effect_receive (s := s.emit _ _) h.1 (perform_one hs)
    refine .inr ⟨hbody, ?_⟩
    rw [hparser]
    show (f s.parser.bodyBlock).output.isSome
    rw [hf]
    exact h.2

theorem finishAt_at {q : ℕ} (h : s.At .body)
    (hs : s.perform decode packet
      (s.parser.perform (s.parser.bodyBlock.finishAt data q)) = some s') :
    s'.parser.fault = true ∨ s'.At .closed := by
  obtain ⟨d, hd⟩ := Option.isSome_iff_exists.mp h.2
  have hfinish : s.parser.bodyBlock.finish = some ([.finish d], .init) := by
    rw [BlockExec.finish, hd]
    rfl
  rw [BlockExec.finishAt, hfinish] at hs
  split_ifs at hs with hopen
  · cases hship : s.parser.bodyBlock.ship data q with
    | none =>
      rw [hship, Option.bind_none, perform_none] at hs
      cases hs
      exact .inl rfl
    | some e =>
      obtain ⟨d', piece, rfl⟩ := ship_eq_some hship
      rw [hship, Option.bind_some, Option.map_some, perform_some, List.foldlM_cons] at hs
      obtain ⟨t, ht, hs⟩ := Option.bind_eq_some_iff.mp hs
      obtain ⟨hbody, hparser⟩ := effect_receive (s := s.emit _ _) h.1 ht
      rw [List.foldlM_cons] at hs
      obtain ⟨u, hu, hs⟩ := Option.bind_eq_some_iff.mp hs
      cases hs
      exact .inr (effect_finish hbody (by rw [hparser]; rfl) hu)
  · exact .inr (effect_finish (s := s.emit _ _) h.1 rfl (perform_one hs))

theorem emit_at (h : s.At st) (es : List Effect) : (s.emit es s.parser.bodyBlock).At st := by
  cases st <;> exact h

/-- What the JSON parser leaves open is not the node of a response. -/
theorem leftOpen_head {text : Option Text} {t : NodeType} {ts : List NodeType}
    (h : leftOpen text = t :: ts) : t ≠ .httpResponse := by
  unfold leftOpen at h
  split at h
  · cases h
  · simp only at h
    split_ifs at h
    have hmem : t ∈ (Json.init.run _).nodes ++ [NodeType.langJson] := h ▸ List.mem_cons_self
    obtain hmem | hmem := List.mem_append.mp hmem
    · exact (BodyParser.json_nodes hmem).2
    · rw [List.mem_singleton.mp hmem]
      decide

theorem pop_response (h : s.At .closed) (hs : s.vptCall (.pop .httpResponse) = some s') : s'.At .done := by
  obtain ⟨hopen, hout⟩ := h
  obtain ⟨r, hr, rfl⟩ := Option.map_eq_some_iff.mp hs
  cases hleft : leftOpen (jsonText s.parser.core.contentType s.pieces) with
  | nil =>
    rw [hleft] at hopen
    obtain ⟨w, hw, hopen'⟩ := hopen.pop
    rw [hw] at hr
    cases hr
    refine ⟨?_, hout⟩
    rw [leftByResponse, if_pos hleft]
    exact hopen'
  | cons t ts =>
    rw [hleft] at hopen
    obtain ⟨w, hw, hopen'⟩ := Open.pop_ne hopen (leftOpen_head hleft)
    rw [hw] at hr
    cases hr
    refine ⟨?_, hout⟩
    rw [leftByResponse, if_neg (by rw [hleft]; exact List.cons_ne_nil _ _), hleft]
    exact hopen'

theorem At.call {c : Call} (hfault : s.parser.fault = false) (h : s.At st) (hst : st.call c = some st')
    (hs : s.call decode packet data p c = some s') : s'.parser.fault = true ∨ s'.At st' := by
  have hgo : ¬ s.parser.fault = true := by rw [hfault]; exact Bool.false_ne_true
  rw [Session.call, Parser.call, if_neg hgo] at hs
  unfold Stage.call at hst
  split at hst
  case h_1 => exact absurd h hgo
  case h_2 =>
    cases hst
    cases perform_one hs
    exact .inr (emit_at h _)
  case h_3 =>
    cases hst
    cases perform_one hs
    exact .inr (emit_at h _)
  case h_4 ts c =>
    obtain ⟨us, hus, rfl⟩ := Option.map_eq_some_iff.mp hst
    obtain ⟨hopen, hpieces, hparser⟩ := vptCall_open (s := s.emit _ _) h.1 hus (perform_one hs)
    refine .inr ⟨hopen, hpieces.trans h.2.1, ?_⟩
    rw [hparser]
    exact h.2.2
  case h_5 d =>
    cases hst
    rw [Call.exec, perform_some] at hs
    cases hs
    exact .inr ⟨h.1, h.2.1, rfl⟩
  case h_6 ts =>
    cases hst
    have hnone : s.parser.bodyBlock.finishAt data (p + 1) = none := by
      simp [BlockExec.finishAt, BlockExec.ship, BlockExec.finish, h.2.2]
    rw [Call.exec, hnone, perform_none] at hs
    cases hs
    exact .inl rfl
  case h_7 =>
    cases hst
    rw [Call.exec, perform_none] at hs
    cases hs
    exact .inl rfl
  case h_8 =>
    cases hst
    obtain ⟨hopen, hpieces, hout⟩ := h
    obtain ⟨d, hd⟩ := Option.isSome_iff_exists.mp hout
    rw [Call.exec, BlockExec.start, hd, Option.map_some] at hs
    cases perform_one hs
    refine .inr ⟨?_, ?_⟩
    · rw [Session.InBody]
      simp only [Session.emit, hpieces]
      exact BodyParser.start_holds hopen
    · rfl
  case h_9 =>
    cases hst
    exact ship_at (f := fun b => { b with isOpen := false }) (fun _ => rfl) h hs
  case h_10 =>
    cases hst
    rw [Call.exec, perform_some] at hs
    cases hs
    exact .inr ⟨h.1, h.2⟩
  case h_11 =>
    cases hst
    exact finishAt_at h hs
  case h_12 =>
    cases hst
    exact finishAt_at h hs
  case h_13 =>
    cases hst
    exact .inr (pop_response (s := s.emit _ _) (emit_at h _) (perform_one hs))
  case h_14 => cases hst

/-- After a call through a null pointer nothing is called any more. -/
theorem call_fault {c : Call} (h : s.parser.fault = true)
    (hs : s.call decode packet data p c = some s') : s'.parser.fault = true := by
  rw [Session.call, Parser.call, if_pos h, Session.perform, List.drop_length] at hs
  cases hs
  exact h

theorem At.calls {cs : List Call} (h : s.parser.fault = true ∨ s.At st)
    (hst : cs.foldlM Stage.call st = some st')
    (hs : cs.foldlM (Session.call decode packet data p) s = some s') :
    s'.parser.fault = true ∨ s'.At st' := by
  induction cs generalizing s st with
  | nil =>
    cases hst
    cases hs
    exact h
  | cons c cs ih =>
    rw [List.foldlM_cons] at hst hs
    obtain ⟨mid, hmid, hst⟩ := Option.bind_eq_some_iff.mp hst
    obtain ⟨t, ht, hs⟩ := Option.bind_eq_some_iff.mp hs
    refine ih ?_ hst hs
    cases hfault : s.parser.fault with
    | true => exact .inl (call_fault hfault ht)
    | false =>
      obtain h | h := h
      · rw [hfault] at h
        cases h
      · exact At.call hfault h hmid ht

end Netp.Parse
