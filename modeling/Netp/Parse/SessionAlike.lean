import Netp.Parse.GrownAlike
import Netp.Parse.Reconnect
import Netp.Parse.Responses

/-! # Two streams of responses that go on alike

Of two sessions that are at the same stage of a response, with trees that have grown alike, each makes the
same calls as the other. What their machines differ in is erased by `live`; the type of the content is
read while there is a body, and the counter of the chunks after each byte.
-/

namespace Netp.Parse
open Netp.Lib
set_option autoImplicit false

/-! ## The machine -/

namespace HttpResponse
variable {s t : HttpResponse}

theorem fin_late (s : HttpResponse) : s.fin.1.contentType = s.contentType ∧ s.fin.1.chunks = s.chunks := by
  unfold fin
  split_ifs <;> exact ⟨rfl, rfl⟩

/-- Before the headers nothing is called and the counter stays. Then the machine reads what is live. -/
theorem step_late (s : HttpResponse) (b : UInt8) :
    (s.step b).2 = [] ∧ (s.step b).1.chunks = s.chunks ∧ (s.live.step b).1.chunks = s.live.chunks ∨
      (s.live.step b).1.contentType = (s.step b).1.contentType ∧
        (s.live.step b).1.chunks = (s.step b).1.chunks := by
  rw [live_eq s]
  cases hcs : s.cs <;>
    simp only [RspState.inStatusLine, RspState.inName, RspState.inHeaderValue, RspState.inChunk, if_true, Bool.false_eq_true, if_false]
  case error => exact .inl (by simp only [step, hcs, and_self])
  case main | version | versionEnd | status | statusEnd | reason | lineCr =>
    left
    simp only [step, hcs]
    split_ifs <;> exact ⟨rfl, rfl, rfl⟩
  case lineEnd =>
    simp only [step, hcs, afterLine]
    split_ifs <;> first | exact .inr ⟨rfl, rfl⟩ | exact .inl ⟨rfl, rfl, rfl⟩
  case name | valueCr =>
    right
    simp only [step, hcs, erase]
    split_ifs <;> exact ⟨rfl, rfl⟩
  case colon | value =>
    right
    simp only [step, hcs, erase, inValue]
    split_ifs <;> exact ⟨rfl, rfl⟩
  case valueEnd =>
    right
    simp only [step, hcs, erase, afterLine]
    split_ifs
    · exact ⟨rfl, rfl⟩
    · exact ⟨rfl, rfl⟩
    · exact ⟨rfl, rfl⟩
    · exact ⟨(fin_late _).1.trans (fin_late s.header.1).1.symm, (fin_late _).2.trans (fin_late s.header.1).2.symm⟩
    · exact ⟨rfl, rfl⟩
  case headEndCr =>
    right
    simp only [step, hcs, erase, fin]
    split_ifs <;> exact ⟨rfl, rfl⟩
  case consumeLength | inLength | consumeAll | inAll =>
    right
    simp only [step, hcs, erase, consume]
    split_ifs <;> exact ⟨rfl, rfl⟩
  case consumeFirstChunk | inFirstChunk | consumeNextChunk | inNextChunk =>
    right
    simp only [step, hcs, erase, consumeChunk]
    split_ifs <;> exact ⟨rfl, rfl⟩
  all_goals
    right
    simp only [step, hcs, erase, chunkHeader]
    split_ifs <;> exact ⟨rfl, rfl⟩

theorem contentType_alike (h : s.live = t.live) (b : UInt8) :
    (s.step b).2 = [] ∨ (s.step b).1.contentType = (t.step b).1.contentType := by
  have hcalls : (s.step b).2 = (t.step b).2 := live_bisim.calls b h
  obtain hs | hs := s.step_late b
  · exact .inl hs.1
  · obtain ht | ht := t.step_late b
    · exact .inl (hcalls.trans ht.1)
    · refine .inr ?_
      rw [← hs.1, ← ht.1, h]

theorem chunks_alike (h : s.live = t.live) (hs : 0 ≤ s.chunks) (ht : 0 ≤ t.chunks) (b : UInt8) :
    (s.step b).1.chunks < 0 ↔ (t.step b).1.chunks < 0 := by
  have hlive (u : HttpResponse) (hu : 0 ≤ u.chunks) : 0 ≤ u.live.chunks := by
    unfold live
    simp only
    split_ifs
    · exact le_refl 0
    · exact hu
  have hfirst (u : HttpResponse) (hu : 0 ≤ u.chunks) :
      (u.step b).1.chunks < 0 ↔ (u.live.step b).1.chunks < 0 := by
    obtain ⟨-, hsame, hzero⟩ | ⟨-, heq⟩ := u.step_late b
    · have := hlive u hu
      rw [hsame, hzero]
      omega
    · rw [heq]
  rw [hfirst s hs, hfirst t ht, h]

theorem Stages.late (hs : s.Stages .body) (hcs : s.cs ≠ .error) : s.cs.inStatusLine = false := by
  unfold Stages at hs
  cases hstate : s.cs <;> simp only [hstate] at hs
  case error => exact absurd hstate hcs
  case main => simp at hs
  all_goals first | rfl | cases hs

/-- After the status line the type of the content is live. -/
theorem live_contentType (h : s.live = t.live) (hlate : s.cs.inStatusLine = false) :
    s.contentType = t.contentType := by
  have hcs : s.live.cs = t.live.cs := congrArg HttpResponse.cs h
  rw [live_cs, live_cs] at hcs
  have htype : s.live.contentType = t.live.contentType := congrArg HttpResponse.contentType h
  simpa only [live, ← hcs, hlate, Bool.false_eq_true, if_false] using htype

/-- No call pops `LangHttp`. -/
def Above (cs : List Call) : Prop := ∀ c ∈ cs, c ≠ .vpt (.pop .langHttp)

theorem above_append {cs ds : List Call} (hcs : Above cs) (hds : Above ds) : Above (cs ++ ds) := by
  intro c hc
  exact (List.mem_append.mp hc).elim (hcs c) (hds c)

theorem header_above (s : HttpResponse) : Above s.header.2 := by
  refine above_append ?_ (by simp [Above, headerCalls])
  split_ifs <;> simp [Above]

theorem finish_above (s : HttpResponse) : Above (s.bodyBlockFinish ++ [Call.vpt (.pop .httpResponse)]) := by
  unfold bodyBlockFinish
  split_ifs <;> simp [Above]

theorem fin_above (s : HttpResponse) : Above s.fin.2 := by
  unfold fin
  split_ifs <;> simp [Above]

theorem afterLine_above (s : HttpResponse) {r : HttpResponse × List Call} (hr : Above r.2) (b : UInt8) :
    Above (s.afterLine r b).2 := by
  unfold afterLine
  split_ifs
  · exact hr
  · exact hr
  · exact above_append hr (fin_above r.1)
  · simp [Above]

theorem consume_above (s : HttpResponse) (inside : RspState) : Above (s.consume inside).2 := by
  unfold consume
  simp only
  split_ifs
  · exact finish_above _
  · simp [Above]

theorem consumeChunk_above (s : HttpResponse) (inside : RspState) : Above (s.consumeChunk inside).2 := by
  unfold consumeChunk
  simp only
  split_ifs <;> simp [Above]

theorem chunkHeader_above (s : HttpResponse) : Above s.chunkHeader.2 := by
  unfold chunkHeader
  simp only
  split_ifs
  · exact finish_above _
  · simp [Above]
  · simp [Above]

theorem step_above (s : HttpResponse) (b : UInt8) : Above (s.step b).2 := by
  cases hcs : s.cs <;> simp only [step, hcs]
  case error => simp [Above]
  case lineEnd => exact s.afterLine_above (by simp [Above, uri]) b
  case colon | value =>
    unfold inValue
    simp only
    split_ifs <;> simp [Above]
  case valueEnd =>
    split_ifs
    · simp [Above]
    · exact s.afterLine_above s.header_above b
  case headEndCr =>
    split_ifs
    · exact s.fin_above
    · simp [Above]
  case inLength | inAll => exact s.consume_above _
  case inFirstChunk | inNextChunk => exact s.consumeChunk_above _
  case consumeLength | consumeAll => exact above_append (by simp [Above]) (s.consume_above _)
  case consumeFirstChunk | consumeNextChunk => exact above_append (by simp [Above]) (s.consumeChunk_above _)
  all_goals split_ifs <;> first | exact s.chunkHeader_above | simp [Above]

end HttpResponse

/-! ## The sessions -/

variable {decode : Decode} {packet : Bool} {v₀ w₀ : VPT} {s t s' : Session} {st st' : Stage} {data : Text} {p : ℕ}

namespace Session

/-- Both have called through a null pointer. -/
structure Stopped (v₀ w₀ : VPT) (s t : Session) : Prop where
  fault : s.parser.fault = true ∧ t.parser.fault = true
  tree : ∃ inside, GrownAlike v₀ w₀ inside s.vpt t.vpt

/-- What holds of two sessions at a stage. A body parser is read only while there is a body. -/
def AtBoth (v₀ w₀ : VPT) (s t : Session) : Stage → Prop
  | .tree _ | .closed | .done => s.parser.bodyBlock.output = none ∧ GrownAlike v₀ w₀ false s.vpt t.vpt
  | .ready => s.parser.bodyBlock.output.isSome ∧ GrownAlike v₀ w₀ false s.vpt t.vpt
  | .body => s.parser.bodyBlock.output.isSome ∧ s.encoded = t.encoded ∧
      BodyParser.Same v₀ w₀ (s.body, s.vpt) (t.body, t.vpt)
  | .fault => False

structure Level (v₀ w₀ : VPT) (st : Stage) (s t : Session) : Prop where
  block : s.parser.bodyBlock = t.parser.bodyBlock
  fault : s.parser.fault = t.parser.fault
  pairs : s.pairRecv = [] ∧ t.pairRecv = []
  stage : AtBoth v₀ w₀ s t st

def Alike (v₀ w₀ : VPT) (st : Stage) (s t : Session) : Prop := Stopped v₀ w₀ s t ∨ Level v₀ w₀ st s t

theorem Level.tree (h : Level v₀ w₀ st s t) : ∃ inside, GrownAlike v₀ w₀ inside s.vpt t.vpt := by
  have hstage := h.stage
  cases st with
  | tree ts => exact ⟨_, hstage.2⟩
  | closed => exact ⟨_, hstage.2⟩
  | done => exact ⟨_, hstage.2⟩
  | ready => exact ⟨_, hstage.2⟩
  | body => exact ⟨_, hstage.2.2.tree⟩
  | fault => exact hstage.elim

/-- Of the parsers only the destinations count. -/
theorem AtBoth.parser {q q' : Parser HttpResponse} (h : AtBoth v₀ w₀ s t st)
    (hout : q.bodyBlock.output = s.parser.bodyBlock.output) :
    AtBoth v₀ w₀ { s with parser := q } { t with parser := q' } st := by
  cases st with
  | tree ts => exact ⟨hout.trans h.1, h.2⟩
  | closed => exact ⟨hout.trans h.1, h.2⟩
  | done => exact ⟨hout.trans h.1, h.2⟩
  | ready => exact ⟨hout ▸ h.1, h.2⟩
  | body => exact ⟨hout ▸ h.1, h.2⟩
  | fault => exact h.elim

/-- The block and the log are new. -/
theorem Level.emit (h : Level v₀ w₀ st s t) (es : List Effect) {b : BlockExec}
    (hout : b.output = s.parser.bodyBlock.output) : Level v₀ w₀ st (s.emit es b) (t.emit es b) :=
  ⟨rfl, h.fault, h.pairs, h.stage.parser hout⟩

/-! ### The effects -/

theorem vptCall_alike {inside : Bool} (h : GrownAlike v₀ w₀ inside s.vpt t.vpt)
    (hpairs : s.pairRecv = [] ∧ t.pairRecv = []) {c : VptCall} (hc : c ≠ .pop .langHttp) :
    Option.Rel (fun s' t' => s' = { s with vpt := s'.vpt } ∧ t' = { t with vpt := t'.vpt } ∧
      GrownAlike v₀ w₀ inside s'.vpt t'.vpt) (s.vptCall c) (t.vptCall c) := by
  cases c with
  | push type => exact rel_map (h.push type) fun _ _ hxy => ⟨rfl, rfl, hxy⟩
  | pop type =>
    exact rel_map (h.pop (.inr fun heq => hc (congrArg VptCall.pop heq))) fun _ _ hpq => ⟨rfl, rfl, hpq.2⟩
  | setText text => exact .some ⟨rfl, rfl, h.setText text⟩
  | generatePair => exact .some ⟨rfl, rfl, h⟩
  | setConsumer => exact .some ⟨rfl, rfl, h⟩
  | consumePair =>
    have hnone {u : Session} (hu : u.pairRecv = []) : u.vptCall .consumePair = some u := by
      rw [vptCall, hu]
    rw [hnone hpairs.1, hnone hpairs.2]
    exact .some ⟨rfl, rfl, h⟩

/-- Both read the same body. -/
structure Reading (v₀ w₀ : VPT) (s t : Session) : Prop where
  block : s.parser.bodyBlock = t.parser.bodyBlock
  fault : s.parser.fault = t.parser.fault
  pairs : s.pairRecv = [] ∧ t.pairRecv = []
  encoded : s.encoded = t.encoded
  body : BodyParser.Same v₀ w₀ (s.body, s.vpt) (t.body, t.vpt)

theorem Level.reading (h : Level v₀ w₀ .body s t) : Reading v₀ w₀ s t :=
  ⟨h.block, h.fault, h.pairs, h.stage.2.1, h.stage.2.2⟩

theorem Reading.emit (h : Reading v₀ w₀ s t) (es : List Effect) (b : BlockExec) :
    Reading v₀ w₀ (s.emit es b) (t.emit es b) :=
  ⟨rfl, h.fault, h.pairs, h.encoded, h.body⟩

theorem Reading.level (h : Reading v₀ w₀ s t) (hout : s.parser.bodyBlock.output.isSome) :
    Level v₀ w₀ .body s t :=
  ⟨h.block, h.fault, h.pairs, hout, h.encoded, h.body⟩

theorem Reading.bodyReceive (h : Reading v₀ w₀ s t)
    (hct : s.parser.core.contentType = t.parser.core.contentType) (piece : Text) :
    Option.Rel (fun s' t' => s'.parser = s.parser ∧ t'.parser = t.parser ∧ Reading v₀ w₀ s' t')
      (s.bodyReceive packet piece) (t.bodyReceive packet piece) := by
  rw [Session.bodyReceive, Session.bodyReceive, ← hct]
  exact rel_map (BodyParser.receive_same h.body piece) fun p q hpq =>
    ⟨rfl, rfl, h.block, h.fault, h.pairs, h.encoded, hpq⟩

theorem Reading.receive {d : Dest} (h : Reading v₀ w₀ s t)
    (hct : s.parser.core.contentType = t.parser.core.contentType) :
    Option.Rel (fun s' t' => s'.parser = s.parser ∧ t'.parser = t.parser ∧ Reading v₀ w₀ s' t')
      (s.effect decode packet (.receive d data)) (t.effect decode packet (.receive d data)) := by
  rw [effect, effect, h.encoded]
  refine rel_foldlM (Q := fun _ => True) ?_ ⟨rfl, rfl, h.block, h.fault, h.pairs, rfl, h.body⟩
    fun _ _ => trivial
  rintro s' t' piece ⟨hs, ht, hreading⟩ -
  refine rel_imp (hreading.bodyReceive (by rw [hs, ht, hct]) piece) ?_
  exact fun _ _ hnext => ⟨hnext.1.trans hs, hnext.2.1.trans ht, hnext.2.2⟩

theorem Reading.finish {d : Dest} (h : Reading v₀ w₀ s t) (hout : s.parser.bodyBlock.output = none) :
    Option.Rel (Level v₀ w₀ .closed) (s.effect decode packet (.finish d)) (t.effect decode packet (.finish d)) :=
  rel_map (BodyParser.finish_same h.body) fun _ _ hpq => ⟨h.block, h.fault, h.pairs, hout, hpq⟩

/-! ### The calls -/

theorem perform_stop (h : ∃ inside, GrownAlike v₀ w₀ inside s.vpt t.vpt) :
    Option.Rel (Alike v₀ w₀ st) (s.perform decode packet (s.parser.perform none))
      (t.perform decode packet (t.parser.perform none)) := by
  rw [perform_none, perform_none]
  exact .some (.inl ⟨⟨rfl, rfl⟩, h⟩)

theorem ship_alike {q : ℕ} {f : BlockExec → BlockExec} (hf : ∀ b, (f b).output = b.output)
    (hct : s.parser.core.contentType = t.parser.core.contentType) (h : Level v₀ w₀ .body s t) :
    Option.Rel (Alike v₀ w₀ .body)
      (s.perform decode packet (s.parser.perform
        ((s.parser.bodyBlock.ship data q).map fun e => ([e], f s.parser.bodyBlock))))
      (t.perform decode packet (t.parser.perform
        ((t.parser.bodyBlock.ship data q).map fun e => ([e], f t.parser.bodyBlock)))) := by
  rw [← h.block]
  cases hship : s.parser.bodyBlock.ship data q with
  | none => exact perform_stop h.tree
  | some e =>
    obtain ⟨d, piece, rfl⟩ := ship_eq_some hship
    rw [Option.map_some, perform_some, perform_some, List.foldlM_cons, List.foldlM_cons]
    refine rel_bind ((h.reading.emit _ _).receive hct) ?_
    rintro s' t' ⟨hs, -, hreading⟩
    refine .some (.inr (hreading.level ?_))
    rw [hs]
    show (f s.parser.bodyBlock).output.isSome
    rw [hf]
    exact h.stage.1

theorem finishAt_alike {q : ℕ} (hct : s.parser.core.contentType = t.parser.core.contentType)
    (h : Level v₀ w₀ .body s t) :
    Option.Rel (Alike v₀ w₀ .closed)
      (s.perform decode packet (s.parser.perform (s.parser.bodyBlock.finishAt data q)))
      (t.perform decode packet (t.parser.perform (t.parser.bodyBlock.finishAt data q))) := by
  obtain ⟨d, hd⟩ := Option.isSome_iff_exists.mp h.stage.1
  have hfinish : s.parser.bodyBlock.finish = some ([.finish d], .init) := by
    rw [BlockExec.finish, hd]
    rfl
  rw [← h.block, BlockExec.finishAt, hfinish]
  split_ifs
  · cases hship : s.parser.bodyBlock.ship data q with
    | none => exact perform_stop h.tree
    | some e =>
      obtain ⟨d', piece, rfl⟩ := ship_eq_some hship
      rw [Option.bind_some, Option.map_some, perform_some, perform_some, List.foldlM_cons, List.foldlM_cons]
      refine rel_bind ((h.reading.emit _ _).receive hct) ?_
      rintro s' t' ⟨hs, -, hreading⟩
      rw [List.foldlM_cons, List.foldlM_cons]
      exact rel_bind (hreading.finish (by rw [hs]; rfl)) fun _ _ hclosed => .some (.inr hclosed)
  · rw [perform_some, perform_some, List.foldlM_cons, List.foldlM_cons]
    exact rel_bind ((h.reading.emit _ _).finish rfl) fun _ _ hclosed => .some (.inr hclosed)

/-- A call with one effect. -/
theorem perform_one_alike {e : Effect} {b b' : BlockExec} {R : Session → Session → Prop}
    (h : Option.Rel R ((s.emit [e] b).effect decode packet e) ((t.emit [e] b').effect decode packet e)) :
    Option.Rel R (s.perform decode packet (s.parser.perform (some ([e], b))))
      (t.perform decode packet (t.parser.perform (some ([e], b')))) := by
  rw [perform_some, perform_some, List.foldlM_cons, List.foldlM_cons]
  exact rel_bind h fun _ _ hxy => .some hxy

theorem stopped_call {u : Session} (h : u.parser.fault = true) (c : Call) :
    u.call decode packet data p c = some u := by
  rw [Session.call, Parser.call, if_pos h, Session.perform, List.drop_length]
  rfl

theorem Level.vpt {c : VptCall} (h : Level v₀ w₀ st s t) (hst : AtBoth v₀ w₀ s t st = AtBoth v₀ w₀ s t (.tree []))
    (hst' : ∀ s t, AtBoth v₀ w₀ s t st' = AtBoth v₀ w₀ s t (.tree [])) (hc : c ≠ .pop .langHttp) :
    Option.Rel (Alike v₀ w₀ st')
      (s.perform decode packet (s.parser.perform (some ([.vpt c], s.parser.bodyBlock))))
      (t.perform decode packet (t.parser.perform (some ([.vpt c], t.parser.bodyBlock)))) := by
  have hstage := h.stage
  rw [hst] at hstage
  refine perform_one_alike (rel_imp (vptCall_alike (s := s.emit _ _) (t := t.emit _ _) hstage.2 h.pairs hc) ?_)
  rintro x y ⟨hx, hy, hxy⟩
  refine .inr ⟨?_, ?_, ?_, ?_⟩
  · rw [hx, hy]
    exact h.block
  · rw [hx, hy]
    exact h.fault
  · rw [hx, hy]
    exact h.pairs
  · rw [hst']
    refine ⟨?_, hxy⟩
    rw [hx]
    exact hstage.1

theorem Level.call {c : Call} (h : Level v₀ w₀ st s t)
    (hct : s.parser.core.contentType = t.parser.core.contentType) (hst : st.call c = some st')
    (hc : c ≠ .vpt (.pop .langHttp)) :
    Option.Rel (Alike v₀ w₀ st') (s.call decode packet data p c) (t.call decode packet data p c) := by
  cases hfault : s.parser.fault with
  | true =>
    have hfault' : t.parser.fault = true := h.fault ▸ hfault
    rw [stopped_call hfault, stopped_call hfault']
    exact .some (.inl ⟨⟨hfault, hfault'⟩, h.tree⟩)
  | false =>
    have hgo : ¬ s.parser.fault = true := by rw [hfault]; exact Bool.false_ne_true
    have hgo' : ¬ t.parser.fault = true := by rw [← h.fault]; exact hgo
    rw [Session.call, Session.call, Parser.call, Parser.call, if_neg hgo, if_neg hgo']
    have hstage := h.stage
    unfold Stage.call at hst
    split at hst
    case h_1 => exact hstage.elim
    case h_2 =>
      cases hst
      exact perform_one_alike (.some (.inr (h.block ▸ h.emit _ rfl)))
    case h_3 =>
      cases hst
      exact perform_one_alike (.some (.inr (h.block ▸ h.emit _ rfl)))
    case h_4 ts c =>
      obtain ⟨us, -, rfl⟩ := Option.map_eq_some_iff.mp hst
      exact h.vpt rfl (fun _ _ => rfl) fun heq => hc (congrArg Call.vpt heq)
    case h_5 d =>
      cases hst
      rw [Call.exec, Call.exec, perform_some, perform_some]
      exact .some (.inr ⟨congrArg (fun b => { b with output := some d }) h.block, h.fault, h.pairs, rfl, hstage.2⟩)
    case h_6 ts =>
      cases hst
      have hnone {b : BlockExec} (hb : b.output = none) : b.finishAt data (p + 1) = none := by
        simp [BlockExec.finishAt, BlockExec.ship, BlockExec.finish, hb]
      rw [Call.exec, Call.exec, ← h.block, hnone hstage.1]
      exact perform_stop h.tree
    case h_7 =>
      cases hst
      exact perform_stop h.tree
    case h_8 =>
      cases hst
      obtain ⟨d, hd⟩ := Option.isSome_iff_exists.mp hstage.1
      rw [Call.exec, Call.exec, ← h.block, BlockExec.start, hd, Option.map_some]
      exact perform_one_alike (.some (.inr ⟨rfl, h.fault, h.pairs, rfl, rfl, rfl, fun _ => rfl, hstage.2⟩))
    case h_9 =>
      cases hst
      exact ship_alike (f := fun b => { b with isOpen := false }) (fun _ => rfl) hct h
    case h_10 =>
      cases hst
      rw [Call.exec, Call.exec, perform_some, perform_some, ← h.block]
      exact .some (.inr (h.emit _ rfl))
    case h_11 =>
      cases hst
      exact finishAt_alike hct h
    case h_12 =>
      cases hst
      exact finishAt_alike hct h
    case h_13 =>
      cases hst
      exact h.vpt rfl (fun _ _ => rfl) (by decide)
    case h_14 => cases hst

theorem Alike.call {c : Call} (h : Alike v₀ w₀ st s t)
    (hct : s.parser.core.contentType = t.parser.core.contentType) (hst : st.call c = some st')
    (hc : c ≠ .vpt (.pop .langHttp)) :
    Option.Rel (Alike v₀ w₀ st') (s.call decode packet data p c) (t.call decode packet data p c) := by
  obtain hstop | hlevel := h
  · rw [stopped_call hstop.fault.1, stopped_call hstop.fault.2]
    exact .some (.inl hstop)
  · exact hlevel.call hct hst hc

theorem Alike.calls {cs : List Call} (h : Alike v₀ w₀ st s t)
    (hct : s.parser.core.contentType = t.parser.core.contentType)
    (hst : cs.foldlM Stage.call st = some st') (hcs : HttpResponse.Above cs) :
    Option.Rel (Alike v₀ w₀ st') (cs.foldlM (Session.call decode packet data p) s)
      (cs.foldlM (Session.call decode packet data p) t) := by
  induction cs generalizing s t st with
  | nil =>
    cases hst
    exact .some h
  | cons c cs ih =>
    have hcore {u u' : Session} (hu : u.call decode packet data p c = some u') :
        u'.parser.core = u.parser.core := by
      rw [(Prod.mk.inj (perform_frame hu)).1, call_core]
    rw [List.foldlM_cons] at hst
    obtain ⟨mid, hmid, hst⟩ := Option.bind_eq_some_iff.mp hst
    rw [List.foldlM_cons, List.foldlM_cons]
    refine rel_bind (rel_results (h.call hct hmid (hcs c List.mem_cons_self))) ?_
    rintro x y ⟨hx, hy, hxy⟩
    exact ih hxy (by rw [hcore hx, hcore hy, hct]) hst fun d hd => hcs d (List.mem_cons_of_mem c hd)

/-! ### From byte to byte -/

/-- The machine has gone on, or the history has. -/
def withHistory (s : Session) (core : HttpResponse) (before : VPT) (pieces : List Text)
    (responses : List Completed) : Session :=
  { s with parser := { s.parser with core := core }, before := before, pieces := pieces, responses := responses }

theorem Level.withHistory (h : Level v₀ w₀ st s t) {c d : HttpResponse} {v w : VPT} {ps qs : List Text}
    {rs ss : List Completed} : Level v₀ w₀ st (s.withHistory c v ps rs) (t.withHistory d w qs ss) := by
  refine ⟨h.block, h.fault, h.pairs, ?_⟩
  have hstage := h.stage
  cases st <;> exact hstage

theorem begin_eq (s : Session) (core : HttpResponse) :
    { s.begin with parser := { s.parser with core := core } } =
      s.withHistory core s.begin.before s.begin.pieces s.responses := by
  rw [Session.begin]
  split_ifs <;> rfl

theorem complete_eq (s : Session) :
    s.complete = s.withHistory s.parser.core s.before s.pieces s.complete.responses := by
  rw [Session.complete]
  split_ifs <;> rfl

/-- The calls of a byte. -/
theorem Level.step {b : UInt8} {v w : VPT} {ps qs : List Text} {rs ss : List Completed}
    (h : Level v₀ w₀ st s t) (hlive : s.parser.core.live = t.parser.core.live)
    (hst : (httpResponse.step s.parser.core b).2.foldlM Stage.call st = some st') :
    Option.Rel (Alike v₀ w₀ st')
      ((httpResponse.step s.parser.core b).2.foldlM (Session.call decode packet data p)
        (s.withHistory (httpResponse.step s.parser.core b).1 v ps rs))
      ((httpResponse.step s.parser.core b).2.foldlM (Session.call decode packet data p)
        (t.withHistory (httpResponse.step t.parser.core b).1 w qs ss)) := by
  obtain hnone | hct := HttpResponse.contentType_alike hlive b
  · have hno : (httpResponse.step s.parser.core b).2 = [] := hnone
    rw [hno] at hst ⊢
    cases hst
    exact .some (.inr h.withHistory)
  · exact Alike.calls (.inr h.withHistory) hct hst (HttpResponse.step_above _ b)

/-- What holds of two sessions between two bytes. -/
structure Between (v₀ w₀ : VPT) (s t : Session) : Prop where
  live : s.parser.core.live = t.parser.core.live
  chunks : 0 ≤ s.parser.core.chunks ∧ 0 ≤ t.parser.core.chunks
  stage : Stopped v₀ w₀ s t ∨ ∃ st, s.parser.core.Stages st ∧ Level v₀ w₀ st s t

/-- Both stop, or none. -/
theorem Between.stops (h : Between v₀ w₀ s t) : (s.parser.fault || httpResponse.isError s.parser.core) =
    (t.parser.fault || httpResponse.isError t.parser.core) := by
  have hfault : s.parser.fault = t.parser.fault := by
    obtain hstop | ⟨st, -, hlevel⟩ := h.stage
    · rw [hstop.fault.1, hstop.fault.2]
    · exact hlevel.fault
  rw [hfault, live_bisim.error h.live]

theorem Between.tree (h : Between v₀ w₀ s t) : ∃ inside, GrownAlike v₀ w₀ inside s.vpt t.vpt := by
  obtain hstop | ⟨st, -, hlevel⟩ := h.stage
  · exact hstop.tree
  · exact hlevel.tree

/-- Without a fault there is a stage, and at the first byte of a response nothing is open. -/
theorem Between.level (h : Between v₀ w₀ s t)
    (hgoes : (s.parser.fault || httpResponse.isError s.parser.core) = false) :
    ∃ st, s.parser.core.Stages st ∧ (s.parser.core.cs = .main → st = .tree []) ∧ Level v₀ w₀ st s t := by
  obtain hstop | ⟨st, hstages, hlevel⟩ := h.stage
  · rw [hstop.fault.1] at hgoes
    cases hgoes
  · by_cases hmain : s.parser.core.cs = .main
    · have hstages' := hstages
      rw [HttpResponse.Stages, hmain] at hstages'
      simp only at hstages'
      obtain rfl | rfl | rfl := hstages'
      · exact ⟨_, hstages, fun _ => rfl, hlevel⟩
      · refine ⟨.tree [], ?_, fun _ => rfl, hlevel.block, hlevel.fault, hlevel.pairs, hlevel.stage⟩
        rw [HttpResponse.Stages, hmain]
        exact .inl rfl
      · exact hlevel.stage.elim
    · exact ⟨st, hstages, fun hcontra => absurd hcontra hmain, hlevel⟩

theorem Between.byte (h : Between v₀ w₀ s t)
    (hgoes : (s.parser.fault || httpResponse.isError s.parser.core) = false) (b : UInt8) :
    Option.Rel (Between v₀ w₀) (s.byte decode packet data p b) (t.byte decode packet data p b) := by
  obtain ⟨st, hstages, hmain, hlevel⟩ := h.level hgoes
  have hcalls : (httpResponse.step s.parser.core b).2 = (httpResponse.step t.parser.core b).2 :=
    live_bisim.calls b h.live
  have hnext := live_bisim.next b h.live
  have hchunks : (httpResponse.step s.parser.core b).1.chunks < 0 ↔ (httpResponse.step t.parser.core b).1.chunks < 0 :=
    HttpResponse.chunks_alike h.live h.chunks.1 h.chunks.2 b
  unfold Session.byte
  simp only [begin_eq]
  by_cases hpos : (httpResponse.step s.parser.core b).1.chunks < 0
  · rw [if_pos hpos, if_pos (hchunks.mp hpos)]
    exact .none
  · rw [if_neg hpos, if_neg (hpos ∘ hchunks.mpr), ← hcalls]
    -- the calls of the byte lead to a stage that the next state allows
    have hrun : Option.Rel (fun x y => Stopped v₀ w₀ x y ∨
          ∃ st', (httpResponse.step s.parser.core b).1.Stages st' ∧ Level v₀ w₀ st' x y)
        ((httpResponse.step s.parser.core b).2.foldlM (Session.call decode packet data p)
          (s.withHistory (httpResponse.step s.parser.core b).1 s.begin.before s.begin.pieces s.responses))
        ((httpResponse.step s.parser.core b).2.foldlM (Session.call decode packet data p)
          (t.withHistory (httpResponse.step t.parser.core b).1 t.begin.before t.begin.pieces t.responses)) := by
      obtain ⟨st', hst, hstages'⟩ | hst := HttpResponse.step_goes hstages hmain hpos
      · exact rel_imp (hlevel.step h.live hst) fun x y hxy => hxy.imp_right fun hlevel' => ⟨st', hstages', hlevel'⟩
      · exact rel_imp (hlevel.step h.live hst) fun x y hxy => hxy.imp_right fun hlevel' => hlevel'.stage.elim
    refine rel_map (rel_results hrun) ?_
    rintro x y ⟨hx, hy, hxy⟩
    have hxcore : x.parser.core = (httpResponse.step s.parser.core b).1 := (Prod.mk.inj (calls_frame hx)).1
    have hycore : y.parser.core = (httpResponse.step t.parser.core b).1 := (Prod.mk.inj (calls_frame hy)).1
    rw [complete_eq x, complete_eq y]
    refine ⟨?_, ?_, ?_⟩
    · show x.parser.core.live = y.parser.core.live
      rw [hxcore, hycore]
      exact hnext
    · show 0 ≤ x.parser.core.chunks ∧ 0 ≤ y.parser.core.chunks
      rw [hxcore, hycore]
      exact ⟨not_lt.mp hpos, not_lt.mp (hpos ∘ hchunks.mpr)⟩
    · refine hxy.imp (fun hstop => ⟨hstop.fault, hstop.tree⟩) ?_
      rintro ⟨st', hstages', hlevel'⟩
      refine ⟨st', ?_, hlevel'.withHistory⟩
      show x.parser.core.Stages st'
      rw [hxcore]
      exact hstages'

theorem Between.exec (rest : Text) : ∀ {s t : Session} {p : ℕ}, Between v₀ w₀ s t →
    (s.parser.fault || httpResponse.isError s.parser.core) = false →
      Option.Rel (Between v₀ w₀) (s.exec decode packet data rest p) (t.exec decode packet data rest p) := by
  induction rest with
  | nil => exact fun h _ => .some h
  | cons b rest ih =>
    intro s t p h hgoes
    refine rel_bind (h.byte hgoes b) fun x y hxy => ?_
    rw [← hxy.stops]
    split_ifs with hstop
    · exact .some hxy
    · exact ih hxy (Bool.not_eq_true _ ▸ hstop)

/-! ### From one `receive` to the next -/

/-- A body is shipped, with the type that both have read. -/
theorem Between.postExec (h : Between v₀ w₀ s t)
    (hgoes : (s.parser.fault || httpResponse.isError s.parser.core) = false) :
    Option.Rel (Between v₀ w₀) (s.perform decode packet (s.parser.perform (s.parser.bodyBlock.postExec data p)))
      (t.perform decode packet (t.parser.perform (t.parser.bodyBlock.postExec data p))) := by
  obtain ⟨hfault, herror⟩ := Bool.or_eq_false_iff.mp hgoes
  have hcs : s.parser.core.cs ≠ .error := of_decide_eq_false herror
  obtain ⟨st, hstages, hmain, hlevel⟩ := h.level hgoes
  have hcore {u u' : Session} {r : Option (List Effect × BlockExec)}
      (hu : u.perform decode packet (u.parser.perform r) = some u') : u'.parser.core = u.parser.core := by
    rw [(Prod.mk.inj (perform_frame hu)).1]
    cases r <;> rfl
  have hrun : Option.Rel (Alike v₀ w₀ st)
      (s.perform decode packet (s.parser.perform (s.parser.bodyBlock.postExec data p)))
      (t.perform decode packet (t.parser.perform (t.parser.bodyBlock.postExec data p))) := by
    rw [BlockExec.postExec, BlockExec.postExec, ← hlevel.block]
    split_ifs
    · obtain ⟨ts, rfl⟩ | rfl := hstages.tree_or_body hcs hmain
      · rw [BlockExec.ship, hlevel.stage.1, Option.map_none]
        exact perform_stop hlevel.tree
      · have hct := HttpResponse.live_contentType h.live (hstages.late hcs)
        have hship : Option.Rel (Alike v₀ w₀ .body) _ _ :=
          @ship_alike decode packet v₀ w₀ s t data p (fun b => { b with fromPos := none }) (fun _ => rfl) hct hlevel
        rwa [← hlevel.block] at hship
    · rw [perform_some, perform_some]
      exact .some (.inr (hlevel.emit [] rfl))
  refine rel_imp (rel_results hrun) ?_
  rintro x y ⟨hx, hy, hxy⟩
  refine ⟨?_, ?_, hxy.imp_right fun hlevel' => ⟨st, ?_, hlevel'⟩⟩
  · rw [hcore hx, hcore hy]
    exact h.live
  · rw [hcore hx, hcore hy]
    exact h.chunks
  · rw [hcore hx]
    exact hstages

theorem Between.receive (h : Between v₀ w₀ s t) (data : Text) :
    Option.Rel (Between v₀ w₀) (s.receive decode packet data) (t.receive decode packet data) := by
  have hpre : Between v₀ w₀ { s with parser := { s.parser with bodyBlock := s.parser.bodyBlock.preExec } }
      { t with parser := { t.parser with bodyBlock := t.parser.bodyBlock.preExec } } := by
    have hout : s.parser.bodyBlock.preExec.output = s.parser.bodyBlock.output := by
      rw [BlockExec.preExec]
      split_ifs <;> rfl
    refine ⟨h.live, h.chunks, h.stage.imp (fun hstop => ⟨hstop.fault, hstop.tree⟩) ?_⟩
    rintro ⟨st, hstages, hlevel⟩
    exact ⟨st, hstages, congrArg BlockExec.preExec hlevel.block, hlevel.fault, hlevel.pairs, hlevel.stage.parser hout⟩
  rw [Session.receive, Session.receive, ← h.stops]
  split_ifs with hstop
  · exact .some h
  · refine rel_bind (hpre.exec data (Bool.not_eq_true _ ▸ hstop)) fun x y hxy => ?_
    rw [← hxy.stops]
    split_ifs with hstop'
    · exact .some hxy
    · exact hxy.postExec (Bool.not_eq_true _ ▸ hstop')

/-- Without pairs and without a history. -/
def resume (s : Session) : Session :=
  { s with pairRecv := [], before := s.vpt, pieces := [], responses := [] }

theorem Between.resume (h : Between v₀ w₀ s t) : Between v₀ w₀ s.resume t.resume := by
  refine ⟨h.live, h.chunks, h.stage.imp (fun hstop => ⟨hstop.fault, hstop.tree⟩) ?_⟩
  rintro ⟨st, hstages, hlevel⟩
  refine ⟨st, hstages, hlevel.block, hlevel.fault, ⟨rfl, rfl⟩, ?_⟩
  have hstage := hlevel.stage
  cases st <;> exact hstage

/-! ### The counter of the chunks -/

theorem exec_chunks (rest : Text) : ∀ {s : Session} {p : ℕ}, 0 ≤ s.parser.core.chunks →
    s.exec decode packet data rest p = some s' → 0 ≤ s'.parser.core.chunks := by
  induction rest with
  | nil =>
    intro s p h hs
    cases hs
    exact h
  | cons b rest ih =>
    intro s p h hs
    obtain ⟨t, ht, hs⟩ := Option.bind_eq_some_iff.mp hs
    have hnext : 0 ≤ t.parser.core.chunks := by
      rw [Session.byte] at ht
      simp only at ht
      split_ifs at ht with hpos
      obtain ⟨u, hu, rfl⟩ := Option.map_eq_some_iff.mp ht
      rw [parser_complete, (Prod.mk.inj (calls_frame hu)).1]
      exact not_lt.mp hpos
    split_ifs at hs
    · cases hs
      exact hnext
    · exact ih hnext hs

/-- An overflow of the counter ends the run. -/
theorem receive_chunks (h : 0 ≤ s.parser.core.chunks) (hs : s.receive decode packet data = some s') :
    0 ≤ s'.parser.core.chunks := by
  rw [Session.receive] at hs
  split_ifs at hs
  · cases hs
    exact h
  · obtain ⟨t, ht, hs⟩ := Option.bind_eq_some_iff.mp hs
    have hlast := exec_chunks data
      (s := { s with parser := { s.parser with bodyBlock := s.parser.bodyBlock.preExec } }) h ht
    split_ifs at hs
    · cases hs
      exact hlast
    · rw [(Prod.mk.inj (perform_frame hs)).1]
      cases t.parser.bodyBlock.postExec data data.length <;> exact hlast

end Session

end Netp.Parse
