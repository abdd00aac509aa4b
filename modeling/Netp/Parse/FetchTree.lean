import Netp.Parse.SessionAlike

/-! # The tree of a connection over its reconnects (`parse/connection.cc`, `parse/httprsp.rl`)

`connectComplete` starts the machine of the response parser again, and pushes `LangHttp`, the connection
and the host. The body block is not started, and the tree is not either: what was open when the
connection was lost stays open below, with its pattern states, and the next push meets them.

A `FetchTree` is a `FetchConnection` with the tree of its response parser. The tree of the requests is
left out. Nothing of it comes back to the responses: the pairs that the requests leave bring no pattern,
since `pairPattern` is not called.
-/

namespace Netp.Parse
open Netp.Lib
set_option autoImplicit false

/-- A `FetchConnection` with `responseContext.vpt`, and with what its response parser passes bodies to. -/
structure FetchTree where
  conn : FetchConnection
  vpt : VPT
  /-- What has gone into the decoder of the body. -/
  encoded : List Text
  body : BodyParser

namespace FetchTree

/-- The constructor, with the patterns of the configuration. -/
def new (patRoots : List PatNode) (throttleDelay : ℤ) (turns : ℕ → Turn) : FetchTree :=
  ⟨.new throttleDelay turns, initVpt patRoots, [], .start⟩

/-- The response parser and what it works on. -/
def session (t : FetchTree) : Session where
  parser := t.conn.responseParser
  vpt := t.vpt
  pairRecv := []
  encoded := t.encoded
  body := t.body
  before := t.vpt
  pieces := []
  responses := []

/-- The calls on the tree. -/
def calls (t : FetchTree) (cs : List VptCall) : Option VPT :=
  (cs.foldlM Session.vptCall t.session).map Session.vpt

def connectComplete (t : FetchTree) : Option FetchTree :=
  (t.calls (FetchConnection.startCalls t.conn.fetchHost)).map fun v =>
    { t with conn := t.conn.connectComplete, vpt := v }

section Data
variable (decode : Decode)

def dataAvail (t : FetchTree) (bytes : Text) : Option FetchTree :=
  if t.conn.fault then some t
  else (t.session.receive decode false bytes).map fun s =>
    { conn := t.conn.dataAvail bytes, vpt := s.vpt, encoded := s.encoded, body := s.body }

def readReady (t : FetchTree) : List (Option Text) → Option FetchTree
  | [] => some t
  | none :: _ => some { t with conn := { t.conn.close with state := .disconnected } }
  | some [] :: _ => some t
  | some (b :: bytes) :: reads =>
      (t.dataAvail decode (b :: bytes)).bind fun t =>
        if t.conn.fault || t.conn.closed then some t else readReady t reads

end Data

end FetchTree

/-- The runs of a connection with its tree. -/
def fetchTree (decode : Decode) (patRoots : List PatNode) (throttleDelay : ℤ) (turns : ℕ → Turn) :
    System FetchTree FetchEvent where
  init := .new patRoots throttleDelay turns
  step t e :=
    if t.conn.fault then none
    else match e with
      | .queueRequest request => some { t with conn := t.conn.queueRequest request }
      | .getGoing host => some { t with conn := t.conn.getGoing host }
      | .connectComplete =>
          if t.conn.selectFd = some .connecting then
            FetchTree.connectComplete { t with conn := { t.conn with selectFd := some .established } }
          else none
      | .readReady reads => if t.conn.selectFd = some .established then t.readReady decode reads else none
      | .timer => some { t with conn := t.conn.timer }
      | .disconnect => some { t with conn := t.conn.disconnect }

namespace FetchTree
variable {decode : Decode} {patRoots : List PatNode} {throttleDelay : ℤ} {turns : ℕ → Turn}
variable {t t' : FetchTree}

/-! ## The connection goes its own way -/

theorem connectComplete_conn (h : t.connectComplete = some t') : t'.conn = t.conn.connectComplete := by
  obtain ⟨v, -, rfl⟩ := Option.map_eq_some_iff.mp h
  rfl

theorem dataAvail_conn {bytes : Text} (h : t.dataAvail decode bytes = some t') :
    t'.conn = t.conn.dataAvail bytes := by
  rw [dataAvail] at h
  split_ifs at h with hf
  · cases h
    rw [FetchConnection.dataAvail, if_pos hf]
  · obtain ⟨s, -, rfl⟩ := Option.map_eq_some_iff.mp h
    rfl

theorem readReady_conn (reads : List (Option Text)) :
    ∀ {t : FetchTree}, t.readReady decode reads = some t' → t'.conn = t.conn.readReady reads := by
  induction reads with
  | nil =>
    intro t h
    cases h
    rfl
  | cons read reads ih =>
    intro t h
    match read with
    | none =>
      cases h
      rfl
    | some [] =>
      cases h
      rfl
    | some (b :: bytes) =>
      obtain ⟨u, hu, h⟩ := Option.bind_eq_some_iff.mp h
      rw [FetchConnection.readReady, ← dataAvail_conn hu]
      split_ifs at h ⊢ with hstop
      · cases h
        rfl
      · exact ih h

theorem step_conn {e : FetchEvent} (h : (fetchTree decode patRoots throttleDelay turns).step t e = some t') :
    (fetchConnection throttleDelay turns).step t.conn e = some t'.conn := by
  by_cases hf : t.conn.fault = true
  · simp [fetchTree, hf] at h
  · simp only [fetchTree, fetchConnection, if_neg hf] at h ⊢
    cases e with
    | connectComplete =>
      obtain ⟨hfd, h⟩ := Option.ite_none_right_eq_some.mp h
      exact (if_pos hfd).trans (congrArg some (connectComplete_conn h).symm)
    | readReady reads =>
      obtain ⟨hfd, h⟩ := Option.ite_none_right_eq_some.mp h
      exact (if_pos hfd).trans (congrArg some (readReady_conn reads h).symm)
    | _ =>
      cases h
      rfl

/-- The refinement: without its tree a run is a run of the connection. -/
theorem reach_conn (h : Reach (fetchTree decode patRoots throttleDelay turns) t) :
    Reach (fetchConnection throttleDelay turns) t.conn := by
  refine ReachIf.invariant (I := fun t : FetchTree => Reach (fetchConnection throttleDelay turns) t.conn) ?_ ?_ h
  · exact ReachIf.init
  · exact fun _ _ _ hreach _ hs => .next hreach trivial (step_conn hs)

theorem dataAvail_response {bytes : Text} {s : Session} (h : Fed false t.conn.requestParser)
    (hf : t.conn.fault = false) (hs : t.session.receive decode false bytes = some s) :
    (t.conn.dataAvail bytes).responseParser = s.parser := by
  rw [FetchConnection.dataAvail, if_neg (by rw [hf]; exact Bool.false_ne_true), receive_refines hs]
  exact (FetchConnection.perform_good ⟨rfl, h⟩ _).response

/-! ### The counter of the chunks has not overflown -/

structure Counting (t : FetchTree) : Prop where
  steady : t.conn.Steady
  chunks : 0 ≤ t.conn.responseParser.core.chunks

theorem dataAvail_counting {bytes : Text} (h : t.Counting) (ht : t.dataAvail decode bytes = some t') :
    t'.Counting := by
  have hconn := dataAvail_conn ht
  refine ⟨hconn ▸ FetchConnection.dataAvail_steady h.steady bytes, ?_⟩
  rw [dataAvail] at ht
  cases hf : t.conn.fault with
  | true =>
    rw [if_pos hf] at ht
    cases ht
    exact h.chunks
  | false =>
    rw [if_neg (by rw [hf]; exact Bool.false_ne_true)] at ht
    obtain ⟨s, hs, -⟩ := Option.map_eq_some_iff.mp ht
    rw [hconn, dataAvail_response h.steady.fed hf hs]
    exact Session.receive_chunks (s := t.session) h.chunks hs

theorem readReady_counting (reads : List (Option Text)) : ∀ {t : FetchTree}, t.Counting →
    t.readReady decode reads = some t' → t'.Counting := by
  induction reads with
  | nil =>
    intro t h ht
    cases ht
    exact h
  | cons read reads ih =>
    intro t h ht
    match read with
    | none =>
      cases ht
      exact ⟨⟨h.steady.kept, h.steady.fed, h.steady.alive⟩, h.chunks⟩
    | some [] =>
      cases ht
      exact h
    | some (b :: bytes) =>
      obtain ⟨u, hu, ht⟩ := Option.bind_eq_some_iff.mp ht
      have hnext := dataAvail_counting h hu
      split_ifs at ht
      · cases ht
        exact hnext
      · exact ih hnext ht

theorem step_counting {e : FetchEvent} (h : t.Counting)
    (hs : (fetchTree decode patRoots throttleDelay turns).step t e = some t') : t'.Counting := by
  refine ⟨FetchConnection.step_steady h.steady (step_conn hs), ?_⟩
  have hkept {c : FetchConnection} (hc : c.Good t.conn.responseParser) :
      0 ≤ c.responseParser.core.chunks := by
    rw [hc.response]
    exact h.chunks
  have hgood := h.steady.good
  by_cases hf : t.conn.fault = true
  · simp [fetchTree, hf] at hs
  · simp only [fetchTree, if_neg hf] at hs
    cases e with
    | queueRequest request =>
      cases hs
      exact hkept (FetchConnection.maybeSend_good (hgood.of_eq rfl rfl))
    | getGoing host =>
      cases hs
      exact hkept (FetchConnection.getGoing_good hgood host)
    | connectComplete =>
      obtain ⟨-, hs⟩ := Option.ite_none_right_eq_some.mp hs
      have hstart := FetchConnection.connectComplete_good (c := { t.conn with selectFd := some .established })
        ⟨h.steady.kept, h.steady.fed, h.steady.alive⟩ (Bool.not_eq_true _ ▸ hf)
      rw [connectComplete_conn hs, hstart.response]
      exact h.chunks
    | readReady reads =>
      obtain ⟨-, hs⟩ := Option.ite_none_right_eq_some.mp hs
      exact (readReady_counting reads h hs).chunks
    | timer =>
      cases hs
      exact hkept (FetchConnection.maybeSend_good hgood)
    | disconnect =>
      cases hs
      exact hkept (FetchConnection.disconnect_good hgood)

theorem reach_counting (h : Reach (fetchTree decode patRoots throttleDelay turns) t) : t.Counting := by
  have hinit : Reach (fetchConnection throttleDelay turns) (.new throttleDelay turns) := ReachIf.init
  exact ReachIf.invariant ⟨FetchConnection.reach_steady hinit, le_refl 0⟩ (fun _ _ _ hc _ hs => step_counting hc hs) h

/-! ## The next connection -/

/-- A new connection with the requests that are left. -/
def fresh (patRoots : List PatNode) (t : FetchTree) : FetchTree :=
  { new patRoots t.conn.throttleDelay t.conn.turns with conn := t.conn.fresh }

/-- `getGoing`, and the event loop's `connectComplete`. -/
def reconnect (t : FetchTree) (host : Text) : Option FetchTree :=
  connectComplete { t with conn := { t.conn.getGoing host with selectFd := some .established } }

/-- The reconnect, and what is received then. -/
def stream (decode : Decode) (t : FetchTree) (host : Text) (ds : List Text) : Option FetchTree :=
  (t.reconnect host).bind fun u => ds.foldlM (dataAvail decode) u

/-- From the reconnect on, the response side does the same as on a fresh connection: it makes the same
calls, passes on the same bytes, and the tree gets the same by them. -/
structure StartsClean (decode : Decode) (patRoots : List PatNode) (t : FetchTree) (host : Text) : Prop where
  seen : t.conn.StartsClean host
  opening : ∀ cs, cs <+: FetchConnection.startCalls host → (t.calls cs).map (·.since t.vpt) =
    ((t.fresh patRoots).calls cs).map (·.since (initVpt patRoots))
  tree : ∀ ds, (t.stream decode host ds).map (·.vpt.since t.vpt) =
    ((t.fresh patRoots).stream decode host ds).map (·.vpt.since (initVpt patRoots))

section Reconnect
variable {x y : FetchTree} {host : Text}

theorem calls_push (t : FetchTree) (type : NodeType) : t.calls [.push type] = t.vpt.push type := by
  simp [calls, Session.vptCall, session, Function.comp_def]

/-- The calls at the start, on two trees. -/
theorem calls_alike (hroots : x.vpt.patRoots = y.vpt.patRoots) (hx : x.vpt.Ignores .langHttp)
    (hy : y.vpt.Ignores .langHttp) {cs : List VptCall} (hcs : ∀ c ∈ cs, c ≠ .pop .langHttp) :
    Option.Rel (GrownAlike x.vpt y.vpt false) (x.calls (.push .langHttp :: cs))
      (y.calls (.push .langHttp :: cs)) := by
  rw [calls, calls, List.foldlM_cons, List.foldlM_cons]
  refine rel_map (R := fun s u : Session => (s.pairRecv = [] ∧ u.pairRecv = []) ∧
    GrownAlike x.vpt y.vpt false s.vpt u.vpt) ?_ fun _ _ hsu => hsu.2
  refine rel_bind (R := fun s u : Session => (s.pairRecv = [] ∧ u.pairRecv = []) ∧
    GrownAlike x.vpt y.vpt false s.vpt u.vpt) ?_ ?_
  · exact rel_map (GrownAlike.start hroots hx hy) fun v w hvw => ⟨⟨rfl, rfl⟩, hvw⟩
  intro s u hsu
  refine rel_foldlM (Q := fun c => c ≠ .pop .langHttp) ?_ hsu hcs
  rintro s u c ⟨hpairs, hgrown⟩ hc
  refine rel_imp (Session.vptCall_alike hgrown hpairs hc) ?_
  rintro s' u' ⟨hs, hu, hnext⟩
  exact ⟨⟨by rw [hs]; exact hpairs.1, by rw [hu]; exact hpairs.2⟩, hnext⟩

theorem hostCalls_above (host : Text) : ∀ c ∈ FetchConnection.hostCalls host, c ≠ .pop .langHttp := by
  simp [FetchConnection.hostCalls]

/-- A connection with its tree, and a fresh one, that go on alike. -/
structure Alike (t : FetchTree) (patRoots : List PatNode) (x y : FetchTree) : Prop where
  conn : FetchConnection.Alike t.conn.seen t.conn.responseParser.log [] x.conn y.conn
  session : Session.Between t.vpt (initVpt patRoots) x.session y.session

theorem Alike.dataAvail (h : Alike t patRoots x y) (bytes : Text) :
    Option.Rel (Alike t patRoots) (x.dataAvail decode bytes) (y.dataAvail decode bytes) := by
  rw [FetchTree.dataAvail, FetchTree.dataAvail, ← h.conn.same.fault]
  split_ifs with hf
  · exact .some h
  · have hx : x.conn.fault = false := Bool.not_eq_true _ ▸ hf
    have hy : y.conn.fault = false := h.conn.same.fault ▸ hx
    refine rel_map (rel_results (h.session.receive bytes)) ?_
    rintro s u ⟨hs, hu, hsu⟩
    refine ⟨h.conn.dataAvail bytes, ?_⟩
    have hnext := hsu.resume
    rw [FetchTree.session, FetchTree.session, dataAvail_response h.conn.same.fed.1 hx hs, dataAvail_response h.conn.same.fed.2 hy hu]
    exact hnext

theorem Alike.since (h : Alike t patRoots x y) : x.vpt.since t.vpt = y.vpt.since (initVpt patRoots) := by
  obtain ⟨inside, hgrown⟩ := h.session.tree
  exact hgrown.since

theorem fresh_ignores (t : FetchTree) : (t.fresh patRoots).vpt.Ignores .langHttp :=
  fun _ hst => absurd hst List.not_mem_nil

theorem connectComplete_rel {R : FetchTree → FetchTree → Prop} (hhost : x.conn.fetchHost = y.conn.fetchHost)
    (hroots : x.vpt.patRoots = y.vpt.patRoots) (hx : x.vpt.Ignores .langHttp) (hy : y.vpt.Ignores .langHttp)
    (hR : ∀ v w, GrownAlike x.vpt y.vpt false v w → R { x with conn := x.conn.connectComplete, vpt := v }
      { y with conn := y.conn.connectComplete, vpt := w }) :
    Option.Rel R x.connectComplete y.connectComplete := by
  rw [connectComplete, connectComplete, hhost]
  exact rel_map (calls_alike hroots hx hy (hostCalls_above _)) hR

/-- Between the start of the machine and the first byte. -/
theorem between_start {v₀ w₀ : VPT} {P Q : Parser HttpResponse} (hx : x.conn.responseParser = P)
    (hy : y.conn.responseParser = Q) (hlive : P.core.live = Q.core.live)
    (hchunks : 0 ≤ P.core.chunks ∧ 0 ≤ Q.core.chunks) (hmain : P.core.cs = .main)
    (hblock : P.bodyBlock = .init ∧ Q.bodyBlock = .init) (hfault : P.fault = Q.fault)
    (htree : GrownAlike v₀ w₀ false x.vpt y.vpt) : Session.Between v₀ w₀ x.session y.session := by
  subst hx hy
  refine ⟨hlive, hchunks, .inr ⟨.tree [], ?_, hblock.1.trans hblock.2.symm, hfault, ⟨rfl, rfl⟩, ?_, htree⟩⟩
  · rw [HttpResponse.Stages]
    simp only [session, hmain]
    exact .inl trivial
  · exact congrArg BlockExec.output hblock.1

/-- The reconnect. The body block is as new, and the first push moves none of the pattern states. -/
theorem reconnect_alike (h : t.Counting) (hf : t.conn.fault = false) (hstate : t.conn.state = .disconnected)
    (hlist : t.conn.requestList ≠ []) (hblock : t.conn.responseParser.bodyBlock = .init)
    (hroots : t.vpt.patRoots = patRoots) (hignores : t.vpt.Ignores .langHttp) :
    Option.Rel (Alike t patRoots) (t.reconnect host) ((t.fresh patRoots).reconnect host) := by
  have hhost (c : FetchConnection) : (c.getGoing host).fetchHost = host := by
    unfold FetchConnection.getGoing
    simp only
    split_ifs <;> rfl
  have hnew : (t.conn.fresh.restarted host).bodyBlock = .init ∧ (t.conn.fresh.restarted host).fault = false ∧
      (t.conn.fresh.restarted host).core = (HttpResponse.init true true true).goto .main := by
    rw [FetchConnection.restarted, FetchConnection.fresh_eq]
    exact ⟨rfl, rfl, rfl⟩
  refine connectComplete_rel ((hhost _).trans (hhost _).symm) hroots hignores t.fresh_ignores fun v w hvw => ?_
  refine ⟨FetchConnection.reconnect_alike host h.steady hf hstate hlist hblock, ?_⟩
  refine between_start (FetchConnection.reconnect_good host h.steady hf hstate hlist).response
    (FetchConnection.fresh_reconnect_good host t.conn hlist).response ?_ ⟨h.chunks, ?_⟩ rfl ⟨hblock, hnew.1⟩ ?_ hvw
  · rw [hnew.2.2]
    exact FetchConnection.live_start h.steady.kept.1
  · rw [hnew.2.2]
    exact le_refl 0
  · exact (h.steady.alive hf).trans hnew.2.1.symm

theorem stream_alike (h : t.Counting) (hf : t.conn.fault = false) (hstate : t.conn.state = .disconnected)
    (hlist : t.conn.requestList ≠ []) (hblock : t.conn.responseParser.bodyBlock = .init)
    (hroots : t.vpt.patRoots = patRoots) (hignores : t.vpt.Ignores .langHttp) (ds : List Text) :
    Option.Rel (Alike t patRoots) (t.stream decode host ds) ((t.fresh patRoots).stream decode host ds) :=
  rel_bind (reconnect_alike h hf hstate hlist hblock hroots hignores) fun _ _ hxy =>
    rel_foldlM (Q := fun _ => True) (fun _ _ bytes hnext _ => hnext.dataAvail bytes) hxy fun _ _ => trivial

theorem startsClean_of (h : t.Counting) (hf : t.conn.fault = false) (hstate : t.conn.state = .disconnected)
    (hlist : t.conn.requestList ≠ []) (hblock : t.conn.responseParser.bodyBlock = .init)
    (hroots : t.vpt.patRoots = patRoots) (hignores : t.vpt.Ignores .langHttp) :
    t.StartsClean decode patRoots host := by
  refine ⟨FetchConnection.startsClean_of_init host h.steady hf hstate hlist hblock, ?_, ?_⟩
  · intro cs hcs
    rcases cs with _ | ⟨c, cs⟩
    · -- nothing has been pushed
      show some (t.vpt.since t.vpt) = some ((initVpt patRoots).since (initVpt patRoots))
      simp [VPT.since, hroots, initVpt]
    · obtain ⟨rfl, hrest⟩ := List.cons_prefix_cons.mp hcs
      refine rel_map_eq (calls_alike hroots hignores t.fresh_ignores ?_) fun _ _ hvw => hvw.since
      exact fun c hc => hostCalls_above host c (hrest.subset hc)
  · exact fun ds => rel_map_eq (stream_alike h hf hstate hlist hblock hroots hignores ds) fun _ _ hxy => hxy.since

/-- What the first push shows of the tree. -/
theorem ignores_of_clean (h : t.StartsClean decode patRoots host) :
    t.vpt.patRoots = patRoots ∧ t.vpt.Ignores .langHttp := by
  have hroots : t.vpt.patRoots = patRoots := by
    have hnone := Option.some.inj (h.opening [] List.nil_prefix)
    exact congrArg Gain.patRoots hnone
  refine ⟨hroots, (advance_ignores t.vpt.vt.active).mp ?_⟩
  have hpush := h.opening [.push .langHttp] (List.prefix_append _ _)
  rw [calls_push, calls_push, VPT.push, VPT.push, hroots] at hpush
  cases hadvance : advance .langHttp t.vpt.vt.active with
  | none =>
    rw [hadvance] at hpush
    cases hpush
  | some r =>
    rw [hadvance] at hpush
    have hactive : r.2 = [] := by
      simpa [VPT.since, fresh, new, initVpt] using
        congrArg (fun g : Gain => g.nodes.map StackNode.active) (Option.some.inj hpush)
    exact ⟨r.1, congrArg some (Prod.ext rfl hactive)⟩

end Reconnect

end FetchTree

/-- A host, and then a response with a header. Another node than the header is a failure with a handler. -/
def hostAndHeader : PatNode :=
  .mk .connTls [] false false false false
    [.mk .connHost (bytes "host") true false false false [],
      .mk .httpResponse [] false false false false
        [.mk .httpHead [] false true false false [.mk .httpHeader [] true false false false []]]]

/-- One pattern, and requests that are written at once. -/
def onePattern : System FetchTree FetchEvent :=
  fetchTree (fun _ _ _ => []) [hostAndHeader] 1 fun _ => ⟨1000, 18, 1000⟩

/-- A connection that is lost after some bytes of a response, with another request to send. -/
def loseAfter (received : Text) : List FetchEvent :=
  .queueRequest ⟨1, bytes "GET / HTTP/1.1\r\n\r\n"⟩ :: sendOne ++ [.readReady [some received, none]]

-- A connection lost before the first byte. `LangHttp` is pushed on the open `ConnTls`, where a pattern without
-- a handler of failures waits for the response.
example : (run onePattern onePattern.init (sendOne ++ [.queueRequest ⟨1, []⟩, .readReady [none]])).map
    (fun t => (t.reconnect (bytes "host")).isSome) = some false := rfl

end Netp.Parse
