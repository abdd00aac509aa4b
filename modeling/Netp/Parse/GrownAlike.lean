import Netp.Lib.Refine
import Netp.Parse.Body

/-! # Two trees that grow alike

What is pushed on a tree stands on top of the nodes that were open before. `GrownAlike v₀ w₀` says of two
trees that since `v₀` and `w₀` they have got the same nodes with the same pattern states, and the same
matches. The lowest of these nodes is `LangHttp`, which no parser pops; so the calls of the parsers do not
reach what is below it, and the two trees go on alike.
-/

namespace Netp.Parse
open Netp.Lib
set_option autoImplicit false

/-- What a tree has got since an earlier one: the nodes on top, and the matches. The patterns are those it
looks for now. -/
structure Gain where
  nodes : List StackNode
  patRoots : List PatNode
  matched : List (PatRef × Node)

def VPT.since (v v₀ : VPT) : Gain where
  nodes := (v.vt :: v.vs).take (v.vs.length - v₀.vs.length)
  patRoots := v.patRoots
  matched := v.matched.drop v₀.matched.length

/-- The counts of the nodes, of which there are `n` more than at first. Inside a barrier the nodes on top of
it are counted, and the barrier has the count of the others. -/
def Counted (v₀ w₀ : VPT) (n : ℕ) (v w : VPT) : Bool → Prop
  | false => v.topBarrier = v₀.topBarrier + n ∧ w.topBarrier = w₀.topBarrier + n
  | true => ∃ i < n, v.topBarrier = i ∧ w.topBarrier = i ∧
      v.barriers.head? = some (v₀.topBarrier + (n - i)) ∧ w.barriers.head? = some (w₀.topBarrier + (n - i))

/-- The two trees have got the same since `v₀` and `w₀`. -/
structure GrownAlike (v₀ w₀ : VPT) (inside : Bool) (v w : VPT) : Prop where
  vt : v.vt = w.vt
  patRoots : v.patRoots = w.patRoots
  matched : ∃ ms, v.matched = v₀.matched ++ ms ∧ w.matched = w₀.matched ++ ms
  stack : ∃ top bv bw, v.vs = top ++ bv ∧ w.vs = top ++ bw ∧
    bv.length = v₀.vs.length + 1 ∧ bw.length = w₀.vs.length + 1 ∧
      (∃ ts, (v.vt :: top).map StackNode.type = ts ++ [.langHttp]) ∧
        Counted v₀ w₀ (top.length + 1) v w inside

/-- The type of the node that a call pops. -/
def TreeCall.pops : TreeCall → Option NodeType
  | .pop type | .popOr type | .appendChar type _ => some type
  | _ => none

variable {v₀ w₀ v w : VPT} {inside : Bool} {t : NodeType}

namespace VPT

theorem pop_barriers {r : VPT × Bool} (h : v.pop t = some r) : r.1.barriers = v.barriers := by
  rw [pop] at h
  split_ifs at h
  · cases h
    rfl
  · cases h
    rfl
  · split at h <;> cases h
    rfl

theorem clear_barriers {n : ℕ} {x : VPT} (h : clear n v = some x) : x.barriers = v.barriers := by
  induction n generalizing v with
  | zero =>
    cases h
    rfl
  | succ n ih =>
    obtain ⟨r, hr, h⟩ := Option.bind_eq_some_iff.mp h
    exact (ih h).trans (pop_barriers hr)

theorem popBarrier_eq {b : ℕ} (h : v.barriers.head? = some b) :
    v.popBarrier = (clear v.topBarrier v).map fun x => { x with topBarrier := b } := by
  obtain ⟨bs, hbs⟩ := List.head?_eq_some_iff.mp h
  rw [popBarrier, hbs]

end VPT

/-! ## The first push -/

/-- No pattern state at the node on top takes a node of the type for its next child, or fails on it without
a handler. -/
def VPT.Ignores (v : VPT) (type : NodeType) : Prop :=
  ∀ st ∈ v.vt.active, ∀ child ∈ st.nextChild,
    child.node.type ≠ type ∧ (child.node.skip = true ∨ st.node.node.onFailure = true)

instance (v : VPT) (type : NodeType) : Decidable (v.Ignores type) :=
  inferInstanceAs (Decidable (∀ st ∈ v.vt.active, ∀ child ∈ st.nextChild,
    child.node.type ≠ type ∧ (child.node.skip = true ∨ st.node.node.onFailure = true)))

theorem advance_ignores (sts : List PatState) : (∃ keep, advance t sts = some (keep, [])) ↔
    ∀ st ∈ sts, ∀ child ∈ st.nextChild,
      child.node.type ≠ t ∧ (child.node.skip = true ∨ st.node.node.onFailure = true) := by
  induction sts with
  | nil => simp [advance]
  | cons st sts ih =>
    rw [List.forall_mem_cons, ← ih, advance]
    cases hnext : st.nextChild with
    | none => simp
    | some child =>
      by_cases htype : child.node.type = t
      · simp [htype]
      · by_cases hskip : child.node.skip = true
        · simp [htype, hskip]
        · by_cases hfail : st.node.node.onFailure = true <;> simp [htype, hskip, hfail]

namespace GrownAlike

/-- `LangHttp` is pushed on each of two trees, which look for the same patterns. -/
theorem start (hroots : v.patRoots = w.patRoots) (hv : v.Ignores .langHttp) (hw : w.Ignores .langHttp) :
    Option.Rel (GrownAlike v w false) (v.push .langHttp) (w.push .langHttp) := by
  obtain ⟨keep, hkeep⟩ := (advance_ignores v.vt.active).mpr hv
  obtain ⟨keep', hkeep'⟩ := (advance_ignores w.vt.active).mpr hw
  rw [VPT.push, VPT.push, hkeep, hkeep', hroots]
  exact .some ⟨rfl, rfl, ⟨[], (List.append_nil _).symm, (List.append_nil _).symm⟩, [], _, _, rfl, rfl, rfl, rfl,
    ⟨[], rfl⟩, rfl, rfl⟩

theorem since (h : GrownAlike v₀ w₀ inside v w) : v.since v₀ = w.since w₀ := by
  obtain ⟨hvt, hroots, ⟨ms, hv, hw⟩, top, bv, bw, hvs, hws, hbv, hbw, -⟩ := h
  have htake : ∀ {vt : StackNode} {b : List StackNode} {n : ℕ}, b.length = n + 1 →
      (vt :: (top ++ b)).take ((top ++ b).length - n) = vt :: top := by
    intro vt b n hb
    have hlen : (top ++ b).length - n = top.length + 1 := by
      rw [List.length_append]
      omega
    rw [hlen, List.take_succ_cons, List.take_left']
    rfl
  simp only [VPT.since, hvt, hroots, hv, hw, hvs, hws, List.drop_left, htake hbv, htake hbw]

theorem push (h : GrownAlike v₀ w₀ inside v w) (t : NodeType) :
    Option.Rel (GrownAlike v₀ w₀ inside) (v.push t) (w.push t) := by
  obtain ⟨hvt, hroots, hmatched, top, bv, bw, hvs, hws, hbv, hbw, ⟨ts, htypes⟩, hcount⟩ := h
  simp only [VPT.push, hvt, hroots]
  cases advance t w.vt.active with
  | none => exact .none
  | some a =>
    refine .some ⟨rfl, rfl, hmatched, { w.vt with active := a.1 } :: top, bv, bw, ?_, ?_, hbv, hbw, ?_, ?_⟩
    · rw [hvs, List.cons_append]
    · rw [hws, List.cons_append]
    · refine ⟨t :: ts, ?_⟩
      rw [hvt] at htypes
      rw [List.cons_append, ← htypes]
      rfl
    · cases inside with
      | false => exact ⟨congrArg (· + 1) hcount.1, congrArg (· + 1) hcount.2⟩
      | true =>
        obtain ⟨i, hi, hv, hw, hbarv, hbarw⟩ := hcount
        refine ⟨i + 1, by simpa using hi, congrArg (· + 1) hv, congrArg (· + 1) hw, ?_, ?_⟩
        · rw [List.length_cons, Nat.add_sub_add_right]
          exact hbarv
        · rw [List.length_cons, Nat.add_sub_add_right]
          exact hbarw

theorem fail (h : GrownAlike v₀ w₀ inside v w) : GrownAlike v₀ w₀ inside
    { v with vptErrorOccurred := true } { w with vptErrorOccurred := true } :=
  ⟨h.vt, h.patRoots, h.matched, h.stack⟩

theorem count_zero (h : GrownAlike v₀ w₀ inside v w) : v.topBarrier = 0 ↔ w.topBarrier = 0 := by
  obtain ⟨-, -, -, top, -, -, -, -, -, -, -, hcount⟩ := h
  cases inside with
  | false =>
    obtain ⟨hv, hw⟩ := hcount
    omega
  | true =>
    obtain ⟨i, -, hv, hw, -⟩ := hcount
    rw [hv, hw]

/-- A node that is popped was pushed since then. -/
theorem below (h : GrownAlike v₀ w₀ inside v w) (ht : inside = true ∨ v.vt.type ≠ .langHttp)
    (hcount : v.topBarrier ≠ 0) : ∃ below top bv bw, v.vs = below :: (top ++ bv) ∧
      w.vs = below :: (top ++ bw) ∧ bv.length = v₀.vs.length + 1 ∧ bw.length = w₀.vs.length + 1 ∧
        (∃ ts, (below :: top).map StackNode.type = ts ++ [.langHttp]) ∧
          Counted v₀ w₀ (top.length + 2) v w inside := by
  obtain ⟨-, -, -, top, bv, bw, hvs, hws, hbv, hbw, ⟨ts, htypes⟩, hcounted⟩ := h
  cases top with
  | nil =>
    exfalso
    cases inside with
    | false =>
      have hlen := congrArg List.length htypes
      rw [List.length_map, List.length_append, List.length_singleton, List.length_singleton] at hlen
      obtain rfl : ts = [] := List.length_eq_zero_iff.mp (by omega)
      exact ht.elim Bool.noConfusion fun hne => hne (List.cons.inj htypes).1
    | true =>
      obtain ⟨i, hi, hv, -⟩ := hcounted
      rw [List.length_nil] at hi
      omega
  | cons below top =>
    refine ⟨below, top, bv, bw, hvs, hws, hbv, hbw, ?_, hcounted⟩
    cases ts with
    | nil => exact absurd (List.cons.inj htypes).2 (List.cons_ne_nil _ _)
    | cons u ts => exact ⟨ts, (List.cons.inj htypes).2⟩

theorem pop (h : GrownAlike v₀ w₀ inside v w) (ht : inside = true ∨ t ≠ .langHttp) :
    Option.Rel (fun p q => p.2 = q.2 ∧ GrownAlike v₀ w₀ inside p.1 q.1) (v.pop t) (w.pop t) := by
  by_cases hfail : v.vt.type ≠ t ∨ v.topBarrier = 0
  · have hfail' : w.vt.type ≠ t ∨ w.topBarrier = 0 := by rwa [← h.vt, ← h.count_zero]
    rw [VPT.pop_fails hfail, VPT.pop_fails hfail']
    exact .some ⟨rfl, h.fail⟩
  · obtain ⟨htype, hcount⟩ := not_or.mp hfail
    have htype := not_not.mp htype
    obtain ⟨below, top, bv, bw, hvs, hws, hbv, hbw, htypes, hcounted⟩ := h.below (by rwa [htype]) hcount
    obtain ⟨ms, hv, hw⟩ := h.matched
    have hpromoted : v.promoted = w.promoted := by rw [VPT.promoted, VPT.promoted, h.vt]
    have hcompleted : v.completed = w.completed := by rw [VPT.completed, VPT.completed, h.vt]
    have htop : v.top = w.top := by rw [VPT.top, VPT.top, h.vt]
    rw [VPT.pop, VPT.pop, if_neg (not_not.mpr htype), if_neg hcount, if_neg (by rw [← h.vt]; exact not_not.mpr htype),
      if_neg (by rwa [← h.count_zero]), hvs, hws]
    refine .some ⟨rfl, ?_, h.patRoots, ⟨ms ++ v.completed.map fun st => (st.node, v.top), ?_, ?_⟩, top, bv, bw,
      rfl, rfl, hbv, hbw, htypes, ?_⟩
    · rw [hpromoted, htop]
    · rw [hv, List.append_assoc]
    · rw [hw, List.append_assoc, hcompleted, htop]
    · cases inside with
      | false =>
        obtain ⟨hv, hw⟩ := hcounted
        exact ⟨by simp only [hv]; omega, by simp only [hw]; omega⟩
      | true =>
        obtain ⟨i, hi, hv, hw, hbarv, hbarw⟩ := hcounted
        refine ⟨i - 1, by omega, by simp only [hv], by simp only [hw], ?_, ?_⟩
        · rw [hbarv, show top.length + 2 - i = top.length + 1 - (i - 1) by omega]
        · rw [hbarw, show top.length + 2 - i = top.length + 1 - (i - 1) by omega]

theorem setText (h : GrownAlike v₀ w₀ inside v w) (text : Text) :
    GrownAlike v₀ w₀ inside (v.setText text) (w.setText text) := by
  refine ⟨?_, h.patRoots, h.matched, h.stack⟩
  rw [VPT.setText, VPT.setText, h.vt]

/-- The last node has another character. -/
theorem appendLast (h : GrownAlike v₀ w₀ inside v w) (c : UInt8) : GrownAlike v₀ w₀ inside
    { v with vt := { v.vt with
        children := v.vt.children.dropLast ++ (v.vt.children.getLast?.map (·.append c)).toList } }
    { w with vt := { w.vt with
        children := w.vt.children.dropLast ++ (w.vt.children.getLast?.map (·.append c)).toList } } := by
  refine ⟨?_, h.patRoots, h.matched, h.stack⟩
  simp only [h.vt]

theorem appendChar (h : GrownAlike v₀ w₀ inside v w) (ht : inside = true ∨ t ≠ .langHttp) (c : UInt8) :
    Option.Rel (GrownAlike v₀ w₀ inside) (v.appendChar t c) (w.appendChar t c) := by
  have hfresh : Option.Rel (GrownAlike v₀ w₀ inside) ((v.push t).bind fun x => (x.pop t).map Prod.fst)
      ((w.push t).bind fun x => (x.pop t).map Prod.fst) :=
    rel_bind (h.push t) fun x y hxy => rel_map (hxy.pop ht) fun p q hpq => hpq.2
  unfold VPT.appendChar
  refine rel_map (R := GrownAlike v₀ w₀ inside) ?_ fun x y hxy => hxy.appendLast c
  rw [h.vt]
  split
  · exact hfresh
  · split_ifs
    · exact .some h
    · exact hfresh

theorem perform (h : GrownAlike v₀ w₀ inside v w) {c : TreeCall}
    (hc : inside = true ∨ c.pops ≠ some .langHttp) :
    Option.Rel (fun p q => p.2 = q.2 ∧ GrownAlike v₀ w₀ inside p.1 q.1) (v.perform c) (w.perform c) := by
  cases c with
  | push type => exact rel_map (h.push type) fun _ _ hxy => ⟨rfl, hxy⟩
  | setText text => exact .some ⟨rfl, h.setText text⟩
  | pop type =>
    exact rel_map (h.pop (hc.imp_right fun hne heq => hne (congrArg some heq))) fun _ _ hxy => ⟨rfl, hxy.2⟩
  | popOr type => exact h.pop (hc.imp_right fun hne heq => hne (congrArg some heq))
  | appendChar type c =>
    exact rel_map (h.appendChar (hc.imp_right fun hne heq => hne (congrArg some heq)) c)
      fun _ _ hxy => ⟨rfl, hxy⟩

theorem performAll {cs : List TreeCall} (hcs : inside = true ∨ ∀ c ∈ cs, c.pops ≠ some .langHttp) :
    ∀ {v w : VPT}, GrownAlike v₀ w₀ inside v w →
      Option.Rel (fun p q => p.2 = q.2 ∧ GrownAlike v₀ w₀ inside p.1 q.1)
        (v.performAll cs) (w.performAll cs) := by
  induction cs with
  | nil => exact fun h => .some ⟨rfl, h⟩
  | cons c cs ih =>
    intro v w h
    refine rel_bind (h.perform (hcs.imp_right fun hall => hall c List.mem_cons_self)) fun p q hpq => ?_
    rw [hpq.1]
    split_ifs
    · exact ih (hcs.imp_right fun hall d hd => hall d (List.mem_cons_of_mem c hd)) hpq.2
    · exact .some ⟨rfl, hpq.2⟩

/-! ## The barrier -/

theorem pushBarrier (h : GrownAlike v₀ w₀ false v w) : GrownAlike v₀ w₀ true v.pushBarrier w.pushBarrier := by
  obtain ⟨hvt, hroots, hmatched, top, bv, bw, hvs, hws, hbv, hbw, htypes, hv, hw⟩ := h
  refine ⟨hvt, hroots, hmatched, top, bv, bw, hvs, hws, hbv, hbw, htypes, 0, by omega, rfl, rfl, ?_, ?_⟩
  · exact congrArg some hv
  · exact congrArg some hw

theorem clear {n : ℕ} : ∀ {v w : VPT}, GrownAlike v₀ w₀ true v w → v.topBarrier = n →
    Option.Rel (fun x y => GrownAlike v₀ w₀ true x y ∧ x.topBarrier = 0) (VPT.clear n v) (VPT.clear n w) := by
  induction n with
  | zero => exact fun h hn => .some ⟨h, hn⟩
  | succ n ih =>
    intro v w h hn
    have hpop := h.pop (t := v.vt.type) (.inl rfl)
    obtain ⟨below, top, bv, -, hvs, -⟩ := h.below (.inl rfl) (by omega)
    have hcount : ∀ r, v.pop v.vt.type = some r → r.1.topBarrier = n := by
      intro r hr
      rw [VPT.pop, if_neg (not_not.mpr rfl), if_neg (by omega), hvs] at hr
      cases hr
      simp only [hn, Nat.add_sub_cancel]
    rw [VPT.clear, VPT.clear, ← h.vt]
    exact rel_bind (rel_results hpop) fun p q hpq => ih hpq.2.2.2 (hcount p hpq.1)

/-- The barrier has the count of the nodes that were open before it. -/
theorem popBarrier (h : GrownAlike v₀ w₀ true v w) :
    Option.Rel (GrownAlike v₀ w₀ false) v.popBarrier w.popBarrier := by
  obtain ⟨top, -, -, -, -, -, -, -, i, -, hv, hw, hbarv, hbarw⟩ := h.stack
  rw [VPT.popBarrier_eq hbarv, VPT.popBarrier_eq hbarw, hv, hw]
  refine rel_map (rel_results (h.clear hv)) ?_
  rintro x y ⟨hx, hy, hxy, hzero⟩
  obtain ⟨hvt, hroots, hmatched, top', bv, bw, hvs, hws, hbv, hbw, htypes, j, -, hj, -, hbarx, hbary⟩ := hxy
  rw [hzero] at hj
  rw [VPT.clear_barriers hx, hbarv, ← hj] at hbarx
  rw [VPT.clear_barriers hy, hbarw, ← hj] at hbary
  exact ⟨hvt, hroots, hmatched, top', bv, bw, hvs, hws, hbv, hbw, htypes, Option.some.inj hbarx, Option.some.inj hbary⟩

end GrownAlike

/-! ## The parsers of bodies -/

theorem Html.start_alike (h : GrownAlike v₀ w₀ false v w) :
    Option.Rel (fun p q => p.1 = q.1 ∧ GrownAlike v₀ w₀ true p.2 q.2) (Html.start v) (Html.start w) :=
  rel_map (h.push .langHtml) fun _ _ hxy => ⟨rfl, hxy.pushBarrier⟩

theorem Html.receive_alike (data : Text) : ∀ {m : Html} {v w : VPT}, GrownAlike v₀ w₀ true v w →
    Option.Rel (fun p q => p.1 = q.1 ∧ GrownAlike v₀ w₀ true p.2 q.2) (m.receive v data) (m.receive w data) := by
  induction data with
  | nil => exact fun h => .some ⟨rfl, h⟩
  | cons b data ih =>
    intro m v w h
    rw [Html.receive, Html.receive]
    split_ifs
    · exact .some ⟨rfl, h⟩
    · refine rel_bind (h.performAll (.inl rfl)) fun p q hpq => ?_
      rw [hpq.1]
      exact ih hpq.2

theorem Html.finish_alike (h : GrownAlike v₀ w₀ true v w) :
    Option.Rel (GrownAlike v₀ w₀ false) (Html.finish v) (Html.finish w) :=
  rel_bind h.popBarrier fun _ _ hxy =>
    rel_map (hxy.pop (.inr (by decide))) fun _ _ hpq => hpq.2

namespace Json

/-- The calls of a move pop no `LangHttp`. -/
def Move.Above (m : Move) : Prop := ∀ c ∈ m.calls, c.pops ≠ some .langHttp

variable {j : Json} {b : UInt8}

theorem quiet_above {m : Move} (h : m.calls = []) : m.Above := by
  intro c hc
  rw [h] at hc
  cases hc

theorem fcall_above {target callee : State} {calls : List TreeCall} (h : ∀ c ∈ calls, c.pops = none) :
    (j.fcall calls target callee).Above := by
  intro c hc
  simp [h c hc]

theorem fret_above {calls : List TreeCall} {hold : Bool} (h : ∀ c ∈ calls, c.pops ≠ some .langHttp) :
    (j.fret calls hold).Above := by
  unfold fret
  split
  · exact quiet_above rfl
  · exact h

theorem ignoring_above {i : Ignore} {place : Ignore → State} {other : Move} (h : other.Above) :
    (j.ignoring i b place other).Above := by
  unfold ignoring
  split
  · exact quiet_above rfl
  · split_ifs
    · exact h
    · exact quiet_above rfl

theorem beginValue_above : (j.beginValue b).Above := by
  unfold beginValue
  split_ifs <;> first | exact quiet_above rfl | exact fcall_above (by simp [TreeCall.pops])

theorem literalStep_above (rest : Text) : (j.literalStep rest b).Above := by
  unfold literalStep
  split
  · exact quiet_above rfl
  · split_ifs
    · simp [Move.Above, TreeCall.pops]
    · exact quiet_above rfl
  · split_ifs <;> exact quiet_above rfl

theorem numberStep_above (n : NumberState) : (j.numberStep n b).Above := by
  have hend : j.numberEnd.Above := fret_above (by simp [TreeCall.pops])
  cases n <;> simp only [numberStep] <;> split_ifs <;> first | exact quiet_above rfl | exact hend

theorem stringStep_above (q : QuoteState) : (j.stringStep q b).Above := by
  unfold stringStep
  split <;> split_ifs <;> first | exact quiet_above rfl | exact fret_above (by simp [TreeCall.pops])

theorem nameStep_above (q : QuoteState) : (j.nameStep q b).Above := by
  unfold nameStep
  simp only
  split <;> split_ifs <;> first | exact quiet_above rfl | exact fret_above (by simp [TreeCall.pops])

theorem arrayStep_above (a : ArrayState) (i : Ignore) : (j.arrayStep a i b).Above := by
  have hclose : (j.fret [.popOr .jsonArray] false).Above := fret_above (by simp [TreeCall.pops])
  cases a <;> simp only [arrayStep]
  case start => split_ifs <;> exact quiet_above rfl
  all_goals
    refine ignoring_above ?_
    split_ifs <;> first | exact quiet_above rfl | exact hclose

theorem objectStep_above (o : ObjectState) (i : Ignore) : (j.objectStep o i b).Above := by
  have hname : j.callName.Above := fcall_above (by simp [TreeCall.pops])
  cases o <;> simp only [objectStep]
  case start => split_ifs <;> exact quiet_above rfl
  case opened =>
    refine ignoring_above ?_
    split_ifs
    · exact hname
    · exact fret_above (by simp [TreeCall.pops])
    · exact quiet_above rfl
  case field =>
    refine ignoring_above ?_
    split_ifs
    · simp [Move.Above, TreeCall.pops]
    · exact fret_above (by simp [TreeCall.pops])
    · exact quiet_above rfl
  all_goals
    refine ignoring_above ?_
    split_ifs <;> first | exact quiet_above rfl | exact hname

theorem trans_above : (j.trans b).Above := by
  cases hcs : j.cs <;> simp only [trans, hcs]
  case value i => exact ignoring_above beginValue_above
  case literal rest => exact literalStep_above rest
  case valueEnd => exact fret_above fun c hc => absurd hc List.not_mem_nil
  case number n => exact numberStep_above n
  case string q => exact stringStep_above q
  case name q => exact nameStep_above q
  case array a i => exact arrayStep_above a i
  case object o i => exact objectStep_above o i
  case guard rest =>
    rcases rest with _ | ⟨c, _ | ⟨d, rest⟩⟩
    · exact quiet_above rfl
    · dsimp only
      split_ifs <;> exact quiet_above rfl
    · dsimp only
      split_ifs <;> exact quiet_above rfl
  all_goals split_ifs <;> exact quiet_above rfl

theorem step_above (n : ℕ) : ∀ {j : Json}, ∀ c ∈ (step n j b).2, c.pops ≠ some .langHttp := by
  induction n with
  | zero => exact fun c hc => absurd hc List.not_mem_nil
  | succ n ih =>
    intro j c hc
    rw [step] at hc
    simp only at hc
    split_ifs at hc
    · rcases List.mem_append.mp hc with hc | hc
      · exact trans_above c hc
      · exact ih c hc
    · exact trans_above c hc

theorem receive_alike (data : Text) : ∀ {j : Json} {v w : VPT}, GrownAlike v₀ w₀ false v w →
    Option.Rel (fun p q => p.1 = q.1 ∧ GrownAlike v₀ w₀ false p.2 q.2) (j.receive v data)
      (j.receive w data) := by
  induction data with
  | nil => exact fun h => .some ⟨rfl, h⟩
  | cons b data ih =>
    intro j v w h
    rw [receive, receive]
    split_ifs
    · exact .some ⟨rfl, h⟩
    · refine rel_bind (h.performAll (.inr (step_above reads))) fun p q hpq => ?_
      rw [hpq.1]
      exact ih hpq.2

end Json

namespace BodyParser

/-- The HTML parser has put a barrier on the tree. -/
def barrier : Option BodyLang → Bool
  | some (.html _) => true
  | _ => false

variable {contentType : ContentType} {packet : Bool}

/-- The parsers are the same, and the trees have grown alike under them. -/
def Alike (v₀ w₀ : VPT) (p q : Option BodyLang × VPT) : Prop :=
  p.1 = q.1 ∧ GrownAlike v₀ w₀ (barrier p.1) p.2 q.2

theorem decidedType_alike (h : GrownAlike v₀ w₀ false v w) (fileType : FileType) :
    Option.Rel (Alike v₀ w₀) (decidedType contentType packet fileType v)
      (decidedType contentType packet fileType w) := by
  unfold decidedType
  split_ifs
  · exact rel_map (Html.start_alike h) fun p q hpq => ⟨congrArg (fun m => some (BodyLang.html m)) hpq.1, hpq.2⟩
  · exact rel_map (h.push .langJson) fun x y hxy => ⟨rfl, hxy⟩
  all_goals
    refine rel_map (h.performAll (.inr ?_)) fun p q hpq => ⟨rfl, hpq.2⟩
    simp [TreeCall.pops]

theorem parse_alike {parser : Option BodyLang} (h : GrownAlike v₀ w₀ (barrier parser) v w) (data : Text) :
    Option.Rel (Alike v₀ w₀) (parse parser v data) (parse parser w data) := by
  match parser, h with
  | none, h => exact .some ⟨rfl, h⟩
  | some (.html m), h =>
    exact rel_map (Html.receive_alike data h) fun p q hpq =>
      ⟨congrArg (fun m => some (BodyLang.html m)) hpq.1, hpq.2⟩
  | some (.json j), h =>
    exact rel_map (Json.receive_alike data h) fun p q hpq =>
      ⟨congrArg (fun j => some (BodyLang.json j)) hpq.1, hpq.2⟩

/-- A parser is chosen when the type has been decided. -/
def Waits (b : BodyParser) : Prop := b.identifier.fileType = .working → b.parser = none

/-- The same for body parsers. -/
structure Same (v₀ w₀ : VPT) (p q : BodyParser × VPT) : Prop where
  body : p.1 = q.1
  waits : p.1.Waits
  tree : GrownAlike v₀ w₀ (barrier p.1.parser) p.2 q.2

theorem receive_same {b c : BodyParser} (h : Same v₀ w₀ (b, v) (c, w)) (data : Text) :
    Option.Rel (Same v₀ w₀) (receive contentType packet b v data) (receive contentType packet c w data) := by
  obtain rfl : b = c := h.body
  have hwait : b.identifier.fileType = .working → b.parser = none := h.waits
  have htree : GrownAlike v₀ w₀ (barrier b.parser) v w := h.tree
  unfold receive
  simp only
  generalize hid : (if b.identifier.fileType = .working then b.identifier.receive data else b.identifier) = identifier
  split_ifs with hdecide
  · -- the type is decided now
    have hnone := hwait hdecide.1
    rw [hnone] at htree
    refine rel_bind (decidedType_alike htree identifier.fileType) fun p q hpq => ?_
    rw [← hpq.1]
    exact rel_map (parse_alike hpq.2 data) fun x y hxy =>
      ⟨congrArg (BodyParser.mk identifier) hxy.1, fun hworking => absurd hworking hdecide.2, hxy.2⟩
  · refine rel_map (rel_results (parse_alike htree data)) ?_
    rintro x y ⟨hx, -, hxy⟩
    refine ⟨congrArg (BodyParser.mk identifier) hxy.1, ?_, hxy.2⟩
    intro hworking
    have hfirst : b.identifier.fileType = .working := by
      by_contra hne
      rw [if_neg hne] at hid
      exact hne (hid ▸ hworking)
    rw [hwait hfirst] at hx
    exact (congrArg Prod.fst (Option.some.inj hx)).symm

theorem finish_same {b c : BodyParser} (h : Same v₀ w₀ (b, v) (c, w)) :
    Option.Rel (fun p q => GrownAlike v₀ w₀ false p.2 q.2) (b.finish v) (c.finish w) := by
  obtain rfl : b = c := h.body
  have h : GrownAlike v₀ w₀ (barrier b.parser) v w := h.tree
  unfold finish
  cases hb : b.parser with
  | none =>
    rw [hb] at h
    exact .some h
  | some l =>
    rw [hb] at h
    cases l with
    | html m => exact rel_map (Html.finish_alike h) fun _ _ hxy => hxy
    | json j => exact rel_map (h.pop (.inr (by decide))) fun _ _ hpq => hpq.2

end BodyParser

end Netp.Parse
