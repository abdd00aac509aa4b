import Netp.Parse.Failure
import Mathlib.Data.List.Perm.Basic

/-! # Which failure handlers are called

For any pattern nodes with any handlers, and any calls of `push`, `setText`, `appendChar` and `pop`.
`Right` says of one call which states it removes, and that the `onFailure` of a pattern node is called
exactly for the states removed for a child of another type, for another text, or after `MatchFail`.
It holds of every call that ends. A call ends unless a child of another type meets a state whose
pattern node has no `onFailure`.
-/

namespace Netp.Parse.Failure
open Netp.Lib Netp.Parse
set_option autoImplicit false
variable {ι μ ρ : Type}

section Spec
variable (pats : ι → PatNode ι μ)

/-- The next child is not the one that was pushed, and may not be skipped. -/
def mismatch (type : NodeType) (st : PatState ι) : Bool :=
  match st.nextChild with
  | none => false
  | some nextChild => (pats nextChild).type ≠ type && !(pats nextChild).skip

/-- A state that the push of a child leaves at the parent. -/
def stays (st : PatState ι) : Bool :=
  match st.nextChild with
  | none => true
  | some nextChild => (pats nextChild).skip

def wrongText (text : Text) (st : PatState ι) : Bool :=
  (pats st.node).text ≠ [] && (pats st.node).text ≠ text

/-- The calls of the failure handlers of these states. -/
def failures (node : Node) (sts : List (PatState ι)) : List (Call ι μ) :=
  sts.filterMap fun st => (pats st.node).onFailure.map fun object => .onFailure st.node object node

def Call.isFailure : Call ι μ → Bool
  | .onMatch _ _ _ => false
  | .onFailure _ _ _ => true

variable [DecidableEq μ]

/-- The first answer of an object that is not `MatchContinue`. -/
def stopped (object : μ) : List (Call ι μ) → Option MatchResult
  | [] => none
  | .onFailure _ _ _ :: cs => stopped object cs
  | .onMatch o _ result :: cs =>
      if o = object ∧ result ≠ .matchContinue then some result else stopped object cs

/-- What the objects answered for a state: `none` where it is kept. -/
def answer (calls : List (Call ι μ)) (st : PatState ι) : Option MatchResult :=
  (pats st.node).onMatch.bind fun object => stopped object calls

def PushRight (v w : VPT ι μ ρ) (type : NodeType) : Prop :=
  w.vs = { v.vt with active := v.vt.active.filter (stays pats) } :: v.vs ∧
  w.world.calls = v.world.calls ++
    failures pats (.mk type [] []) (v.vt.active.filter (mismatch pats type))

def TextRight (v w : VPT ι μ ρ) (text : Text) : Prop :=
  w.vt.active = v.vt.active.filter (fun st => !wrongText pats text st) ∧
  w.world.calls = v.world.calls ++
    failures pats (.mk v.vt.type text v.vt.children) (v.vt.active.filter (wrongText pats text))

/-- Of the states at the node those move up that no object stopped, and the handlers of those are
called that an object stopped with `MatchFail`. -/
def PopRight (v w : VPT ι μ ρ) (type : NodeType) : Prop :=
  if v.vt.type = type ∧ v.topBarrier ≠ 0 then
    ∃ below vs calls, v.vs = below :: vs ∧ w.world.calls = v.world.calls ++ calls ∧
      w.vt.active = below.active ++
        promote pats (v.vt.active.filter fun st => answer pats calls st = none) ∧
      (calls.filter Call.isFailure).Perm
        (failures pats v.top (v.vt.active.filter fun st => answer pats calls st = some .matchFail))
  else w.vt = v.vt ∧ w.world = v.world

/-- The calls of handlers that an event makes are the right ones. -/
def Right (v w : VPT ι μ ρ) : Event → Prop
  | .push type => PushRight pats v w type
  | .setText text => TextRight pats v w text
  | .appendChar type _ =>
      if v.fresh type then
        ∃ u x : VPT ι μ ρ, PushRight pats v u type ∧ PopRight pats u x type ∧
          w.vt.active = x.vt.active ∧ w.world = x.world
      else w.vt.active = v.vt.active ∧ w.world = v.world
  | .pop type => PopRight pats v w type

/-- No handler is missing that `push` calls. -/
def Handled (v : VPT ι μ ρ) (type : NodeType) : Prop :=
  ∀ st ∈ v.vt.active, mismatch pats type st = true → (pats st.node).onFailure.isSome

def Safe (v : VPT ι μ ρ) : Event → Prop
  | .push type => Handled pats v type
  | .appendChar type _ => v.fresh type = true → Handled pats v type
  | _ => True

end Spec

section Lists
variable (pats : ι → PatNode ι μ) (objs : μ → Node → ρ → ρ × MatchResult)

theorem failures_isFailure (node : Node) (sts : List (PatState ι)) :
    (failures pats node sts).filter Call.isFailure = failures pats node sts := by
  apply List.filter_eq_self.2
  intro c hc
  obtain ⟨st, -, hst⟩ := List.mem_filterMap.1 hc
  obtain ⟨object, -, rfl⟩ := Option.map_eq_some_iff.1 hst
  rfl

/-! ## The active set of `push` -/

@[simp] theorem mismatch_none (type : NodeType) (k : ι) : mismatch pats type ⟨k, none⟩ = false := rfl

@[simp] theorem mismatch_some (type : NodeType) (k n : ι) : mismatch pats type ⟨k, some n⟩ =
    ((pats n).type ≠ type && !(pats n).skip) := rfl

@[simp] theorem stays_none (k : ι) : stays pats ⟨k, none⟩ = true := rfl

@[simp] theorem stays_some (k n : ι) : stays pats ⟨k, some n⟩ = (pats n).skip := rfl

theorem failures_cons (node : Node) (st : PatState ι) (sts : List (PatState ι)) :
    failures pats node (st :: sts) =
      ((pats st.node).onFailure.map fun object => .onFailure st.node object node).toList ++
        failures pats node sts := by
  unfold failures
  rw [List.filterMap_cons]
  cases (pats st.node).onFailure <;> rfl

/-- The loop ends unless it comes to a state whose handler is missing. -/
theorem advance_ends_iff (type : NodeType) (node : Node) (active : List (PatState ι))
    (w : World ι μ ρ) : (∃ r, advance pats objs type node active w = .ok r) ↔
      ∀ st ∈ active, mismatch pats type st = true → (pats st.node).onFailure.isSome := by
  induction active generalizing w with
  | nil => simp [advance]
  | cons st sts ih =>
    obtain ⟨k, nextChild⟩ := st
    rw [List.forall_mem_cons]
    unfold advance
    cases nextChild with
    | none => simp [except_map_ends, ih]
    | some n =>
      simp only
      split
      · next htype => simp [except_map_ends, ih, htype]
      · next htype =>
        split
        · next hskip => simp [except_map_ends, ih, hskip]
        · next hskip =>
          cases hfail : (pats k).onFailure with
          | none => simp [htype, hskip]
          | some object => simp [ih]

theorem advance_spec (type : NodeType) (node : Node) (active : List (PatState ι))
    {w : World ι μ ρ} {r : Advanced ι μ ρ} (h : advance pats objs type node active w = .ok r) :
    r.parent = active.filter (stays pats) ∧
    r.world.calls = w.calls ++ failures pats node (active.filter (mismatch pats type)) := by
  induction active generalizing w r with
  | nil =>
    cases h
    simp [failures]
  | cons st sts ih =>
    obtain ⟨k, nextChild⟩ := st
    rw [List.filter_cons, List.filter_cons]
    unfold advance at h
    cases nextChild with
    | none =>
      obtain ⟨a, ha, rfl⟩ := except_map_ok.1 h
      obtain ⟨hparent, hcalls⟩ := ih ha
      simp [hparent, hcalls]
    | some n =>
      simp only at h
      split at h
      · next htype =>
        obtain ⟨a, ha, rfl⟩ := except_map_ok.1 h
        obtain ⟨hparent, hcalls⟩ := ih ha
        cases hskip : (pats n).skip with
        | true => simp [hparent, hcalls, htype, hskip]
        | false => simp [hparent, hcalls, htype, hskip]
      · next htype =>
        split at h
        · next hskip =>
          obtain ⟨a, ha, rfl⟩ := except_map_ok.1 h
          obtain ⟨hparent, hcalls⟩ := ih ha
          simp [hparent, hcalls, hskip]
        · next hskip =>
          cases hfail : (pats k).onFailure with
          | none => simp [hfail] at h
          | some object =>
            simp only [hfail] at h
            obtain ⟨hparent, hcalls⟩ := ih h
            simp [hparent, hcalls, hskip, htype, failures_cons, hfail, World.failure]

/-! ## The texts of `setText` -/

theorem compareText_spec (text : Text) (node : Node) (active : List (PatState ι))
    (w : World ι μ ρ) :
    (compareText pats objs text node active w).1 =
      active.filter (fun st => !wrongText pats text st) ∧
    (compareText pats objs text node active w).2.calls = w.calls ++
      failures pats node (active.filter (wrongText pats text)) := by
  induction active generalizing w with
  | nil => simp [compareText, failures]
  | cons st sts ih =>
    rw [List.filter_cons, List.filter_cons]
    have hwrong : wrongText pats text st = true ↔
        (pats st.node).text ≠ [] ∧ (pats st.node).text ≠ text := by simp [wrongText]
    unfold compareText
    by_cases hw : (pats st.node).text ≠ [] ∧ (pats st.node).text ≠ text
    · rw [if_pos hw, hwrong.2 hw]
      cases hfail : (pats st.node).onFailure with
      | none => simpa [failures_cons, hfail] using ih w
      | some object =>
        simpa [failures_cons, hfail, World.failure] using ih (w.failure objs st.node object node)
    · have hkeep : wrongText pats text st = false := by
        rw [← Bool.not_eq_true, hwrong]
        exact hw
      rw [if_neg hw, hkeep]
      simpa using ih w

/-! ## The answers in `pop` -/

variable [DecidableEq μ]

theorem stop_spec (object : μ) (result : MatchResult) (node : Node) (active : List (PatState ι))
    (w : World ι μ ρ) :
    (stop pats objs object result node active w).1 =
      active.filter (fun st => (pats st.node).onMatch ≠ some object) ∧
    (stop pats objs object result node active w).2.calls = w.calls ++
      failures pats node (active.filter fun st =>
        (pats st.node).onMatch = some object && result = .matchFail) := by
  induction active generalizing w with
  | nil => simp [stop, failures]
  | cons st sts ih =>
    rw [List.filter_cons, List.filter_cons]
    unfold stop
    by_cases hobj : (pats st.node).onMatch = some object
    · rw [if_pos hobj]
      cases result with
      | matchFail =>
        cases hfail : (pats st.node).onFailure with
        | none => simpa [hobj, failures_cons, hfail] using ih w
        | some failed =>
          simpa [hobj, failures_cons, hfail, World.failure] using
            ih (w.failure objs st.node failed node)
      | _ => simpa [hobj] using ih w
    · rw [if_neg hobj]
      simpa [hobj] using ih w

theorem stopped_failures (object : μ) (node : Node) (sts : List (PatState ι)) (cs : List (Call ι μ)) :
    stopped object (failures pats node sts ++ cs) = stopped object cs := by
  induction sts with
  | nil => rfl
  | cons st sts ih =>
    rw [failures_cons, List.append_assoc]
    cases (pats st.node).onFailure with
    | none => exact ih
    | some failed => exact ih

theorem answer_continue (object : μ) (node : Node) (cs : List (Call ι μ)) (st : PatState ι) :
    answer pats (.onMatch object node .matchContinue :: cs) st = answer pats cs st := by
  simp [answer, stopped]

/-- An object that stops the states that have it: what the objects after it answer counts for the
others. -/
theorem answer_stop {object : μ} {result : MatchResult} (hres : result ≠ .matchContinue) (node : Node)
    (sts : List (PatState ι)) (cs : List (Call ι μ)) (st : PatState ι) :
    answer pats (.onMatch object node result :: (failures pats node sts ++ cs)) st =
      if (pats st.node).onMatch = some object then some result else answer pats cs st := by
  unfold answer
  cases hobj : (pats st.node).onMatch with
  | none => simp
  | some o =>
    by_cases ho : object = o
    · subst ho
      simp [stopped, hres]
    · have hne : ¬ o = object := fun h => ho h.symm
      simp [stopped, ho, hne, stopped_failures]

/-- Two filters are the same if they are on the states that have the object, and on the others. -/
theorem filter_split {f g : PatState ι → Bool} {active : List (PatState ι)} (object : μ)
    (hwith : ∀ st, (pats st.node).onMatch = some object → f st = g st)
    (hwithout : ∀ st, (pats st.node).onMatch ≠ some object → f st = g st) :
    active.filter f = active.filter g := by
  apply List.filter_congr
  intro st _
  by_cases hobj : (pats st.node).onMatch = some object
  · exact hwith st hobj
  · exact hwithout st hobj

/-- After the loop over the list: what is left, and the calls it made. -/
theorem execute_spec (node : Node) (objects : List μ) (active : List (PatState ι))
    (w : World ι μ ρ) : ∃ calls,
    (execute pats objs node objects (active, w)).2.calls = w.calls ++ calls ∧
    (execute pats objs node objects (active, w)).1 =
      active.filter (fun st => answer pats calls st = none) ∧
    (calls.filter Call.isFailure).Perm
      (failures pats node (active.filter fun st => answer pats calls st = some .matchFail)) := by
  induction objects generalizing active w with
  | nil => exact ⟨[], by simp [execute], by simp [execute, answer, stopped], by simp [answer, stopped,
      failures]⟩
  | cons object objects ih =>
    unfold execute
    simp only
    obtain ⟨result, hres⟩ : ∃ result, (w.onMatch objs object node).2 = result := ⟨_, rfl⟩
    have hcalls1 : (w.onMatch objs object node).1.calls = w.calls ++ [.onMatch object node result] := by
      rw [← hres]
      rfl
    rw [hres]
    by_cases hcont : result = .matchContinue
    · rw [if_pos hcont]
      subst hcont
      obtain ⟨calls, hcalls, hleft, hfail⟩ := ih active (w.onMatch objs object node).1
      refine ⟨.onMatch object node .matchContinue :: calls, ?_, ?_, ?_⟩
      · rw [hcalls, hcalls1, List.append_assoc]
        rfl
      · simp only [hleft, answer_continue]
      · simp only [answer_continue]
        exact hfail
    · rw [if_neg hcont]
      obtain ⟨hstop, hstopCalls⟩ :=
        stop_spec pats objs object result node active (w.onMatch objs object node).1
      obtain ⟨⟨active', w'⟩, hs⟩ :
        ∃ s, stop pats objs object result node active (w.onMatch objs object node).1 = s := ⟨_, rfl⟩
      rw [hs] at hstop hstopCalls
      simp only at hstop hstopCalls
      subst hstop
      rw [hs]
      obtain ⟨calls, hcalls, hleft, hfail⟩ := ih _ w'
      refine ⟨.onMatch object node result :: (failures pats node (active.filter fun st =>
        (pats st.node).onMatch = some object && result = .matchFail) ++ calls), ?_, ?_, ?_⟩
      · rw [hcalls, hstopCalls, hcalls1]
        simp
      · rw [hleft, List.filter_filter]
        simp only [answer_stop pats hcont]
        apply filter_split pats object
        · intro st hobj
          simp [hobj]
        · intro st hobj
          simp [hobj]
      · -- the handlers called here are those of the states with the object, the later ones the rest
        simp only [answer_stop pats hcont]
        rw [List.filter_cons_of_neg (by simp [Call.isFailure]), List.filter_append,
          failures_isFailure]
        have hwith : (active.filter fun st => (if (pats st.node).onMatch = some object then
            some result else answer pats calls st) = some .matchFail).filter
              (fun st => (pats st.node).onMatch = some object) =
            active.filter fun st =>
              (pats st.node).onMatch = some object && result = .matchFail := by
          rw [List.filter_filter]
          apply filter_split pats object
          · intro st hobj
            simp [hobj]
          · intro st hobj
            simp [hobj]
        have hwithout : (active.filter fun st => (if (pats st.node).onMatch = some object then
            some result else answer pats calls st) = some .matchFail).filter
              (fun st => !decide ((pats st.node).onMatch = some object)) =
            (active.filter fun st => (pats st.node).onMatch ≠ some object).filter
              fun st => answer pats calls st = some .matchFail := by
          rw [List.filter_filter, List.filter_filter]
          apply filter_split pats object
          · intro st hobj
            simp [hobj]
          · intro st hobj
            simp [hobj]
        have hsplit := (List.filter_append_perm (fun st => (pats st.node).onMatch = some object)
          (active.filter fun st => (if (pats st.node).onMatch = some object then some result
            else answer pats calls st) = some .matchFail)).filterMap
          fun st => (pats st.node).onFailure.map fun o => Call.onFailure st.node o node
        rw [hwith, hwithout, List.filterMap_append] at hsplit
        exact (hfail.append_left _).trans hsplit

end Lists

/-! ## The calls on the tree -/

section Steps
variable {pats : ι → PatNode ι μ} {objs : μ → Node → ρ → ρ × MatchResult} {v w : VPT ι μ ρ}
  {type : NodeType}

theorem push_right (h : v.push pats objs type = .ok w) :
    PushRight pats v w type ∧ w.topBarrier = v.topBarrier + 1 := by
  obtain ⟨a, ha, rfl⟩ := except_map_ok.1 h
  obtain ⟨hparent, hcalls⟩ := advance_spec pats objs type _ _ ha
  refine ⟨⟨?_, hcalls⟩, rfl⟩
  rw [← hparent]

variable (pats objs) in
theorem push_ends_iff : (∃ w, v.push pats objs type = .ok w) ↔ Handled pats v type :=
  except_map_ends.trans (advance_ends_iff pats objs type _ _ _)

theorem push_depth (hdepth : v.topBarrier = v.vs.length) (h : v.push pats objs type = .ok w) :
    w.topBarrier = w.vs.length := by
  obtain ⟨⟨hvs, -⟩, hbar⟩ := push_right h
  rw [hvs, hbar, hdepth, List.length_cons]

/-- What the collecting of matches leaves as it is. -/
structure Collected (v w : VPT ι μ ρ) : Prop where
  active : w.vt.active = v.vt.active
  below : w.vs.map StackNode.active = v.vs.map StackNode.active
  world : w.world = v.world

theorem collect_collected (pats : ι → PatNode ι μ) (v : VPT ι μ ρ) (st : PatState ι) :
    Collected v (collect pats v st) := by
  unfold collect
  split
  · split
    · exact ⟨rfl, rfl, rfl⟩
    · next up _ =>
      refine ⟨rfl, ?_, rfl⟩
      apply List.ext_getElem?
      intro i
      rw [List.getElem?_map, List.getElem?_map, List.getElem?_modify]
      cases v.vs[i]? with
      | none => rfl
      | some f =>
        by_cases hi : up = i
        · simp [hi, StackNode.append]
        · simp [hi]
  · exact ⟨rfl, rfl, rfl⟩

theorem foldl_collected (pats : ι → PatNode ι μ) (sts : List (PatState ι)) (v : VPT ι μ ρ) :
    Collected v (sts.foldl (collect pats) v) := by
  induction sts generalizing v with
  | nil => exact ⟨rfl, rfl, rfl⟩
  | cons st sts ih =>
    have h1 := collect_collected pats v st
    have h2 := ih (collect pats v st)
    exact ⟨h2.active.trans h1.active, h2.below.trans h1.below, h2.world.trans h1.world⟩

variable [DecidableEq μ]

theorem pop_right {popped : Bool} (h : v.pop pats objs type = .ok (w, popped)) :
    PopRight pats v w type := by
  unfold VPT.pop at h
  unfold PopRight
  split at h
  · next htype =>
    cases h
    rw [if_neg fun hand => htype hand.1]
    exact ⟨rfl, rfl⟩
  · split at h
    · next hbar =>
      cases h
      rw [if_neg fun hand => hand.2 hbar]
      exact ⟨rfl, rfl⟩
    · next htype hbar =>
      rw [if_pos ⟨not_not.1 htype, hbar⟩]
      have hcol := foldl_collected pats v.vt.active v
      simp only at h
      generalize v.vt.active.foldl (collect pats) v = u at h hcol
      obtain ⟨calls, hcalls, hleft, hfail⟩ :=
        execute_spec pats objs v.top u.vt.onMatchList u.vt.active u.world
      rw [hcol.active, hcol.world] at hcalls
      rw [hcol.active, hcol.world] at hleft
      rw [hcol.active] at hfail
      split at h
      · cases h
      · next below vs hvs =>
        cases h
        have hbelow := hcol.below
        rw [hvs] at hbelow
        obtain ⟨b, bs, hb, hactive, -⟩ := List.map_eq_cons_iff.1 hbelow.symm
        refine ⟨b, bs, calls, hb, ?_, ?_, hfail⟩
        · simp only [hcol.active, hcol.world, hcalls]
        · simp only [hcol.active, hcol.world, hleft, hactive]

variable (pats objs) in
theorem pop_ends (hdepth : v.topBarrier = v.vs.length) (type : NodeType) :
    ∃ r, v.pop pats objs type = .ok r ∧ r.1.topBarrier = r.1.vs.length := by
  unfold VPT.pop
  split
  · exact ⟨_, rfl, hdepth⟩
  · split
    · exact ⟨_, rfl, hdepth⟩
    · next hbar =>
      have hcol := foldl_collected pats v.vt.active v
      simp only
      generalize v.vt.active.foldl (collect pats) v = u at hcol
      have hlen := congrArg List.length hcol.below
      rw [List.length_map, List.length_map] at hlen
      cases hvs : u.vs with
      | nil =>
        rw [hvs, List.length_nil] at hlen
        omega
      | cons below vs =>
        refine ⟨_, rfl, ?_⟩
        rw [hvs, List.length_cons] at hlen
        simp only
        omega

theorem event_ends_iff (hdepth : v.topBarrier = v.vs.length) (e : Event) :
    (∃ w, v.event pats objs e = .ok w) ↔ Safe pats v e := by
  cases e with
  | push type => exact push_ends_iff pats objs
  | setText text => exact ⟨fun _ => trivial, fun _ => ⟨_, rfl⟩⟩
  | pop type =>
    obtain ⟨r, hr, -⟩ := pop_ends pats objs hdepth type
    exact ⟨fun _ => trivial, fun _ => except_map_ends.2 ⟨r, hr⟩⟩
  | appendChar type c =>
    show (∃ w, v.appendChar pats objs type c = .ok w) ↔ (v.fresh type = true → Handled pats v type)
    unfold VPT.appendChar
    cases hfresh : v.fresh type with
    | false => simp
    | true =>
      rw [if_pos rfl, ← push_ends_iff pats objs]
      constructor
      · rintro ⟨w, hw⟩ -
        obtain ⟨u, hu, -⟩ := except_bind_ok.1 hw
        exact ⟨u, hu⟩
      · intro h
        obtain ⟨u, hu⟩ := h rfl
        obtain ⟨r, hr, -⟩ := pop_ends pats objs (push_depth hdepth hu) type
        exact ⟨_, except_bind_ok.2 ⟨u, hu, except_map_ok.2 ⟨r, hr, rfl⟩⟩⟩

theorem event_depth (hdepth : v.topBarrier = v.vs.length) {e : Event}
    (h : v.event pats objs e = .ok w) : w.topBarrier = w.vs.length := by
  have hpop : ∀ {v : VPT ι μ ρ} {type : NodeType} {r : VPT ι μ ρ × Bool},
      v.topBarrier = v.vs.length → v.pop pats objs type = .ok r → r.1.topBarrier = r.1.vs.length := by
    intro v type r hdepth hr
    obtain ⟨r', hr', hd⟩ := pop_ends pats objs hdepth type
    rw [hr] at hr'
    cases hr'
    exact hd
  cases e with
  | push type => exact push_depth hdepth h
  | setText text =>
    cases h
    exact hdepth
  | pop type =>
    obtain ⟨r, hr, rfl⟩ := except_map_ok.1 h
    exact hpop hdepth hr
  | appendChar type c =>
    unfold VPT.event VPT.appendChar at h
    cases hfresh : v.fresh type with
    | false =>
      simp only [hfresh, Bool.false_eq_true, if_false] at h
      cases h
      exact hdepth
    | true =>
      simp only [hfresh, if_true] at h
      obtain ⟨u, hu, h⟩ := except_bind_ok.1 h
      obtain ⟨r, hr, rfl⟩ := except_map_ok.1 h
      exact hpop (push_depth hdepth hu) hr

theorem event_right {e : Event} (h : v.event pats objs e = .ok w) : Right pats v w e := by
  cases e with
  | push type => exact (push_right h).1
  | setText text =>
    cases h
    exact compareText_spec pats objs text _ _ _
  | pop type =>
    obtain ⟨r, hr, rfl⟩ := except_map_ok.1 h
    exact pop_right hr
  | appendChar type c =>
    unfold VPT.event VPT.appendChar at h
    unfold Right
    cases hfresh : v.fresh type with
    | false =>
      simp only [hfresh, Bool.false_eq_true, if_false] at h ⊢
      cases h
      exact ⟨rfl, rfl⟩
    | true =>
      simp only [hfresh, if_true] at h ⊢
      obtain ⟨u, hu, h⟩ := except_bind_ok.1 h
      obtain ⟨r, hr, rfl⟩ := except_map_ok.1 h
      exact ⟨u, r.1, (push_right hu).1, pop_right hr, rfl, rfl⟩

end Steps

/-! ## Runs -/

section Runs
variable [DecidableEq μ] (pats : ι → PatNode ι μ) (objs : μ → Node → ρ → ρ × MatchResult)

/-- No null pointer is called in the run, and every call of it calls the right handlers. -/
def HandlersRight (roots : List ι) (state : ρ) (events : List Event) : Prop :=
  (∃ w, events.foldlM (VPT.event pats objs) (initVpt roots state) = .ok w) ∧
  ∀ pre e post v w, events = pre ++ e :: post →
    pre.foldlM (VPT.event pats objs) (initVpt roots state) = .ok v →
    v.event pats objs e = .ok w → Right pats v w e

/-- The handlers are the right ones exactly if no push of a child, nor one that `appendChar` makes,
finds a state without a failure handler that has another next child and may not skip it. -/
theorem handlersRight_iff (roots : List ι) (state : ρ) (events : List Event) :
    HandlersRight pats objs roots state events ↔
      ∀ pre e post v, events = pre ++ e :: post →
        pre.foldlM (VPT.event pats objs) (initVpt roots state) = .ok v → Safe pats v e := by
  have hkeep : ∀ (v : VPT ι μ ρ) e w, v.topBarrier = v.vs.length → v.event pats objs e = .ok w →
      w.topBarrier = w.vs.length := fun v e w hv h => event_depth hv h
  have hends := foldlM_ok_iff hkeep (fun v e hv => event_ends_iff hv e) events
    (initVpt roots state) rfl
  constructor
  · exact fun h => hends.1 h.1
  · exact fun h => ⟨hends.2 h, fun _ _ _ _ _ _ _ hw => event_right hw⟩

end Runs

/-- A pattern without handlers for an answer with one record, which may not be skipped. -/
def answerPats : Bool → PatNode Bool Unit
  | true => ⟨none, .dnsAnswer, [], some false, none, none, none, 0, false, false⟩
  | false => ⟨some true, .dnsRrA, [], none, none, none, none, 0, false, false⟩

/-- The answer starts with another record. -/
theorem null_failure : ¬ ∀ (ι μ ρ : Type) [DecidableEq μ] (pats : ι → PatNode ι μ)
    (objs : μ → Node → ρ → ρ × MatchResult) (roots : List ι) (state : ρ) (events : List Event),
    HandlersRight pats objs roots state events := by
  intro h
  obtain ⟨⟨w, hw⟩, -⟩ := h Bool Unit Unit answerPats (fun _ _ s => (s, .matchContinue)) [true] ()
    [.push .dnsAnswer, .push .dnsRrAAAA]
  cases hw

end Netp.Parse.Failure
