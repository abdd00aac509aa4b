import Netp.Parse.Vpt
import Mathlib.Tactic.SplitIfs

/-! # The stack of the tree under the calls of a body parser

The parsers of bodies make their calls on the tree from the actions of a machine; a `pop` that fails
sends most of them to the error state of the machine. `Open` says of a tree that it is an earlier one
with some nodes open on top, and `Inside` the same with a barrier between them.
-/

namespace Netp.Parse
set_option autoImplicit false

/-- The calls on the tree in the actions of the body parsers. -/
inductive TreeCall
  | push (type : NodeType)
  | pop (type : NodeType)
  /-- `if ( !ctx->vpt.pop( type ) ) fgoto *error;` -/
  | popOr (type : NodeType)
  | setText (text : Text)
  | appendChar (type : NodeType) (c : UInt8)

namespace VPT

/-- A call, and whether the action goes on after it. -/
def perform (v : VPT) : TreeCall → Option (VPT × Bool)
  | .push type => (v.push type).map fun w => (w, true)
  | .pop type => (v.pop type).map fun r => (r.1, true)
  | .popOr type => v.pop type
  | .setText text => some (v.setText text, true)
  | .appendChar type c => (v.appendChar type c).map fun w => (w, true)

/-- The calls of an action, up to a `pop` that leaves it. -/
def performAll : VPT → List TreeCall → Option (VPT × Bool)
  | v, [] => some (v, true)
  | v, c :: cs => (v.perform c).bind fun r => if r.2 then performAll r.1 cs else some (r.1, false)

end VPT

/-- What a call does to the types of the open nodes, where it fits. -/
def TreeCall.apply : TreeCall → List NodeType → Option (List NodeType)
  | .push type, ts => some (type :: ts)
  | .pop type, t :: ts => if t = type then some ts else none
  | .popOr type, t :: ts => if t = type then some ts else none
  | .setText _, t :: ts => some (t :: ts)
  | _, _ => none

def applyAll : List TreeCall → List NodeType → Option (List NodeType)
  | [], ts => some ts
  | c :: cs, ts => (c.apply ts).bind (applyAll cs)

/-- The node `b` is the node `a`, with more children. -/
structure StackNode.Grown (a b : StackNode) : Prop where
  type : b.type = a.type
  text : b.text = a.text
  children : a.children <+: b.children

/-- Two trees are at the same node of the same stack. -/
structure VPT.SameNode (v w : VPT) : Prop where
  node : v.vt.Grown w.vt
  below : w.vs = v.vs

/-- The stack is that of `v₀` with nodes of the types `ts` on top. -/
def Over (v₀ : VPT) : List NodeType → StackNode → List StackNode → Prop
  | [], vt, vs => v₀.vt.Grown vt ∧ vs = v₀.vs
  | t :: ts, vt, vs => vt.type = t ∧ ∃ below rest, vs = below :: rest ∧ Over v₀ ts below rest

/-- The tree `v` is `v₀` with nodes of the types `ts` open on top. -/
structure Open (v₀ v : VPT) (ts : List NodeType) : Prop where
  stack : Over v₀ ts v.vt v.vs
  count : v.topBarrier = v₀.topBarrier + ts.length

/-- The same with a barrier on top of the nodes `ts`, and any nodes above it. -/
structure Inside (v₀ v : VPT) (ts : List NodeType) : Prop where
  nodes : ∃ us, Over v₀ (us ++ ts) v.vt v.vs ∧ v.topBarrier = us.length
  saved : v.barriers.head? = some (v₀.topBarrier + ts.length)

variable {v₀ v v' : VPT} {t : NodeType} {ts us : List NodeType} {vt vt' : StackNode}
  {vs : List StackNode}

namespace StackNode.Grown

theorem refl (a : StackNode) : a.Grown a := ⟨rfl, rfl, List.prefix_rfl⟩

theorem trans {a b c : StackNode} (h : a.Grown b) (h' : b.Grown c) : a.Grown c :=
  ⟨h'.type.trans h.type, h'.text.trans h.text, h.children.trans h'.children⟩

end StackNode.Grown

namespace Over

theorem grown (h : Over v₀ ts vt vs) (hg : vt.Grown vt') : Over v₀ ts vt' vs := by
  cases ts with
  | nil => exact ⟨h.1.trans hg, h.2⟩
  | cons t ts => exact ⟨hg.type.trans h.1, h.2⟩

theorem retype (h : Over v₀ (t :: ts) vt vs) (htype : vt'.type = vt.type) :
    Over v₀ (t :: ts) vt' vs :=
  ⟨htype.trans h.1, h.2⟩

theorem length (h : Over v₀ ts vt vs) : vs.length = v₀.vs.length + ts.length := by
  induction ts generalizing vt vs with
  | nil => rw [h.2, List.length_nil, Nat.add_zero]
  | cons t ts ih =>
    obtain ⟨-, below, rest, rfl, hover⟩ := h
    rw [List.length_cons, List.length_cons, ih hover, Nat.add_assoc]

theorem push (h : Over v₀ ts v.vt v.vs) (hv : v.push t = some v') :
    Over v₀ (t :: ts) v'.vt v'.vs ∧ v'.topBarrier = v.topBarrier + 1 ∧ v'.barriers = v.barriers := by
  obtain ⟨a, -, rfl⟩ := Option.map_eq_some_iff.mp hv
  exact ⟨⟨rfl, _, _, rfl, h.grown ⟨rfl, rfl, List.prefix_rfl⟩⟩, rfl, rfl⟩

theorem pop (h : Over v₀ (t :: ts) v.vt v.vs) (hcount : v.topBarrier ≠ 0) :
    ∃ w, v.pop t = some (w, true) ∧ Over v₀ ts w.vt w.vs ∧ w.topBarrier = v.topBarrier - 1 ∧
      w.barriers = v.barriers := by
  obtain ⟨htype, below, rest, hvs, hover⟩ := h
  rw [VPT.pop, if_neg (not_not.mpr htype), if_neg hcount, hvs]
  exact ⟨_, rfl, hover.grown ⟨rfl, rfl, List.prefix_append _ _⟩, rfl, rfl⟩

end Over

theorem VPT.pop_fails {type : NodeType} (h : v.vt.type ≠ type ∨ v.topBarrier = 0) :
    v.pop type = some ({ v with vptErrorOccurred := true }, false) := by
  rw [VPT.pop]
  split_ifs with htype hcount
  · rfl
  · rfl
  · exact absurd h (not_or.mpr ⟨not_not.mpr (not_not.mp htype), hcount⟩)

/-! ## Without a barrier -/

namespace Open

theorem refl (v : VPT) : Open v v [] := ⟨⟨.refl _, rfl⟩, rfl⟩

theorem sameNode_iff (h : Open v₀ v ts) : v₀.SameNode v ↔ ts = [] := by
  constructor
  · intro hsame
    have hlen := h.stack.length
    rw [hsame.below] at hlen
    exact List.length_eq_zero_iff.mp (by omega)
  · rintro rfl
    exact ⟨h.stack.1, h.stack.2⟩

theorem push (h : Open v₀ v ts) (hv : v.push t = some v') : Open v₀ v' (t :: ts) := by
  obtain ⟨hover, hcount, -⟩ := h.stack.push hv
  refine ⟨hover, ?_⟩
  rw [hcount, h.count, List.length_cons, Nat.add_assoc]

theorem pop (h : Open v₀ v (t :: ts)) : ∃ w, v.pop t = some (w, true) ∧ Open v₀ w ts := by
  have hcount := h.count
  rw [List.length_cons] at hcount
  obtain ⟨w, hw, hover, hpred, -⟩ := h.stack.pop (by omega)
  exact ⟨w, hw, hover, by omega⟩

theorem pop_ne {u : NodeType} (h : Open v₀ v (t :: ts)) (hne : t ≠ u) :
    ∃ w, v.pop u = some (w, false) ∧ Open v₀ w (t :: ts) := by
  refine ⟨_, VPT.pop_fails (.inl ?_), h.stack, h.count⟩
  rw [h.stack.1]
  exact hne

theorem setText (h : Open v₀ v (t :: ts)) (text : Text) : Open v₀ (v.setText text) (t :: ts) :=
  ⟨h.stack.retype rfl, h.count⟩

theorem perform {c : TreeCall} {ok : Bool} (h : Open v₀ v ts) (hc : c.apply ts = some us)
    (hv : v.perform c = some (v', ok)) : ok = true ∧ Open v₀ v' us := by
  cases c with
  | push type =>
    obtain ⟨w, hw, heq⟩ := Option.map_eq_some_iff.mp hv
    cases heq
    cases hc
    exact ⟨rfl, h.push hw⟩
  | setText text =>
    cases ts with
    | nil => cases hc
    | cons t ts =>
      cases hv
      cases hc
      exact ⟨rfl, h.setText text⟩
  | appendChar type c => cases ts <;> cases hc
  | pop type =>
    cases ts with
    | nil => cases hc
    | cons t ts =>
      rw [TreeCall.apply] at hc
      split_ifs at hc with htype
      subst htype
      obtain ⟨w, hw, hopen⟩ := h.pop
      rw [VPT.perform, hw] at hv
      cases hv
      cases hc
      exact ⟨rfl, hopen⟩
  | popOr type =>
    cases ts with
    | nil => cases hc
    | cons t ts =>
      rw [TreeCall.apply] at hc
      split_ifs at hc with htype
      subst htype
      obtain ⟨w, hw, hopen⟩ := h.pop
      rw [VPT.perform, hw] at hv
      cases hv
      cases hc
      exact ⟨rfl, hopen⟩

theorem performAll {cs : List TreeCall} {ok : Bool} (h : Open v₀ v ts) (hcs : applyAll cs ts = some us)
    (hv : v.performAll cs = some (v', ok)) : ok = true ∧ Open v₀ v' us := by
  induction cs generalizing v ts with
  | nil =>
    cases hv
    cases hcs
    exact ⟨rfl, h⟩
  | cons c cs ih =>
    obtain ⟨mid, hc, hcs⟩ := Option.bind_eq_some_iff.mp hcs
    obtain ⟨⟨w, okc⟩, hw, hv⟩ := Option.bind_eq_some_iff.mp hv
    obtain ⟨rfl, hopen⟩ := h.perform hc hw
    exact ih hopen hcs hv

theorem pushBarrier (h : Open v₀ v ts) : Inside v₀ v.pushBarrier ts :=
  ⟨⟨[], h.stack, rfl⟩, congrArg some h.count⟩

end Open

/-! ## Inside a barrier -/

namespace Inside

theorem push (h : Inside v₀ v ts) (hv : v.push t = some v') : Inside v₀ v' ts := by
  obtain ⟨⟨us, hover, hcount⟩, hsaved⟩ := h
  obtain ⟨hover', hsucc, hbar⟩ := hover.push hv
  refine ⟨⟨t :: us, hover', ?_⟩, ?_⟩
  · rw [hsucc, hcount, List.length_cons]
  · rw [hbar]
    exact hsaved

theorem pop {type : NodeType} {ok : Bool} (h : Inside v₀ v ts) (hv : v.pop type = some (v', ok)) :
    Inside v₀ v' ts := by
  obtain ⟨⟨us, hover, hcount⟩, hsaved⟩ := h
  by_cases hfail : v.vt.type ≠ type ∨ v.topBarrier = 0
  · rw [VPT.pop_fails hfail] at hv
    cases hv
    exact ⟨⟨us, hover, hcount⟩, hsaved⟩
  · obtain ⟨htype, hpos⟩ := not_or.mp hfail
    cases us with
    | nil => exact absurd hcount hpos
    | cons u us =>
      have hu : u = type := hover.1.symm.trans (not_not.mp htype)
      subst hu
      obtain ⟨w, hw, hover', hpred, hbar⟩ := Over.pop hover hpos
      rw [hw] at hv
      cases hv
      rw [List.length_cons] at hcount
      refine ⟨⟨us, hover', by omega⟩, ?_⟩
      rw [hbar]
      exact hsaved

theorem retype (h : Inside v₀ v (t :: ts)) {f : StackNode → StackNode}
    (hf : (f v.vt).type = v.vt.type) : Inside v₀ { v with vt := f v.vt } (t :: ts) := by
  obtain ⟨⟨us, hover, hcount⟩, hsaved⟩ := h
  refine ⟨⟨us, ?_, hcount⟩, hsaved⟩
  cases us with
  | nil => exact hover.retype hf
  | cons u us => exact Over.retype hover hf

theorem appendChar {type : NodeType} {c : UInt8} (h : Inside v₀ v (t :: ts))
    (hv : v.appendChar type c = some v') : Inside v₀ v' (t :: ts) := by
  obtain ⟨w, hw, rfl⟩ := Option.map_eq_some_iff.mp hv
  have hready : Inside v₀ w (t :: ts) := by
    have hfresh : (v.push type).bind (fun x => (x.pop type).map Prod.fst) = some w →
        Inside v₀ w (t :: ts) := by
      intro hpush
      obtain ⟨x, hx, hpop⟩ := Option.bind_eq_some_iff.mp hpush
      obtain ⟨⟨y, ok⟩, hy, rfl⟩ := Option.map_eq_some_iff.mp hpop
      exact (h.push hx).pop hy
    split at hw
    · exact hfresh hw
    · split_ifs at hw
      · cases hw
        exact h
      · exact hfresh hw
  exact hready.retype (f := fun n => { n with
    children := n.children.dropLast ++ (n.children.getLast?.map (·.append c)).toList }) rfl

theorem perform {c : TreeCall} {ok : Bool} (h : Inside v₀ v (t :: ts))
    (hv : v.perform c = some (v', ok)) : Inside v₀ v' (t :: ts) := by
  cases c with
  | push type =>
    obtain ⟨w, hw, heq⟩ := Option.map_eq_some_iff.mp hv
    cases heq
    exact h.push hw
  | pop type =>
    obtain ⟨⟨w, okw⟩, hw, heq⟩ := Option.map_eq_some_iff.mp hv
    cases heq
    exact h.pop hw
  | popOr type => exact h.pop hv
  | setText text =>
    cases hv
    exact h.retype (f := fun n => { n with
      text := text
      textSet := true
      active := n.active.filter fun st => st.node.node.text = [] || st.node.node.text = text }) rfl
  | appendChar type c =>
    obtain ⟨w, hw, heq⟩ := Option.map_eq_some_iff.mp hv
    cases heq
    exact h.appendChar hw

theorem performAll {cs : List TreeCall} {ok : Bool} (h : Inside v₀ v (t :: ts))
    (hv : v.performAll cs = some (v', ok)) : Inside v₀ v' (t :: ts) := by
  induction cs generalizing v with
  | nil =>
    cases hv
    exact h
  | cons c cs ih =>
    obtain ⟨⟨w, okc⟩, hw, hv⟩ := Option.bind_eq_some_iff.mp hv
    have hnext := h.perform hw
    split at hv
    · exact ih hnext hv
    · cases hv
      exact hnext

theorem clear {us : List NodeType} (h : Over v₀ (us ++ ts) v.vt v.vs)
    (hcount : v.topBarrier = us.length) :
    ∃ w, VPT.clear us.length v = some w ∧ Over v₀ ts w.vt w.vs ∧ w.barriers = v.barriers := by
  induction us generalizing v with
  | nil => exact ⟨v, rfl, h, rfl⟩
  | cons u us ih =>
    rw [List.length_cons] at hcount
    obtain ⟨w, hw, hover, hpred, hbar⟩ := Over.pop h (by omega)
    obtain ⟨x, hx, hover', hbar'⟩ := ih hover (by omega)
    refine ⟨x, ?_, hover', hbar'.trans hbar⟩
    rw [List.length_cons, VPT.clear, show v.vt.type = u from h.1, hw]
    exact hx

/-- `popBarrier` is back at the nodes that were open before the barrier. -/
theorem popBarrier (h : Inside v₀ v ts) : ∃ w, v.popBarrier = some w ∧ Open v₀ w ts := by
  obtain ⟨⟨us, hover, hcount⟩, hsaved⟩ := h
  obtain ⟨w, hw, hover', -⟩ := clear hover hcount
  cases hb : v.barriers with
  | nil =>
    rw [hb] at hsaved
    cases hsaved
  | cons b bs =>
    rw [hb] at hsaved
    refine ⟨{ w with topBarrier := b }, ?_, hover', Option.some.inj hsaved⟩
    rw [VPT.popBarrier, hb]
    simp only [hcount, hw, Option.map_some]

end Inside

end Netp.Parse
