import Netp.Parse.Vpt
import Mathlib.Data.List.Forall2
import Mathlib.Tactic

/-! # When a reported pattern match is one

`Matches` is what a match is to be. A state at an open node says that an initial part of the children of
its pattern node has been matched with closed children; `StateOk` says so, and `FramesOk` says it of
every level, with what a level waits for at the levels below.

`pop` moves every state to the parent, and a text is compared only when one is set. `popOk` excludes a
`pop` that moves up a state with children still to match, or one whose text was never compared.
-/

namespace Netp.Parse
open Netp.Lib
set_option autoImplicit false

/-- The node has the type and the text of the pattern, and the child patterns match distinct children in
order. -/
inductive Matches : PatNode → Node → Prop
  | mk {q : PatNode} {n : Node} (htype : n.type = q.type) (htext : q.text = [] ∨ q.text = n.text)
      (hchildren : List.SublistForall₂ Matches q.children n.children) : Matches q n

/-- A state that may be at a node that is popped: it is moved up only with no child left to match, and it
is reported or moved up only with its text compared. -/
def ready (v : VPT) (st : PatState) : Bool :=
  (st.nextChild.isNone || st.node.parent.isNone) &&
    (st.nextChild.isSome || st.node.node.text = [] || v.vt.textSet ||
      (!st.node.node.onMatch && st.node.parent.isNone))

/-- The condition on one event, in the state before it. -/
def popOk (v : VPT) : Event → Bool
  | .pop type => v.vt.type ≠ type || v.topBarrier = 0 || v.vt.active.all (ready v)
  | _ => true

/-- The state `st` at the open node `f`: the children of the pattern before `nextChild` have matches
among the closed children. -/
structure StateOk (f : StackNode) (st : PatState) : Prop where
  type : f.type = st.node.node.type
  text : f.textSet = true → st.node.node.text = [] ∨ st.node.node.text = f.text
  children : ∃ done rest, st.node.node.children = done ++ rest ∧
    st.nextChild = PatRef.first (some st.node) rest ∧
    List.SublistForall₂ Matches done f.children

/-- What a pattern node at a level waits for at the levels below: its parent there, with the node as the
next child. -/
def Pending : List StackNode → PatRef → Prop
  | [], _ => True
  | g :: vs, k => ∀ p, k.parent = some p → StateOk g ⟨p, some k⟩ ∧ Pending vs p

def LevelOk (f : StackNode) (vs : List StackNode) : Prop :=
  ∀ st ∈ f.active, StateOk f st ∧ Pending vs st.node

def FramesOk : StackNode → List StackNode → Prop
  | f, [] => LevelOk f []
  | f, g :: vs => LevelOk f (g :: vs) ∧ FramesOk g vs

structure VptOk (v : VPT) : Prop where
  frames : FramesOk v.vt v.vs
  matched : ∀ m ∈ v.matched, Matches m.1.node m.2

/-! ## Embeddings of child lists -/

section Sublist
variable {q : PatNode} {n : Node} {ps : List PatNode} {ns ms : List Node}

theorem sublist_append_right (h : List.SublistForall₂ Matches ps ns) :
    List.SublistForall₂ Matches ps (ns ++ ms) := by
  obtain ⟨l, hl, hsub⟩ := List.sublistForall₂_iff.mp h
  exact List.sublistForall₂_iff.mpr ⟨l, hl, hsub.trans (List.sublist_append_left ns ms)⟩

theorem sublist_concat (h : List.SublistForall₂ Matches ps ns) (hq : Matches q n) :
    List.SublistForall₂ Matches (ps ++ [q]) (ns ++ [n]) := by
  obtain ⟨l, hl, hsub⟩ := List.sublistForall₂_iff.mp h
  refine List.sublistForall₂_iff.mpr ⟨l ++ [n], ?_, hsub.append (List.Sublist.refl [n])⟩
  exact List.rel_append hl (List.Forall₂.cons hq List.Forall₂.nil)

end Sublist

/-! ## The events -/

section Events
variable {v v' : VPT} {f g : StackNode} {st : PatState}

theorem StateOk.more (h : StateOk f st) (n : Node) (active : List PatState) :
    StateOk { f with children := f.children ++ [n], active := active } st := by
  obtain ⟨done, rest, hsplit, hnext, hsub⟩ := h.children
  exact ⟨h.type, h.text, done, rest, hsplit, hnext, sublist_append_right hsub⟩

theorem StateOk.setActive (h : StateOk f st) (active : List PatState) :
    StateOk { f with active := active } st := ⟨h.type, h.text, h.children⟩

theorem stateOk_start {type : NodeType} {active : List PatState} (htype : st.node.node.type = type)
    (hnext : st.nextChild = st.node.childrenHead) :
    StateOk ⟨type, [], false, [], active⟩ st where
  type := htype.symm
  text h := by cases h
  children := ⟨[], st.node.node.children, rfl, hnext, List.SublistForall₂.nil⟩

theorem StateOk.parent_eq (h : StateOk f st) {k : PatRef} (hk : st.nextChild = some k) :
    k.parent = some st.node := by
  obtain ⟨done, rest, -, hnext, -⟩ := h.children
  rw [hk] at hnext
  cases rest with
  | nil => cases hnext
  | cons c cs =>
    cases hnext
    rfl

theorem advance_spec {type : NodeType} {sts keep child : List PatState}
    (h : advance type sts = some (keep, child)) :
    (∀ st ∈ keep, st ∈ sts) ∧ ∀ st ∈ child, st.node.node.type = type ∧
      st.nextChild = st.node.childrenHead ∧ ∃ p ∈ sts, p.nextChild = some st.node := by
  induction sts generalizing keep child with
  | nil =>
    cases h
    exact ⟨fun _ h => h, fun _ h => by cases h⟩
  | cons s sts ih =>
    -- whatever happens to the first state, the rest is advanced
    have hrest : ∃ keep' child', advance type sts = some (keep', child') ∧
        (∀ st ∈ keep, st = s ∨ st ∈ keep') ∧ ∀ st ∈ child, st ∈ child' ∨
          st.node.node.type = type ∧ st.nextChild = st.node.childrenHead ∧
            s.nextChild = some st.node := by
      cases hn : s.nextChild with
      | none =>
        simp only [advance, hn, Option.map_eq_some_iff, Prod.mk.injEq] at h
        obtain ⟨⟨keep', child'⟩, hr, rfl, rfl⟩ := h
        exact ⟨keep', child', hr, fun st h => List.mem_cons.mp h, fun st h => Or.inl h⟩
      | some k =>
        simp only [advance, hn] at h
        split at h
        case isTrue htype =>
          rw [Option.map_eq_some_iff] at h
          obtain ⟨⟨keep', child'⟩, hr, he⟩ := h
          rw [Prod.mk.injEq] at he
          obtain ⟨rfl, rfl⟩ := he
          refine ⟨keep', child', hr, ?_, ?_⟩
          · intro st hst
            split at hst
            · exact List.mem_cons.mp hst
            · exact Or.inr hst
          · intro st hst
            rcases List.mem_cons.mp hst with rfl | hst
            · exact Or.inr ⟨htype, rfl, rfl⟩
            · exact Or.inl hst
        case isFalse =>
          split at h
          · simp only [Option.map_eq_some_iff, Prod.mk.injEq] at h
            obtain ⟨⟨keep', child'⟩, hr, rfl, rfl⟩ := h
            exact ⟨keep', child', hr, fun st h => List.mem_cons.mp h, fun st h => Or.inl h⟩
          · split at h
            · exact ⟨keep, child, h, fun st h => Or.inr h, fun st h => Or.inl h⟩
            · cases h
    obtain ⟨keep', child', hr, hkeep, hchild⟩ := hrest
    obtain ⟨ih1, ih2⟩ := ih hr
    constructor
    · intro st hst
      rcases hkeep st hst with rfl | hst
      · simp
      · simp [ih1 st hst]
    · intro st hst
      rcases hchild st hst with hst | ⟨h1, h2, h3⟩
      · obtain ⟨h1, h2, p, hp, h3⟩ := ih2 st hst
        exact ⟨h1, h2, p, by simp [hp], h3⟩
      · exact ⟨h1, h2, s, by simp, h3⟩

theorem addRootItems_spec {type : NodeType} {ps : List PatNode} {st : PatState}
    (h : st ∈ (addRootItems type ps).2) :
    st.node.node.type = type ∧ st.nextChild = st.node.childrenHead ∧ st.node.parent = none := by
  induction ps with
  | nil => cases h
  | cons p ps ih =>
    rw [addRootItems] at h
    simp only at h
    split at h
    case isTrue htype =>
      rcases List.mem_cons.mp h with rfl | h
      · exact ⟨htype, rfl, rfl⟩
      · exact ih h
    case isFalse => exact ih h

theorem FramesOk.top {vs : List StackNode} (h : FramesOk f vs) : LevelOk f vs := by
  cases vs with
  | nil => exact h
  | cons g vs => exact h.1

theorem FramesOk.replace {vs : List StackNode} (h : FramesOk f vs) (hg : LevelOk g vs) :
    FramesOk g vs := by
  cases vs with
  | nil => exact hg
  | cons g' vs => exact ⟨hg, h.2⟩

theorem vptOk_push {type : NodeType} (h : VptOk v) (hv : v.push type = some v') : VptOk v' := by
  simp only [VPT.push, Option.map_eq_some_iff, Prod.exists] at hv
  obtain ⟨keep, child, hadv, rfl⟩ := hv
  obtain ⟨hkeep, hchild⟩ := advance_spec hadv
  have htop := h.frames.top
  refine ⟨⟨?_, ?_⟩, h.matched⟩
  · intro st hst
    rcases List.mem_append.mp hst with hst | hst
    · obtain ⟨htype, hnext, p, hp, hk⟩ := hchild st hst
      obtain ⟨hpok, hppend⟩ := htop p hp
      refine ⟨stateOk_start htype hnext, ?_⟩
      intro q hq
      rw [hpok.parent_eq hk, Option.some.injEq] at hq
      have hstate : (⟨q, some st.node⟩ : PatState) = p := by rw [← hq, ← hk]
      rw [hstate, ← hq]
      exact ⟨hpok.setActive keep, hppend⟩
    · obtain ⟨htype, hnext, hparent⟩ := addRootItems_spec hst
      refine ⟨stateOk_start htype hnext, ?_⟩
      intro q hq
      rw [hparent] at hq
      cases hq
  · apply h.frames.replace
    intro st hst
    obtain ⟨h1, h2⟩ := htop st (hkeep st hst)
    exact ⟨h1.setActive keep, h2⟩

theorem vptOk_setText (h : VptOk v) (text : Text) : VptOk (v.setText text) := by
  refine ⟨?_, h.matched⟩
  apply h.frames.replace
  intro st hst
  obtain ⟨hmem, hkept⟩ := List.mem_filter.mp hst
  obtain ⟨hok, hpend⟩ := h.frames.top st hmem
  refine ⟨⟨hok.type, ?_, hok.children⟩, hpend⟩
  intro _
  show st.node.node.text = [] ∨ st.node.node.text = text
  simpa using hkept

/-- A state with no child left to match, whose text has been compared, is a match of the closed node. -/
theorem StateOk.matches (h : StateOk v.vt st) (hnext : st.nextChild = none)
    (htext : st.node.node.text = [] ∨ v.vt.textSet = true) : Matches st.node.node v.top := by
  obtain ⟨done, rest, hsplit, hfirst, hsub⟩ := h.children
  have hrest : rest = [] := by
    rw [hnext] at hfirst
    cases rest with
    | nil => rfl
    | cons c cs => cases hfirst
  refine ⟨h.type, ?_, ?_⟩
  · rcases htext with htext | htext
    · exact Or.inl htext
    · exact h.text htext
  · rw [hsplit, hrest, List.append_nil]
    exact hsub

/-- The state that waits for a child of the pattern moves to the next child when there is a match. -/
theorem StateOk.promote {p : PatRef} {k : PatRef} {n : Node} (h : StateOk g ⟨p, some k⟩)
    (hm : Matches k.node n) (active : List PatState) :
    StateOk { g with children := g.children ++ [n], active := active } ⟨p, k.next⟩ := by
  have hparent : k.parent = some p := h.parent_eq rfl
  obtain ⟨done, rest, hsplit, hfirst, hsub⟩ := h.children
  cases rest with
  | nil => cases hfirst
  | cons c cs =>
    obtain rfl : k = PatRef.mk c cs (some p) := Option.some.inj hfirst
    refine ⟨h.type, h.text, done ++ [c], cs, ?_, rfl, sublist_concat hsub hm⟩
    rw [List.append_assoc]
    exact hsplit

theorem vptOk_pop {type : NodeType} {b : Bool} (h : VptOk v) (hok : popOk v (.pop type) = true)
    (hv : v.pop type = some (v', b)) : VptOk v' := by
  unfold VPT.pop at hv
  split at hv
  case isTrue =>
    cases hv
    exact ⟨h.frames, h.matched⟩
  case isFalse htype =>
    split at hv
    case isTrue =>
      cases hv
      exact ⟨h.frames, h.matched⟩
    case isFalse hbar =>
      cases hvs : v.vs with
      | nil =>
        rw [hvs] at hv
        cases hv
      | cons g vs =>
        rw [hvs] at hv
        cases hv
        have hf := h.frames
        rw [hvs] at hf
        obtain ⟨hlevel, hbelow⟩ := hf
        have hready : ∀ st ∈ v.vt.active, ready v st = true := by
          simpa [popOk, htype, hbar] using hok
        have hmatch : ∀ st ∈ v.vt.active, st.nextChild = none →
            (st.node.node.onMatch = true ∨ st.node.parent ≠ none) →
            Matches st.node.node v.top := by
          intro st hst hnext huse
          apply (hlevel st hst).1.matches hnext
          have hr := hready st hst
          simp only [ready, hnext, Option.isNone_none, Option.isSome_none, Bool.true_or,
            Bool.true_and, Bool.false_or, Bool.or_eq_true, Bool.and_eq_true, decide_eq_true_eq,
            Bool.not_eq_true', Option.isNone_iff_eq_none] at hr
          rcases hr with (hr | hr) | ⟨h1, h2⟩
          · exact Or.inl hr
          · exact Or.inr hr
          · rcases huse with huse | huse
            · rw [h1] at huse
              cases huse
            · exact absurd h2 huse
        refine ⟨?_, ?_⟩
        · apply hbelow.replace
          intro st hst
          rcases List.mem_append.mp hst with hst | hst
          · obtain ⟨h1, h2⟩ := hbelow.top st hst
            exact ⟨h1.more v.top _, h2⟩
          · obtain ⟨s0, hs0, hs⟩ := List.mem_filterMap.mp hst
            rw [Option.map_eq_some_iff] at hs
            obtain ⟨p, hp, rfl⟩ := hs
            obtain ⟨-, hpend⟩ := hlevel s0 hs0
            obtain ⟨h1, h2⟩ := hpend p hp
            have hnext : s0.nextChild = none := by
              have hr := hready s0 hs0
              simp only [ready, hp, Option.isNone_some, Bool.or_false, Bool.and_eq_true,
                Option.isNone_iff_eq_none] at hr
              exact hr.1
            have hm := hmatch s0 hs0 hnext (Or.inr (by rw [hp]; simp))
            exact ⟨h1.promote hm _, h2⟩
        · intro m hm
          rcases List.mem_append.mp hm with hm | hm
          · exact h.matched m hm
          · obtain ⟨s0, hs0, rfl⟩ := List.mem_map.mp hm
            obtain ⟨hmem, hdone⟩ := List.mem_filter.mp hs0
            simp only [Bool.and_eq_true, Option.isNone_iff_eq_none] at hdone
            exact hmatch s0 hmem hdone.1 (Or.inl hdone.2)

theorem vptOk_event {e : Event} (h : VptOk v) (hok : popOk v e = true)
    (hv : v.event e = some v') : VptOk v' := by
  cases e with
  | push type => exact vptOk_push h hv
  | setText text =>
    cases hv
    exact vptOk_setText h text
  | pop type =>
    simp only [VPT.event, Option.map_eq_some_iff, Prod.exists, exists_and_right,
      exists_eq_right] at hv
    obtain ⟨b, hb⟩ := hv
    exact vptOk_pop h hok hb
  | addPat pat =>
    cases hv
    exact ⟨h.frames, h.matched⟩

end Events

theorem vptOk_init (patRoots : List PatNode) : VptOk (initVpt patRoots) where
  frames := by
    intro st hst
    cases hst
  matched := by
    intro m hm
    cases hm

/-- Whenever `pop` has reported a match, it is one, if no step of the run popped a node with a state
that was not `ready`. -/
theorem match_sound {patRoots : List PatNode} {v : VPT}
    (h : ReachIf (vptSystem patRoots) (fun v e => popOk v e = true) v) :
    ∀ m ∈ v.matched, Matches m.1.node m.2 :=
  (ReachIf.invariant (vptOk_init patRoots) (fun _ _ _ hi hok hs => vptOk_event hi hok hs) h).matched

/-- An object with a field `a`. -/
def patFieldA : PatNode :=
  .mk .jsonObject [] true true false false [.mk .jsonField [0x61] false true true false []]

theorem match_sound_field :
    ∃ v, ReachIf (vptSystem [patFieldA]) (fun v e => popOk v e = true) v ∧ v.matched ≠ [] ∧
      ∀ m ∈ v.matched, Matches m.1.node m.2 := by
  have hrun : ∃ v, runIf (vptSystem [patFieldA]) popOk (initVpt [patFieldA])
      [.push .jsonObject, .push .jsonField, .setText [0x61], .pop .jsonField, .pop .jsonObject] =
        some v ∧ v.matched.length = 1 := ⟨_, rfl, rfl⟩
  obtain ⟨v, hv, hlen⟩ := hrun
  have hreach := ReachIf.runIf (fun _ _ h => h) (ReachIf.init (M := vptSystem [patFieldA])) hv
  refine ⟨v, hreach, ?_, match_sound hreach⟩
  intro e
  rw [e] at hlen
  cases hlen

/-- An object with a field that has a number. -/
def patFieldNumber : PatNode :=
  .mk .jsonObject [] true true false false
    [.mk .jsonField [] false true true false [.mk .jsonNumber [] false true true false []]]

/-- An object with an empty field is reported as an object with a field that has a number. -/
theorem match_not_sound :
    ∃ v, Reach (vptSystem [patFieldNumber]) v ∧ ∃ m ∈ v.matched, ¬ Matches m.1.node m.2 := by
  have hrun : ∃ v, run (vptSystem [patFieldNumber]) (initVpt [patFieldNumber])
      [.push .jsonObject, .push .jsonField, .pop .jsonField, .pop .jsonObject] = some v ∧
        v.matched = [(PatRef.mk patFieldNumber [] none,
          Node.mk .jsonObject [] [Node.mk .jsonField [] []])] := ⟨_, rfl, rfl⟩
  obtain ⟨v, hv, hmatched⟩ := hrun
  refine ⟨v, Reach.run .init hv, _, by rw [hmatched]; exact List.mem_singleton_self _, ?_⟩
  -- the field has no child for the number
  have hfield : ∀ p ps, ¬ List.SublistForall₂ Matches (p :: ps) [] := by
    intro p ps h
    cases h
  rintro ⟨-, -, hobject⟩
  cases hobject with
  | cons_right h => exact hfield _ _ h
  | cons h _ =>
    obtain ⟨-, -, hnumber⟩ := h
    exact hfield _ _ hnumber

end Netp.Parse
