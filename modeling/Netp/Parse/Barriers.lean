import Netp.Parse.TreeStack
import Mathlib.Algebra.GroupWithZero.Nat

/-! # Barriers on the tree, nested to any depth

Beside the tree a run carries the trees at the open `pushBarrier`s, the innermost first. Inside a
pair the tree is the marked one with `topBarrier` nodes on top (`Above`), so no `pop` gets below the
mark and the loop of `popBarrier` ends at it. What `topBarrier` is then set to is the value saved last,
which is the mark's own only if the `pushBarrier` made last had the same count.
-/

namespace Netp.Parse
open Netp.Lib
set_option autoImplicit false

/-- A tree, and the trees at the barriers that are open. -/
structure Marked where
  vpt : VPT
  marks : List VPT

inductive BarrierEvent
  | event (e : Event)
  | pushBarrier
  | popBarrier

/-- `popBarrier` is called only for a `pushBarrier` that is open. -/
def Marked.step (s : Marked) : BarrierEvent → Option Marked
  | .event e => (s.vpt.event e).map fun v => ⟨v, s.marks⟩
  | .pushBarrier => some ⟨s.vpt.pushBarrier, s.vpt :: s.marks⟩
  | .popBarrier =>
    match s.marks with
    | [] => none
    | _ :: marks => s.vpt.popBarrier.map fun v => ⟨v, marks⟩

/-- The runs in which barriers are used in pairs. -/
def barrierSystem (patRoots : List PatNode) : System Marked BarrierEvent :=
  ⟨⟨initVpt patRoots, []⟩, Marked.step⟩

/-- The value saved last is the one saved at the innermost open barrier. -/
def Marked.Saved (s : Marked) : Prop :=
  s.vpt.barriers.head? = s.marks.head?.map VPT.topBarrier

def SavedAtPop (s : Marked) : BarrierEvent → Prop
  | .popBarrier => s.Saved
  | _ => True

/-! ## A tree above an earlier one -/

/-- The node `b` is the node `a`, with more children, and perhaps with another text. -/
structure StackNode.SameOpen (a b : StackNode) : Prop where
  type : b.type = a.type
  children : a.children <+: b.children

/-- The stack is that of `m` with `n` nodes on top. -/
def AboveStack (m : VPT) : ℕ → StackNode → List StackNode → Prop
  | 0, vt, vs => m.vt.SameOpen vt ∧ vs = m.vs
  | n + 1, _, vs => ∃ below rest, vs = below :: rest ∧ AboveStack m n below rest

/-- The tree `v` is `m` with `n` nodes on top. -/
def Above (m : VPT) (n : ℕ) (v : VPT) : Prop := AboveStack m n v.vt v.vs

/-- Every open barrier is below as many nodes as were counted since. -/
def Stacked : VPT → List VPT → Prop
  | v, [] => v.vs.length = v.topBarrier
  | v, m :: ms => Above m v.topBarrier v ∧ Stacked m ms

/-- The counts of the open barriers. -/
def Marked.saved (s : Marked) : List ℕ := s.marks.map VPT.topBarrier

variable {m m' v v' : VPT} {n k : ℕ} {vt vt' : StackNode} {vs : List StackNode} {ms : List VPT}

theorem StackNode.SameOpen.refl (a : StackNode) : a.SameOpen a := ⟨rfl, List.prefix_rfl⟩

theorem StackNode.SameOpen.trans {a b c : StackNode} (h : a.SameOpen b) (h' : b.SameOpen c) :
    a.SameOpen c :=
  ⟨h'.type.trans h.type, h.children.trans h'.children⟩

theorem AboveStack.length (h : AboveStack m n vt vs) : vs.length = m.vs.length + n := by
  induction n generalizing vt vs with
  | zero => rw [h.2, Nat.add_zero]
  | succ n ih =>
    obtain ⟨below, rest, rfl, hrest⟩ := h
    rw [List.length_cons, ih hrest, Nat.add_assoc]

/-- The node on top may change as long as it stays the same node. -/
theorem AboveStack.same (h : AboveStack m n vt vs) (hs : vt.SameOpen vt') : AboveStack m n vt' vs := by
  cases n with
  | zero => exact ⟨h.1.trans hs, h.2⟩
  | succ n => exact h

theorem Above.refl (v : VPT) : Above v 0 v := ⟨.refl _, rfl⟩

theorem AboveStack.trans (h : AboveStack m n m'.vt m'.vs) (h' : AboveStack m' k vt vs) :
    AboveStack m (n + k) vt vs := by
  induction k generalizing vt vs with
  | zero =>
    obtain ⟨hs, rfl⟩ := h'
    exact h.same hs
  | succ k ih =>
    obtain ⟨below, rest, rfl, hrest⟩ := h'
    exact ⟨below, rest, rfl, ih hrest⟩

theorem Above.trans (h : Above m n m') (h' : Above m' k v) : Above m (n + k) v :=
  AboveStack.trans h h'

/-- A tree that is at the node where a mark was made, with the mark's count. -/
theorem Stacked.back (h : Stacked m ms) (hb : Above m 0 v) (hcount : v.topBarrier = m.topBarrier) :
    Stacked v ms := by
  cases ms with
  | nil =>
    show v.vs.length = v.topBarrier
    rw [hb.2, hcount]
    exact h
  | cons m' ms =>
    refine ⟨?_, h.2⟩
    rw [hcount]
    exact Above.trans h.1 hb

theorem Stacked.depth (h : Stacked v ms) :
    v.topBarrier + (ms.map VPT.topBarrier).sum = v.vs.length := by
  induction ms generalizing v with
  | nil => exact h.symm
  | cons m ms ih =>
    obtain ⟨habove, hrest⟩ := h
    rw [List.map_cons, List.sum_cons, ih hrest, habove.length, Nat.add_comm]

theorem Stacked.mem (h : Stacked v ms) (hm : m ∈ ms) : ∃ n, Above m n v := by
  induction ms generalizing v with
  | nil => exact absurd hm List.not_mem_nil
  | cons m' ms ih =>
    obtain ⟨habove, hrest⟩ := h
    rcases List.mem_cons.mp hm with rfl | hm
    · exact ⟨_, habove⟩
    · obtain ⟨n, hn⟩ := ih hrest hm
      exact ⟨_, hn.trans habove⟩

/-! ## The calls -/

/-- What a call inside a pair does to the stack: nothing below the nodes counted. -/
theorem Above.push {t : NodeType} (h : Above m v.topBarrier v) (hv : v.push t = some v') :
    Above m v'.topBarrier v' := by
  obtain ⟨a, -, rfl⟩ := Option.map_eq_some_iff.mp hv
  exact ⟨_, _, rfl, AboveStack.same h ⟨rfl, List.prefix_rfl⟩⟩

theorem Above.pop {t : NodeType} {ok : Bool} (h : Above m v.topBarrier v)
    (hv : v.pop t = some (v', ok)) : Above m v'.topBarrier v' := by
  by_cases hfail : v.vt.type ≠ t ∨ v.topBarrier = 0
  · rw [VPT.pop_fails hfail] at hv
    cases hv
    exact h
  · obtain ⟨htype, hpos⟩ := not_or.mp hfail
    obtain ⟨n, hn⟩ := Nat.exists_eq_succ_of_ne_zero hpos
    unfold Above at h
    rw [hn] at h
    obtain ⟨below, rest, hvs, hrest⟩ := h
    rw [VPT.pop, if_neg htype, if_neg hpos, hvs] at hv
    cases hv
    show AboveStack m (v.topBarrier - 1) _ _
    rw [hn]
    exact AboveStack.same hrest ⟨rfl, List.prefix_append _ _⟩

theorem Above.event {e : Event} (h : Above m v.topBarrier v) (hv : v.event e = some v') :
    Above m v'.topBarrier v' := by
  cases e with
  | push t => exact h.push hv
  | setText text =>
    cases hv
    exact AboveStack.same h ⟨rfl, List.prefix_rfl⟩
  | pop t =>
    obtain ⟨⟨w, ok⟩, hw, rfl⟩ := Option.map_eq_some_iff.mp hv
    exact h.pop hw
  | addPat pat =>
    cases hv
    exact h

/-- Outside all pairs a call keeps the count of the nodes above the root. -/
theorem event_depth {e : Event} (h : v.vs.length = v.topBarrier) (hv : v.event e = some v') :
    v'.vs.length = v'.topBarrier := by
  -- the tree with its root alone, which `v` is above
  let root : VPT := { v with vs := [], vt := (v.vt :: v.vs).getLast (List.cons_ne_nil _ _) }
  have habove : ∀ vs vt, (vt :: vs).getLast (List.cons_ne_nil _ _) = root.vt →
      AboveStack root vs.length vt vs := by
    intro vs
    induction vs with
    | nil =>
      intro vt hlast
      rw [List.getLast_singleton] at hlast
      exact ⟨hlast ▸ .refl _, rfl⟩
    | cons below rest ih =>
      intro vt hlast
      rw [List.getLast_cons (List.cons_ne_nil _ _)] at hlast
      exact ⟨below, rest, rfl, ih below hlast⟩
  have hv0 : Above root v.topBarrier v := h ▸ habove v.vs v.vt rfl
  have hlen := (hv0.event hv).length
  simpa [root] using hlen

theorem Stacked.event {e : Event} (h : Stacked v ms) (hv : v.event e = some v') : Stacked v' ms := by
  cases ms with
  | nil => exact event_depth h hv
  | cons m ms => exact ⟨h.1.event hv, h.2⟩

theorem event_barriers {e : Event} (hv : v.event e = some v') : v'.barriers = v.barriers := by
  cases e with
  | push t =>
    obtain ⟨a, -, rfl⟩ := Option.map_eq_some_iff.mp hv
    rfl
  | setText text =>
    cases hv
    rfl
  | pop t =>
    obtain ⟨⟨w, ok⟩, hw, rfl⟩ := Option.map_eq_some_iff.mp hv
    rw [VPT.pop] at hw
    split_ifs at hw
    · cases hw
      rfl
    · cases hw
      rfl
    · split at hw
      · cases hw
      · cases hw
        rfl
  | addPat pat =>
    cases hv
    rfl

theorem Above.clear (h : Above m n v) (hcount : v.topBarrier = n) :
    ∃ w, VPT.clear n v = some w ∧ Above m 0 w ∧ w.topBarrier = 0 ∧ w.barriers = v.barriers := by
  induction n generalizing v with
  | zero => exact ⟨v, rfl, h, hcount, rfl⟩
  | succ n ih =>
    have hpop : ∃ w, v.pop v.vt.type = some (w, true) ∧ w.topBarrier = n ∧ w.barriers = v.barriers := by
      obtain ⟨below, rest, hvs, -⟩ := h
      rw [VPT.pop, if_neg (not_not.mpr rfl), if_neg (by omega), hvs]
      exact ⟨_, rfl, by show v.topBarrier - 1 = n; omega, rfl⟩
    obtain ⟨w, hw, hn, hbar⟩ := hpop
    rw [← hcount] at h
    have hw' := h.pop hw
    rw [hn] at hw'
    obtain ⟨x, hx, hback, hzero, hbar'⟩ := ih hw' hn
    refine ⟨x, ?_, hback, hzero, hbar'.trans hbar⟩
    rw [VPT.clear, hw]
    exact hx

/-- `popBarrier` is back at the node and the depth of the mark, with the value saved last. -/
theorem Above.popBarrier (h : Above m v.topBarrier v) {b : ℕ} {bs : List ℕ}
    (hb : v.barriers = b :: bs) :
    ∃ w, v.popBarrier = some w ∧ Above m 0 w ∧ w.topBarrier = b ∧ w.barriers = v.barriers := by
  obtain ⟨w, hw, hback, -, hbar⟩ := h.clear rfl
  refine ⟨{ w with topBarrier := b }, ?_, hback, rfl, hbar⟩
  rw [VPT.popBarrier, hb]
  simp only [hw, Option.map_some]

/-! ## Runs -/

/-- A tree in which every open barrier holds. -/
structure Contained (s : Marked) : Prop where
  /-- `topBarrier` and the counts at the open barriers add up to the depth above the root. -/
  depth : s.vpt.topBarrier + s.saved.sum = s.vpt.vs.length
  /-- Of what was there at an open barrier nothing has been removed. -/
  kept : ∀ m ∈ s.marks, ∃ n, Above m n s.vpt
  /-- The `popBarrier` that comes next is back at the node and the depth of its `pushBarrier`, and
  has the count of then exactly when that was the value saved last. -/
  closes : ∀ m ms, s.marks = m :: ms → ∃ v, s.vpt.popBarrier = some v ∧ Above m 0 v ∧
    v.vs.length = m.vs.length ∧ (v.topBarrier = m.topBarrier ↔ s.Saved)

/-- What the steps keep. -/
structure Barred (s : Marked) : Prop where
  stacked : Stacked s.vpt s.marks
  pushed : s.marks ≠ [] → s.vpt.barriers ≠ []

theorem Barred.contained {s : Marked} (h : Barred s) : Contained s where
  depth := h.stacked.depth
  kept := fun _ hm => h.stacked.mem hm
  closes := by
    intro m ms hms
    have hst := h.stacked
    rw [hms] at hst
    obtain ⟨b, bs, hb⟩ := List.exists_cons_of_ne_nil (h.pushed (by simp [hms]))
    obtain ⟨w, hw, hback, hcount, -⟩ := hst.1.popBarrier hb
    refine ⟨w, hw, hback, congrArg List.length hback.2, ?_⟩
    rw [Marked.Saved, hb, hms, hcount]
    simp

theorem Barred.step {s s' : Marked} {a : BarrierEvent} (h : Barred s) (hok : SavedAtPop s a)
    (hs : s.step a = some s') : Barred s' := by
  cases a with
  | event e =>
    obtain ⟨v, hv, rfl⟩ := Option.map_eq_some_iff.mp hs
    refine ⟨h.stacked.event hv, fun hm => ?_⟩
    rw [event_barriers hv]
    exact h.pushed hm
  | pushBarrier =>
    cases hs
    exact ⟨⟨Above.refl s.vpt, h.stacked⟩, fun _ => List.cons_ne_nil _ _⟩
  | popBarrier =>
    obtain ⟨v, marks⟩ := s
    cases marks with
    | nil => cases hs
    | cons m ms =>
      obtain ⟨w, hw, rfl⟩ := Option.map_eq_some_iff.mp hs
      have hne := h.pushed (List.cons_ne_nil _ _)
      obtain ⟨b, bs, hb⟩ := List.exists_cons_of_ne_nil hne
      obtain ⟨w', hw', hback, hcount, hbar⟩ := h.stacked.1.popBarrier hb
      obtain rfl : w = w' := Option.some.inj (hw.symm.trans hw')
      have hsaved : b = m.topBarrier := by
        simp only [SavedAtPop, Marked.Saved] at hok
        rw [hb] at hok
        simpa using hok
      refine ⟨h.stacked.2.back hback (hcount.trans hsaved), fun _ => ?_⟩
      rw [hbar]
      exact hne

/-- In every run whose `popBarrier`s find the value of their own `pushBarrier` saved last, barriers
contain what happens between them. -/
theorem barriers_contain (patRoots : List PatNode) (s : Marked)
    (hr : ReachIf (barrierSystem patRoots) SavedAtPop s) : Contained s := by
  have h0 : Barred (barrierSystem patRoots).init := ⟨rfl, fun hm => absurd rfl hm⟩
  exact (hr.invariant h0 fun s a s' h hok hs => h.step hok hs).contained

/-- A pair with an extra `pop` and an extra `push` in it. -/
theorem barriers_contain_pair : ∃ s, ReachIf (barrierSystem []) SavedAtPop s ∧
    s.vpt.vs.length = 1 ∧ s.vpt.topBarrier = 1 ∧ Contained s := by
  have h0 : ReachIf (barrierSystem []) SavedAtPop (barrierSystem []).init := .init
  have h1 := h0.next (a := BarrierEvent.event (.push .langHttp)) trivial rfl
  have h2 := h1.next (a := BarrierEvent.pushBarrier) trivial rfl
  have h3 := h2.next (a := BarrierEvent.event (.pop .langHttp)) trivial rfl
  have h4 := h3.next (a := BarrierEvent.event (.push .htmlTag)) trivial rfl
  have h5 := h4.next (a := BarrierEvent.popBarrier) rfl rfl
  exact ⟨_, h5, rfl, rfl, barriers_contain [] _ h5⟩

/-- Two pairs, one inside the other: the outer `popBarrier` takes the value the inner `pushBarrier`
saved, and the node that was open before is no longer counted. -/
theorem barriers_nested : ∃ s, Reach (barrierSystem []) s ∧ ¬ Contained s := by
  let events : List BarrierEvent :=
    [.event (.push .langHttp), .pushBarrier, .pushBarrier, .popBarrier, .popBarrier]
  obtain ⟨s, hs⟩ : ∃ s, run (barrierSystem []) (barrierSystem []).init events = some s := ⟨_, rfl⟩
  refine ⟨s, Reach.run .init hs, fun hc => ?_⟩
  have htop := run_field hs (fun s => s.vpt.topBarrier) (x := 0) rfl
  have hsaved := run_field hs Marked.saved (x := []) rfl
  have hdepth := run_field hs (fun s => s.vpt.vs.length) (x := 1) rfl
  have hsum := hc.depth
  rw [htop, hsaved, hdepth] at hsum
  cases hsum

end Netp.Parse
