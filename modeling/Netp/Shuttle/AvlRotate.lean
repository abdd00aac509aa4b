import Netp.Shuttle.AvlRep

/-! # Finding the unbalanced grandparent, and the rotation

`find_first_unbal_gp` is `firstUneven` of the represented tree, and `rebalance` is `rotate`. The four
cases of `rebalance` differ in which elements are called `a`, `b`, `c`; the assignments after them are
one function, and `tie_rep` is proved once for it.
-/

namespace Netp.Shuttle
open BinaryTree Netp.Lib.Avl
set_option autoImplicit false

variable {α : Type}

theorem Rep.parent_eq {el : α → AvlEl α} {t : BinaryTree α} {e : α} {par : Option α}
    (h : Rep el t (some e) par) : (el e).parent = par := by
  cases t with
  | nil => cases h
  | node a l r =>
    have ha : e = a := Option.some.inj h.1
    rw [ha]
    exact h.2.1

theorem RepAround.up {el : α → AvlEl α} {root p par : Option α} {f : Frame α} {c : List (Frame α)}
    {t : BinaryTree α} (ht : Rep el t p par) (hc : RepAround el root (f :: c) p par t.height) :
    Rep el (f.fill t) (some f.val) (el f.val).parent ∧
      RepAround el root c (some f.val) (el f.val).parent (f.fill t).height := by
  obtain ⟨rfl, rfl, hs, hh, hc⟩ := hc
  refine ⟨(rep_fill f).mpr ⟨rfl, rfl, hh, ht, hs⟩, ?_⟩
  rw [height_fill]
  exact hc

/-! ## `find_first_unbal_gp` -/

theorem balanceProp_iff {m : AvlTree α} {f : Frame α} {t : BinaryTree α} {p : Option α}
    (ht : Rep m.el t p (some f.val)) (hp : hole f (m.el f.val) = p)
    (hs : Rep m.el f.sib (other f (m.el f.val)) (some f.val)) :
    ((m.heightOf (m.el f.val).left : ℤ) - (m.heightOf (m.el f.val).right : ℤ) < -1 ∨
      (m.heightOf (m.el f.val).left : ℤ) - (m.heightOf (m.el f.val).right : ℤ) > 1) ↔
      ¬ f.Even t.height := by
  have h1 : m.heightOf (hole f (m.el f.val)) = t.height := by rw [hp, ht.heightOf]
  have h2 : m.heightOf (other f (m.el f.val)) = f.sib.height := hs.heightOf
  unfold Frame.Even
  cases f with
  | left a r =>
    simp only [hole, other, Frame.val, Frame.sib] at h1 h2 ⊢
    rw [h1, h2]
    omega
  | right a l =>
    simp only [hole, other, Frame.val, Frame.sib] at h1 h2 ⊢
    rw [h1, h2]
    omega

/-- What the search returns: nothing where no frame is uneven, and else the root of the place below
the first uneven one. -/
def Found (m : AvlTree α) (e : Option α) : Option (Spot α) → Prop
  | none => e = none
  | some s => ∃ n par, e = some n ∧ Rep m.el s.tree (some n) par ∧
      RepAround m.el m.root (s.parent :: s.grand :: s.rest) (some n) par s.tree.height

theorem findFirstUnbalGpLoop_spec {m : AvlTree α} {c : List (Frame α)} {f g : Frame α}
    {t : BinaryTree α} {e : α} {par : Option α} {fuel : ℕ} (ht : Rep m.el t (some e) par)
    (hc : RepAround m.el m.root (f :: g :: c) (some e) par t.height) (hfuel : c.length < fuel) :
    ∃ r, m.findFirstUnbalGpLoop fuel (some e) (some g.val) = some r ∧
      Found m r (firstUneven t (f :: g :: c)) := by
  induction c generalizing f g t e par fuel with
  | nil =>
    obtain ⟨hup, hcup⟩ := hc.up ht
    obtain ⟨hpar', hp', hs', -, hroot, hnone⟩ := id hcup
    have htest := balanceProp_iff (hpar' ▸ hup) hp' hs'
    cases fuel with
    | zero => simp at hfuel
    | succ fuel =>
      by_cases hg : g.Even (f.fill t).height
      · refine ⟨none, ?_, ?_⟩
        · rw [AvlTree.findFirstUnbalGpLoop, if_neg (by rw [htest]; exact not_not.mpr hg), hnone]
          cases fuel <;> rfl
        · rw [firstUneven, if_pos hg]
          rfl
      · refine ⟨some e, ?_, ?_⟩
        · rw [AvlTree.findFirstUnbalGpLoop, if_pos (htest.mpr hg)]
        · rw [firstUneven, if_neg hg]
          exact ⟨e, par, rfl, ht, hc⟩
  | cons g' c ih =>
    obtain ⟨hup, hcup⟩ := hc.up ht
    obtain ⟨hpar', hp', hs', -, hrest⟩ := id hcup
    have htest := balanceProp_iff (hpar' ▸ hup) hp' hs'
    have hnext : (m.el g.val).parent = some g'.val := hrest.1
    have hpe : (m.el e).parent = some f.val := ht.parent_eq.trans hc.1
    cases fuel with
    | zero => simp at hfuel
    | succ fuel =>
      by_cases hg : g.Even (f.fill t).height
      · obtain ⟨r, hr, hfound⟩ := ih hup hcup (by simpa using hfuel)
        refine ⟨r, ?_, ?_⟩
        · rw [AvlTree.findFirstUnbalGpLoop, if_neg (by rw [htest]; exact not_not.mpr hg)]
          show m.findFirstUnbalGpLoop fuel (m.el e).parent (m.el g.val).parent = some r
          rw [hpe, hnext, hr]
        · rw [firstUneven, if_pos hg]
          exact hfound
      · refine ⟨some e, ?_, ?_⟩
        · rw [AvlTree.findFirstUnbalGpLoop, if_pos (htest.mpr hg)]
        · rw [firstUneven, if_neg hg]
          exact ⟨e, par, rfl, ht, hc⟩

theorem findFirstUnbalGp_spec {m : AvlTree α} {c : List (Frame α)} {t : BinaryTree α} {e : α}
    {par : Option α} (ht : Rep m.el t (some e) par)
    (hc : RepAround m.el m.root c (some e) par t.height) (hfuel : c.length ≤ m.treeSize) :
    ∃ r, m.findFirstUnbalGp (some e) = some r ∧ Found m r (firstUneven t c) := by
  cases c with
  | nil =>
    have hpar : (m.el e).parent = none := ht.parent_eq.trans hc.2
    refine ⟨none, ?_, rfl⟩
    simp only [AvlTree.findFirstUnbalGp, hpar]
  | cons f c =>
    have hpe : (m.el e).parent = some f.val := ht.parent_eq.trans hc.1
    obtain ⟨hup, hcup⟩ := hc.up ht
    cases c with
    | nil =>
      have hpar : (m.el f.val).parent = none := hcup.2
      refine ⟨none, ?_, rfl⟩
      simp only [AvlTree.findFirstUnbalGp, hpe, hpar]
    | cons g c =>
      have hpar : (m.el f.val).parent = some g.val := hcup.1
      have hrounds : c.length < m.treeSize := by
        simp only [List.length_cons] at hfuel
        omega
      obtain ⟨r, hr, hfound⟩ := findFirstUnbalGpLoop_spec ht hc hrounds
      refine ⟨r, ?_, hfound⟩
      simp only [AvlTree.findFirstUnbalGp, hpe, hpar]
      exact hr

/-! ## The rotation -/

section Tie
variable [DecidableEq α] {m : AvlTree α} {ggp : Option α} {a b c : α} {t1 t2 t3 t4 : Option α}

theorem setParentOf_eq (m : AvlTree α) (t v : Option α) :
    m.setParentOf t v =
      { m with el := fun x => if t = some x then { m.el x with parent := v } else m.el x } := by
  cases t with
  | none => simp [AvlTree.setParentOf]
  | some y =>
    simp only [AvlTree.setParentOf, AvlTree.setParent, AvlTree.mk.injEq, true_and]
    funext x
    by_cases hxy : x = y
    · subst hxy
      simp
    · have hyx : ¬ y = x := fun e => hxy e.symm
      simp [hxy, hyx]

theorem tie_a (hab : a ≠ b) (hac : a ≠ c) (h1 : t1 ≠ some a) (h2 : t2 ≠ some a)
    (h3 : t3 ≠ some a) (h4 : t4 ≠ some a) :
    (m.tie ggp a b c t1 t2 t3 t4).el a = ⟨t1, t2, some b, (m.el a).height⟩ := by
  simp [AvlTree.tie, setParentOf_eq, AvlTree.setLeft, AvlTree.setRight, AvlTree.setParent, hab, hac,
    h1, h2, h3, h4]

theorem tie_b (hab : a ≠ b) (hbc : b ≠ c) (h1 : t1 ≠ some b) (h2 : t2 ≠ some b)
    (h3 : t3 ≠ some b) (h4 : t4 ≠ some b) :
    (m.tie ggp a b c t1 t2 t3 t4).el b = ⟨some a, some c, ggp, (m.el b).height⟩ := by
  simp [AvlTree.tie, setParentOf_eq, AvlTree.setLeft, AvlTree.setRight, AvlTree.setParent, hab.symm,
    hbc, h1, h2, h3, h4]

theorem tie_c (hac : a ≠ c) (hbc : b ≠ c) (h1 : t1 ≠ some c) (h2 : t2 ≠ some c)
    (h3 : t3 ≠ some c) (h4 : t4 ≠ some c) :
    (m.tie ggp a b c t1 t2 t3 t4).el c = ⟨t3, t4, some b, (m.el c).height⟩ := by
  simp [AvlTree.tie, setParentOf_eq, AvlTree.setLeft, AvlTree.setRight, AvlTree.setParent, hac.symm,
    hbc.symm, h1, h2, h3, h4]

theorem tie_other {x : α} (ha : x ≠ a) (hb : x ≠ b) (hc : x ≠ c) :
    (m.tie ggp a b c t1 t2 t3 t4).el x =
      if t4 = some x then { m.el x with parent := some c }
      else if t3 = some x then { m.el x with parent := some c }
      else if t2 = some x then { m.el x with parent := some a }
      else if t1 = some x then { m.el x with parent := some a }
      else m.el x := by
  simp only [AvlTree.tie, setParentOf_eq, AvlTree.setLeft, AvlTree.setRight, AvlTree.setParent,
    Function.update_of_ne ha, Function.update_of_ne hb, Function.update_of_ne hc]
  grind

theorem tie_root : (m.tie ggp a b c t1 t2 t3 t4).root = m.root := by
  simp only [AvlTree.tie, setParentOf_eq, AvlTree.setLeft, AvlTree.setRight, AvlTree.setParent]

theorem tie_head : (m.tie ggp a b c t1 t2 t3 t4).head = m.head := by
  simp only [AvlTree.tie, setParentOf_eq, AvlTree.setLeft, AvlTree.setRight, AvlTree.setParent]

theorem tie_tail : (m.tie ggp a b c t1 t2 t3 t4).tail = m.tail := by
  simp only [AvlTree.tie, setParentOf_eq, AvlTree.setLeft, AvlTree.setRight, AvlTree.setParent]

theorem tie_treeSize : (m.tie ggp a b c t1 t2 t3 t4).treeSize = m.treeSize := by
  simp only [AvlTree.tie, setParentOf_eq, AvlTree.setLeft, AvlTree.setRight, AvlTree.setParent]

theorem setHeight_of_ne {x v} (m : AvlTree α) (hx : x ≠ a) : (m.setHeight a v).el x = m.el x :=
  Function.update_of_ne hx _ _

/-- Storing the new height of an element whose subtrees are right makes its tree right. -/
theorem rep_setHeight {l r : BinaryTree α} (hl : Rep m.el l (m.el a).left (some a))
    (hr : Rep m.el r (m.el a).right (some a)) (hal : a ∉ toList l) (har : a ∉ toList r) :
    Rep (m.setHeight a (m.newHeight a)).el (.node a l r) (some a) (m.el a).parent := by
  have ha : (m.setHeight a (m.newHeight a)).el a = { m.el a with height := m.newHeight a } :=
    Function.update_self _ _ _
  have hkeep : ∀ x, x ≠ a → (m.setHeight a (m.newHeight a)).el x = m.el x :=
    fun x hx => setHeight_of_ne m hx
  refine ⟨rfl, by rw [ha], ?_, ?_, ?_⟩
  · rw [ha]
    show m.newHeight a = max l.height r.height + 1
    rw [newHeight_eq, hl.heightOf, hr.heightOf]
  · rw [ha]
    exact hl.congr fun x hx => hkeep x fun e => hal (e ▸ hx)
  · rw [ha]
    exact hr.congr fun x hx => hkeep x fun e => har (e ▸ hx)

variable {T1 T2 T3 T4 : BinaryTree α} {p1 p2 p3 p4 : Option α}

/-- The elements of a rotation: the three on top and the four subtrees. -/
def parts (a b c : α) (T1 T2 T3 T4 : BinaryTree α) : List α :=
  a :: b :: c :: (toList T1 ++ toList T2 ++ toList T3 ++ toList T4)

theorem fixHeights_of_not_mem {x : α} (ha : x ≠ a) (hb : x ≠ b) (hc : x ≠ c) (m : AvlTree α) :
    (m.fixHeights a b c).el x = m.el x := by
  simp only [AvlTree.fixHeights, AvlTree.setHeight, Function.update_of_ne ha,
    Function.update_of_ne hb, Function.update_of_ne hc]

/-- The links of the three elements and the parents of the four subtrees being set, the heights of
`a`, `c`, `b` are stored in an order in which each is right. -/
theorem fixHeights_rep (h1 : Rep m.el T1 t1 (some a)) (h2 : Rep m.el T2 t2 (some a))
    (h3 : Rep m.el T3 t3 (some c)) (h4 : Rep m.el T4 t4 (some c))
    (ha : ∃ h, m.el a = ⟨t1, t2, some b, h⟩) (hb : ∃ h, m.el b = ⟨some a, some c, ggp, h⟩)
    (hc : ∃ h, m.el c = ⟨t3, t4, some b, h⟩) (hnodup : (parts a b c T1 T2 T3 T4).Nodup) :
    Rep (m.fixHeights a b c).el (.node b (.node a T1 T2) (.node c T3 T4)) (some b) ggp := by
  obtain ⟨ha', ha⟩ := ha
  obtain ⟨hb', hb⟩ := hb
  obtain ⟨hc', hc⟩ := hc
  simp only [parts] at hnodup
  have hac : a ≠ c := by grind
  have hab : a ≠ b := by grind
  have hbc : b ≠ c := by grind
  -- after the height of a
  have rA : Rep (m.setHeight a (m.newHeight a)).el (.node a T1 T2) (some a) (some b) := by
    have h := rep_setHeight (m := m) (a := a) (l := T1) (r := T2) (by rw [ha]; exact h1)
      (by rw [ha]; exact h2) (by grind) (by grind)
    rwa [ha] at h
  generalize hm1 : m.setHeight a (m.newHeight a) = m1 at rA
  have hel1 : ∀ x, x ≠ a → m1.el x = m.el x := fun x hx => hm1 ▸ setHeight_of_ne m hx
  -- after the height of c
  have hc1 : m1.el c = ⟨t3, t4, some b, hc'⟩ := by rw [hel1 c hac.symm, hc]
  have rC : Rep (m1.setHeight c (m1.newHeight c)).el (.node c T3 T4) (some c) (some b) := by
    have h := rep_setHeight (m := m1) (a := c) (l := T3) (r := T4)
      (by rw [hc1]; exact h3.congr fun x hx => hel1 x (by grind))
      (by rw [hc1]; exact h4.congr fun x hx => hel1 x (by grind)) (by grind) (by grind)
    rwa [hc1] at h
  generalize hm2 : m1.setHeight c (m1.newHeight c) = m2 at rC
  have hel2 : ∀ x, x ≠ c → m2.el x = m1.el x := fun x hx => hm2 ▸ setHeight_of_ne m1 hx
  -- and of b, from the two heights
  have hb2 : m2.el b = ⟨some a, some c, ggp, hb'⟩ := by rw [hel2 b hbc, hel1 b hab.symm, hb]
  have rA2 : Rep m2.el (.node a T1 T2) (some a) (some b) := by
    refine rA.congr fun x hx => hel2 x ?_
    simp only [toList_node] at hx
    grind
  have hnew : m2.newHeight b =
      (if (m2.el a).height > (m2.el c).height then (m2.el a).height else (m2.el c).height) + 1 := by
    simp only [AvlTree.newHeight, hb2, AvlTree.heightOf]
  have hfix : m.fixHeights a b c = m2.setHeight b (m2.newHeight b) := by
    simp only [AvlTree.fixHeights, hm1, hm2, hnew]
  rw [hfix]
  have h := rep_setHeight (m := m2) (a := b) (l := .node a T1 T2) (r := .node c T3 T4)
    (by rw [hb2]; exact rA2) (by rw [hb2]; exact rC)
    (by simp only [toList_node]; grind) (by simp only [toList_node]; grind)
  rwa [hb2] at h

variable (ggp) in
/-- The assignments of the rotation and the heights: the four subtrees hang under `a` and `c`, these
under `b`. Nothing else changes. -/
theorem tie_rep (h1 : Rep m.el T1 t1 p1) (h2 : Rep m.el T2 t2 p2) (h3 : Rep m.el T3 t3 p3)
    (h4 : Rep m.el T4 t4 p4) (hnodup : (parts a b c T1 T2 T3 T4).Nodup) :
    Rep ((m.tie ggp a b c t1 t2 t3 t4).fixHeights a b c).el
        (.node b (.node a T1 T2) (.node c T3 T4)) (some b) ggp ∧
      ∀ x, x ∉ parts a b c T1 T2 T3 T4 →
        ((m.tie ggp a b c t1 t2 t3 t4).fixHeights a b c).el x = m.el x := by
  have hsub : ∀ {T : BinaryTree α} {t p : Option α}, Rep m.el T t p → ∀ x, x ∉ toList T →
      t ≠ some x := fun h x hx e => hx (h.mem e)
  simp only [parts] at hnodup ⊢
  obtain ⟨hab, hac, hbc⟩ : a ≠ b ∧ a ≠ c ∧ b ≠ c := by grind
  have k1 : ∀ x ∈ toList T1, (x ≠ a ∧ x ≠ b ∧ x ≠ c) ∧ x ∉ toList T2 ∧ x ∉ toList T3 ∧
      x ∉ toList T4 := by grind
  have k2 : ∀ x ∈ toList T2, (x ≠ a ∧ x ≠ b ∧ x ≠ c) ∧ x ∉ toList T1 ∧ x ∉ toList T3 ∧
      x ∉ toList T4 := by grind
  have k3 : ∀ x ∈ toList T3, (x ≠ a ∧ x ≠ b ∧ x ≠ c) ∧ x ∉ toList T1 ∧ x ∉ toList T2 ∧
      x ∉ toList T4 := by grind
  have k4 : ∀ x ∈ toList T4, (x ≠ a ∧ x ≠ b ∧ x ≠ c) ∧ x ∉ toList T1 ∧ x ∉ toList T2 ∧
      x ∉ toList T3 := by grind
  have htop : ∀ x ∈ [a, b, c], x ∉ toList T1 ∧ x ∉ toList T2 ∧ x ∉ toList T3 ∧ x ∉ toList T4 := by
    grind
  have hnone : ∀ x ∈ [a, b, c], t1 ≠ some x ∧ t2 ≠ some x ∧ t3 ≠ some x ∧ t4 ≠ some x := by
    intro x hx
    obtain ⟨n1, n2, n3, n4⟩ := htop x hx
    exact ⟨hsub h1 x n1, hsub h2 x n2, hsub h3 x n3, hsub h4 x n4⟩
  constructor
  · apply fixHeights_rep
    · refine h1.reparent (by grind) ?_ ?_
      · intro x hx e
        obtain ⟨⟨ha, hb, hc⟩, n2, n3, n4⟩ := k1 x hx
        rw [tie_other ha hb hc, if_neg (hsub h4 x n4), if_neg (hsub h3 x n3),
          if_neg (hsub h2 x n2), if_pos e]
      · intro x hx e
        obtain ⟨⟨ha, hb, hc⟩, n2, n3, n4⟩ := k1 x hx
        rw [tie_other ha hb hc, if_neg (hsub h4 x n4), if_neg (hsub h3 x n3),
          if_neg (hsub h2 x n2), if_neg e]
    · refine h2.reparent (by grind) ?_ ?_
      · intro x hx e
        obtain ⟨⟨ha, hb, hc⟩, n1, n3, n4⟩ := k2 x hx
        rw [tie_other ha hb hc, if_neg (hsub h4 x n4), if_neg (hsub h3 x n3), if_pos e]
      · intro x hx e
        obtain ⟨⟨ha, hb, hc⟩, n1, n3, n4⟩ := k2 x hx
        rw [tie_other ha hb hc, if_neg (hsub h4 x n4), if_neg (hsub h3 x n3), if_neg e,
          if_neg (hsub h1 x n1)]
    · refine h3.reparent (by grind) ?_ ?_
      · intro x hx e
        obtain ⟨⟨ha, hb, hc⟩, n1, n2, n4⟩ := k3 x hx
        rw [tie_other ha hb hc, if_neg (hsub h4 x n4), if_pos e]
      · intro x hx e
        obtain ⟨⟨ha, hb, hc⟩, n1, n2, n4⟩ := k3 x hx
        rw [tie_other ha hb hc, if_neg (hsub h4 x n4), if_neg e, if_neg (hsub h2 x n2),
          if_neg (hsub h1 x n1)]
    · refine h4.reparent (by grind) ?_ ?_
      · intro x hx e
        obtain ⟨⟨ha, hb, hc⟩, n1, n2, n3⟩ := k4 x hx
        rw [tie_other ha hb hc, if_pos e]
      · intro x hx e
        obtain ⟨⟨ha, hb, hc⟩, n1, n2, n3⟩ := k4 x hx
        rw [tie_other ha hb hc, if_neg e, if_neg (hsub h3 x n3), if_neg (hsub h2 x n2),
          if_neg (hsub h1 x n1)]
    · obtain ⟨n1, n2, n3, n4⟩ := hnone a (by simp)
      exact ⟨_, tie_a hab hac n1 n2 n3 n4⟩
    · obtain ⟨n1, n2, n3, n4⟩ := hnone b (by simp)
      exact ⟨_, tie_b hab hbc n1 n2 n3 n4⟩
    · obtain ⟨n1, n2, n3, n4⟩ := hnone c (by simp)
      exact ⟨_, tie_c hac hbc n1 n2 n3 n4⟩
    · exact hnodup
  · intro x hx
    simp only [List.mem_cons, List.mem_append, not_or] at hx
    obtain ⟨ha, hb, hc, ⟨⟨n1, n2⟩, n3⟩, n4⟩ := hx
    rw [fixHeights_of_not_mem ha hb hc, tie_other ha hb hc, if_neg (hsub h4 x n4),
      if_neg (hsub h3 x n3), if_neg (hsub h2 x n2), if_neg (hsub h1 x n1)]

/-! ## `rebalance` -/

/-- The great grandparent, or the tree, points to `b` instead of `gp`. -/
theorem tieTop_around {ctx : List (Frame α)} {gp : α} {h : ℕ}
    (hc : RepAround m.el m.root ctx (some gp) ggp h) (hnodup : (nodes ctx).Nodup)
    (hgp : gp ∉ nodes ctx) :
    RepAround (m.tieTop ggp gp b).el (m.tieTop ggp gp b).root ctx (some b) ggp h ∧
      ∀ x, x ∉ nodes ctx → (m.tieTop ggp gp b).el x = m.el x := by
  cases ctx with
  | nil =>
    obtain ⟨-, rfl⟩ := hc
    exact ⟨⟨rfl, rfl⟩, fun _ _ => rfl⟩
  | cons f ctx =>
    obtain ⟨rfl, hp, hs, hh, hc⟩ := hc
    have hfresh : f.val ∉ toList f.sib ∧ f.val ∉ nodes ctx := by
      simp only [nodes] at hnodup
      grind
    -- the other child of the great grandparent is not `gp`
    have hother : other f (m.el f.val) ≠ some gp := by
      intro e
      exact hgp (by simp [nodes, hs.mem e])
    have htop : ∀ e', (∀ x, x ≠ f.val → e' x = m.el x) → hole f (e' f.val) = some b →
        other f (e' f.val) = other f (m.el f.val) → (e' f.val).height = (m.el f.val).height →
        (e' f.val).parent = (m.el f.val).parent →
        RepAround e' m.root (f :: ctx) (some b) (some f.val) h := by
      intro e' hkeep h1 h2 h3 h4
      refine ⟨rfl, h1, ?_, h3.trans hh, ?_⟩
      · rw [h2]
        exact hs.congr fun x hx => hkeep x fun e => hfresh.1 (e ▸ hx)
      · rw [h4]
        exact hc.congr fun x hx => hkeep x fun e => hfresh.2 (e ▸ hx)
    cases f with
    | left g r =>
      have hleft : (m.el g).left = some gp := hp
      have heq : m.tieTop (some (Frame.left g r).val) gp b = m.setLeft g (some b) := by
        simp only [AvlTree.tieTop, Frame.val, hleft, if_true]
      rw [heq]
      refine ⟨htop _ (fun x hx => Function.update_of_ne hx _ _) ?_ ?_ ?_ ?_, ?_⟩
      all_goals simp only [AvlTree.setLeft, Frame.val, hole, other, Function.update_self]
      intro x hx
      exact Function.update_of_ne (fun e => hx (by simp [nodes, e, Frame.val])) _ _
    | right g l =>
      have hleft : (m.el g).left ≠ some gp := hother
      have heq : m.tieTop (some (Frame.right g l).val) gp b = m.setRight g (some b) := by
        simp only [AvlTree.tieTop, Frame.val, hleft, if_false]
      rw [heq]
      refine ⟨htop _ (fun x hx => Function.update_of_ne hx _ _) ?_ ?_ ?_ ?_, ?_⟩
      all_goals simp only [AvlTree.setRight, Frame.val, hole, other, Function.update_self]
      intro x hx
      exact Function.update_of_ne (fun e => hx (by simp [nodes, e, Frame.val])) _ _

/-- Two trees with the same first and last element and the same size. -/
def SameEnds (m m' : AvlTree α) : Prop :=
  m'.head = m.head ∧ m'.tail = m.tail ∧ m'.treeSize = m.treeSize

theorem tieTop_sameEnds {gp : α} : SameEnds m (m.tieTop ggp gp b) := by
  cases ggp with
  | none => exact ⟨rfl, rfl, rfl⟩
  | some g =>
    unfold AvlTree.tieTop
    simp only
    split <;> exact ⟨rfl, rfl, rfl⟩

/-- From the rotation on, whichever the elements `a`, `b`, `c` are. -/
theorem rotateAt_spec {ctx : List (Frame α)} {gp : α} {h : ℕ}
    (hc : RepAround m.el m.root ctx (some gp) ggp h) (h1 : Rep m.el T1 t1 p1)
    (h2 : Rep m.el T2 t2 p2) (h3 : Rep m.el T3 t3 p3) (h4 : Rep m.el T4 t4 p4)
    (hnodup : (parts a b c T1 T2 T3 T4 ++ nodes ctx).Nodup)
    (hgp : gp ∈ parts a b c T1 T2 T3 T4) (hfuel : ctx.length ≤ m.treeSize) :
    ∃ m', m.rotateAt ggp gp a b c t1 t2 t3 t4 = some (m', ggp) ∧
      Rep m'.el (plug ctx (.node b (.node a T1 T2) (.node c T3 T4))) m'.root none ∧
      SameEnds m m' := by
  obtain ⟨hparts, hctx, hdisj⟩ := List.nodup_append'.mp hnodup
  have hsep : ∀ x ∈ parts a b c T1 T2 T3 T4, x ∉ nodes ctx := fun x hx hx' => hdisj hx hx'
  have hsubs : ∀ x ∈ toList T1 ++ toList T2 ++ toList T3 ++ toList T4, x ∉ nodes ctx :=
    fun x hx => hsep x (by simp only [parts, List.mem_cons]; exact Or.inr (Or.inr (Or.inr hx)))
  obtain ⟨htop, htopel⟩ := tieTop_around (b := b) hc hctx (hsep gp hgp)
  obtain ⟨hends1, hends2, hends3⟩ : SameEnds m (m.tieTop ggp gp b) := tieTop_sameEnds
  generalize hm1 : m.tieTop ggp gp b = m1 at htop htopel hends1 hends2 hends3
  obtain ⟨hrot, hrotel⟩ := tie_rep ggp
    (h1.congr fun x hx => htopel x (hsubs x (by simp [hx])))
    (h2.congr fun x hx => htopel x (hsubs x (by simp [hx])))
    (h3.congr fun x hx => htopel x (hsubs x (by simp [hx])))
    (h4.congr fun x hx => htopel x (hsubs x (by simp [hx]))) hparts
  generalize hm2 : (m1.tie ggp a b c t1 t2 t3 t4).fixHeights a b c = m2 at hrot hrotel
  have hroot : m2.root = m1.root := by
    rw [← hm2]
    exact tie_root
  have hends : SameEnds m m2 := by
    rw [← hm2]
    exact ⟨tie_head.trans hends1, tie_tail.trans hends2, tie_treeSize.trans hends3⟩
  have haround : RepAround m2.el m2.root ctx (some b) ggp h := by
    rw [hroot]
    exact htop.congr fun x hx => hrotel x fun hx' => hdisj hx' hx
  have hperm : (toList (.node b (.node a T1 T2) (.node c T3 T4))).Perm
      (parts a b c T1 T2 T3 T4) := by
    rw [List.perm_iff_count]
    intro x
    simp only [toList_node, parts, List.count_append, List.count_cons]
    omega
  have hnodup2 : (toList (.node b (.node a T1 T2) (.node c T3 T4)) ++ nodes ctx).Nodup :=
    (hperm.append_right _).nodup_iff.mpr hnodup
  obtain ⟨m', hrun, hrep, hctx', hframe⟩ := recalcHeights_around hrot haround hnodup2
    (hfuel.trans (le_of_eq hends.2.2.symm))
  refine ⟨m', ?_, rep_plug.mpr ⟨_, _, hrep, hctx'⟩, ?_⟩
  · simp only [AvlTree.rotateAt, hm1, hm2, hrun, Option.map_some]
  · exact ⟨hframe.head.trans hends.1, hframe.tail.trans hends.2.1,
      hframe.treeSize.trans hends.2.2⟩

theorem rebalance_spec {f g : Frame α} {ctx : List (Frame α)} {t : BinaryTree α} {n : α}
    {par : Option α} (ht : Rep m.el t (some n) par)
    (hc : RepAround m.el m.root (f :: g :: ctx) (some n) par t.height)
    (hnodup : (toList t ++ nodes (f :: g :: ctx)).Nodup) (hfuel : ctx.length ≤ m.treeSize) :
    ∃ m', m.rebalance n = some (m', (m.el g.val).parent) ∧
      Rep m'.el (plug ctx (rotate f g t)) m'.root none ∧ SameEnds m m' := by
  cases t with
  | nil => cases ht
  | node n' l r =>
    obtain ⟨hn, hpar, -, hl, hr⟩ := ht
    cases Option.some.inj hn
    obtain ⟨rfl, hfn, hfs, -, hgp, hgf, hgs, -, hctx⟩ := hc
    simp only [toList_node, nodes] at hnodup
    -- a sibling's root is neither of the elements on the path
    have hfother : other f (m.el f.val) ≠ some n := by
      intro e
      have := hfs.mem e
      grind
    have hgother : other g (m.el g.val) ≠ some f.val := by
      intro e
      have := hgs.mem e
      grind
    have hsame : ∀ {a b c : α} {T1 T2 T3 T4 : BinaryTree α},
        (parts a b c T1 T2 T3 T4 ++ nodes ctx).Perm
          (toList l ++ n :: toList r ++
            (f.val :: toList f.sib ++ (g.val :: toList g.sib ++ nodes ctx))) →
        (parts a b c T1 T2 T3 T4 ++ nodes ctx).Nodup := fun h => h.nodup_iff.mpr hnodup
    cases f with
    | left p s =>
      cases g with
      | left gp u =>
        simp only [hole, other, Frame.val, Frame.sib] at *
        have hparts : (parts n p gp l r s u ++ nodes ctx).Nodup := by
          apply hsame
          rw [List.perm_iff_count]
          intro x
          simp only [parts, List.count_append, List.count_cons]
          omega
        obtain ⟨m', hrun, hrep, hends⟩ := rotateAt_spec hctx hl hr hfs hgs hparts
          (by simp [parts]) hfuel
        refine ⟨m', ?_, hrep, hends⟩
        simp only [AvlTree.rebalance, hpar, hgp, Option.bind_some, hfother, hgother, if_false]
        exact hrun
      | right gp u =>
        simp only [hole, other, Frame.val, Frame.sib] at *
        have hparts : (parts gp n p u l r s ++ nodes ctx).Nodup := by
          apply hsame
          rw [List.perm_iff_count]
          intro x
          simp only [parts, List.count_append, List.count_cons]
          omega
        obtain ⟨m', hrun, hrep, hends⟩ := rotateAt_spec hctx hgs hl hr hfs hparts
          (by simp [parts]) hfuel
        refine ⟨m', ?_, hrep, hends⟩
        simp only [AvlTree.rebalance, hpar, hgp, Option.bind_some, hfother, hgf, if_true, if_false]
        exact hrun
    | right p s =>
      cases g with
      | left gp u =>
        simp only [hole, other, Frame.val, Frame.sib] at *
        have hparts : (parts p n gp s l r u ++ nodes ctx).Nodup := by
          apply hsame
          rw [List.perm_iff_count]
          intro x
          simp only [parts, List.count_append, List.count_cons]
          omega
        obtain ⟨m', hrun, hrep, hends⟩ := rotateAt_spec hctx hfs hl hr hgs hparts
          (by simp [parts]) hfuel
        refine ⟨m', ?_, hrep, hends⟩
        simp only [AvlTree.rebalance, hpar, hgp, Option.bind_some, hfn, hgother, if_true, if_false]
        exact hrun
      | right gp u =>
        simp only [hole, other, Frame.val, Frame.sib] at *
        have hparts : (parts gp p n u s l r ++ nodes ctx).Nodup := by
          apply hsame
          rw [List.perm_iff_count]
          intro x
          simp only [parts, List.count_append, List.count_cons]
          omega
        obtain ⟨m', hrun, hrep, hends⟩ := rotateAt_spec hctx hgs hfs hl hr hparts
          (by simp [parts]) hfuel
        refine ⟨m', ?_, hrep, hends⟩
        simp only [AvlTree.rebalance, hpar, hgp, Option.bind_some, hfn, hgf, if_true]
        exact hrun

end Tie

end Netp.Shuttle
