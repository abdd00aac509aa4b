import Netp.Shuttle.AvlRotate

/-! # Insertion and search in the AVL tree

`IsAvl` is what the tree is to be: a search tree of the elements kept, with right links and heights,
balanced, with its size, its least and its greatest element. `insert_spec` says what one insertion
does to it, and `avl_inserts` follows for every sequence of insertions.
-/

namespace Netp.Shuttle
open BinaryTree Netp.Lib.Avl
set_option autoImplicit false

variable {α : Type}

/-- The last element where the search went left. -/
def lastLess : List (Frame α) → Option α
  | [] => none
  | .left a _ :: _ => some a
  | .right _ _ :: c => lastLess c

theorem lastLess_mem {c : List (Frame α)} {a : α} (h : lastLess c = some a) : a ∈ nodes c := by
  induction c with
  | nil => cases h
  | cons f c ih =>
    cases f with
    | left b r =>
      cases h
      simp [nodes, Frame.val]
    | right b l =>
      have := ih h
      simp [nodes, this]

theorem mem_nodes {c : List (Frame α)} {x : α} : x ∈ nodes c ↔ x ∈ before c ++ after c := by
  have h1 := (perm_plug c (.nil : BinaryTree α)).mem_iff (a := x)
  have h2 := toList_plug c (.nil : BinaryTree α)
  rw [h2] at h1
  simpa using h1.symm

/-! ## `avl_attach_rebal` -/

section Attach
variable {m : AvlTree α} {c : List (Frame α)} {x : α} {par : Option α}

/-- A new leaf, linked from its parent. The heights above it are still the old ones. -/
theorem attach_around {m' : AvlTree α} (hc : RepAround m.el m.root c none par 0)
    (hnodup : (nodes c).Nodup) (hx : x ∉ nodes c)
    (hother : ∀ y, y ≠ x → (∀ f ∈ c.head?, y ≠ f.val) → m'.el y = m.el y)
    (hnew : m'.el x = ⟨none, none, par, 1⟩)
    (hroot : m'.root = if c = [] then some x else m.root)
    (hlink : ∀ f ∈ c.head?, hole f (m'.el f.val) = some x ∧
      other f (m'.el f.val) = other f (m.el f.val) ∧ (m'.el f.val).height = (m.el f.val).height ∧
      (m'.el f.val).parent = (m.el f.val).parent) :
    Rep m'.el (.node x .nil .nil) (some x) par ∧
      RepAround m'.el m'.root c (some x) par 0 := by
  refine ⟨⟨rfl, by rw [hnew], by rw [hnew]; rfl, by rw [hnew]; rfl, by rw [hnew]; rfl⟩, ?_⟩
  cases c with
  | nil => exact ⟨by simpa using hroot, hc.2⟩
  | cons f c =>
    obtain ⟨rfl, -, hs, hh, hc⟩ := hc
    obtain ⟨l1, l2, l3, l4⟩ := hlink f rfl
    have hkeep : ∀ y ∈ toList f.sib ++ nodes c, m'.el y = m.el y := by
      intro y hy
      simp only [nodes, List.cons_append, List.nodup_cons] at hnodup
      apply hother y
      · intro e
        exact hx (by simp only [nodes, List.cons_append, ← e]; exact List.mem_cons_of_mem _ hy)
      · intro f' hf'
        cases hf'
        intro e
        exact hnodup.1 (e ▸ hy)
    refine ⟨rfl, l1, ?_, l3.trans hh, ?_⟩
    · rw [l2]
      exact hs.congr fun y hy => hkeep y (by simp [hy])
    · rw [l4, hroot, if_neg (by simp)]
      exact hc.congr fun y hy => hkeep y (by simp [hy])

/-- No element of the tree points to an element that is not in it. -/
theorem not_child (hc : RepAround m.el m.root c none par 0) (hx : x ∉ nodes c) {y : α}
    (hy : y ∈ nodes c) : (m.el y).left ≠ some x ∧ (m.el y).right ≠ some x := by
  have hrep : Rep m.el (plug c .nil) m.root none := rep_plug.mpr ⟨none, par, rfl, hc⟩
  have hmem : ∀ z, z ∈ toList (plug c (.nil : BinaryTree α)) ↔ z ∈ nodes c := by
    intro z
    simpa using (perm_plug c (.nil : BinaryTree α)).mem_iff (a := z)
  exact ⟨fun e => hx ((hmem x).mp (hrep.left_mem ((hmem y).mpr hy) e)),
    fun e => hx ((hmem x).mp (hrep.right_mem ((hmem y).mpr hy) e))⟩

variable [DecidableEq α]

theorem keepEnds_eq {hd tl : α} (hhead : m.head = some hd) (htail : m.tail = some tl) :
    m.keepEnds x = some { m with
      head := if (m.el hd).left = some x then some x else m.head
      tail := if (m.el tl).right = some x then some x else m.tail } := by
  obtain ⟨root, head, tail, treeSize, el⟩ := m
  simp only at hhead htail
  subst hhead htail
  simp only [AvlTree.keepEnds, Option.bind_some]
  by_cases h1 : (el hd).left = some x <;> by_cases h2 : (el tl).right = some x <;> simp [h1, h2]

/-- The first and last pointers, after the leaf is linked between the elements `l` and `r`. -/
theorem keepEnds_spec {l r : List α} (hne : l ++ r ≠ []) (hnodup : (l ++ r).Nodup)
    (hhead : m.head = (l ++ r).head?) (htail : m.tail = (l ++ r).getLast?)
    (hleft : ∀ y ∈ l ++ r, (m.el y).left = some x → r.head? = some y)
    (hleft' : l = [] → ∀ y, r.head? = some y → (m.el y).left = some x)
    (hright : ∀ y ∈ l ++ r, (m.el y).right = some x → l.getLast? = some y)
    (hright' : r = [] → ∀ y, l.getLast? = some y → (m.el y).right = some x) :
    m.keepEnds x =
      some { m with head := (l ++ x :: r).head?, tail := (l ++ x :: r).getLast? } := by
  obtain ⟨-, -, hdisj⟩ := List.nodup_append'.mp hnodup
  obtain ⟨hd, hhd⟩ : ∃ hd, (l ++ r).head? = some hd := ⟨_, List.head?_eq_some_head hne⟩
  obtain ⟨tl, htl⟩ : ∃ tl, (l ++ r).getLast? = some tl := ⟨_, List.getLast?_eq_some_getLast hne⟩
  have hheadEq : (if (m.el hd).left = some x then some x else m.head) = (l ++ x :: r).head? := by
    cases l with
    | nil =>
      rw [if_pos (hleft' rfl hd hhd)]
      rfl
    | cons b l =>
      have hb : hd = b := by simpa using hhd.symm
      rw [if_neg]
      · rw [hhead]
        rfl
      · intro e
        have hr : r.head? = some b := hb ▸ hleft hd (hb ▸ by simp) e
        exact hdisj (a := b) (by simp) (List.mem_of_mem_head? hr)
  have htailEq : (if (m.el tl).right = some x then some x else m.tail) =
      (l ++ x :: r).getLast? := by
    cases hr : r.getLast? with
    | none =>
      have hnil : r = [] := List.getLast?_eq_none_iff.mp hr
      have hl : l.getLast? = some tl := by simpa [hnil] using htl
      rw [if_pos (hright' hnil tl hl), hnil, List.getLast?_concat]
    | some b =>
      have hb : tl = b := by
        rw [List.getLast?_append, hr] at htl
        simpa using htl.symm
      have hlast : (l ++ x :: r).getLast? = some b := by
        rw [List.getLast?_append, List.getLast?_cons, hr]
        rfl
      rw [if_neg]
      · rw [htail, htl, hlast, hb]
      · intro e
        have hbr : b ∈ r := List.mem_of_getLast? hr
        have hl : l.getLast? = some b := hb ▸ hright tl (hb ▸ by simp [hbr]) e
        exact hdisj (List.mem_of_getLast? hl) hbr
  rw [keepEnds_eq (hhead.trans hhd) (htail.trans htl), hheadEq, htailEq]

/-- The memory `m1` after the leaf is linked under the frame `f`: the first and last pointers are kept
right, and the leaf and the frames are represented. -/
theorem keepEnds_linked {m1 : AvlTree α} {f : Frame α}
    (hc : RepAround m.el m.root (f :: c) none par 0) (hnodup : (nodes (f :: c)).Nodup)
    (hx : x ∉ nodes (f :: c)) (hhead : m1.head = (before (f :: c) ++ after (f :: c)).head?)
    (htail : m1.tail = (before (f :: c) ++ after (f :: c)).getLast?) (hroot : m1.root = m.root)
    (hnew : m1.el x = ⟨none, none, par, 1⟩)
    (hlink : hole f (m1.el f.val) = some x ∧ other f (m1.el f.val) = other f (m.el f.val) ∧
      (m1.el f.val).height = (m.el f.val).height ∧ (m1.el f.val).parent = (m.el f.val).parent)
    (hkeep : ∀ y, y ≠ x → y ≠ f.val → m1.el y = m.el y) :
    ∃ m', m1.keepEnds x = some m' ∧ Rep m'.el (.node x .nil .nil) (some x) par ∧
      RepAround m'.el m'.root (f :: c) (some x) par 0 ∧
      m'.head = (before (f :: c) ++ x :: after (f :: c)).head? ∧
      m'.tail = (before (f :: c) ++ x :: after (f :: c)).getLast? ∧
      m'.treeSize = m1.treeSize := by
  have hperm : (before (f :: c) ++ after (f :: c)).Perm (nodes (f :: c)) := by
    have h := perm_plug (f :: c) (.nil : BinaryTree α)
    rw [toList_plug] at h
    simpa using h
  have hnodup' := hperm.nodup_iff.mpr hnodup
  have hchild : ∀ y ∈ before (f :: c) ++ after (f :: c),
      (m.el y).left ≠ some x ∧ (m.el y).right ≠ some x :=
    fun y hy => not_child hc hx (mem_nodes.mpr hy)
  have hne : ∀ y ∈ before (f :: c) ++ after (f :: c), y ≠ x :=
    fun y hy e => hx (e ▸ mem_nodes.mpr hy)
  have hmem : f.val ∈ before (f :: c) ++ after (f :: c) := mem_nodes.mp (by simp [nodes])
  have hfne : before (f :: c) ++ after (f :: c) ≠ [] := List.ne_nil_of_mem hmem
  -- only the parent of the leaf points to it, on the side of the place
  have hsame : ∀ y ∈ before (f :: c) ++ after (f :: c), y ≠ f.val →
      (m1.el y).left ≠ some x ∧ (m1.el y).right ≠ some x := by
    intro y hy h
    rw [hkeep y (hne y hy) h]
    exact hchild y hy
  have hends : m1.keepEnds x = some { m1 with
      head := (before (f :: c) ++ x :: after (f :: c)).head?
      tail := (before (f :: c) ++ x :: after (f :: c)).getLast? } := by
    cases f with
    | left a r =>
      have hright : (m1.el a).right ≠ some x := by
        have hsib : (m1.el a).right = (m.el a).right := hlink.2.1
        rw [hsib]
        exact (hchild a hmem).2
      refine keepEnds_spec hfne hnodup' hhead htail ?_ ?_ ?_ ?_
      · intro y hy e
        by_cases hya : y = a
        · rw [hya]
          rfl
        · exact absurd e (hsame y hy hya).1
      · intro _ y e
        cases e
        exact hlink.1
      · intro y hy e
        by_cases hya : y = a
        · exact absurd (hya ▸ e) hright
        · exact absurd e (hsame y hy hya).2
      · intro e
        cases e
    | right a l =>
      have hleft : (m1.el a).left ≠ some x := by
        have hsib : (m1.el a).left = (m.el a).left := hlink.2.1
        rw [hsib]
        exact (hchild a hmem).1
      have hlast : (before (Frame.right a l :: c)).getLast? = some a := by
        simp only [before]
        rw [← List.append_assoc, List.getLast?_concat]
      refine keepEnds_spec hfne hnodup' hhead htail ?_ ?_ ?_ ?_
      · intro y hy e
        by_cases hya : y = a
        · exact absurd (hya ▸ e) hleft
        · exact absurd e (hsame y hy hya).1
      · intro e
        rw [e] at hlast
        cases hlast
      · intro y hy e
        by_cases hya : y = a
        · rw [hya]
          exact hlast
        · exact absurd e (hsame y hy hya).2
      · intro _ y e
        rw [hlast, Option.some.injEq] at e
        rw [← e]
        exact hlink.1
  refine ⟨_, hends, ?_⟩
  have haround := attach_around hc hnodup hx (fun y h1 h2 => hkeep y h1 (h2 f rfl)) hnew
    (by rw [if_neg (by simp)]; exact hroot) (fun f' hf' => by cases hf'; exact hlink)
  exact ⟨haround.1, haround.2, rfl, rfl, rfl⟩

theorem attach_spec (hc : RepAround m.el m.root c none par 0) (hnodup : (nodes c).Nodup)
    (hx : x ∉ nodes c) (hhead : m.head = (before c ++ after c).head?)
    (htail : m.tail = (before c ++ after c).getLast?) :
    ∃ m', m.attach x par (lastLess c) = some m' ∧ Rep m'.el (.node x .nil .nil) (some x) par ∧
      RepAround m'.el m'.root c (some x) par 0 ∧ m'.head = (before c ++ x :: after c).head? ∧
      m'.tail = (before c ++ x :: after c).getLast? ∧ m'.treeSize = m.treeSize + 1 := by
  cases c with
  | nil =>
    obtain ⟨-, rfl⟩ := hc
    refine ⟨_, rfl, ?_, ⟨rfl, rfl⟩, rfl, rfl, rfl⟩
    exact ⟨rfl, by simp [AvlTree.newLeaf], by simp [AvlTree.newLeaf],
      by simp [AvlTree.newLeaf, Rep], by simp [AvlTree.newLeaf, Rep]⟩
  | cons f c =>
    obtain rfl : par = some f.val := hc.1
    have hfx : f.val ≠ x := fun e => hx (by simp [nodes, e])
    cases f with
    | left a r =>
      have hax : a ≠ x := hfx
      have hrun : m.attach x (some a) (lastLess (Frame.left a r :: c)) =
          ((m.newLeaf x (some a)).setLeft a (some x)).keepEnds x := by
        simp [AvlTree.attach, lastLess]
      show ∃ m', m.attach x (some a) (lastLess (Frame.left a r :: c)) = some m' ∧ _
      rw [hrun]
      refine keepEnds_linked hc hnodup hx hhead htail rfl ?_ ?_ ?_
      · simp [AvlTree.setLeft, AvlTree.newLeaf, hax.symm, Frame.val]
      · simp [AvlTree.setLeft, AvlTree.newLeaf, hax, Frame.val, hole, other]
      · intro y h1 h2
        have h2' : y ≠ a := h2
        simp [AvlTree.setLeft, AvlTree.newLeaf, h1, h2']
    | right a l =>
      have hax : a ≠ x := hfx
      have hless : lastLess c ≠ some a := by
        intro e
        have hmem := lastLess_mem e
        simp only [nodes, Frame.val, List.cons_append, List.nodup_cons] at hnodup
        exact hnodup.1 (by simp [hmem])
      have hrun : m.attach x (some a) (lastLess (Frame.right a l :: c)) =
          ((m.newLeaf x (some a)).setRight a (some x)).keepEnds x := by
        simp [AvlTree.attach, lastLess, hless]
      show ∃ m', m.attach x (some a) (lastLess (Frame.right a l :: c)) = some m' ∧ _
      rw [hrun]
      refine keepEnds_linked hc hnodup hx hhead htail rfl ?_ ?_ ?_
      · simp [AvlTree.setRight, AvlTree.newLeaf, hax.symm, Frame.val]
      · simp [AvlTree.setRight, AvlTree.newLeaf, hax, Frame.val, hole, other]
      · intro y h1 h2
        have h2' : y ≠ a := h2
        simp [AvlTree.setRight, AvlTree.newLeaf, h1, h2']

/-- `avl_attach_rebal` at an empty place of a balanced tree: the leaf is added, and the tree is
balanced again. -/
theorem avlAttachRebal_spec (hc : RepAround m.el m.root c none par 0) (hbal : Around c 0)
    (hnodup : (nodes c).Nodup) (hx : x ∉ nodes c) (hhead : m.head = (before c ++ after c).head?)
    (htail : m.tail = (before c ++ after c).getLast?) (hsize : m.treeSize = (nodes c).length) :
    ∃ m' t, m.avlAttachRebal x par (lastLess c) = some m' ∧ Rep m'.el t m'.root none ∧
      Balanced t ∧ toList t = before c ++ x :: after c ∧
      m'.head = (before c ++ x :: after c).head? ∧
      m'.tail = (before c ++ x :: after c).getLast? ∧ m'.treeSize = m.treeSize + 1 := by
  obtain ⟨m1, hattach, hleaf, hc1, hhead1, htail1, hsize1⟩ :=
    attach_spec hc hnodup hx hhead htail
  have hnodup1 : (toList (.node x .nil .nil) ++ nodes c).Nodup := by
    simpa using ⟨hx, hnodup⟩
  have hlen : c.length ≤ m1.treeSize := by
    have := length_le_nodes c
    omega
  obtain ⟨m2, hrecalc, hleaf2, hc2, hframe⟩ := recalcHeights_around hleaf hc1 hnodup1 hlen
  have hlen2 : c.length ≤ m2.treeSize := hlen.trans (le_of_eq hframe.treeSize.symm)
  obtain ⟨ub, hub, hfound⟩ := findFirstUnbalGp_spec hleaf2 hc2 hlen2
  have hrepair : Balanced (repair (.node x .nil .nil) c) := by
    refine balanced_repair (h := 0) ⟨by simp, by simp, trivial, trivial⟩ rfl hbal ?_
    intro f hf
    cases c with
    | nil => cases hf
    | cons g c =>
      cases hf
      have := hbal.1.2
      exact ⟨by omega, by omega⟩
  have htoList : toList (repair (.node x .nil .nil) c) = before c ++ x :: after c := by
    rw [toList_repair, toList_plug]
    simp
  unfold repair at hrepair htoList
  cases hspot : firstUneven (.node x .nil .nil) c with
  | none =>
    rw [hspot] at hfound hrepair htoList
    obtain rfl : ub = none := hfound
    refine ⟨m2, _, ?_, rep_plug.mpr ⟨_, _, hleaf2, hc2⟩, hrepair, htoList,
      hframe.head.trans hhead1, hframe.tail.trans htail1, hframe.treeSize.trans hsize1⟩
    simp only [AvlTree.avlAttachRebal, hattach, hrecalc, hub, Option.bind_some]
  | some sp =>
    rw [hspot] at hfound hrepair htoList
    obtain ⟨n, par', rfl, hn, hcn⟩ := hfound
    -- the spot is a place of the same tree
    have hplug := firstUneven_plug hspot
    have hperm : (toList sp.tree ++ nodes (sp.parent :: sp.grand :: sp.rest)).Perm
        (toList (.node x .nil .nil) ++ nodes c) := by
      refine (perm_plug _ _).symm.trans ?_
      rw [hplug]
      exact perm_plug _ _
    have hlen3 : sp.rest.length ≤ m2.treeSize := by
      have h1 := hperm.length_eq
      have h2 := length_le_nodes (sp.parent :: sp.grand :: sp.rest)
      have h3 := hframe.treeSize
      simp only [List.length_append, List.length_cons, toList_node, toList_nil,
        List.length_nil] at h1 h2
      omega
    obtain ⟨m3, hreb, hrep3, hh3, ht3, hs3⟩ :=
      rebalance_spec hn hcn (hperm.nodup_iff.mpr hnodup1) hlen3
    refine ⟨m3, _, ?_, hrep3, hrepair, htoList, hh3.trans (hframe.head.trans hhead1),
      ht3.trans (hframe.tail.trans htail1), hs3.trans (hframe.treeSize.trans hsize1)⟩
    simp only [AvlTree.avlAttachRebal, hattach, hrecalc, hub, Option.bind_some, hreb,
      Option.map_some]

end Attach

/-! ## `name##_insert` and `name##_find` -/

section Insert
variable {m : AvlTree α} (cmp : Compare α) (x : α)

theorem insertLoop_spec [DecidableEq α] {t : BinaryTree α} {c : List (Frame α)} {cur par : Option α}
    {fuel : ℕ} (ht : Rep m.el t cur par) (hc : RepAround m.el m.root c cur par t.height)
    (hfuel : t.height ≤ fuel) :
    match locate (cmp.compare x) t c with
    | .found a => m.insertLoop cmp x fuel cur par (lastLess c) = some (m, none, a)
    | .place c' => ∃ par', RepAround m.el m.root c' none par' 0 ∧
        m.insertLoop cmp x fuel cur par (lastLess c) =
          (m.avlAttachRebal x par' (lastLess c')).map fun m => (m, some x, x) := by
  induction t generalizing c cur par fuel with
  | nil =>
    obtain rfl : cur = none := ht
    exact ⟨par, hc, by cases fuel <;> rfl⟩
  | node a l r ihl ihr =>
    obtain ⟨rfl, hpar, hh, hl, hr⟩ := ht
    simp only [height] at hfuel
    cases fuel with
    | zero => omega
    | succ fuel =>
      rw [locate]
      by_cases hlt : cmp.compare x a < 0
      · rw [if_pos hlt, AvlTree.insertLoop]
        simp only [hlt, if_true]
        refine ihl (c := .left a r :: c) hl ⟨rfl, rfl, hr, hh, ?_⟩ (by omega)
        show RepAround m.el m.root c (some a) (m.el a).parent _
        rw [hpar]
        exact hc
      · rw [if_neg hlt, AvlTree.insertLoop]
        simp only [hlt, if_false]
        by_cases hgt : cmp.compare x a > 0
        · rw [if_pos hgt]
          simp only [hgt, if_true]
          refine ihr (c := .right a l :: c) hr ⟨rfl, rfl, hl, ?_, ?_⟩ (by omega)
          · rw [max_comm]
            exact hh
          · rw [max_comm]
            show RepAround m.el m.root c (some a) (m.el a).parent _
            rw [hpar]
            exact hc
        · rw [if_neg hgt]
          simp only [hgt, if_false]

theorem findLoop_spec {t : BinaryTree α} {c : List (Frame α)} {cur par : Option α} {fuel : ℕ}
    (ht : Rep m.el t cur par) (hfuel : t.height ≤ fuel) :
    m.findLoop cmp x fuel cur =
      match locate (cmp.compare x) t c with
      | .found a => some (some a)
      | .place _ => some none := by
  induction t generalizing c cur par fuel with
  | nil =>
    obtain rfl : cur = none := ht
    cases fuel <;> rfl
  | node a l r ihl ihr =>
    obtain ⟨rfl, -, -, hl, hr⟩ := ht
    simp only [height] at hfuel
    cases fuel with
    | zero => omega
    | succ fuel =>
      rw [locate, AvlTree.findLoop]
      by_cases hlt : cmp.compare x a < 0
      · simp only [hlt, if_true]
        exact ihl hl (by omega)
      · simp only [hlt, if_false]
        by_cases hgt : cmp.compare x a > 0
        · simp only [hgt, if_true]
          exact ihr hr (by omega)
        · simp only [hgt, if_false]

end Insert

/-! ## Sequences of insertions -/

/-- One more element, if its key is new. -/
def keep (cmp : Compare α) (ks : List α) (x : α) : List α :=
  if ks.any (fun y => cmp.compare x y == 0) then ks else ks ++ [x]

/-- The elements kept of a sequence of insertions: the first one of each key. -/
def kept (cmp : Compare α) (xs : List α) : List α := xs.foldl (keep cmp) []

/-- The tree is a balanced search tree of the elements `ks`. -/
structure IsAvl (cmp : Compare α) (m : AvlTree α) (ks : List α) (t : BinaryTree α) : Prop where
  rep : Rep m.el t m.root none
  balanced : Balanced t
  sorted : (toList t).Pairwise fun a b => cmp.compare a b < 0
  perm : (toList t).Perm ks
  treeSize : m.treeSize = ks.length
  head : m.head = (toList t).head?
  tail : m.tail = (toList t).getLast?

namespace Compare
variable (cmp : Compare α)

theorem refl_eq (a : α) : cmp.compare a a = 0 := by
  have h := cmp.swap a a
  omega

theorem lt_of_le_of_lt {a b c : α} (h1 : cmp.compare a b ≤ 0) (h2 : cmp.compare b c < 0) :
    cmp.compare a c < 0 := by
  by_contra hge
  have hca : cmp.compare c a ≤ 0 := by
    by_contra hgt
    exact hge ((cmp.swap a c).mpr (by omega))
  have hcb := cmp.trans c a b hca h1
  have hbc := (cmp.swap b c).mp h2
  omega

theorem eq_symm {a b : α} (h : cmp.compare a b = 0) : cmp.compare b a = 0 := by
  have h1 := cmp.swap a b
  have h2 := cmp.swap b a
  omega

theorem eq_trans {a b c : α} (h1 : cmp.compare a b = 0) (h2 : cmp.compare b c = 0) :
    cmp.compare a c = 0 := by
  have hac := cmp.trans a b c (le_of_eq h1) (le_of_eq h2)
  have hca := cmp.trans c b a (le_of_eq (cmp.eq_symm h2)) (le_of_eq (cmp.eq_symm h1))
  have hsw := cmp.swap a c
  omega

theorem unique {l : List α} (h : l.Pairwise fun a b => cmp.compare a b < 0) {x a b : α}
    (ha : a ∈ l) (hb : b ∈ l) (hxa : cmp.compare x a = 0) (hxb : cmp.compare x b = 0) : a = b := by
  by_contra hne
  have hpair : l.Pairwise fun a b => ¬ cmp.compare a b = 0 ∧ ¬ cmp.compare b a = 0 := by
    refine h.imp fun {a b} hab => ⟨ne_of_lt hab, ?_⟩
    exact ne_of_gt ((cmp.swap a b).mp hab)
  have hsymm : Std.Symm fun a b => ¬ cmp.compare a b = 0 ∧ ¬ cmp.compare b a = 0 :=
    ⟨fun a b h => ⟨h.2, h.1⟩⟩
  exact (hpair.forall ha hb hne).1 (cmp.eq_trans (cmp.eq_symm hxa) hxb)

theorem ordered {l : List α} (h : l.Pairwise fun a b => cmp.compare a b < 0) (x : α) :
    Ordered (cmp.compare x) l :=
  h.imp fun hab hxa => cmp.lt_of_le_of_lt hxa hab

end Compare

section Sequence
variable [DecidableEq α] {cmp : Compare α} {m : AvlTree α} {ks : List α} {t : BinaryTree α}

omit [DecidableEq α] in
theorem IsAvl.locate_iff (h : IsAvl cmp m ks t) (x : α) :
    (∃ a ∈ ks, cmp.compare x a = 0 ∧ locate (cmp.compare x) t [] = .found a) ∨
      (∀ y ∈ ks, cmp.compare x y ≠ 0) ∧ ∃ c, locate (cmp.compare x) t [] = .place c ∧
        plug c .nil = t ∧ (∀ y ∈ before c, 0 < cmp.compare x y) ∧
        ∀ y ∈ after c, cmp.compare x y < 0 := by
  cases hl : locate (cmp.compare x) t [] with
  | found a =>
    obtain ⟨hmem, hk⟩ := locate_found hl
    exact Or.inl ⟨a, h.perm.mem_iff.mp hmem, hk, rfl⟩
  | place c =>
    have hplug : plug c .nil = t := locate_plug hl
    obtain ⟨hb, ha⟩ := locate_place (cmp.ordered h.sorted x) (by simp [before]) (by simp [after]) hl
    refine Or.inr ⟨?_, c, rfl, hplug, hb, ha⟩
    intro y hy
    have hmem : y ∈ before c ++ after c := by
      have := h.perm.mem_iff.mpr hy
      rw [← hplug, toList_plug] at this
      simpa using this
    rcases List.mem_append.mp hmem with hy | hy
    · exact ne_of_gt (hb y hy)
    · exact ne_of_lt (ha y hy)

/-- One insertion: a present key changes nothing and gives 0, a new one is added. -/
theorem insert_spec (h : IsAvl cmp m ks t) (x : α) :
    (∃ a ∈ ks, cmp.compare x a = 0 ∧ m.insert cmp x = some (m, none, a)) ∨
      (∀ y ∈ ks, cmp.compare x y ≠ 0) ∧
        ∃ m' t', m.insert cmp x = some (m', some x, x) ∧ IsAvl cmp m' (ks ++ [x]) t' := by
  have hheight : t.height ≤ m.treeSize := by
    rw [h.treeSize, ← h.perm.length_eq]
    exact height_le_length t
  have hloop := insertLoop_spec (c := []) cmp x h.rep ⟨rfl, rfl⟩ hheight
  rcases h.locate_iff x with ⟨a, ha, hk, hl⟩ | ⟨hnew, c, hl, hplug, hb, haf⟩
  · rw [hl] at hloop
    exact Or.inl ⟨a, ha, hk, hloop⟩
  · rw [hl] at hloop
    obtain ⟨par, hc, hrun⟩ := hloop
    have hlist : toList t = before c ++ after c := by
      rw [← hplug, toList_plug]
      simp
    have hnodes : (toList t).Perm (nodes c) := by
      have hp := perm_plug c (.nil : BinaryTree α)
      rw [hplug] at hp
      simpa using hp
    have hbal : Around c 0 := by
      have hp := h.balanced
      rw [← hplug, balanced_plug] at hp
      exact hp.2
    have hsorted := h.sorted
    rw [hlist, List.pairwise_append] at hsorted
    have hnodup : (toList t).Nodup := by
      refine h.sorted.imp fun {a b} hab e => ?_
      rw [e, cmp.refl_eq] at hab
      omega
    have hx : x ∉ nodes c := by
      intro hmem
      exact hnew x (h.perm.mem_iff.mp (hnodes.mem_iff.mpr hmem)) (cmp.refl_eq x)
    obtain ⟨m', t', hatt, hrep, hbal', htl, hhead, htail, hsize⟩ :=
      avlAttachRebal_spec hc hbal (hnodes.nodup_iff.mp hnodup) hx (hlist ▸ h.head) (hlist ▸ h.tail)
        (by rw [h.treeSize, ← h.perm.length_eq, hnodes.length_eq])
    refine Or.inr ⟨hnew, m', t', ?_, hrep, hbal', ?_, ?_, ?_, htl ▸ hhead, htl ▸ htail⟩
    · show m.insertLoop cmp x m.treeSize m.root none (lastLess []) = _
      rw [hrun, hatt]
      rfl
    · rw [htl, List.pairwise_append]
      refine ⟨hsorted.1, List.pairwise_cons.mpr ⟨haf, hsorted.2.1⟩, ?_⟩
      intro y hy z hz
      rcases List.mem_cons.mp hz with rfl | hz
      · exact (cmp.swap y z).mpr (hb y hy)
      · exact hsorted.2.2 y hy z hz
    · rw [htl]
      refine List.perm_middle.trans (List.Perm.trans ?_ (List.perm_append_singleton x ks).symm)
      exact List.Perm.cons x (hlist ▸ h.perm)
    · rw [hsize, h.treeSize, List.length_append, List.length_singleton]

omit [DecidableEq α] in
theorem find_spec (h : IsAvl cmp m ks t) (x : α) :
    m.find cmp x = some (ks.find? fun y => cmp.compare x y == 0) := by
  have hheight : t.height ≤ m.treeSize := by
    rw [h.treeSize, ← h.perm.length_eq]
    exact height_le_length t
  have hloop := findLoop_spec (c := []) cmp x h.rep hheight
  show m.findLoop cmp x m.treeSize m.root = _
  rcases h.locate_iff x with ⟨a, ha, hk, hl⟩ | ⟨hnew, c, hl, -⟩
  · rw [hloop, hl]
    cases hf : ks.find? (fun y => cmp.compare x y == 0) with
    | none =>
      rw [List.find?_eq_none] at hf
      exact absurd (beq_iff_eq.mpr hk) (hf a ha)
    | some b =>
      have hb := List.mem_of_find?_eq_some hf
      have hkb : cmp.compare x b = 0 := by simpa using List.find?_some hf
      rw [cmp.unique h.sorted (h.perm.mem_iff.mpr ha) (h.perm.mem_iff.mpr hb) hk hkb]
  · rw [hloop, hl]
    have : ks.find? (fun y => cmp.compare x y == 0) = none := by
      rw [List.find?_eq_none]
      intro y hy
      simpa using hnew y hy
    rw [this]

omit [DecidableEq α] in
theorem exists_foldl_keep (cmp : Compare α) (x : α) (xs ks : List α) :
    (∃ y ∈ xs.foldl (keep cmp) ks, cmp.compare x y = 0) ↔
      ∃ y ∈ ks ++ xs, cmp.compare x y = 0 := by
  induction xs generalizing ks with
  | nil => simp
  | cons z xs ih =>
    rw [List.foldl_cons, ih]
    unfold keep
    split
    case isFalse => simp
    case isTrue hany =>
      simp only [List.any_eq_true, beq_iff_eq] at hany
      obtain ⟨y, hy, hzy⟩ := hany
      constructor
      · rintro ⟨w, hw, hxw⟩
        exact ⟨w, by grind, hxw⟩
      · rintro ⟨w, hw, hxw⟩
        by_cases hwz : w = z
        · exact ⟨y, by simp [hy], cmp.eq_trans (hwz ▸ hxw) hzy⟩
        · exact ⟨w, by grind, hxw⟩

theorem insertAll_spec (h : IsAvl cmp m ks t) (xs : List α) :
    ∃ m' rs t', m.insertAll cmp xs = some (m', rs) ∧
      IsAvl cmp m' (xs.foldl (keep cmp) ks) t' := by
  induction xs generalizing m ks t with
  | nil => exact ⟨m, [], t, rfl, h⟩
  | cons x xs ih =>
    rcases insert_spec h x with ⟨a, ha, hk, hins⟩ | ⟨hnew, m1, t1, hins, h1⟩
    · obtain ⟨m', rs, t', hrun, h'⟩ := ih h
      have hkeep : keep cmp ks x = ks := by
        rw [keep, if_pos]
        rw [List.any_eq_true]
        exact ⟨a, ha, by simp [hk]⟩
      refine ⟨m', none :: rs, t', ?_, by rw [List.foldl_cons, hkeep]; exact h'⟩
      simp only [AvlTree.insertAll, hins, Option.bind_some, hrun, Option.map_some]
    · obtain ⟨m', rs, t', hrun, h'⟩ := ih h1
      have hkeep : keep cmp ks x = ks ++ [x] := by
        rw [keep, if_neg]
        rw [List.any_eq_true]
        rintro ⟨y, hy, hk⟩
        exact hnew y hy (by simpa using hk)
      refine ⟨m', some x :: rs, t', ?_, by rw [List.foldl_cons, hkeep]; exact h'⟩
      simp only [AvlTree.insertAll, hins, Option.bind_some, hrun, Option.map_some]

omit [DecidableEq α] in
theorem isAvl_empty (cmp : Compare α) (el : α → AvlEl α) : IsAvl cmp (emptyTree el) [] .nil :=
  ⟨rfl, trivial, List.Pairwise.nil, List.Perm.refl _, rfl, rfl, rfl⟩

/-- Every sequence of insertions into an empty tree ends, and gives a balanced search tree of the
elements kept; a search finds exactly these, and another insertion of a key that was inserted returns
0 and changes nothing. -/
theorem avl_inserts (cmp : Compare α) (el : α → AvlEl α) (xs : List α) :
    ∃ m rs t, (emptyTree el).insertAll cmp xs = some (m, rs) ∧ IsAvl cmp m (kept cmp xs) t ∧
      (∀ x, m.find cmp x = some ((kept cmp xs).find? fun y => cmp.compare x y == 0)) ∧
      (∀ x, (∃ y ∈ xs, cmp.compare x y = 0) →
        ∃ a ∈ kept cmp xs, cmp.compare x a = 0 ∧ m.insert cmp x = some (m, none, a)) ∧
      ∀ x, (∀ y ∈ xs, cmp.compare x y ≠ 0) →
        ∃ m', m.insert cmp x = some (m', some x, x) := by
  obtain ⟨m, rs, t, hrun, h⟩ := insertAll_spec (isAvl_empty cmp el) xs
  have hkeys := fun x => exists_foldl_keep cmp x xs []
  refine ⟨m, rs, t, hrun, h, find_spec h, ?_, ?_⟩
  · intro x hx
    rcases insert_spec h x with hold | ⟨hnew, -⟩
    · exact hold
    · obtain ⟨y, hy, hk⟩ := (hkeys x).mpr hx
      exact absurd hk (hnew y hy)
  · intro x hx
    rcases insert_spec h x with ⟨a, ha, hk, -⟩ | ⟨-, m', -, hins, -⟩
    · obtain ⟨y, hy, hk'⟩ := (hkeys x).mp ⟨a, ha, hk⟩
      exact absurd hk' (hx y hy)
    · exact ⟨m', hins⟩

end Sequence

end Netp.Shuttle
